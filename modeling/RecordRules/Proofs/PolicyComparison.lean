import RecordRules.Proofs.PairedEvaluation

/-! The three policies compared. A policy has a say only where a number meets a text: an operand
without such a mismatch gets one and the same verdict under all of them. With one it fails under both
strict policies, of which one reports the mismatch, and may hold under the coercing one. What is thus
found at the operands goes over to rules, as `AND` and `OR` only turn from true to false if one of
their sides does. -/

namespace RecordRules

namespace Operand

/-- A recognized comparator stands between a number and a text. -/
def Mismatches (operand : Operand) (value : Value) : Prop :=
  operand.comparator.isRecognized = true ∧ value.kind ≠ operand.literal.kind

instance (operand : Operand) (value : Value) : Decidable (operand.Mismatches value) :=
  inferInstanceAs (Decidable (_ ∧ _))

variable {operand : Operand} {value : Value}

theorem judge_of_mismatches (h : operand.Mismatches value) (policy : Policy) :
    operand.judge policy value = operand.judgeAcross policy value := by
  rw [judge, h.1, if_neg h.2]
  rfl

theorem holds_of_not_isRecognized {comparator : Comparator} (h : comparator.isRecognized = false)
    (order : Option Ordering) : comparator.holds order = false := by
  cases comparator with
  | unrecognized text => cases order <;> rfl
  | _ => cases h

/-- Values of the kind of the literal are judged by the exact order, under every policy. -/
theorem judge_of_kind_eq (h : value.kind = operand.literal.kind) (policy : Policy) :
    operand.judge policy value =
      .ok (operand.comparator.holds (exactOrder? value operand.literal)) := by
  rw [judge, if_pos h]
  cases hrecognized : operand.comparator.isRecognized with
  | true => rfl
  | false => rw [holds_of_not_isRecognized hrecognized]; rfl

/-- Values of the other kind are judged by the order of both as numbers, under the coercing policy. -/
theorem judge_coerce_of_kind_ne (h : value.kind ≠ operand.literal.kind) :
    operand.judge .coerce value =
      .ok (operand.comparator != .equal &&
        operand.comparator.holds (coercedOrder? value operand.literal)) := by
  rw [judge, if_neg h]
  cases hrecognized : operand.comparator.isRecognized with
  | true => rfl
  | false => rw [holds_of_not_isRecognized hrecognized, Bool.and_false]; rfl

theorem judge_of_not_mismatches (h : ¬ operand.Mismatches value) :
    ∃ holds, ∀ policy, operand.judge policy value = .ok holds := by
  by_cases hkind : value.kind = operand.literal.kind
  · exact ⟨_, judge_of_kind_eq hkind⟩
  · have hrecognized : operand.comparator.isRecognized = false :=
      Bool.eq_false_iff.mpr fun htrue => h ⟨htrue, hkind⟩
    refine ⟨false, fun policy => ?_⟩
    rw [judge, hrecognized]
    rfl

end Operand

namespace Verdict

/-- Either no policy has a say, or the strict ones fail and only the rejecting one reports it. -/
theorem ofOperand_cases (operand : Operand) (value? : Option Value) :
    (∃ verdict : Verdict, verdict.mismatch? = none ∧
        ∀ policy, ofOperand policy operand value? = verdict) ∨
      (ofOperand .alwaysFalse operand value? = ⟨false, none⟩ ∧
        (∃ mismatch, ofOperand .reject operand value? = ⟨false, some mismatch⟩) ∧
        ∃ holds, ofOperand .coerce operand value? = ⟨holds, none⟩) := by
  cases value? with
  | none => exact Or.inl ⟨⟨false, none⟩, rfl, fun _ => rfl⟩
  | some value =>
      by_cases h : operand.Mismatches value
      · right
        simp only [ofOperand, Operand.judge_of_mismatches h]
        exact ⟨rfl, ⟨_, rfl⟩, ⟨_, rfl⟩⟩
      · left
        obtain ⟨holds, hjudge⟩ := Operand.judge_of_not_mismatches h
        refine ⟨⟨holds, none⟩, rfl, fun policy => ?_⟩
        rw [ofOperand, hjudge policy]

theorem holds_ofOperand_reject (operand : Operand) (value? : Option Value) :
    (ofOperand .reject operand value?).holds = (ofOperand .alwaysFalse operand value?).holds := by
  rcases ofOperand_cases operand value? with ⟨verdict, _, h⟩ | ⟨hfalse, ⟨mismatch, hreject⟩, _⟩
  · rw [h, h]
  · rw [hfalse, hreject]

theorem holds_ofOperand_coerce (operand : Operand) (value? : Option Value) :
    (ofOperand .alwaysFalse operand value?).holds = true →
      (ofOperand .coerce operand value?).holds = true := by
  intro h
  rcases ofOperand_cases operand value? with ⟨verdict, _, heq⟩ | ⟨hfalse, _⟩
  · rw [heq] at h ⊢
    exact h
  · rw [hfalse] at h
    cases h

theorem mismatch?_ofOperand {policy : Policy} (h : policy ≠ .reject) (operand : Operand)
    (value? : Option Value) : (ofOperand policy operand value?).mismatch? = none := by
  rcases ofOperand_cases operand value? with ⟨verdict, hnone, heq⟩ | ⟨hfalse, _, holds, hcoerce⟩
  · rw [heq, hnone]
  · cases policy with
    | alwaysFalse => rw [hfalse]
    | coerce => rw [hcoerce]
    | reject => exact absurd rfl h

theorem ofOperand_eq_of_mismatch?_reject (policy : Policy) (operand : Operand)
    (value? : Option Value) :
    (ofOperand .reject operand value?).mismatch? = none →
      ofOperand policy operand value? = ofOperand .reject operand value? := by
  intro h
  rcases ofOperand_cases operand value? with ⟨verdict, _, heq⟩ | ⟨_, ⟨mismatch, hreject⟩, _⟩
  · rw [heq, heq]
  · rw [hreject] at h
    cases h

/-! ### What joins keep -/

theorem keptByJoin_holds_eq : KeptByJoin fun verdict other => verdict.holds = other.holds := by
  intro connective left left' right right' hleft hright
  simp only [join, hleft, hright]

theorem keptByJoin_holds_imp :
    KeptByJoin fun verdict other => verdict.holds = true → other.holds = true := by
  intro connective left left' right right' hleft hright h
  cases connective with
  | and =>
      simp only [join, Connective.apply, Bool.and_eq_true] at h ⊢
      exact ⟨hleft h.1, hright h.2⟩
  | or =>
      simp only [join, Connective.apply, Bool.or_eq_true] at h ⊢
      exact h.imp hleft hright

theorem keptByJoin_mismatch?_eq_none : KeptByJoin fun verdict _ => verdict.mismatch? = none := by
  intro connective left left' right right' hleft hright
  simp only [join, hleft, hright, Option.or_none]

/-- Where a join has no mismatch its two sides have none. -/
theorem keptByJoin_eq_of_mismatch? :
    KeptByJoin fun verdict other => verdict.mismatch? = none → other = verdict := by
  intro connective left left' right right' hleft hright h
  obtain ⟨hnoneLeft, hnoneRight⟩ := Option.or_eq_none_iff.mp h
  rw [hleft hnoneLeft, hright hnoneRight]

end Verdict

/-- Evaluation of a rule under the three policies, from one state of a source. Rejecting gives what
never holding across kinds gives, and what that gives holds under coercion as well. Under the other
two policies a checked evaluation never fails and gives what the plain one gives. Where a checked
evaluation that rejects does not fail, its answer is the one under all three policies. -/
theorem evaluate_across_policies {σ : Type} (source : Source σ) (rule : Rule) (state : σ) :
    evaluate ⟨.reject⟩ source (some rule) state = evaluate ⟨.alwaysFalse⟩ source (some rule) state ∧
      ((evaluate ⟨.alwaysFalse⟩ source (some rule) state).1 = true →
        (evaluate ⟨.coerce⟩ source (some rule) state).1 = true) ∧
      (∀ policy ∈ [Policy.alwaysFalse, Policy.coerce],
        (evaluateChecked ⟨policy⟩ source (some rule) state).1 =
          .ok (evaluate ⟨policy⟩ source (some rule) state).1) ∧
      ∀ holds, (evaluateChecked ⟨.reject⟩ source (some rule) state).1 = .ok holds →
        ∀ policy, (evaluate ⟨policy⟩ source (some rule) state).1 = holds := by
  simp only [evaluate_some, evaluateChecked_some]
  refine ⟨?_, ?_, fun policy hpolicy => ?_, fun holds h policy => ?_⟩
  · obtain ⟨hholds, hstate⟩ := Rule.verdict_related_of_policies .reject .alwaysFalse
      Verdict.keptByJoin_holds_eq Verdict.holds_ofOperand_reject source rule state
    exact Prod.ext hholds hstate
  · have hcoerce := Rule.verdict_related_of_policies .alwaysFalse .coerce
      Verdict.keptByJoin_holds_imp Verdict.holds_ofOperand_coerce source rule state
    exact hcoerce.1
  · have hpolicy : policy ≠ .reject := by
      rintro rfl
      simp at hpolicy
    have hnone := Rule.verdict_related_of_policies policy policy
      Verdict.keptByJoin_mismatch?_eq_none (Verdict.mismatch?_ofOperand hpolicy) source rule state
    exact (Verdict.checked_eq_ok_iff _ _).mpr ⟨hnone.1, rfl⟩
  · -- no operand that was judged has a mismatch, so no policy was asked
    obtain ⟨hnone, hholds⟩ := (Verdict.checked_eq_ok_iff _ _).mp h
    have hsame := Rule.verdict_related_of_policies .reject policy
      Verdict.keptByJoin_eq_of_mismatch? (Verdict.ofOperand_eq_of_mismatch?_reject policy)
      source rule state
    rw [hsame.1 hnone, hholds]

/-- A text meets a number, and the rule holds without the operand that compares them. -/
theorem evaluate_across_policies_of_mismatch :
    let rule : Rule := .join .or (.leaf ⟨"a", .greater, .integer 1⟩) (.leaf ⟨"b", .less, .integer 3⟩)
    let source : Source Unit :=
      .ofLookup fun name => some (if name = "a" then .text "0" else .integer 2)
    (evaluate ⟨.reject⟩ source (some rule) ()).1 = true ∧
      (evaluate ⟨.coerce⟩ source (some rule) ()).1 = true ∧
      (evaluateChecked ⟨.alwaysFalse⟩ source (some rule) ()).1 = .ok true := by
  intro rule source
  obtain ⟨hreject, hcoerce, hchecked, _⟩ := evaluate_across_policies source rule ()
  have hholds : (evaluate ⟨.alwaysFalse⟩ source (some rule) ()).1 = true := by
    simp only [rule, evaluate, Rule.verdict_join, Rule.verdict_leaf]
    decide
  refine ⟨?_, hcoerce hholds, ?_⟩
  · rw [hreject, hholds]
  · rw [hchecked .alwaysFalse List.mem_cons_self, hholds]

end RecordRules
