import RecordRules.Proofs.PolicyComparison
import RecordRules.Proofs.StructuralEvaluation

/-! The mismatch that a rejecting evaluation reports. Every operand of a rule is asked for, from left to
right, and each with a value of the other kind and a recognized comparator is a mismatch. A join keeps
the mismatch of its left rule before that of its right rule, so the one that is left at the root is the
first of all, whatever comes after it and whatever the operands give. Without one the rule has its
truth value. -/

namespace RecordRules

/-- What is reported of an operand that stands against a value of the other kind. -/
def Operand.mismatch (operand : Operand) (value : Value) : TypeMismatch :=
  ⟨operand.name, operand.literal.kind, value.kind⟩

/-- The mismatch of an operand and the value of its attribute, if there is one. -/
def Operand.mismatch? (operand : Operand) (value? : Option Value) : Option TypeMismatch :=
  value?.bind fun value => if operand.Mismatches value then some (operand.mismatch value) else none

/-- The first mismatch among operands with the values of their attributes. -/
def firstMismatch? (answers : List (Operand × Option Value)) : Option TypeMismatch :=
  answers.findSome? fun answer => answer.1.mismatch? answer.2

/-- Operands with the values that a source gives for their attributes, asked one after the other. -/
def Source.answers {σ : Type} (source : Source σ) : List Operand → σ → List (Operand × Option Value)
  | [], _ => []
  | operand :: operands, state =>
      (operand, (source operand.name state).1) ::
        source.answers operands (source operand.name state).2

theorem Operand.mismatch?_eq_some_iff {operand : Operand} {value? : Option Value}
    {mismatch : TypeMismatch} :
    operand.mismatch? value? = some mismatch ↔
      ∃ value, value? = some value ∧ operand.Mismatches value ∧ operand.mismatch value = mismatch := by
  rw [mismatch?, Option.bind_eq_some_iff]
  refine exists_congr fun value => and_congr_right fun _ => ?_
  by_cases h : operand.Mismatches value
  · rw [if_pos h, Option.some_inj, and_iff_right h]
  · rw [if_neg h]
    exact iff_of_false nofun fun hmismatch => h hmismatch.1

theorem Operand.mismatch?_eq_none_iff {operand : Operand} {value? : Option Value} :
    operand.mismatch? value? = none ↔
      ∀ value, value? = some value → ¬ operand.Mismatches value := by
  rw [Option.eq_none_iff_forall_ne_some]
  constructor
  · intro h value hvalue hmismatches
    exact h _ (mismatch?_eq_some_iff.mpr ⟨value, hvalue, hmismatches, rfl⟩)
  · intro h mismatch hsome
    obtain ⟨value, hvalue, hmismatches, _⟩ := mismatch?_eq_some_iff.mp hsome
    exact h value hvalue hmismatches

theorem Verdict.mismatch?_ofOperand_reject (operand : Operand) (value? : Option Value) :
    (ofOperand .reject operand value?).mismatch? = operand.mismatch? value? := by
  cases value? with
  | none => rfl
  | some value =>
      rw [ofOperand, Operand.mismatch?, Option.bind_some]
      by_cases h : operand.Mismatches value
      · rw [Operand.judge_of_mismatches h, if_pos h]
        rfl
      · obtain ⟨holds, hjudge⟩ := Operand.judge_of_not_mismatches h
        rw [hjudge, if_neg h]

section

variable {answers : List (Operand × Option Value)}

theorem exists_firstMismatch?_iff :
    (∃ mismatch, firstMismatch? answers = some mismatch) ↔
      ∃ operand value, (operand, some value) ∈ answers ∧ operand.Mismatches value := by
  rw [← Option.isSome_iff_exists, firstMismatch?, List.findSome?_isSome_iff]
  constructor
  · rintro ⟨⟨operand, value?⟩, hmem, hsome⟩
    obtain ⟨mismatch, hmismatch⟩ := Option.isSome_iff_exists.mp hsome
    obtain ⟨value, rfl, hmismatches, _⟩ := Operand.mismatch?_eq_some_iff.mp hmismatch
    exact ⟨operand, value, hmem, hmismatches⟩
  · rintro ⟨operand, value, hmem, hmismatches⟩
    refine ⟨_, hmem, Option.isSome_iff_exists.mpr ⟨operand.mismatch value, ?_⟩⟩
    exact Operand.mismatch?_eq_some_iff.mpr ⟨value, rfl, hmismatches, rfl⟩

theorem firstMismatch?_eq_some_iff {mismatch : TypeMismatch} :
    firstMismatch? answers = some mismatch ↔
      ∃ before operand value after, answers = before ++ (operand, some value) :: after ∧
        (∀ earlier other, (earlier, some other) ∈ before → ¬ earlier.Mismatches other) ∧
        operand.Mismatches value ∧ operand.mismatch value = mismatch := by
  rw [firstMismatch?, List.findSome?_eq_some_iff]
  constructor
  · rintro ⟨before, ⟨operand, value?⟩, after, hanswers, hmismatch, hbefore⟩
    obtain ⟨value, rfl, hmismatches, hreported⟩ := Operand.mismatch?_eq_some_iff.mp hmismatch
    refine ⟨before, operand, value, after, hanswers, fun earlier other hmem => ?_, hmismatches,
      hreported⟩
    exact Operand.mismatch?_eq_none_iff.mp (hbefore _ hmem) other rfl
  · rintro ⟨before, operand, value, after, hanswers, hbefore, hmismatches, hreported⟩
    refine ⟨before, _, after, hanswers,
      Operand.mismatch?_eq_some_iff.mpr ⟨value, rfl, hmismatches, hreported⟩, ?_⟩
    rintro ⟨earlier, other?⟩ hmem
    refine Operand.mismatch?_eq_none_iff.mpr ?_
    rintro other rfl
    exact hbefore earlier other hmem

end

section

variable {σ : Type} (source : Source σ)

theorem Source.answers_append (first second : List Operand) (state : σ) :
    source.answers (first ++ second) state =
      source.answers first state ++
        source.answers second (source.ask (first.map Operand.name) state) := by
  induction first generalizing state with
  | nil => rfl
  | cons operand first ih =>
      rw [List.cons_append, answers, ih, answers, List.cons_append]
      rfl

/-- Where names are only looked up, every operand gets the value of its name. -/
theorem Source.answers_ofLookup (lookup : String → Option Value) (operands : List Operand) :
    (Source.ofLookup lookup).answers operands () =
      operands.map fun operand => (operand, lookup operand.name) := by
  induction operands with
  | nil => rfl
  | cons operand operands ih =>
      rw [answers, List.map_cons]
      exact congrArg _ ih

theorem Rule.mismatch?_verdict_reject (rule : Rule) (state : σ) :
    (rule.verdict ⟨.reject⟩ source state).1.mismatch? =
      firstMismatch? (source.answers rule.operands state) := by
  induction rule generalizing state with
  | leaf operand =>
      rw [verdict_leaf, Verdict.mismatch?_ofOperand_reject, operands, Source.answers, Source.answers,
        firstMismatch?, List.findSome?_singleton]
  | join connective left right ihl ihr =>
      -- the right rule is asked for in the state that the left one leads to
      have hstate : (left.verdict ⟨.reject⟩ source state).2 =
          source.ask (left.operands.map Operand.name) state := left.verdict_ask ⟨.reject⟩ source state
      have hleft := ihl state
      have hright := ihr (left.verdict ⟨.reject⟩ source state).2
      rw [firstMismatch?] at hleft hright
      rw [verdict_join, operands, Source.answers_append, firstMismatch?, List.findSome?_append,
        ← hstate, ← hleft, ← hright]
      rfl

/-- A rejecting evaluation reports the first mismatch, and without one gives the truth value. -/
theorem evaluateChecked_reject (rule : Rule) (state : σ) :
    (evaluateChecked ⟨.reject⟩ source (some rule) state).1 =
      match firstMismatch? (source.answers rule.operands state) with
      | some mismatch => .error mismatch
      | none => .ok (rule.holdsIn ⟨.reject⟩ source state).1 := by
  rw [← Rule.mismatch?_verdict_reject, ← Rule.verdict_eq_holdsIn]
  exact congrArg Prod.fst (evaluateChecked_some _ _ _ _)

theorem evaluateChecked_reject_eq_error_iff (rule : Rule) (state : σ) (mismatch : TypeMismatch) :
    (evaluateChecked ⟨.reject⟩ source (some rule) state).1 = .error mismatch ↔
      firstMismatch? (source.answers rule.operands state) = some mismatch := by
  rw [evaluateChecked_reject]
  cases firstMismatch? (source.answers rule.operands state) with
  | none => exact iff_of_false nofun nofun
  | some first => rw [Except.error.injEq, Option.some_inj]

end

/-- A checked evaluation that rejects fails if and only if some operand of the rule, with a recognized
comparator and a value of its attribute, has a literal of the other kind. It then reports the first such
operand from the left, with the kind of its literal and that of the value, which differ; what comes after
it and what the operands give does not count. If there is none, it gives the truth value of the rule.
Where names are only looked up, the values are those of the names. -/
theorem evaluateChecked_reject_reports_first (rule : Rule) :
    (∀ {σ : Type} (source : Source σ) (state : σ),
      let answers := source.answers rule.operands state
      let checked := (evaluateChecked ⟨.reject⟩ source (some rule) state).1
      ((∃ mismatch, checked = .error mismatch) ↔
          ∃ operand value, (operand, some value) ∈ answers ∧ operand.Mismatches value) ∧
        (∀ mismatch, checked = .error mismatch ↔
          ∃ before operand value after, answers = before ++ (operand, some value) :: after ∧
            (∀ earlier other, (earlier, some other) ∈ before → ¬ earlier.Mismatches other) ∧
            operand.Mismatches value ∧
            mismatch = ⟨operand.name, operand.literal.kind, value.kind⟩ ∧
            mismatch.expected ≠ mismatch.actual) ∧
        ((¬ ∃ mismatch, checked = .error mismatch) →
          checked = .ok (rule.holdsIn ⟨.reject⟩ source state).1)) ∧
      ∀ lookup : String → Option Value,
        (Source.ofLookup lookup).answers rule.operands () =
          rule.operands.map fun operand => (operand, lookup operand.name) := by
  refine ⟨fun source state => ⟨?_, fun mismatch => ?_, fun hnone => ?_⟩,
    fun lookup => Source.answers_ofLookup lookup rule.operands⟩
  · simp only [evaluateChecked_reject_eq_error_iff]
    exact exists_firstMismatch?_iff
  · rw [evaluateChecked_reject_eq_error_iff, firstMismatch?_eq_some_iff]
    constructor
    · rintro ⟨before, operand, value, after, hanswers, hbefore, hmismatches, rfl⟩
      exact ⟨before, operand, value, after, hanswers, hbefore, hmismatches, rfl, hmismatches.2.symm⟩
    · rintro ⟨before, operand, value, after, hanswers, hbefore, hmismatches, rfl, _⟩
      exact ⟨before, operand, value, after, hanswers, hbefore, hmismatches, rfl⟩
  · simp only [evaluateChecked_reject_eq_error_iff] at hnone
    have hfirst : firstMismatch? (source.answers rule.operands state) = none :=
      Option.eq_none_iff_forall_ne_some.mpr fun mismatch h => hnone ⟨mismatch, h⟩
    rw [evaluateChecked_reject, hfirst]

/-- The first operand holds, so the rule does; the second has no recognized comparator; the third and the
fourth are mismatches. -/
theorem evaluateChecked_reject_reports_first_of_two :
    let rule : Rule :=
      .join .or
        (.join .or (.leaf ⟨"a", .equal, .integer 1⟩) (.leaf ⟨"b", .unrecognized "=>", .text "x"⟩))
        (.join .and (.leaf ⟨"c", .less, .text "x"⟩) (.leaf ⟨"d", .greater, .text "x"⟩))
    let source : Source Unit := .ofLookup fun _ => some (.integer 1)
    (evaluate ⟨.reject⟩ source (some rule) ()).1 = true ∧
      (evaluateChecked ⟨.reject⟩ source (some rule) ()).1 = .error ⟨"c", .text, .number⟩ := by
  intro rule source
  obtain ⟨_, hfirst, _⟩ := (evaluateChecked_reject_reports_first rule).1 source ()
  constructor
  · simp only [rule, evaluate_some, Rule.verdict_join, Rule.verdict_leaf]
    decide
  · refine (hfirst _).mpr ⟨[(⟨"a", .equal, .integer 1⟩, some (.integer 1)),
      (⟨"b", .unrecognized "=>", .text "x"⟩, some (.integer 1))], ⟨"c", .less, .text "x"⟩, .integer 1,
      [(⟨"d", .greater, .text "x"⟩, some (.integer 1))], rfl, ?_, by decide, rfl, by decide⟩
    intro earlier other hmem
    rcases List.mem_cons.mp hmem with h | hmem
    · cases h
      decide
    · cases List.mem_singleton.mp hmem
      decide

end RecordRules
