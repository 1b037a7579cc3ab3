import RecordRules.Proofs.Evaluation

/-! Two evaluations of one rule, side by side. They may differ in their settings and in their sources,
and what relates them is found out at the operands alone: a relation of verdicts that joins keep holds
of the verdicts on the whole rule if it holds of those on each operand. The states of the sources are
related along the way. -/

namespace RecordRules

/-- The relation goes from the verdicts on two rules to those on their joins. -/
def KeptByJoin (related : Verdict → Verdict → Prop) : Prop :=
  ∀ (connective : Connective) (left left' right right' : Verdict),
    related left left' → related right right' →
    related (.join connective left right) (.join connective left' right')

namespace Rule

section

variable {σ τ : Type} {settings settings' : Settings} {source : Source σ} {source' : Source τ}
  {related : Verdict → Verdict → Prop} {states : σ → τ → Prop}

/-- What holds of two evaluations at every operand of a rule holds of them at the rule. -/
theorem verdict_related (hjoin : KeptByJoin related) (rule : Rule)
    (hleaf : ∀ operand ∈ rule.operands, ∀ (state : σ) (state' : τ), states state state' →
      related (.ofOperand settings.crossKind operand (source operand.name state).1)
          (.ofOperand settings'.crossKind operand (source' operand.name state').1) ∧
        states (source operand.name state).2 (source' operand.name state').2)
    {state : σ} {state' : τ} (hstate : states state state') :
    related (rule.verdict settings source state).1 (rule.verdict settings' source' state').1 ∧
      states (rule.verdict settings source state).2 (rule.verdict settings' source' state').2 := by
  -- the states are general, as the right side starts from what the left one leaves
  induction rule generalizing state state' with
  | leaf operand =>
      simp only [verdict_leaf]
      exact hleaf operand List.mem_cons_self state state' hstate
  | join connective left right ihl ihr =>
      simp only [verdict_join]
      obtain ⟨hleft, hstate⟩ :=
        ihl (fun operand h => hleaf operand (List.mem_append_left _ h)) hstate
      obtain ⟨hright, hstate⟩ :=
        ihr (fun operand h => hleaf operand (List.mem_append_right _ h)) hstate
      exact ⟨hjoin connective _ _ _ _ hleft hright, hstate⟩

/-- Under two policies a source is asked the same questions, and so gives the same values. -/
theorem verdict_related_of_policies (policy policy' : Policy) (hjoin : KeptByJoin related)
    (hleaf : ∀ (operand : Operand) (value? : Option Value),
      related (.ofOperand policy operand value?) (.ofOperand policy' operand value?))
    (source : Source σ) (rule : Rule) (state : σ) :
    related (rule.verdict ⟨policy⟩ source state).1 (rule.verdict ⟨policy'⟩ source state).1 ∧
      (rule.verdict ⟨policy⟩ source state).2 = (rule.verdict ⟨policy'⟩ source state).2 := by
  apply verdict_related hjoin rule _ (Eq.refl state)
  rintro operand - state _ rfl
  exact ⟨hleaf operand _, rfl⟩

end

end Rule

end RecordRules
