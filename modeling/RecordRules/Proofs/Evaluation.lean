import RecordRules.Evaluation.Verdict
import RecordRules.Proofs.Chain
import RecordRules.Proofs.Walk

/-! Evaluation by recursion on the rule. A source that only looks names up gives a rule one verdict,
whatever it was asked before, and is asked for the name of every operand from left to right. -/

namespace RecordRules

namespace Verdict

theorem checked_eq_ok_iff (verdict : Verdict) (holds : Bool) :
    verdict.checked = .ok holds ↔ verdict.mismatch? = none ∧ verdict.holds = holds := by
  rw [checked]
  cases verdict.mismatch? with
  | none => rw [Except.ok.injEq, eq_self_iff_true, true_and]
  | some found => exact ⟨nofun, fun h => nomatch h.1⟩

end Verdict

namespace Rule

section

variable {σ : Type} (settings : Settings) (source : Source σ)

theorem verdict_leaf (operand : Operand) (state : σ) :
    (Rule.leaf operand).verdict settings source state =
      (.ofOperand settings.crossKind operand (source operand.name state).1,
        (source operand.name state).2) := by
  rw [verdict, walk_leaf]

theorem verdict_join (connective : Connective) (left right : Rule) (state : σ) :
    (Rule.join connective left right).verdict settings source state =
      (.join connective (left.verdict settings source state).1
          (right.verdict settings source (left.verdict settings source state).2).1,
        (right.verdict settings source (left.verdict settings source state).2).2) := by
  rw [verdict, walk_join]
  rfl

end

/-- The names of the attributes that a rule compares, from left to right, with repetitions. -/
def names (rule : Rule) : List String :=
  rule.operands.map Operand.name

theorem names_join (connective : Connective) (left right : Rule) :
    (Rule.join connective left right).names = left.names ++ right.names := by
  rw [names, operands, List.map_append, ← names, ← names]

/-- The verdict on a rule where names are only looked up. -/
def lookupVerdict (settings : Settings) (lookup : String → Option Value) (rule : Rule) : Verdict :=
  (rule.verdict settings (.ofLookup lookup) ()).1

variable (settings : Settings) (lookup : String → Option Value)

/-- Keeping the names changes no verdict, and each operand of the rule adds its name. -/
theorem verdict_logged (rule : Rule) (asked : Array String) :
    rule.verdict settings (.logged lookup) asked =
      (rule.lookupVerdict settings lookup, asked ++ rule.names.toArray) := by
  induction rule generalizing asked with
  | leaf operand =>
      rw [lookupVerdict, verdict_leaf, verdict_leaf]
      exact congrArg _ (Array.push_eq_append)
  | join connective left right ihl ihr =>
      rw [lookupVerdict, verdict_join, verdict_join, ihl, ihr, names_join, ← lookupVerdict,
        ← lookupVerdict]
      simp only [Array.append_assoc, List.append_toArray]

end Rule

theorem evaluate_some {σ : Type} (settings : Settings) (source : Source σ) (rule : Rule) (state : σ) :
    evaluate settings source (some rule) state =
      ((rule.verdict settings source state).1.holds, (rule.verdict settings source state).2) :=
  rfl

theorem evaluateChecked_some {σ : Type} (settings : Settings) (source : Source σ) (rule : Rule)
    (state : σ) :
    evaluateChecked settings source (some rule) state =
      ((rule.verdict settings source state).1.checked, (rule.verdict settings source state).2) :=
  rfl

theorem evaluate_logged (settings : Settings) (lookup : String → Option Value) (rule : Rule)
    (asked : Array String) :
    (evaluate settings (.logged lookup) (some rule) asked).2.toList = asked.toList ++ rule.names := by
  rw [evaluate, Rule.verdict_logged, Array.toList_append]

theorem evaluateChecked_logged (settings : Settings) (lookup : String → Option Value) (rule : Rule)
    (asked : Array String) :
    (evaluateChecked settings (.logged lookup) (some rule) asked).2.toList =
      asked.toList ++ rule.names := by
  rw [evaluateChecked, Rule.verdict_logged, Array.toList_append]

end RecordRules
