import RecordRules.Evaluation.Judgement
import RecordRules.Evaluation.Source
import RecordRules.Rule.Walk

/-! Evaluation of a rule. Every operand is judged, from left to right, whatever the operands before
it gave. A plain evaluation counts a mismatch of kinds as false; a checked one reports the first
mismatch. Where there is no rule, nothing holds. -/

namespace RecordRules

/-- The outcome for a rule: whether it holds, and the first mismatch in it. -/
structure Verdict where
  holds : Bool
  mismatch? : Option TypeMismatch
deriving DecidableEq, Repr

namespace Verdict

/-- The verdict on an operand for the value of its attribute; without a value it does not hold. -/
def ofOperand (policy : Policy) (operand : Operand) : Option Value → Verdict
  | none => ⟨false, none⟩
  | some value =>
      match operand.judge policy value with
      | .ok holds => ⟨holds, none⟩
      | .error mismatch => ⟨false, some mismatch⟩

def join (connective : Connective) (left right : Verdict) : Verdict :=
  ⟨connective.apply left.holds right.holds, left.mismatch?.or right.mismatch?⟩

def checked (verdict : Verdict) : Except TypeMismatch Bool :=
  match verdict.mismatch? with
  | some mismatch => .error mismatch
  | none => .ok verdict.holds

end Verdict

def Rule.verdict {σ : Type} (settings : Settings) (source : Source σ) (rule : Rule) (state : σ) :
    Verdict × σ :=
  rule.walk
    (fun operand state =>
      match source operand.name state with
      | (value, state) => (.ofOperand settings.crossKind operand value, state))
    (fun connective left right state => (.join connective left right, state))
    state

/-- Whether a rule holds for the values of a source. -/
def evaluate {σ : Type} (settings : Settings) (source : Source σ) (rule? : Option Rule) (state : σ) :
    Bool × σ :=
  match rule? with
  | none => (false, state)
  | some rule =>
      match rule.verdict settings source state with
      | (verdict, state) => (verdict.holds, state)

/-- Whether a rule holds for the values of a source, or the first mismatch in it. -/
def evaluateChecked {σ : Type} (settings : Settings) (source : Source σ) (rule? : Option Rule)
    (state : σ) : Except TypeMismatch Bool × σ :=
  match rule? with
  | none => (.ok false, state)
  | some rule =>
      match rule.verdict settings source state with
      | (verdict, state) => (verdict.checked, state)

end RecordRules
