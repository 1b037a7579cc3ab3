import RecordRules.Proofs.Evaluation

/-! Evaluation as a recursion on the rule. An operand holds or not by its own value alone, a join by
what its two rules give, and the source is asked for every operand from left to right: whatever one
operand gives, the operands after it are still asked for. The walk with its frames computes just
this, and keeps the first mismatch beside it. -/

namespace RecordRules

/-- Whether an operand holds for the value of its attribute, where neither a missing value nor a
mismatch of kinds does. -/
def Operand.holds (policy : Policy) (operand : Operand) : Option Value → Bool
  | none => false
  | some value =>
      match operand.judge policy value with
      | .ok holds => holds
      | .error _ => false

/-- The state of a source after it was asked for some names, one after the other. -/
def Source.ask {σ : Type} (source : Source σ) (names : List String) (state : σ) : σ :=
  names.foldl (fun state name => (source name state).2) state

namespace Rule

/-- Whether a rule holds where names are only looked up. -/
def holds (settings : Settings) (lookup : String → Option Value) : Rule → Bool
  | .leaf operand => operand.holds settings.crossKind (lookup operand.name)
  | .join .and left right => left.holds settings lookup && right.holds settings lookup
  | .join .or left right => left.holds settings lookup || right.holds settings lookup

/-- Whether a rule holds for the values of a source, and the state that its questions lead to. The
questions of the right rule come after those of the left rule, whatever the left rule gave. -/
def holdsIn {σ : Type} (settings : Settings) (source : Source σ) : Rule → σ → Bool × σ
  | .leaf operand, state =>
      (operand.holds settings.crossKind (source operand.name state).1, (source operand.name state).2)
  | .join .and left right, state =>
      ((left.holdsIn settings source state).1 &&
          (right.holdsIn settings source (left.holdsIn settings source state).2).1,
        (right.holdsIn settings source (left.holdsIn settings source state).2).2)
  | .join .or left right, state =>
      ((left.holdsIn settings source state).1 ||
          (right.holdsIn settings source (left.holdsIn settings source state).2).1,
        (right.holdsIn settings source (left.holdsIn settings source state).2).2)

/-- A connective makes of two rules what the recursion does. -/
theorem holds_join (settings : Settings) (lookup : String → Option Value) (connective : Connective)
    (left right : Rule) :
    (join connective left right).holds settings lookup =
      connective.apply (left.holds settings lookup) (right.holds settings lookup) := by
  cases connective <;> rfl

theorem holdsIn_join {σ : Type} (settings : Settings) (source : Source σ) (connective : Connective)
    (left right : Rule) (state : σ) :
    (join connective left right).holdsIn settings source state =
      (connective.apply (left.holdsIn settings source state).1
          (right.holdsIn settings source (left.holdsIn settings source state).2).1,
        (right.holdsIn settings source (left.holdsIn settings source state).2).2) := by
  cases connective <;> rfl

theorem operandCount_eq_length_names (rule : Rule) : rule.operandCount = rule.names.length := by
  induction rule with
  | leaf operand => rw [operandCount, fold_leaf]; rfl
  | join connective left right ihl ihr =>
      rw [operandCount] at ihl ihr ⊢
      rw [fold_join, ihl, ihr, names_join, List.length_append]

end Rule

theorem Verdict.holds_ofOperand (policy : Policy) (operand : Operand) (value? : Option Value) :
    (ofOperand policy operand value?).holds = operand.holds policy value? := by
  cases value? with
  | none => rfl
  | some value =>
      rw [ofOperand, Operand.holds]
      cases operand.judge policy value with
      | ok holds => rfl
      | error mismatch => rfl

section

variable {σ : Type} (settings : Settings) (source : Source σ)

theorem Source.ask_append (first second : List String) (state : σ) :
    source.ask (first ++ second) state = source.ask second (source.ask first state) :=
  List.foldl_append

namespace Rule

theorem verdict_eq_holdsIn (rule : Rule) (state : σ) :
    ((rule.verdict settings source state).1.holds, (rule.verdict settings source state).2) =
      rule.holdsIn settings source state := by
  induction rule generalizing state with
  | leaf operand => rw [verdict_leaf, holdsIn, Verdict.holds_ofOperand]
  | join connective left right ihl ihr =>
      rw [verdict_join, holdsIn_join, ← ihl, ← ihr]
      rfl

theorem verdict_ask (rule : Rule) (state : σ) :
    (rule.verdict settings source state).2 = source.ask rule.names state := by
  induction rule generalizing state with
  | leaf operand => rw [verdict_leaf]; rfl
  | join connective left right ihl ihr =>
      rw [verdict_join, names_join, Source.ask_append, ← ihl, ← ihr]

/-- A source that answers by name alone, whatever its state, gives a rule what looking up gives. -/
theorem holdsIn_of_lookup {source : Source σ} {lookup : String → Option Value}
    (h : ∀ name state, (source name state).1 = lookup name) (rule : Rule) (state : σ) :
    (rule.holdsIn settings source state).1 = rule.holds settings lookup := by
  induction rule generalizing state with
  | leaf operand => rw [holdsIn, h, holds]
  | join connective left right ihl ihr => rw [holdsIn_join, ihl, ihr, holds_join]

end Rule

theorem evaluate_eq_holdsIn (rule : Rule) (state : σ) :
    evaluate settings source (some rule) state = rule.holdsIn settings source state := by
  rw [← Rule.verdict_eq_holdsIn]
  rfl

theorem evaluate_ofLookup (lookup : String → Option Value) (rule : Rule) :
    (evaluate settings (.ofLookup lookup) (some rule) ()).1 = rule.holds settings lookup := by
  have hlookup : ∀ name state, (Source.ofLookup lookup name state).1 = lookup name :=
    fun _ _ => rfl
  rw [evaluate_eq_holdsIn, Rule.holdsIn_of_lookup settings hlookup]

end

/-- The evaluation of a rule is the recursion on it, for any source: an operand counts by its own
value, a join with AND if both of its rules hold, and a join with OR if one of them does. Plain and checked evaluation alike ask
the source for the names of the operands from left to right, each as often as it stands in the rule,
and for nothing else. -/
theorem evaluate_eq_recursion (settings : Settings) (rule : Rule) :
    (∀ {σ : Type} (source : Source σ) (state : σ),
      evaluate settings source (some rule) state = rule.holdsIn settings source state ∧
        (evaluate settings source (some rule) state).2 = source.ask rule.names state ∧
        (evaluateChecked settings source (some rule) state).2 = source.ask rule.names state) ∧
      (∀ lookup : String → Option Value,
        (evaluate settings (.ofLookup lookup) (some rule) ()).1 = rule.holds settings lookup ∧
          (evaluate settings (.logged lookup) (some rule) #[]).2.toList = rule.names ∧
          (evaluateChecked settings (.logged lookup) (some rule) #[]).2.toList = rule.names) ∧
      rule.names.length = rule.operandCount := by
  refine ⟨fun source state => ⟨?_, ?_, ?_⟩, fun lookup => ⟨?_, ?_, ?_⟩, ?_⟩
  · exact evaluate_eq_holdsIn settings source rule state
  · exact rule.verdict_ask settings source state
  · exact rule.verdict_ask settings source state
  · exact evaluate_ofLookup settings lookup rule
  · exact evaluate_logged settings lookup rule #[]
  · exact evaluateChecked_logged settings lookup rule #[]
  · exact rule.operandCount_eq_length_names.symm

end RecordRules
