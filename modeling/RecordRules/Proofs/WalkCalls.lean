import RecordRules.Proofs.RuleSize

/-! The calls of a walk. A walk calls its two functions in the order of a recursion on the rule: for the
left rule, for the right rule, and at last for the join of their two results. The calls are seen by a
walk that also writes each of them down in the state that it carries along, which changes nothing else.
So there is one call for each operand and one for each join, and a walk that rebuilds the rule gives it
back. -/

namespace RecordRules.Rule

/-- A call of one of the two functions of a walk, with what it is given besides the state. -/
inductive Call (α : Type) where
  | leaf (operand : Operand)
  | join (connective : Connective) (left right : α)

def Call.isLeaf {α : Type} : Call α → Bool
  | .leaf _ => true
  | .join _ _ _ => false

def Call.isJoin {α : Type} : Call α → Bool
  | .leaf _ => false
  | .join _ _ _ => true

section

variable {α σ : Type} (leaf : Operand → σ → α × σ) (join : Connective → α → α → σ → α × σ)

/-- The calls for a rule: those for the left rule, those for the right rule in the state after it, and
the one that joins their results. -/
def calls : Rule → σ → List (Call α)
  | .leaf operand, _ => [.leaf operand]
  | .join connective left right, state =>
      left.calls state ++ right.calls (left.visit leaf join state).2 ++
        [.join connective (left.visit leaf join state).1
          (right.visit leaf join (left.visit leaf join state).2).1]

/-- Does what `leaf` does, and writes the call down behind the earlier ones. -/
def recordLeaf (operand : Operand) (state : σ × List (Call α)) : α × σ × List (Call α) :=
  match leaf operand state.1 with
  | (result, next) => (result, next, state.2 ++ [.leaf operand])

/-- Does what `join` does, and writes the call down behind the earlier ones. -/
def recordJoin (connective : Connective) (left right : α) (state : σ × List (Call α)) :
    α × σ × List (Call α) :=
  match join connective left right state.1 with
  | (result, next) => (result, next, state.2 ++ [.join connective left right])

theorem visit_record (rule : Rule) (state : σ) (before : List (Call α)) :
    rule.visit (recordLeaf leaf) (recordJoin join) (state, before) =
      ((rule.visit leaf join state).1, (rule.visit leaf join state).2,
        before ++ rule.calls leaf join state) := by
  induction rule generalizing state before with
  | leaf operand => rfl
  | join connective left right ihl ihr =>
      rw [visit, ihl, ihr, recordJoin, visit, calls]
      simp only [List.append_assoc]

theorem countP_isLeaf_calls (rule : Rule) (state : σ) :
    (rule.calls leaf join state).countP Call.isLeaf = rule.operandCount := by
  induction rule generalizing state with
  | leaf operand => rw [operandCount, fold_leaf]; rfl
  | join connective left right ihl ihr =>
      rw [calls, List.countP_append, List.countP_append, ihl, ihr, operandCount_join]
      rfl

theorem countP_isJoin_calls (rule : Rule) (state : σ) :
    (rule.calls leaf join state).countP Call.isJoin + 1 = rule.operandCount := by
  induction rule generalizing state with
  | leaf operand => rw [operandCount, fold_leaf]; rfl
  | join connective left right ihl ihr =>
      rw [calls, List.countP_append, List.countP_append, operandCount_join, ← ihl state,
        ← ihr (left.visit leaf join state).2]
      simp only [List.countP_singleton, Call.isJoin, if_true]
      omega

end

/-- A fold that puts every operand and every join back gives the rule itself. -/
theorem fold_leaf_join (rule : Rule) : rule.fold .leaf .join = rule := by
  induction rule with
  | leaf operand => rw [fold_leaf]
  | join connective left right ihl ihr => rw [fold_join, ihl, ihr]

/-- Whatever its two functions do to the state, a walk never lacks a result, and its result, its last state
and its calls are those of the recursion on the rule. There are as many calls for operands as the rule
has operands, and one less for joins. To put the rule together again from the visits gives it back. -/
theorem walk_in_postorder {α σ : Type} (leaf : Operand → σ → α × σ)
    (join : Connective → α → α → σ → α × σ) (rule : Rule) (state : σ) :
    walk? leaf join rule state = some (rule.visit leaf join state) ∧
      walk? (recordLeaf leaf) (recordJoin join) rule (state, []) =
        some ((rule.visit leaf join state).1, (rule.visit leaf join state).2,
          rule.calls leaf join state) ∧
      (rule.calls leaf join state).countP Call.isLeaf = rule.operandCount ∧
      (rule.calls leaf join state).countP Call.isJoin + 1 = rule.operandCount ∧
      rule.fold .leaf .join = rule := by
  refine ⟨walk?_eq_visit leaf join rule state, ?_, countP_isLeaf_calls leaf join rule state,
    countP_isJoin_calls leaf join rule state, rule.fold_leaf_join⟩
  rw [walk?_eq_visit, visit_record, List.nil_append]

end RecordRules.Rule
