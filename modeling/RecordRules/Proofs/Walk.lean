import RecordRules.Rule.Walk

/-! Walks by recursion on the rule. A walk has the outcome of the recursion: it visits the left rule, then
the right one, then the join of both. -/

namespace RecordRules.Rule

variable {α σ : Type} (leaf : Operand → σ → α × σ) (join : Connective → α → α → σ → α × σ)

theorem walk_eq_visit (rule : Rule) (state : σ) :
    rule.walk leaf join state = rule.visit leaf join state := by
  simp only [walk, walk?_eq_visit, Option.get_some]

theorem walk_leaf (operand : Operand) (state : σ) :
    (Rule.leaf operand).walk leaf join state = leaf operand state := by
  rw [walk_eq_visit, visit]

theorem walk_join (connective : Connective) (left right : Rule) (state : σ) :
    (Rule.join connective left right).walk leaf join state =
      join connective (left.walk leaf join state).1
        (right.walk leaf join (left.walk leaf join state).2).1
        (right.walk leaf join (left.walk leaf join state).2).2 := by
  simp only [walk_eq_visit, visit]

/-! ### Folds -/

section

variable {β : Type} (ofLeaf : Operand → β) (ofJoin : Connective → β → β → β)

theorem fold_leaf (operand : Operand) : (Rule.leaf operand).fold ofLeaf ofJoin = ofLeaf operand := by
  rw [fold, walk_leaf]

theorem fold_join (connective : Connective) (left right : Rule) :
    (Rule.join connective left right).fold ofLeaf ofJoin =
      ofJoin connective (left.fold ofLeaf ofJoin) (right.fold ofLeaf ofJoin) := by
  rw [fold, walk_join]
  rfl

end

end RecordRules.Rule
