import RecordRules.Rule.Basic

/-! Chains: things in order with a connective between each two neighbours. The texts between the
keywords of a rule text come in a chain, and so do the operands of a rule. A rule read from text is
the left fold of a chain of operands; a rule of any other shape is not, but has a chain as well. -/

namespace RecordRules

/-- Things in order, each but the first with a connective before it. -/
structure Chain (α : Type) where
  first : α
  further : List (Connective × α)
deriving DecidableEq, Repr

namespace Chain

variable {α β : Type}

def map (f : α → β) (chain : Chain α) : Chain β :=
  ⟨f chain.first, chain.further.map fun step => (step.1, f step.2)⟩

/-- Two chains with a connective between them. -/
def append (left : Chain α) (connective : Connective) (right : Chain α) : Chain α :=
  ⟨left.first, left.further ++ (connective, right.first) :: right.further⟩

def toList (chain : Chain α) : List α :=
  chain.first :: chain.further.map Prod.snd

theorem toList_map (f : α → β) (chain : Chain α) : (chain.map f).toList = chain.toList.map f := by
  simp only [toList, map, List.map_cons, List.map_map, Function.comp_def]

theorem toList_append (left : Chain α) (connective : Connective) (right : Chain α) :
    (left.append connective right).toList = left.toList ++ right.toList := by
  simp only [toList, append, List.map_append, List.map_cons, List.cons_append]

theorem map_append (f : α → β) (left : Chain α) (connective : Connective) (right : Chain α) :
    (left.append connective right).map f = (left.map f).append connective (right.map f) := by
  simp only [map, append, List.map_append, List.map_cons]

theorem map_map_eq_self {f : α → β} {g : β → α} {chain : Chain α}
    (h : ∀ a ∈ chain.toList, g (f a) = a) : (chain.map f).map g = chain := by
  obtain ⟨first, further⟩ := chain
  have hfurther : ∀ step ∈ further, (step.1, g (f step.2)) = id step := by
    intro step hstep
    rw [h step.2 (List.mem_cons_of_mem _ (List.mem_map_of_mem hstep))]
    rfl
  simp only [map, mk.injEq, List.map_map, Function.comp_def]
  exact ⟨h first List.mem_cons_self, (List.map_congr_left hfurther).trans (List.map_id _)⟩

/-! ### Chains of operands and rules -/

/-- A rule extended by one operand on its right. -/
def extend (rule : Rule) (step : Connective × Operand) : Rule :=
  .join step.1 rule (.leaf step.2)

/-- The left fold of a chain of operands, without precedence of connectives. -/
def toRule (chain : Chain Operand) : Rule :=
  chain.further.foldl extend (.leaf chain.first)

theorem toRule_append (left : Chain Operand) (connective : Connective) (right : Chain Operand) :
    (left.append connective right).toRule =
      right.further.foldl extend (.join connective left.toRule (.leaf right.first)) := by
  simp only [toRule, append, List.foldl_append, List.foldl_cons, extend]

end Chain

namespace Rule

/-- The operands of a rule, from left to right. -/
def operands : Rule → List Operand
  | .leaf operand => [operand]
  | .join _ left right => left.operands ++ right.operands

/-- The operands of a rule from left to right, with the connectives that stand between them. -/
def chain : Rule → Chain Operand
  | .leaf operand => ⟨operand, []⟩
  | .join connective left right => left.chain.append connective right.chain

/-- Every right rule of a join is an operand. -/
def LeftLeaning : Rule → Prop
  | .leaf _ => True
  | .join _ left right => right.isOperand = true ∧ left.LeftLeaning ∧ right.LeftLeaning

instance decidableLeftLeaning : (rule : Rule) → Decidable rule.LeftLeaning
  | .leaf _ => .isTrue trivial
  | .join _ left right =>
      haveI := decidableLeftLeaning left
      haveI := decidableLeftLeaning right
      inferInstanceAs
        (Decidable (right.isOperand = true ∧ left.LeftLeaning ∧ right.LeftLeaning))

theorem toList_chain (rule : Rule) : rule.chain.toList = rule.operands := by
  induction rule with
  | leaf operand => rfl
  | join connective left right ihl ihr => rw [chain, Chain.toList_append, ihl, ihr, operands]

theorem chain_foldl_extend (rule : Rule) (steps : List (Connective × Operand)) :
    (steps.foldl Chain.extend rule).chain = ⟨rule.chain.first, rule.chain.further ++ steps⟩ := by
  induction steps generalizing rule with
  | nil => rw [List.foldl_nil, List.append_nil]
  | cons step steps ih =>
      rw [List.foldl_cons, ih]
      simp only [Chain.extend, chain, Chain.append, List.append_assoc, List.singleton_append]

theorem chain_toRule (chain : Chain Operand) : chain.toRule.chain = chain := by
  rw [Chain.toRule, chain_foldl_extend]
  rfl

theorem operands_toRule (chain : Chain Operand) : chain.toRule.operands = chain.toList := by
  rw [← toList_chain, chain_toRule]

theorem leftLeaning_toRule (chain : Chain Operand) : chain.toRule.LeftLeaning := by
  have hfold : ∀ (steps : List (Connective × Operand)) (rule : Rule), rule.LeftLeaning →
      (steps.foldl Chain.extend rule).LeftLeaning := by
    intro steps
    induction steps with
    | nil => intro rule hrule; exact hrule
    | cons step steps ih => intro rule hrule; exact ih _ ⟨rfl, hrule, trivial⟩
  exact hfold chain.further _ trivial

theorem toRule_chain_of_leftLeaning {rule : Rule} (h : rule.LeftLeaning) :
    rule.chain.toRule = rule := by
  induction rule with
  | leaf operand => rfl
  | join connective left right ihl _ =>
      obtain ⟨hright, hleft, _⟩ := h
      cases right with
      | leaf operand =>
          rw [chain, Chain.toRule_append, ihl hleft]
          rfl
      | join c l r => cases hright

theorem toRule_chain_eq_iff (rule : Rule) : rule.chain.toRule = rule ↔ rule.LeftLeaning := by
  constructor
  · intro h
    rw [← h]
    exact leftLeaning_toRule _
  · exact toRule_chain_of_leftLeaning

end Rule

end RecordRules
