import RecordRules.Rule.Basic

/-! Walks over a rule. A walk visits the operands from left to right and each join after the two
rules that it joins, and carries a state from visit to visit. The steps that are left are kept on one
list, the next one first, and the results that wait to be joined on another one, the latest first. A
join that lacks a result would end the walk without one; a rule that is entered leaves just its own
result, so no join lacks one. -/

namespace RecordRules.Rule

/-- A step of a walk: to enter a rule, or to join the two latest results. -/
inductive Step where
  | enter (rule : Rule)
  | join (connective : Connective)

/-- A bound on the steps that a step leads to. -/
def Step.weight : Step → Nat
  | .enter rule => 2 * rule.size
  | .join _ => 1

/-- A bound on the steps of a walk that has the given ones left. -/
def stepsWeight : List Step → Nat
  | [] => 0
  | step :: steps => step.weight + stepsWeight steps

section

variable {α σ : Type} (leaf : Operand → σ → α × σ) (join : Connective → α → α → σ → α × σ)

/-- Takes the steps one after the other; `results` holds the results that wait to be joined. There is
no outcome if a join lacks a result. -/
def runSteps? (steps : List Step) (results : List α) (state : σ) : Option (List α × σ) :=
  match steps, results with
  | [], results => some (results, state)
  | .enter (.leaf operand) :: steps, results =>
      match leaf operand state with
      | (result, state) => runSteps? steps (result :: results) state
  | .enter (.join connective left right) :: steps, results =>
      runSteps? (.enter left :: .enter right :: .join connective :: steps) results state
  | .join connective :: steps, right :: left :: results =>
      match join connective left right state with
      | (result, state) => runSteps? steps (result :: results) state
  | .join _ :: _, _ => none
termination_by stepsWeight steps
decreasing_by
  all_goals
    simp only [stepsWeight, Step.weight, size]
    omega

/-- The outcome of entering a rule, if no join lacks a result and one is left at the end. -/
def walk? (rule : Rule) (state : σ) : Option (α × σ) :=
  match runSteps? leaf join [.enter rule] [] state with
  | some (result :: _, state) => some (result, state)
  | _ => none

/-! ### The steps by recursion on the rule -/

/-- The visits of a rule in the order of a walk: those of the left rule, those of the right rule, and
the one of the join. -/
def visit : Rule → σ → α × σ
  | .leaf operand, state => leaf operand state
  | .join connective left right, state =>
      join connective (left.visit state).1 (right.visit (left.visit state).2).1
        (right.visit (left.visit state).2).2

/-- To enter a rule adds its result to those that wait, whatever they are and whatever is left. -/
theorem runSteps?_enter (rule : Rule) (steps : List Step) (results : List α) (state : σ) :
    runSteps? leaf join (.enter rule :: steps) results state =
      runSteps? leaf join steps ((rule.visit leaf join state).1 :: results)
        (rule.visit leaf join state).2 := by
  induction rule generalizing steps results state with
  | leaf operand => rw [runSteps?, visit]
  | join connective left right ihl ihr => rw [runSteps?, ihl, ihr, runSteps?, visit]

theorem walk?_eq_visit (rule : Rule) (state : σ) :
    walk? leaf join rule state = some (rule.visit leaf join state) := by
  rw [walk?, runSteps?_enter, runSteps?]

theorem isSome_walk? (rule : Rule) (state : σ) : (walk? leaf join rule state).isSome := by
  rw [walk?_eq_visit, Option.isSome_some]

/-- Visits the operands of a rule from left to right with `leaf`, and each join with `join` after
its two rules, carrying a state along. -/
def walk (rule : Rule) (state : σ) : α × σ :=
  (walk? leaf join rule state).get (isSome_walk? leaf join rule state)

end

def fold {α : Type} (leaf : Operand → α) (join : Connective → α → α → α) (rule : Rule) : α :=
  (rule.walk (fun operand state => (leaf operand, state))
    (fun connective left right state => (join connective left right, state)) ()).1

def operandCount : Rule → Nat :=
  fold (fun _ => 1) fun _ left right => left + right

/-- The height of a rule; a lone operand has depth one. -/
def depth : Rule → Nat :=
  fold (fun _ => 1) fun _ left right => 1 + max left right

end RecordRules.Rule
