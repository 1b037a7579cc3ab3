import RecordRules.Rule.Basic

/-! Equality of rules, by a list of pairs that are still to be compared. -/

namespace RecordRules.Rule

/-- A bound on the comparisons that pairs of rules need. -/
def pairsWeight : List (Rule × Rule) → Nat
  | [] => 0
  | pair :: pairs => pair.1.size + pairsWeight pairs

/-- Whether the two rules of every pair are the same. -/
def allSame (pairs : List (Rule × Rule)) : Bool :=
  match pairs with
  | [] => true
  | (.leaf a, .leaf b) :: pairs => if a = b then allSame pairs else false
  | (.join c left right, .join d left' right') :: pairs =>
      if c = d then allSame ((left, left') :: (right, right') :: pairs) else false
  | _ :: _ => false
termination_by pairsWeight pairs
decreasing_by
  all_goals
    simp only [pairsWeight, size]
    omega

instance : BEq Rule where
  beq a b := allSame [(a, b)]

end RecordRules.Rule
