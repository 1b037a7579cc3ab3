import RecordRules.Rule.Equality

/-! Equality of rules is decided by comparing them pair by pair: all pairs that are still to be
compared are of equal rules exactly if the comparison comes to its end. So two rules compare as equal
just if they are identical, join by join and operand by operand. -/

namespace RecordRules.Rule

theorem allSame_iff (pairs : List (Rule × Rule)) :
    allSame pairs = true ↔ ∀ pair ∈ pairs, pair.1 = pair.2 := by
  fun_induction allSame pairs with
  | case1 => simp
  | case2 a pairs ih => simp [ih]
  | case3 a b pairs hne => simp [hne]
  | case4 left right c left' right' pairs ih => simp [ih, and_assoc]
  | case5 c left right d left' right' pairs hne => simp [hne]
  | case6 pair pairs hleaf hjoin =>
      refine iff_of_false Bool.false_ne_true fun hall => ?_
      obtain ⟨a, b⟩ := pair
      obtain rfl : a = b := hall (a, b) List.mem_cons_self
      cases a with
      | leaf operand => exact hleaf operand operand rfl
      | join c left right => exact hjoin c left right c left right rfl

instance : LawfulBEq Rule where
  eq_of_beq h := (allSame_iff _).mp h _ List.mem_cons_self
  rfl := (allSame_iff _).mpr fun pair hpair => by rw [List.mem_singleton.mp hpair]

/-! ### Identity -/

/-- The same shape, with the same connective at every join, and the same name, comparator and literal at
every operand. -/
inductive Identical : Rule → Rule → Prop where
  | leaf {a b : Operand} (hname : a.name = b.name) (hcomparator : a.comparator = b.comparator)
      (hliteral : a.literal = b.literal) : Identical (.leaf a) (.leaf b)
  | join {c d : Connective} {left right left' right' : Rule} (hconnective : c = d)
      (hleft : Identical left left') (hright : Identical right right') :
      Identical (.join c left right) (.join d left' right')

theorem Identical.refl (rule : Rule) : Identical rule rule := by
  induction rule with
  | leaf operand => exact .leaf rfl rfl rfl
  | join connective left right ihl ihr => exact .join rfl ihl ihr

theorem identical_iff_eq (a b : Rule) : Identical a b ↔ a = b := by
  constructor
  · intro h
    induction h with
    | leaf hname hcomparator hliteral =>
        rename_i a b
        obtain ⟨name, comparator, literal⟩ := a
        obtain ⟨name', comparator', literal'⟩ := b
        obtain rfl : name = name' := hname
        obtain rfl : comparator = comparator' := hcomparator
        obtain rfl : literal = literal' := hliteral
        rfl
    | join hconnective hleft hright ihl ihr => rw [hconnective, ihl, ihr]
  · rintro rfl
    exact Identical.refl a

theorem allSame_iff_identical (pairs : List (Rule × Rule)) :
    allSame pairs = true ↔ ∀ pair ∈ pairs, Identical pair.1 pair.2 := by
  simp only [allSame_iff, identical_iff_eq]

/-- To compare two rules of any shapes comes to an end, and they compare as equal exactly if they are
identical, which is to say, if they are one rule. -/
theorem beq_iff_identical (a b : Rule) :
    ((a == b) = true ↔ Identical a b) ∧ (Identical a b ↔ a = b) := by
  refine ⟨?_, identical_iff_eq a b⟩
  have hpairs := allSame_iff_identical [(a, b)]
  rwa [List.forall_mem_singleton] at hpairs

end RecordRules.Rule
