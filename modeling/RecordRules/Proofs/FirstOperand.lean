import RecordRules.Proofs.OperandText

/-! The operand that is found in a text, among all that stand in it. A place where an operand starts may
lie inside one that was tried in vain, behind an opened quote for instance, so every position counts; but
one in the middle of a name need not be tried, since an operand that starts there goes on to the left. The
operand found is thus the one with the least before it and, as a digit run may be cut short anywhere, with
the longest literal there. Of such operands there is only one, and its parts go as far as they can. -/

namespace RecordRules.RuleText

/-- An operand as written stands in a character sequence, between some characters before it and after
it. -/
structure StandsIn (chars before : List Char) (found : OperandText) (after : List Char) : Prop where
  spells : chars = before ++
    (found.name.toList ++ (found.comparator.toList ++ (found.literal.toList ++ after)))
  name : IsRun isNameChar found.name.toList
  comparator : IsRun isComparatorChar found.comparator.toList
  literal : IsLiteralText found.literal.toList

/-- No operand has less before it, and none that starts at the same place has a longer literal. -/
structure StandsFirst (chars before : List Char) (found : OperandText) (after : List Char) : Prop
    extends StandsIn chars before found after where
  leftmost : ∀ before' other after', StandsIn chars before' other after' →
    before.length ≤ before'.length
  longest : ∀ other after', StandsIn chars before other after' →
    other.literal.toList.length ≤ found.literal.toList.length

/-- A run of one kind of characters that goes on neither to the left nor to the right. -/
structure IsMaximalRun (kind : Char → Bool) (before run after : List Char) : Prop where
  isRun : IsRun kind run
  left : ∀ c, before.getLast? = some c → kind c = false
  right : ∀ c, after.head? = some c → kind c = false

theorem standsIn_cons {c d : Char} {chars before after : List Char} {found : OperandText} :
    StandsIn (c :: chars) (d :: before) found after ↔ c = d ∧ StandsIn chars before found after := by
  constructor
  · rintro ⟨hspells, hname, hcomparator, hliteral⟩
    rw [List.cons_append, List.cons_eq_cons] at hspells
    exact ⟨hspells.1, hspells.2, hname, hcomparator, hliteral⟩
  · rintro ⟨rfl, hspells, hname, hcomparator, hliteral⟩
    exact ⟨by rw [hspells, List.cons_append], hname, hcomparator, hliteral⟩

/-- An operand whose name can go on to the left stands there with the longer name. -/
theorem StandsIn.of_longer_name {chars before after : List Char} {c : Char} {found : OperandText}
    (h : StandsIn chars (before ++ [c]) found after) (hc : isNameChar c = true) :
    StandsIn chars before ⟨String.ofList (c :: found.name.toList), found.comparator, found.literal⟩
      after := by
  refine ⟨?_, ?_, h.comparator, h.literal⟩
  · rw [h.spells, String.toList_ofList, List.append_assoc]
    rfl
  · rw [String.toList_ofList]
    exact ⟨List.cons_ne_nil _ _, List.forall_mem_cons.mpr ⟨hc, h.name.2⟩⟩

/-! ### The operand at one place -/

/-- A literal that stands at the front is found, or a longer one that goes on from it. -/
theorem exists_literalAt?_append {literal : List Char} (h : IsLiteralText literal)
    (rest : List Char) :
    ∃ longest, literalAt? (literal ++ rest) = some longest ∧ literal <+: longest := by
  rcases h with hdigits | ⟨letters, hletters, rfl⟩
  · -- the digits go on as far as the characters behind them do
    have hlonger : IsRun Char.isDigit (literal ++ rest.takeWhile Char.isDigit) := by
      refine ⟨List.append_ne_nil_of_left_ne_nil hdigits.1 _, fun c hc => ?_⟩
      rcases List.mem_append.mp hc with hc | hc
      · exact hdigits.2 c hc
      · exact kind_of_mem_takeWhile c hc
    refine ⟨_, ?_, List.prefix_append literal (rest.takeWhile Char.isDigit)⟩
    have hsplit : literal ++ rest =
        literal ++ rest.takeWhile Char.isDigit ++ rest.dropWhile Char.isDigit := by
      rw [List.append_assoc, List.takeWhile_append_dropWhile]
    rw [hsplit, literalAt?_digits hlonger (startsOutside_dropWhile rest)]
  · refine ⟨_, ?_, List.prefix_rfl⟩
    rw [List.cons_append, List.append_assoc, List.singleton_append]
    exact literalAt?_quoted hletters

theorem StandsIn.operandAt?_eq {chars after : List Char} {found : OperandText}
    (h : StandsIn chars [] found after) :
    ∃ longest, operandAt? chars = some ⟨found.name, found.comparator, String.ofList longest⟩ ∧
      found.literal.toList <+: longest := by
  obtain ⟨longest, hliteral, hlonger⟩ := exists_literalAt?_append h.literal after
  refine ⟨longest, ?_, hlonger⟩
  have hat := operandAt?_of_literalAt? h.name h.comparator h.literal.startsOutside_comparator
    hliteral
  rw [String.ofList_toList, String.ofList_toList] at hat
  rw [h.spells, List.nil_append, hat]

theorem exists_standsIn_of_operandAt? {chars : List Char} {found : OperandText}
    (h : operandAt? chars = some found) : ∃ after, StandsIn chars [] found after := by
  obtain ⟨name, comparator, literal, hname, hcomparator, hliteral, ⟨after, hafter⟩, rfl⟩ :=
    operandAt?_eq_some h
  refine ⟨after, ?_, ?_, ?_, ?_⟩
  · simp only [String.toList_ofList, List.nil_append, ← hafter, List.append_assoc]
  · rwa [String.toList_ofList]
  · rwa [String.toList_ofList]
  · rwa [String.toList_ofList]

theorem operandAt?_of_not_name {c : Char} (h : isNameChar c = false) (rest : List Char) :
    operandAt? (c :: rest) = none := by
  simp [operandAt?, List.takeWhile_cons, h]

/-- An operand that starts in the middle of a name goes on to the left. -/
theorem operandAt?_of_cons {c : Char} {rest : List Char} (hc : isNameChar c = true)
    (h : operandAt? (c :: rest) = none) : operandAt? rest = none := by
  apply Option.eq_none_iff_forall_ne_some.mpr
  intro found hfound
  obtain ⟨after, hstands⟩ := exists_standsIn_of_operandAt? hfound
  have hbehind : StandsIn (c :: rest) ([] ++ [c]) found after := standsIn_cons.mpr ⟨rfl, hstands⟩
  obtain ⟨longest, hat, _⟩ := (hbehind.of_longer_name hc).operandAt?_eq
  rw [h] at hat
  cases hat

/-! ### Every place in turn -/

/-- The operand at the first place where one starts, with every place tried. -/
def operandFrom? : List Char → Option OperandText
  | [] => none
  | c :: rest => (operandAt? (c :: rest)).or (operandFrom? rest)

/-- Leaving out the places inside a name that was tried at its start leaves out nothing. -/
theorem firstOperand?_eq_operandFrom? {insideName : Bool} {chars : List Char}
    (h : insideName = true → operandAt? chars = none) :
    firstOperand? insideName chars = operandFrom? chars := by
  induction chars generalizing insideName with
  | nil => rfl
  | cons c rest ih =>
      rw [firstOperand?, operandFrom?]
      cases hc : isNameChar c with
      | false =>
          rw [operandAt?_of_not_name hc, Option.none_or]
          exact ih fun hfalse => absurd hfalse Bool.false_ne_true
      | true =>
          cases insideName with
          | true =>
              rw [h rfl, Option.none_or]
              exact ih fun _ => operandAt?_of_cons hc (h rfl)
          | false =>
              cases hat : operandAt? (c :: rest) with
              | some found => rfl
              | none => exact ih fun _ => operandAt?_of_cons hc hat

theorem not_standsIn_nil {before after : List Char} {found : OperandText} :
    ¬ StandsIn [] before found after := by
  intro h
  have hname := List.append_eq_nil_iff.mp (List.append_eq_nil_iff.mp h.spells.symm).2
  exact h.name.1 hname.1

/-- Where no operand starts at the first place, the first one stands in the rest. -/
theorem StandsFirst.cons {c : Char} {rest before after : List Char} {found : OperandText}
    (hat : operandAt? (c :: rest) = none) (h : StandsFirst rest before found after) :
    StandsFirst (c :: rest) (c :: before) found after := by
  refine ⟨standsIn_cons.mpr ⟨rfl, h.toStandsIn⟩, ?_, ?_⟩
  · intro before' other after' hother
    cases before' with
    | nil =>
        obtain ⟨longest, hfound, _⟩ := hother.operandAt?_eq
        rw [hat] at hfound
        cases hfound
    | cons d before' =>
        exact Nat.succ_le_succ (h.leftmost before' other after' (standsIn_cons.mp hother).2)
  · intro other after' hother
    exact h.longest other after' (standsIn_cons.mp hother).2

theorem standsFirst_of_operandAt? {chars : List Char} {found : OperandText}
    (h : operandAt? chars = some found) : ∃ after, StandsFirst chars [] found after := by
  obtain ⟨after, hstands⟩ := exists_standsIn_of_operandAt? h
  refine ⟨after, hstands, fun _ _ _ _ => Nat.zero_le _, fun other after' hother => ?_⟩
  obtain ⟨longest, hlongest, hlonger⟩ := hother.operandAt?_eq
  obtain rfl := Option.some_inj.mp (h.symm.trans hlongest)
  rw [String.toList_ofList]
  exact hlonger.length_le

theorem exists_standsFirst {chars : List Char} {found : OperandText}
    (h : operandFrom? chars = some found) : ∃ before after, StandsFirst chars before found after := by
  induction chars with
  | nil => cases h
  | cons c rest ih =>
      rw [operandFrom?] at h
      cases hat : operandAt? (c :: rest) with
      | some other =>
          rw [hat, Option.some_or] at h
          obtain rfl := Option.some_inj.mp h
          exact ⟨[], standsFirst_of_operandAt? hat⟩
      | none =>
          rw [hat, Option.none_or] at h
          obtain ⟨before, after, hfirst⟩ := ih h
          exact ⟨c :: before, after, hfirst.cons hat⟩

/-- Where nothing is found no operand stands. -/
theorem not_standsIn_of_operandFrom? {chars : List Char} (h : operandFrom? chars = none)
    (before : List Char) (found : OperandText) (after : List Char) :
    ¬ StandsIn chars before found after := by
  induction chars generalizing before with
  | nil => exact not_standsIn_nil
  | cons c rest ih =>
      rw [operandFrom?, Option.or_eq_none_iff] at h
      intro hstands
      cases before with
      | nil =>
          obtain ⟨longest, hfound, _⟩ := hstands.operandAt?_eq
          rw [h.1] at hfound
          cases hfound
      | cons d before => exact ih h.2 before (standsIn_cons.mp hstands).2

/-! ### There is only one first operand -/

variable {chars before before' after after' : List Char} {found other : OperandText}

theorem StandsIn.eq_drop (h : StandsIn chars before found after) :
    StandsIn (chars.drop before.length) [] found after := by
  refine ⟨?_, h.name, h.comparator, h.literal⟩
  rw [h.spells, List.drop_left, List.nil_append]

theorem StandsFirst.unique (h : StandsFirst chars before found after)
    (hother : StandsFirst chars before' other after') : found = other := by
  have hlength : before.length = before'.length :=
    Nat.le_antisymm (h.leftmost _ _ _ hother.toStandsIn) (hother.leftmost _ _ _ h.toStandsIn)
  obtain ⟨rfl, _⟩ : before = before' ∧ _ :=
    List.append_inj (h.spells.symm.trans hother.spells) hlength
  -- both are cut from the one operand that is found where they start
  obtain ⟨longest, hat, hprefix⟩ := h.toStandsIn.eq_drop.operandAt?_eq
  obtain ⟨longest', hat', hprefix'⟩ := hother.toStandsIn.eq_drop.operandAt?_eq
  have hsame := Option.some_inj.mp (hat.symm.trans hat')
  rw [OperandText.mk.injEq, String.ofList_inj] at hsame
  obtain ⟨hname, hcomparator, rfl⟩ := hsame
  have hsize : found.literal.toList.length = other.literal.toList.length :=
    Nat.le_antisymm (hother.longest _ _ h.toStandsIn) (h.longest _ _ hother.toStandsIn)
  have hliteral : found.literal.toList = other.literal.toList :=
    (List.prefix_of_prefix_length_le hprefix hprefix' (Nat.le_of_eq hsize)).eq_of_length hsize
  cases found
  cases other
  rw [OperandText.mk.injEq]
  exact ⟨hname, hcomparator, String.toList_inj.mp hliteral⟩

/-! ### Its parts go as far as they can -/

theorem StandsFirst.isMaximalRun_name (h : StandsFirst chars before found after) :
    IsMaximalRun isNameChar before found.name.toList
      (found.comparator.toList ++ (found.literal.toList ++ after)) := by
  refine ⟨h.name, ?_, ?_⟩
  · intro c hlast
    obtain ⟨shorter, rfl⟩ := List.getLast?_eq_some_iff.mp hlast
    refine Bool.eq_false_iff.mpr fun hc => ?_
    have hle := h.leftmost _ _ _ (h.toStandsIn.of_longer_name hc)
    rw [List.length_append] at hle
    exact absurd hle (Nat.not_succ_le_self _)
  · rw [← startsOutside_iff]
    exact h.comparator.startsOutside fun _ => isNameChar_of_isComparatorChar

theorem StandsFirst.isMaximalRun_comparator (h : StandsFirst chars before found after) :
    IsMaximalRun isComparatorChar (before ++ found.name.toList) found.comparator.toList
      (found.literal.toList ++ after) := by
  refine ⟨h.comparator, ?_, ?_⟩
  · -- the character before the comparator is the last one of the name
    intro c hlast
    rw [List.getLast?_append, List.getLast?_eq_some_getLast h.name.1, Option.some_or] at hlast
    obtain rfl := Option.some_inj.mp hlast
    exact isComparatorChar_of_isNameChar (h.name.2 _ (List.getLast_mem h.name.1))
  · rw [← startsOutside_iff]
    exact h.literal.startsOutside_comparator

theorem StandsFirst.right_of_digits (h : StandsFirst chars before found after)
    (hdigits : IsRun Char.isDigit found.literal.toList) (c : Char) (hc : after.head? = some c) :
    c.isDigit = false := by
  obtain ⟨rest, rfl⟩ := List.head?_eq_some_iff.mp hc
  refine Bool.eq_false_iff.mpr fun hdigit => ?_
  have hlonger : StandsIn chars before
      ⟨found.name, found.comparator, String.ofList (found.literal.toList ++ [c])⟩ rest := by
    refine ⟨?_, h.name, h.comparator, Or.inl ?_⟩
    · rw [h.spells, String.toList_ofList, List.append_assoc]
      rfl
    · rw [String.toList_ofList]
      refine ⟨List.append_ne_nil_of_left_ne_nil hdigits.1 _, fun d hd => ?_⟩
      rcases List.mem_append.mp hd with hd | hd
      · exact hdigits.2 d hd
      · rwa [List.mem_singleton.mp hd]
  have hle := h.longest _ _ hlonger
  rw [String.toList_ofList, List.length_append] at hle
  exact absurd hle (Nat.not_succ_le_self _)

/-! ### The operand that is found -/

theorem find?_eq_operandFrom? (text : String) :
    OperandText.find? text = operandFrom? text.toList := by
  rw [OperandText.find?]
  exact firstOperand?_eq_operandFrom? nofun

/-- Nothing is found in a text just where no operand stands in it. What is found is the operand that has
the least before it and, of those that start there, the longest literal; there is only one. Its name and
its comparator go on neither to the left nor to the right, and no digit follows it if its literal is a
digit run. -/
theorem find?_eq_first (text : String) :
    (OperandText.find? text = none ↔ ¬ ∃ before found after, StandsIn text.toList before found after) ∧
      (∀ found, OperandText.find? text = some found ↔
        ∃ before after, StandsFirst text.toList before found after) ∧
      ∀ before found after, StandsFirst text.toList before found after →
        IsMaximalRun isNameChar before found.name.toList
            (found.comparator.toList ++ (found.literal.toList ++ after)) ∧
          IsMaximalRun isComparatorChar (before ++ found.name.toList) found.comparator.toList
            (found.literal.toList ++ after) ∧
          (IsRun Char.isDigit found.literal.toList →
            ∀ c, after.head? = some c → c.isDigit = false) := by
  rw [find?_eq_operandFrom?]
  refine ⟨⟨?_, ?_⟩, ?_, ?_⟩
  · rintro hnone ⟨before, found, after, hstands⟩
    exact not_standsIn_of_operandFrom? hnone before found after hstands
  · intro hnowhere
    apply Option.eq_none_iff_forall_ne_some.mpr
    intro found hfound
    obtain ⟨before, after, hfirst⟩ := exists_standsFirst hfound
    exact hnowhere ⟨before, found, after, hfirst.toStandsIn⟩
  · intro found
    refine ⟨exists_standsFirst, ?_⟩
    rintro ⟨before, after, hfirst⟩
    cases hfound : operandFrom? text.toList with
    | none => exact absurd hfirst.toStandsIn (not_standsIn_of_operandFrom? hfound _ _ _)
    | some other =>
        obtain ⟨before', after', hother⟩ := exists_standsFirst hfound
        rw [hother.unique hfirst]
  · intro before found after hfirst
    exact ⟨hfirst.isMaximalRun_name, hfirst.isMaximalRun_comparator, hfirst.right_of_digits⟩

/-- An operand inside a quote that an operand before it has opened, in a text with a letter of another
script. -/
theorem find?_eq_first_of_opened_quote :
    let text := "éx<='b<=007'"
    let found : OperandText := ⟨"b", "<=", "007"⟩
    OperandText.find? text = some found ∧
      ∃ before after, StandsFirst text.toList before found after ∧
        IsMaximalRun isNameChar before found.name.toList
          (found.comparator.toList ++ (found.literal.toList ++ after)) := by
  intro text found
  obtain ⟨_, hfirst, hmaximal⟩ := find?_eq_first text
  have hfound : OperandText.find? text = some found := by decide
  obtain ⟨before, after, hstands⟩ := (hfirst found).mp hfound
  exact ⟨hfound, before, after, hstands, (hmaximal before found after hstands).1⟩

end RecordRules.RuleText
