import RecordRules.Proofs.Characters

/-! Written operands: a name, a comparator and a literal, each as long as its characters go. An operand
is found where nothing before it looks like a name and its literal does not go on, and what is found
has these three parts. -/

namespace RecordRules.RuleText

/-- The text of a literal: a digit run, or letters between two quotes. -/
def IsLiteralText (chars : List Char) : Prop :=
  IsRun Char.isDigit chars ∨
    ∃ letters, IsRun Char.isAlpha letters ∧ chars = Text.quote :: (letters ++ [Text.quote])

/-! ### Finding what is there -/

theorem isDigit_ne_quote {c : Char} (h : c.isDigit = true) : c ≠ Text.quote := by
  rintro rfl
  exact absurd h (by decide)

theorem literalAt?_digits {digits rest : List Char} (hdigits : IsRun Char.isDigit digits)
    (hrest : StartsOutside Char.isDigit rest) : literalAt? (digits ++ rest) = some digits := by
  have htake := takeWhile_run hdigits hrest
  obtain ⟨hne, hall⟩ := hdigits
  obtain ⟨c, cs, rfl⟩ := List.exists_cons_of_ne_nil hne
  rw [List.cons_append] at htake ⊢
  rw [literalAt?, if_neg (isDigit_ne_quote (hall c List.mem_cons_self)), htake]
  rfl

theorem literalAt?_quoted {letters rest : List Char} (hletters : IsRun Char.isAlpha letters) :
    literalAt? (Text.quote :: (letters ++ Text.quote :: rest)) =
      some (Text.quote :: (letters ++ [Text.quote])) := by
  have hquote : StartsOutside Char.isAlpha (Text.quote :: rest) := startsOutside_cons (by decide)
  have hletter : letters.isEmpty = false := List.isEmpty_eq_false_iff.mpr hletters.1
  rw [literalAt?, if_pos rfl, takeWhile_run hletters hquote, dropWhile_run hletters hquote]
  simp only [hletter]
  rfl

theorem literalAt?_append {literal rest : List Char} (hliteral : IsLiteralText literal)
    (hrest : StartsOutside Char.isDigit rest) : literalAt? (literal ++ rest) = some literal := by
  rcases hliteral with hdigits | ⟨letters, hletters, rfl⟩
  · exact literalAt?_digits hdigits hrest
  · rw [List.cons_append, List.append_assoc, List.singleton_append]
    exact literalAt?_quoted hletters

theorem IsLiteralText.startsOutside_comparator {literal rest : List Char}
    (h : IsLiteralText literal) : StartsOutside isComparatorChar (literal ++ rest) := by
  rcases h with hdigits | ⟨letters, _, rfl⟩
  · refine hdigits.startsOutside fun c hc => ?_
    rw [isDigit_iff] at hc
    rw [Bool.eq_false_iff, ne_eq, isComparatorChar_iff]
    omega
  · exact startsOutside_cons (by decide)

/-- A name and a comparator are found as far as they go, with the literal that is found behind them. -/
theorem operandAt?_of_literalAt? {name comparator rest literal : List Char}
    (hname : IsRun isNameChar name) (hcomparator : IsRun isComparatorChar comparator)
    (hrest : StartsOutside isComparatorChar rest) (hliteral : literalAt? rest = some literal) :
    operandAt? (name ++ (comparator ++ rest)) =
      some ⟨String.ofList name, String.ofList comparator, String.ofList literal⟩ := by
  have hafterName : StartsOutside isNameChar (comparator ++ rest) :=
    hcomparator.startsOutside fun _ => isNameChar_of_isComparatorChar
  have hne : (name.isEmpty || comparator.isEmpty) = false := by
    rw [List.isEmpty_eq_false_iff.mpr hname.1, List.isEmpty_eq_false_iff.mpr hcomparator.1]
    rfl
  simp only [operandAt?, takeWhile_run hname hafterName, dropWhile_run hname hafterName,
    takeWhile_run hcomparator hrest, dropWhile_run hcomparator hrest, hne, hliteral,
    Bool.false_eq_true, if_false, Option.map_some]

/-- The three parts of an operand are found where they stand. -/
theorem operandAt?_append {name comparator literal rest : List Char} (hname : IsRun isNameChar name)
    (hcomparator : IsRun isComparatorChar comparator) (hliteral : IsLiteralText literal)
    (hrest : StartsOutside Char.isDigit rest) :
    operandAt? (name ++ (comparator ++ (literal ++ rest))) =
      some ⟨String.ofList name, String.ofList comparator, String.ofList literal⟩ :=
  operandAt?_of_literalAt? hname hcomparator hliteral.startsOutside_comparator
    (literalAt?_append hliteral hrest)

theorem firstOperand?_skip {skipped : List Char} (h : ∀ c ∈ skipped, isNameChar c = false)
    (chars : List Char) : firstOperand? false (skipped ++ chars) = firstOperand? false chars := by
  induction skipped with
  | nil => rfl
  | cons c skipped ih =>
      rw [List.cons_append, firstOperand?, h c List.mem_cons_self]
      exact ih fun d hd => h d (List.mem_cons_of_mem c hd)

theorem firstOperand?_of_operandAt? {c : Char} {chars : List Char} {found : OperandText}
    (hc : isNameChar c = true) (h : operandAt? (c :: chars) = some found) :
    firstOperand? false (c :: chars) = some found := by
  rw [firstOperand?, if_pos hc, h]
  rfl

/-- An operand is found behind characters that are in no name. -/
theorem firstOperand?_append {skipped name comparator literal rest : List Char}
    (hskipped : ∀ c ∈ skipped, isNameChar c = false) (hname : IsRun isNameChar name)
    (hcomparator : IsRun isComparatorChar comparator) (hliteral : IsLiteralText literal)
    (hrest : StartsOutside Char.isDigit rest) :
    firstOperand? false (skipped ++ (name ++ (comparator ++ (literal ++ rest)))) =
      some ⟨String.ofList name, String.ofList comparator, String.ofList literal⟩ := by
  have hat := operandAt?_append hname hcomparator hliteral hrest
  rw [firstOperand?_skip hskipped]
  obtain ⟨hne, hall⟩ := hname
  obtain ⟨c, cs, rfl⟩ := List.exists_cons_of_ne_nil hne
  exact firstOperand?_of_operandAt? (hall c List.mem_cons_self) hat

/-! ### What is found -/

theorem literalAt?_eq_some {chars literal : List Char} (h : literalAt? chars = some literal) :
    IsLiteralText literal ∧ literal <+: chars := by
  cases chars with
  | nil => cases h
  | cons c rest =>
      rw [literalAt?] at h
      split at h
      case isTrue hquote =>
        subst hquote
        simp only at h
        split at h
        case isTrue hletters =>
          cases h
          rw [Bool.and_eq_true, Bool.not_eq_true', List.isEmpty_eq_false_iff, decide_eq_true_eq,
            List.head?_eq_some_iff] at hletters
          obtain ⟨hne, tail, htail⟩ := hletters
          refine ⟨Or.inr ⟨_, isRun_takeWhile hne, rfl⟩, tail, ?_⟩
          rw [List.cons_append, List.cons_append, List.append_assoc, List.singleton_append, ← htail,
            List.takeWhile_append_dropWhile]
        case isFalse => cases h
      case isFalse hquote =>
        simp only at h
        split at h
        case isTrue => cases h
        case isFalse hdigits =>
          cases h
          rw [List.isEmpty_iff] at hdigits
          exact ⟨Or.inl (isRun_takeWhile hdigits), List.takeWhile_prefix _⟩

theorem operandAt?_eq_some {chars : List Char} {found : OperandText}
    (h : operandAt? chars = some found) :
    ∃ name comparator literal,
      IsRun isNameChar name ∧ IsRun isComparatorChar comparator ∧ IsLiteralText literal ∧
      (name ++ (comparator ++ literal)) <+: chars ∧
      found = ⟨String.ofList name, String.ofList comparator, String.ofList literal⟩ := by
  simp only [operandAt?] at h
  split at h
  case isTrue => cases h
  case isFalse hne =>
    rw [Bool.or_eq_true, not_or, List.isEmpty_iff, List.isEmpty_iff] at hne
    obtain ⟨literal, hliteral, hfound⟩ := Option.map_eq_some_iff.mp h
    obtain ⟨hgrammar, tail, htail⟩ := literalAt?_eq_some hliteral
    refine ⟨_, _, literal, isRun_takeWhile hne.1, isRun_takeWhile hne.2, hgrammar, ⟨tail, ?_⟩,
      hfound.symm⟩
    rw [List.append_assoc, List.append_assoc, htail, List.takeWhile_append_dropWhile,
      List.takeWhile_append_dropWhile]

theorem firstOperand?_eq_some {insideName : Bool} {chars : List Char} {found : OperandText}
    (h : firstOperand? insideName chars = some found) :
    ∃ start, start <:+ chars ∧ operandAt? start = some found := by
  induction chars generalizing insideName with
  | nil => cases h
  | cons c rest ih =>
      have hrest : ∀ inside, firstOperand? inside rest = some found →
          ∃ start, start <:+ c :: rest ∧ operandAt? start = some found := by
        intro inside hinside
        obtain ⟨start, hsuffix, hstart⟩ := ih hinside
        exact ⟨start, hsuffix.trans (List.suffix_cons c rest), hstart⟩
      rw [firstOperand?] at h
      split at h
      case isTrue hname =>
        split at h
        case isTrue => exact hrest true h
        case isFalse =>
          split at h
          · cases h
            exact ⟨c :: rest, List.suffix_rfl, by assumption⟩
          · exact hrest true h
      case isFalse => exact hrest false h

end RecordRules.RuleText
