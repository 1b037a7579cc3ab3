import Mathlib.Data.List.Chain
import RecordRules.Json.Lexeme
import RecordRules.Json.Writer
import RecordRules.Proofs.SpelledNumber
import RecordRules.Proofs.StringGrammar

/-! Lexemes and their texts. Every lexeme is cut off again from a text that starts with its own text:
a string ends at the first quote that is not escaped, and a number where no character goes on that may
belong to it. So the texts of lexemes one after the other are cut into these lexemes, as long as no
number stands directly behind another one. -/

namespace RecordRules.Json

open Number RuleText

/-! ### Strings -/

/-- What is written for a character is one of the ways to write it. -/
theorem charText_escape (c : Char) : CharText (escape c) c := by
  unfold escape
  split
  · subst c
    exact .escaped (.short (by decide))
  split
  · subst c
    exact .escaped (.short (by decide))
  split
  · subst c
    exact .escaped (.short (by decide))
  split
  · subst c
    exact .escaped (.short (by decide))
  split
  · subst c
    exact .escaped (.short (by decide))
  split
  · subst c
    exact .escaped (.short (by decide))
  split
  · subst c
    exact .escaped (.short (by decide))
  split
  · have hzero : HexDigit '0' 0 := ⟨by decide, Or.inl rfl⟩
    have hvalue : ((0 * 16 + 0) * 16 + c.toNat / 16) * 16 + c.toNat % 16 = c.toNat := by omega
    refine .escaped (.code ?_)
    rw [← hvalue]
    exact .mk hzero hzero ⟨by omega, Or.inl (by rw [hvalue])⟩ ⟨by omega, Or.inl (by rw [hvalue])⟩
  · exact .plain ‹_› ‹_› (Nat.not_lt.mp ‹_›)

theorem stringText_flatMap_escape (text : List Char) : StringText (text.flatMap escape) text := by
  induction text with
  | nil => exact .nil
  | cons c text ih => exact .cons (charText_escape c) ih

/-! ### Numbers -/

/-- The characters that a number may go on with. -/
def isNumberChar (c : Char) : Bool :=
  c.isDigit || c == '.' || c == 'e' || c == 'E'

section

variable {rest : List Char}

theorem startsOutside_digit (h : StartsOutside isNumberChar rest) :
    StartsOutside Char.isDigit rest := by
  rw [startsOutside_iff] at h ⊢
  intro c hc
  have hoff := h c hc
  simp only [isNumberChar, Bool.or_eq_false_iff] at hoff
  exact hoff.1.1.1

theorem spanDigits_decimalDigits (n : Nat) (h : StartsOutside Char.isDigit rest) :
    spanDigits (decimalDigits n ++ rest) = (decimalDigits n, rest) := by
  rw [spanDigits, takeWhile_run (isRun_decimalDigits n) h, dropWhile_run (isRun_decimalDigits n) h]

theorem fractionPart?_of_startsOutside (h : StartsOutside isNumberChar rest) :
    fractionPart? rest = some (none, rest) := by
  rw [startsOutside_iff] at h
  rw [fractionPart?]
  rintro tail rfl
  exact absurd (h '.' rfl) (by decide)

theorem exponentPart?_of_startsOutside (h : StartsOutside isNumberChar rest) :
    exponentPart? rest = some (none, rest) := by
  rw [startsOutside_iff] at h
  cases rest with
  | nil => rfl
  | cons c rest =>
      have hmark : ¬ (c = 'e' ∨ c = 'E') := by
        rintro (rfl | rfl)
        · exact absurd (h 'e' rfl) (by decide)
        · exact absurd (h 'E' rfl) (by decide)
      rw [exponentPart?, if_neg hmark]

theorem isIntegerPart_decimalDigits (n : Nat) : isIntegerPart (decimalDigits n) = true := by
  rcases Nat.eq_zero_or_pos n with rfl | hpos
  · decide
  · have hzero := head?_decimalDigits hpos
    obtain ⟨c, digits, hdigits⟩ := List.exists_cons_of_ne_nil (isRun_decimalDigits n).1
    rw [hdigits, List.head?_cons, ne_eq, Option.some_inj] at hzero
    rw [hdigits, isIntegerPart, bne_iff_ne]
    · exact hzero
    · intro hc _
      exact hzero hc

theorem toList_signedText (negative : Bool) (magnitude : Nat) :
    (signedText negative magnitude).toList =
      if negative then '-' :: decimalDigits magnitude else decimalDigits magnitude := by
  cases negative with
  | false => exact Nat.toList_repr
  | true =>
      simp only [signedText, if_true, String.toList_append, Nat.toList_repr]
      rfl

theorem splitMinus_signedText (negative : Bool) (magnitude : Nat) :
    splitMinus ((signedText negative magnitude).toList ++ rest) =
      (negative, decimalDigits magnitude ++ rest) := by
  rw [toList_signedText]
  cases negative with
  | true => rfl
  | false =>
      obtain ⟨c, digits, hdigits⟩ := List.exists_cons_of_ne_nil (isRun_decimalDigits magnitude).1
      have hdigit : c.isDigit = true := (isRun_decimalDigits magnitude).2 c (by simp [hdigits])
      rw [if_neg Bool.false_ne_true, hdigits, List.cons_append, splitMinus]
      intro tail heq
      rw [(List.cons.inj heq).1] at hdigit
      exact absurd hdigit (by decide)

theorem splitSign_wholeText (n : Int) :
    splitSign (wholeText n ++ rest) = (decide (n < 0), decimalDigits n.natAbs ++ rest) := by
  rw [wholeText]
  by_cases hnegative : n < 0
  · rw [if_pos hnegative, decide_eq_true hnegative]
    rfl
  · rw [if_neg hnegative, decide_eq_false hnegative]
    apply splitSign_of_startsOutside
    exact (isRun_decimalDigits _).startsOutside fun c hc =>
      isSignChar_eq_false ((isDigit_iff c).mp hc).1

theorem exponentPart?_repr (exponent : Int) (h : StartsOutside Char.isDigit rest) :
    exponentPart? ('e' :: (exponent.repr.toList ++ rest)) = some (some exponent, rest) := by
  have hne : (decimalDigits exponent.natAbs).isEmpty = false :=
    List.isEmpty_eq_false_iff.mpr (isRun_decimalDigits _).1
  simp only [exponentPart?, true_or, if_true, toList_repr, splitSign_wholeText,
    spanDigits_decimalDigits exponent.natAbs h, hne, Bool.false_eq_true, if_false,
    digitsValue_decimalDigits, withSign_natAbs]

theorem digitOf_digitChar (digit : Fin 10) : digitOf (digitChar digit) = digit := by
  revert digit
  decide

theorem isDigit_digitChar (digit : Fin 10) : (digitChar digit).isDigit = true := by
  revert digit
  decide

theorem map_digitOf_digitChar (fraction : List (Fin 10)) :
    (fraction.map digitChar).map digitOf = fraction := by
  rw [List.map_map]
  exact (List.map_congr_left fun digit _ => digitOf_digitChar digit).trans (List.map_id fraction)

theorem startsOutside_fractionText (fraction : List (Fin 10)) (rest : List Char) :
    StartsOutside Char.isDigit ((fractionText fraction).toList ++ 'e' :: rest) := by
  cases fraction with
  | nil => exact startsOutside_cons (by decide)
  | cons digit fraction =>
      rw [fractionText, String.toList_ofList, List.cons_append]
      exact startsOutside_cons (by decide)

/-- A fraction is read back as its digits, or as none where there are none. -/
theorem exists_fractionPart?_fractionText (fraction : List (Fin 10)) (rest : List Char) :
    ∃ digits, fractionPart? ((fractionText fraction).toList ++ 'e' :: rest) =
        some (digits, 'e' :: rest) ∧ (digits.getD []).map digitOf = fraction := by
  cases fraction with
  | nil => exact ⟨none, rfl, rfl⟩
  | cons digit fraction =>
      have hrun : IsRun Char.isDigit ((digit :: fraction).map digitChar) := by
        refine ⟨List.cons_ne_nil _ _, fun c hc => ?_⟩
        obtain ⟨digit', _, rfl⟩ := List.mem_map.mp hc
        exact isDigit_digitChar digit'
      have hmark : StartsOutside Char.isDigit ('e' :: rest) := startsOutside_cons (by decide)
      refine ⟨some ((digit :: fraction).map digitChar), ?_, map_digitOf_digitChar _⟩
      rw [fractionText, String.toList_ofList, List.cons_append, fractionPart?]
      simp only [spanDigits, takeWhile_run hrun hmark, dropWhile_run hrun hmark]
      rfl

theorem numberLexeme?_numberText (n : JsonNumber) (hread : n.toBinary64?.isSome = true)
    (h : StartsOutside isNumberChar rest) :
    numberLexeme? ((numberText n).toList ++ rest) = some (.number n, rest) := by
  cases n with
  | whole negative magnitude =>
      simp only [numberLexeme?, numberText, splitMinus_signedText,
        spanDigits_decimalDigits magnitude (startsOutside_digit h), isIntegerPart_decimalDigits,
        fractionPart?_of_startsOutside h, exponentPart?_of_startsOutside h, numberOfParts,
        digitsValue_decimalDigits, hread, if_true]
  | decimal negative integral fraction exponent =>
      obtain ⟨digits, hfraction, hdigits⟩ :=
        exists_fractionPart?_fractionText fraction (exponent.repr.toList ++ rest)
      have htext : (numberText (.decimal negative integral fraction exponent)).toList ++ rest =
          (signedText negative integral).toList ++
            ((fractionText fraction).toList ++ 'e' :: (exponent.repr.toList ++ rest)) := by
        simp [numberText]
      have hvalue : numberOfParts negative (decimalDigits integral) digits (some exponent) =
          .decimal negative integral fraction exponent := by
        simp [numberOfParts, digitsValue_decimalDigits, hdigits]
      simp only [numberLexeme?, htext, splitMinus_signedText,
        spanDigits_decimalDigits integral (startsOutside_fractionText fraction _),
        isIntegerPart_decimalDigits, hfraction, exponentPart?_repr exponent (startsOutside_digit h),
        hvalue, hread, if_true]

/-- What is a number lexeme can be read as a number. -/
theorem exists_number_of_numberLexeme? {chars : List Char} {lexeme : Lexeme}
    (h : numberLexeme? chars = some (lexeme, rest)) :
    ∃ value : JsonNumber, lexeme = .number value ∧ value.toBinary64?.isSome = true := by
  simp only [numberLexeme?] at h
  split at h
  case isFalse => cases h
  case isTrue =>
    split at h
    case h_1 => cases h
    case h_2 =>
      split at h
      case h_1 => cases h
      case h_2 =>
        split at h
        case isTrue hread =>
          cases h
          exact ⟨_, rfl, hread⟩
        case isFalse => cases h

end

/-! ### Lexemes -/

namespace Lexeme

/-- A lexeme as it is written; a broken one has no text of its own. -/
def text : Lexeme → List Char
  | .openBrace => ['{']
  | .closeBrace => ['}']
  | .openBracket => ['[']
  | .closeBracket => [']']
  | .comma => [',']
  | .colon => [':']
  | .null => ['n', 'u', 'l', 'l']
  | .boolean true => ['t', 'r', 'u', 'e']
  | .boolean false => ['f', 'a', 'l', 's', 'e']
  | .number n => (numberText n).toList
  | .string s => (quoted s).toList
  | .broken => []

def isNumber : Lexeme → Bool
  | .number _ => true
  | _ => false

/-- The lexemes that can be read: all but a broken one and a number that leads beyond the finite
64-bit numbers. -/
def Readable : Lexeme → Prop
  | .number n => n.toBinary64?.isSome = true
  | .broken => False
  | _ => True

/-- Not both of two neighbours are numbers. -/
def Apart (lexeme next : Lexeme) : Prop :=
  lexeme.isNumber = true → next.isNumber = false

end Lexeme

theorem exists_numberText_eq_cons (n : JsonNumber) :
    ∃ c rest, (numberText n).toList = c :: rest ∧ (c = '-' ∨ c.isDigit = true) := by
  have hsigned : ∀ (negative : Bool) (magnitude : Nat), ∃ c rest,
      (signedText negative magnitude).toList = c :: rest ∧ (c = '-' ∨ c.isDigit = true) := by
    intro negative magnitude
    obtain ⟨c, digits, hdigits⟩ := List.exists_cons_of_ne_nil (isRun_decimalDigits magnitude).1
    rw [toList_signedText, hdigits]
    cases negative with
    | true => exact ⟨'-', _, rfl, Or.inl rfl⟩
    | false => exact ⟨c, digits, rfl, Or.inr ((isRun_decimalDigits magnitude).2 c (by simp [hdigits]))⟩
  cases n with
  | whole negative magnitude => exact hsigned negative magnitude
  | decimal negative integral fraction exponent =>
      obtain ⟨c, rest, htext, hc⟩ := hsigned negative integral
      exact ⟨c, rest ++ ((fractionText fraction).toList ++ 'e' :: exponent.repr.toList),
        by simp [numberText, htext], hc⟩

theorem lexeme?_of_number {c : Char} (h : c = '-' ∨ c.isDigit = true) (rest : List Char) :
    lexeme? (c :: rest) = numberLexeme? (c :: rest) := by
  rw [lexeme?]
  all_goals
    intro tail heq
    rw [(List.cons.inj heq).1] at h
    revert h
    decide

theorem toList_quoted_append (value : String) (rest : List Char) :
    (quoted value).toList ++ rest = '"' :: (value.toList.flatMap escape ++ '"' :: rest) := by
  simp [quoted]

/-- The text of a lexeme in front of a text is cut off as this lexeme. -/
theorem lexeme?_text_append {lexeme : Lexeme} (h : lexeme.Readable) {rest : List Char}
    (hrest : lexeme.isNumber = true → StartsOutside isNumberChar rest) :
    lexeme? (lexeme.text ++ rest) = some (lexeme, rest) := by
  cases lexeme with
  | number n =>
      have hnumber := numberLexeme?_numberText n h (hrest rfl)
      obtain ⟨c, tail, htext, hc⟩ := exists_numberText_eq_cons n
      rw [Lexeme.text]
      rw [htext, List.cons_append] at hnumber ⊢
      rw [lexeme?_of_number hc, hnumber]
  | string s =>
      have hbody := (stringText_flatMap_escape s.toList).stringBody?_append [] rest
      rw [List.reverse_nil, List.nil_append, String.ofList_toList] at hbody
      rw [Lexeme.text, toList_quoted_append, lexeme?, hbody]
      rfl
  | boolean value => cases value <;> rfl
  | broken => exact h.elim
  | _ => rfl

/-- No text of a lexeme starts with a blank, and only that of a number goes on a number. -/
theorem exists_text_eq_cons {lexeme : Lexeme} (h : lexeme.Readable) :
    ∃ c rest, lexeme.text = c :: rest ∧ isBlank c = false ∧
      (lexeme.isNumber = false → isNumberChar c = false) := by
  cases lexeme with
  | number n =>
      obtain ⟨c, rest, htext, hc⟩ := exists_numberText_eq_cons n
      refine ⟨c, rest, htext, ?_, fun hnumber => by cases hnumber⟩
      rcases hc with rfl | hdigit
      · decide
      · simp only [isBlank, Bool.or_eq_false_iff, decide_eq_false_iff_not]
        refine ⟨⟨⟨?_, ?_⟩, ?_⟩, ?_⟩ <;> rintro rfl <;> exact absurd hdigit (by decide)
  | string s =>
      exact ⟨'"', _, String.toList_ofList, by decide, fun _ => by decide⟩
  | boolean value => cases value <;> exact ⟨_, _, rfl, by decide, fun _ => by decide⟩
  | broken => exact h.elim
  | _ => exact ⟨_, _, rfl, by decide, fun _ => by decide⟩

theorem lexemesOnto_of_lexeme? {before : List Lexeme} {lexeme : Lexeme} {chars rest : List Char}
    (hblank : StartsOutside isBlank chars) (h : lexeme? chars = some (lexeme, rest)) :
    lexemesOnto before chars = lexemesOnto (lexeme :: before) rest := by
  cases chars with
  | nil => cases h
  | cons c chars =>
      have hc : isBlank c = false := startsOutside_iff.mp hblank c rfl
      rw [lexemesOnto, if_neg (Bool.eq_false_iff.mp hc)]
      split
      · rename_i hnone
        rw [h] at hnone
        cases hnone
      · rename_i hsome
        rw [h] at hsome
        cases hsome
        rfl

theorem lexemesOnto_flatMap_text {before lexemes : List Lexeme}
    (hreadable : ∀ lexeme ∈ lexemes, lexeme.Readable) (hapart : lexemes.IsChain Lexeme.Apart) :
    lexemesOnto before (lexemes.flatMap Lexeme.text) = before.reverse ++ lexemes := by
  induction lexemes generalizing before with
  | nil => rw [List.flatMap_nil, lexemesOnto, List.append_nil]
  | cons lexeme lexemes ih =>
      obtain ⟨hlexeme, hfurther⟩ := List.forall_mem_cons.mp hreadable
      obtain ⟨hnext, hchain⟩ := List.isChain_cons.mp hapart
      obtain ⟨c, text, htext, hblank, _⟩ := exists_text_eq_cons hlexeme
      have hrest : lexeme.isNumber = true →
          StartsOutside isNumberChar (lexemes.flatMap Lexeme.text) := by
        intro hnumber
        cases lexemes with
        | nil => rfl
        | cons next lexemes =>
            obtain ⟨d, text', htext', _, hnumberChar⟩ :=
              exists_text_eq_cons (hfurther next List.mem_cons_self)
            rw [List.flatMap_cons, htext']
            exact startsOutside_cons (hnumberChar (hnext next rfl hnumber))
      have hstart : StartsOutside isBlank (lexeme.text ++ lexemes.flatMap Lexeme.text) := by
        rw [htext]
        exact startsOutside_cons hblank
      rw [List.flatMap_cons, lexemesOnto_of_lexeme? hstart (lexeme?_text_append hlexeme hrest),
        ih hfurther hchain]
      simp

/-- The texts of lexemes, one after the other, are cut into these lexemes. -/
theorem lexemes_flatMap_text {lexemes : List Lexeme}
    (hreadable : ∀ lexeme ∈ lexemes, lexeme.Readable) (hapart : lexemes.IsChain Lexeme.Apart) :
    Json.lexemes (String.ofList (lexemes.flatMap Lexeme.text)) = lexemes := by
  rw [Json.lexemes, String.toList_ofList, lexemesOnto_flatMap_text hreadable hapart]
  rfl

end RecordRules.Json
