import RecordRules.Proofs.OperandText
import RecordRules.Proofs.Segmentation

/-! Literals and their texts. A digit run spells the 64-bit integer that it denotes, or its digits
without leading zeros where it denotes none, and letters in quotes spell themselves. The literals
that texts spell are those of the grammar, and the text of such a literal spells it again. -/

namespace RecordRules

open RuleText

namespace Number

/-- The characters that may stand in front of a number. -/
def isSignChar (c : Char) : Bool :=
  c == '-' || c == '+'

/-- Digits and letters are no signs. -/
theorem isSignChar_eq_false {c : Char} (h : 48 ≤ c.toNat) : isSignChar c = false := by
  have hcodes : ('-' : Char).toNat = 45 ∧ ('+' : Char).toNat = 43 := ⟨rfl, rfl⟩
  rw [isSignChar, Bool.or_eq_false_iff, beq_eq_false_iff_ne, beq_eq_false_iff_ne]
  constructor
  · rintro rfl
    omega
  · rintro rfl
    omega

theorem splitSign_of_startsOutside {chars : List Char} (h : StartsOutside isSignChar chars) :
    splitSign chars = (false, chars) := by
  rw [startsOutside_iff] at h
  rw [splitSign]
  · rintro rest rfl
    exact absurd (h '-' rfl) (by decide)
  · rintro rest rfl
    exact absurd (h '+' rfl) (by decide)

theorem startsOutside_sign_digits {digits : List Char} (h : IsRun Char.isDigit digits) :
    StartsOutside isSignChar digits := by
  rw [← List.append_nil digits]
  exact h.startsOutside fun c hc => isSignChar_eq_false ((isDigit_iff c).mp hc).1

theorem splitSign_digits {digits : List Char} (h : IsRun Char.isDigit digits) :
    splitSign digits = (false, digits) :=
  splitSign_of_startsOutside (startsOutside_sign_digits h)

theorem isDigitRun_iff (digits : List Char) :
    isDigitRun digits = true ↔ IsRun Char.isDigit digits := by
  rw [isDigitRun, Bool.and_eq_true, Bool.not_eq_true', List.isEmpty_eq_false_iff, List.all_eq_true]
  rfl

theorem wholeNumber?_digits {digits : List Char} (h : IsRun Char.isDigit digits) :
    wholeNumber? digits = some (digitsValue digits : Int) := by
  rw [wholeNumber?, splitSign_digits h]
  simp only [(isDigitRun_iff digits).mpr h, if_true]
  rfl

theorem isRun_decimalDigits (n : Nat) : IsRun Char.isDigit (decimalDigits n) :=
  ⟨Nat.toDigits_ne_nil, fun _ hc => Nat.isDigit_of_mem_toDigits (by decide) (by decide) hc⟩

theorem isRun_repr (n : Nat) : IsRun Char.isDigit n.repr.toList := by
  rw [Nat.toList_repr]
  exact isRun_decimalDigits n

theorem digitsValue_repr (n : Nat) : digitsValue n.repr.toList = n := by
  rw [Nat.toList_repr]
  exact digitsValue_decimalDigits n

theorem int64?_of_le {n : Nat} (h : (n : Int) ≤ Int64.maxValue.toInt) :
    int64? n = some (Int64.ofInt n) := by
  have hmin : Int64.minValue.toInt ≤ (n : Int) := by
    rw [Int64.toInt_minValue]
    omega
  rw [int64?, if_pos ⟨hmin, h⟩]

theorem int64?_of_lt {n : Nat} (h : Int64.maxValue.toInt < (n : Int)) : int64? n = none := by
  rw [int64?, if_neg]
  omega

theorem int64?_toInt (i : Int64) : int64? i.toInt = some i := by
  rw [int64?, if_pos ⟨i.minValue_le_toInt, i.toInt_le⟩, Int64.ofInt_toInt]

theorem dropWhile_zero_of_head? {digits : List Char} (h : digits.head? ≠ some '0') :
    digits.dropWhile (fun c => c == '0') = digits := by
  cases digits with
  | nil => rfl
  | cons c digits =>
      rw [List.dropWhile_cons_of_neg]
      rw [beq_iff_eq]
      rintro rfl
      exact h rfl

theorem digitsValue_dropWhile_zero (digits : List Char) :
    digitsValue (digits.dropWhile fun c => c == '0') = digitsValue digits := by
  induction digits with
  | nil => rfl
  | cons c digits ih =>
      rw [List.dropWhile_cons]
      split
      case isTrue hzero =>
        rw [beq_iff_eq] at hzero
        rw [ih, hzero]
        simp only [digitsValue, Nat.ofDigitChars_cons]
        rfl
      case isFalse => rfl

theorem head?_dropWhile_zero (digits : List Char) :
    (digits.dropWhile fun c => c == '0').head? ≠ some '0' := by
  have h := List.head?_dropWhile_not (fun c => c == '0') digits
  intro hhead
  rw [hhead] at h
  cases h

end Number

namespace Literal

/-- The literals of the grammar: whole numbers, digits beyond the 64-bit integers without leading
zeros, and letters without a keyword. -/
def InGrammar : Literal → Prop
  | .integer n => 0 ≤ n.toInt
  | .digits s =>
      IsRun Char.isDigit s.toList ∧ s.toList.head? ≠ some '0' ∧
        Int64.maxValue.toInt < (Number.digitsValue s.toList : Int)
  | .text s => IsRun Char.isAlpha s.toList ∧ KeywordFree s.toList

instance : (literal : Literal) → Decidable literal.InGrammar
  | .integer n => inferInstanceAs (Decidable (0 ≤ n.toInt))
  | .digits s =>
      inferInstanceAs (Decidable (IsRun Char.isDigit s.toList ∧ s.toList.head? ≠ some '0' ∧
        Int64.maxValue.toInt < (Number.digitsValue s.toList : Int)))
  | .text s => inferInstanceAs (Decidable (IsRun Char.isAlpha s.toList ∧ KeywordFree s.toList))

theorem ofToken_digits {token : String} (h : IsRun Char.isDigit token.toList) :
    ofToken token = ofNumberText token := by
  rw [ofToken, if_neg]
  intro hhead
  obtain ⟨tail, htail⟩ := List.head?_eq_some_iff.mp hhead
  have hquote : Text.quote.isDigit = true := h.2 _ (by rw [htail]; exact List.mem_cons_self)
  exact absurd hquote (by decide)

theorem ofNumberText_of_le {token : String} (h : IsRun Char.isDigit token.toList)
    (hle : (Number.digitsValue token.toList : Int) ≤ Int64.maxValue.toInt) :
    ofNumberText token = .integer (Int64.ofInt (Number.digitsValue token.toList)) := by
  rw [ofNumberText, Number.wholeNumber?_digits h, Option.bind_eq_bind, Option.bind_some,
    Number.int64?_of_le hle]

theorem ofNumberText_of_lt {token : String} (h : IsRun Char.isDigit token.toList)
    (hlt : Int64.maxValue.toInt < (Number.digitsValue token.toList : Int)) :
    ofNumberText token = .digits (String.ofList (token.toList.dropWhile fun c => c == '0')) := by
  rw [ofNumberText, Number.wholeNumber?_digits h, Option.bind_eq_bind, Option.bind_some,
    Number.int64?_of_lt hlt]

theorem unquoted_quoted {letters : List Char} (h : IsRun Char.isAlpha letters) :
    Text.unquoted (String.ofList (Text.quote :: (letters ++ [Text.quote]))) =
      String.ofList letters := by
  have hfilter : letters.filter (fun c => c != Text.quote) = letters := by
    rw [List.filter_eq_self]
    intro c hc
    rw [bne_iff_ne]
    rintro rfl
    exact absurd (h.2 _ hc) (by decide)
  rw [← String.toList_inj, Text.toList_unquoted, String.toList_ofList, String.toList_ofList,
    List.filter_cons_of_neg (by decide), List.filter_append, hfilter]
  exact List.append_nil letters

theorem ofToken_quoted {letters : List Char} (h : IsRun Char.isAlpha letters) :
    ofToken (String.ofList (Text.quote :: (letters ++ [Text.quote]))) =
      .text (String.ofList letters) := by
  rw [ofToken, String.toList_ofList, List.head?_cons, if_pos rfl, unquoted_quoted h]

/-- What a literal text without a keyword spells is in the grammar. -/
theorem inGrammar_ofToken {token : String} (h : IsLiteralText token.toList)
    (hkeyword : KeywordFree token.toList) : (ofToken token).InGrammar := by
  rcases h with hdigits | ⟨letters, hletters, htoken⟩
  · rw [ofToken_digits hdigits]
    by_cases hle : (Number.digitsValue token.toList : Int) ≤ Int64.maxValue.toInt
    · rw [ofNumberText_of_le hdigits hle, InGrammar,
        Number.toInt_of_int64?_eq_some (Number.int64?_of_le hle)]
      exact Int.natCast_nonneg _
    · have hlt := Int.not_le.mp hle
      rw [ofNumberText_of_lt hdigits hlt]
      simp only [InGrammar, String.toList_ofList, Number.digitsValue_dropWhile_zero]
      refine ⟨⟨?_, fun c hc => hdigits.2 c ((List.dropWhile_suffix _).mem hc)⟩,
        Number.head?_dropWhile_zero _, hlt⟩
      intro hnil
      rw [← Number.digitsValue_dropWhile_zero, hnil] at hlt
      exact absurd hlt (by decide)
  · obtain rfl : token = String.ofList (Text.quote :: (letters ++ [Text.quote])) := by
      rw [← htoken, String.ofList_toList]
    rw [ofToken_quoted hletters]
    simp only [InGrammar, String.toList_ofList]
    refine ⟨hletters, fun connective hinside => hkeyword connective (hinside.trans ?_)⟩
    rw [String.toList_ofList]
    exact ⟨[Text.quote], [Text.quote], rfl⟩

theorem toList_toText_integer {n : Int64} (h : 0 ≤ n.toInt) :
    (Literal.integer n).toText.toList = Number.decimalDigits n.toInt.toNat := by
  obtain ⟨k, hk⟩ := Int.eq_ofNat_of_zero_le h
  rw [toText, hk]
  exact Nat.toList_repr

theorem isLiteralText_toText {literal : Literal} (h : literal.InGrammar) :
    IsLiteralText literal.toText.toList := by
  cases literal with
  | integer n =>
      rw [toList_toText_integer h]
      exact Or.inl (Number.isRun_decimalDigits _)
  | digits s => exact Or.inl h.1
  | text s => exact Or.inr ⟨s.toList, h.1, Text.toList_inQuotes s⟩

theorem ofToken_toText {literal : Literal} (h : literal.InGrammar) :
    ofToken literal.toText = literal := by
  cases literal with
  | integer n =>
      have htext := toList_toText_integer h
      have hdigits : IsRun Char.isDigit (Literal.integer n).toText.toList := by
        rw [htext]
        exact Number.isRun_decimalDigits _
      have hvalue : (Number.digitsValue (Literal.integer n).toText.toList : Int) = n.toInt := by
        rw [htext, Number.digitsValue_decimalDigits, Int.toNat_of_nonneg h]
      rw [ofToken_digits hdigits, ofNumberText, Number.wholeNumber?_digits hdigits, hvalue,
        Option.bind_eq_bind, Option.bind_some, Number.int64?_toInt]
  | digits s =>
      obtain ⟨hdigits, hhead, hlt⟩ := h
      rw [toText, ofToken_digits hdigits, ofNumberText_of_lt hdigits hlt,
        Number.dropWhile_zero_of_head? hhead, String.ofList_toList]
  | text s =>
      rw [toText, Text.inQuotes, ofToken_quoted h.1, String.ofList_toList]

theorem keywordFree_digits {digits : List Char} (h : IsRun Char.isDigit digits) :
    KeywordFree digits := by
  refine keywordFree_of_plain fun c hc => ?_
  have hdigit := (isDigit_iff c).mp (h.2 c hc)
  rw [Bool.eq_false_iff, ne_eq, isUpper_iff]
  omega

/-- A digit run spells a literal of the grammar. -/
theorem inGrammar_ofToken_digits {token : String} (h : IsRun Char.isDigit token.toList) :
    (ofToken token).InGrammar :=
  inGrammar_ofToken (Or.inl h) (keywordFree_digits h)

theorem keywordFree_toText {literal : Literal} (h : literal.InGrammar) :
    KeywordFree literal.toText.toList := by
  cases literal with
  | integer n =>
      rw [toList_toText_integer h]
      exact keywordFree_digits (Number.isRun_decimalDigits _)
  | digits s => exact keywordFree_digits h.1
  | text s =>
      rw [toText, Text.toList_inQuotes]
      have hquote : Text.quote.isUpper = false := by decide
      refine keywordFree_cons_of_plain hquote (keywordFree_append_plain h.2 fun c hc => ?_)
      rw [List.mem_singleton.mp hc, hquote]

end Literal

end RecordRules
