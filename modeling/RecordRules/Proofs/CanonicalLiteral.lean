import RecordRules.Proofs.ExactOrder

/-! Each literal has one form. A digit run without leading zeros is the decimal of the number that it
denotes, so what a digit run of any length spells is given by this number alone: the 64-bit integer, or
the decimal of what is beyond them. Hence a literal that was read from a token is read again from its
own text. -/

namespace RecordRules

open Number RuleText

namespace Number

variable {digits other : List Char}

/-- Of two digit runs without leading zeros the shorter one denotes less, and so does the smaller one of
two that are equally long. -/
theorem eq_of_digitsValue_eq (hdigits : IsRun Char.isDigit digits)
    (hother : IsRun Char.isDigit other) (hzero : digits.head? ≠ some '0')
    (hzero' : other.head? ≠ some '0') (h : digitsValue digits = digitsValue other) :
    digits = other := by
  have hlength : digits.length = other.length := by
    rcases Nat.lt_trichotomy digits.length other.length with hlt | heq | hgt
    · exact absurd h (Nat.ne_of_lt (digitsValue_lt_of_length_lt hdigits.2 hother hzero' hlt))
    · exact heq
    · exact absurd h (Nat.ne_of_gt (digitsValue_lt_of_length_lt hother.2 hdigits hzero hgt))
  have hnotless : ¬ digits < other := by
    rw [lt_iff_digitsValue_lt hdigits.2 hother.2 hlength]
    omega
  have hnotmore : ¬ other < digits := by
    rw [lt_iff_digitsValue_lt hother.2 hdigits.2 hlength.symm]
    omega
  exact List.le_antisymm (List.not_lt.mp hnotmore) (List.not_lt.mp hnotless)

/-- A digit run without its leading zeros is the decimal of what it denotes, if this is not zero. -/
theorem dropWhile_zero_eq_decimalDigits (h : IsRun Char.isDigit digits)
    (hpos : 0 < digitsValue digits) :
    (digits.dropWhile fun c => c == '0') = decimalDigits (digitsValue digits) := by
  have hvalue := digitsValue_dropWhile_zero digits
  have hrun : IsRun Char.isDigit (digits.dropWhile fun c => c == '0') := by
    refine ⟨fun hnil => ?_, fun c hc => h.2 c ((List.dropWhile_suffix _).mem hc)⟩
    rw [← hvalue, hnil] at hpos
    exact absurd hpos (by decide)
  apply eq_of_digitsValue_eq hrun (isRun_decimalDigits _) (head?_dropWhile_zero digits)
    (head?_decimalDigits hpos)
  rw [hvalue, digitsValue_decimalDigits]

end Number

namespace Literal

variable {token : String}

theorem exists_ofToken_eq_integer (h : IsRun Char.isDigit token.toList)
    (hle : (digitsValue token.toList : Int) ≤ Int64.maxValue.toInt) :
    ∃ n : Int64, n.toInt = digitsValue token.toList ∧ ofToken token = .integer n := by
  refine ⟨_, toInt_of_int64?_eq_some (int64?_of_le hle), ?_⟩
  rw [ofToken_digits h, ofNumberText_of_le h hle]

theorem ofToken_eq_digits (h : IsRun Char.isDigit token.toList)
    (hlt : Int64.maxValue.toInt < (digitsValue token.toList : Int)) :
    ofToken token = .digits (digitsValue token.toList).repr := by
  have hpos : 0 < digitsValue token.toList := by
    rw [Int64.toInt_maxValue] at hlt
    omega
  have hrepr : (digitsValue token.toList).repr =
      String.ofList (decimalDigits (digitsValue token.toList)) := by
    rw [← String.toList_inj, String.toList_ofList]
    exact Nat.toList_repr
  rw [ofToken_digits h, ofNumberText_of_lt h hlt, dropWhile_zero_eq_decimalDigits h hpos, hrepr]

theorem ofToken_congr {other : String} (h : IsRun Char.isDigit token.toList)
    (h' : IsRun Char.isDigit other.toList)
    (hvalue : digitsValue token.toList = digitsValue other.toList) :
    ofToken token = ofToken other := by
  by_cases hle : (digitsValue token.toList : Int) ≤ Int64.maxValue.toInt
  · have hle' : (digitsValue other.toList : Int) ≤ Int64.maxValue.toInt := hvalue ▸ hle
    rw [ofToken_digits h, ofToken_digits h', ofNumberText_of_le h hle, ofNumberText_of_le h' hle',
      hvalue]
  · have hlt := Int.not_le.mp hle
    rw [ofToken_eq_digits h hlt, ofToken_eq_digits h' (hvalue ▸ hlt), hvalue]

/-- Letters in quotes are read again from what they spell, whatever word they are. -/
theorem ofToken_toText_ofToken (h : IsLiteralText token.toList) :
    ofToken (ofToken token).toText = ofToken token := by
  rcases h with hdigits | ⟨letters, hletters, htoken⟩
  · exact ofToken_toText (inGrammar_ofToken_digits hdigits)
  · have hquoted : token = String.ofList (Text.quote :: (letters ++ [Text.quote])) := by
      rw [← htoken, String.ofList_toList]
    rw [hquoted, ofToken_quoted hletters, toText, Text.inQuotes, String.toList_ofList,
      ofToken_quoted hletters]

/-- A digit run of any length, with leading zeros or without, spells the 64-bit integer that it denotes,
or else the decimal of the number that it denotes. So digit runs spell the same literal just where they
denote the same number, and what is read from a digit run or from letters in quotes is read again from
its own text. -/
theorem ofToken_canonical :
    (∀ token : String, IsRun Char.isDigit token.toList →
      ((digitsValue token.toList : Int) ≤ Int64.maxValue.toInt →
        ∃ n : Int64, n.toInt = digitsValue token.toList ∧ ofToken token = .integer n) ∧
      (Int64.maxValue.toInt < (digitsValue token.toList : Int) →
        ofToken token = .digits (digitsValue token.toList).repr)) ∧
    (∀ token other : String, IsRun Char.isDigit token.toList → IsRun Char.isDigit other.toList →
      (ofToken token = ofToken other ↔ digitsValue token.toList = digitsValue other.toList)) ∧
    ∀ token : String, IsLiteralText token.toList →
      ofToken (ofToken token).toText = ofToken token := by
  refine ⟨fun token h => ⟨exists_ofToken_eq_integer h, ofToken_eq_digits h⟩, ?_,
    fun token h => ofToken_toText_ofToken h⟩
  intro token other h h'
  constructor
  · intro heq
    have hwhole := whole?_ofToken h
    rw [heq, whole?_ofToken h', Option.some_inj] at hwhole
    exact Int.ofNat_inj.mp hwhole.symm
  · exact ofToken_congr h h'

/-- The last 64-bit integer and the number after it, with leading zeros, and a word with a keyword in
it. -/
theorem ofToken_canonical_of_bound :
    (∃ n : Int64, n.toInt = 9223372036854775807 ∧ ofToken "009223372036854775807" = .integer n) ∧
      ofToken "0009223372036854775808" = .digits "9223372036854775808" ∧
      ofToken "9223372036854775808" = ofToken "0009223372036854775808" ∧
      ofToken (ofToken "'ORDER'").toText = ofToken "'ORDER'" := by
  have hlast : IsRun Char.isDigit "009223372036854775807".toList := by decide
  have hnext : IsRun Char.isDigit "0009223372036854775808".toList := by decide
  have hplain : IsRun Char.isDigit "9223372036854775808".toList := by decide
  have hletters : IsRun Char.isAlpha "ORDER".toList := by decide
  refine ⟨?_, ?_, ?_, ?_⟩
  · exact (ofToken_canonical.1 "009223372036854775807" hlast).1 (by decide)
  · exact (ofToken_canonical.1 "0009223372036854775808" hnext).2 (by decide)
  · exact (ofToken_canonical.2.1 _ _ hplain hnext).mpr (by decide)
  · exact ofToken_canonical.2.2 "'ORDER'" (Or.inr ⟨"ORDER".toList, hletters, by decide⟩)

end Literal

end RecordRules
