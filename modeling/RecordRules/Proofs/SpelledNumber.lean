import RecordRules.Proofs.ExactOrder
import RecordRules.Proofs.NumeralRounding

/-! Numbers that texts spell. Digits with or without a minus spell the floating-point number nearest to
what they denote, so the text of a whole number spells the number that it is rounded to. Letters spell
the special values and nothing else: with no digit they are not a numeral. Texts of either kind have
neither blanks nor quotes, which are left out before a number is read. -/

namespace RecordRules

open RuleText

theorem Text.trimBlanks_of_not_blank {chars : List Char} (h : ∀ c ∈ chars, isBlank c = false) :
    trimBlanks chars = chars := by
  have hdrop : ∀ {chars : List Char}, (∀ c ∈ chars, isBlank c = false) →
      chars.dropWhile isBlank = chars := by
    intro chars hchars
    cases chars with
    | nil => rfl
    | cons c chars =>
        have hc := hchars c List.mem_cons_self
        rw [List.dropWhile_cons_of_neg (Bool.eq_false_iff.mp hc)]
  rw [trimBlanks, hdrop h, hdrop fun c hc => h c (List.mem_reverse.mp hc), List.reverse_reverse]

namespace Number

/-! ### Numerals without a point -/

/-- Digits alone are a numeral with the exponent zero. -/
theorem decimalNotation?_digits {digits : List Char} (h : IsRun Char.isDigit digits)
    (negative : Bool) : decimalNotation? negative digits = some (.ofParts negative digits [] 0) := by
  have hnothing : StartsOutside Char.isDigit [] := rfl
  have htake := takeWhile_run h hnothing
  have hdrop := dropWhile_run h hnothing
  rw [List.append_nil] at htake hdrop
  rw [decimalNotation?, spanDigits, htake, hdrop]
  simp [splitFraction, h.1, exponent?]

theorem toBinary64_digits (digits : List Char) (negative : Bool) :
    (Numeral.ofParts negative digits [] 0).toBinary64 =
      .nearest negative (digitsValue digits) 1 := by
  have hnumerator : (Numeral.ofParts negative digits [] 0).numerator = digitsValue digits := by
    rw [Numeral.numerator, Numeral.ofParts, List.append_nil]
    exact Nat.mul_one _
  rw [Numeral.toBinary64_eq_nearest, hnumerator]
  rfl

/-- Digits spell the number nearest to what they denote. -/
theorem binary64?_digits {digits : List Char} (h : IsRun Char.isDigit digits) :
    binary64? digits = some (.nearest false (digitsValue digits) 1) := by
  rw [binary64?, splitSign_digits h]
  simp only [decimalNotation?_digits h, toBinary64_digits]

theorem binary64?_minus_digits {digits : List Char} (h : IsRun Char.isDigit digits) :
    binary64? ('-' :: digits) = some (.nearest true (digitsValue digits) 1) := by
  rw [binary64?, splitSign]
  simp only [decimalNotation?_digits h, toBinary64_digits]

/-! ### Letters -/

/-- Letters have no digit, on which every numeral rests. -/
theorem decimalNotation?_letters {letters : List Char} (h : IsRun Char.isAlpha letters)
    (negative : Bool) : decimalNotation? negative letters = none := by
  obtain ⟨hne, hall⟩ := h
  obtain ⟨c, rest, rfl⟩ := List.exists_cons_of_ne_nil hne
  have hcode := (isAlpha_iff c).mp (hall c List.mem_cons_self)
  have hdigit : ¬ c.isDigit = true := by
    rw [isDigit_iff]
    omega
  have hpoint : c ≠ '.' := by
    rintro rfl
    exact absurd (hall _ List.mem_cons_self) (by decide)
  rw [decimalNotation?, spanDigits, List.takeWhile_cons_of_neg hdigit,
    List.dropWhile_cons_of_neg hdigit]
  have hfraction : splitFraction (c :: rest) = ([], c :: rest) := by
    rw [splitFraction]
    intro tail htail
    exact hpoint (List.cons_eq_cons.mp htail).1
  simp [hfraction]

/-- Letters spell a number only as the name of a special value. -/
theorem binary64?_letters {letters : List Char} (h : IsRun Char.isAlpha letters) :
    binary64? letters = specialValue? false letters := by
  have hsign : StartsOutside isSignChar letters := by
    rw [← List.append_nil letters]
    apply h.startsOutside
    intro c hc
    have hcode := (isAlpha_iff c).mp hc
    exact isSignChar_eq_false (by omega)
  rw [binary64?, splitSign_of_startsOutside hsign]
  simp only [decimalNotation?_letters h]

end Number

open Number

theorem spelledNumber?_of_not_blank {text : String}
    (h : ∀ c ∈ text.toList, Text.isBlank c = false) : spelledNumber? text = binary64? text.toList := by
  rw [spelledNumber?, Text.trimBlanks_of_not_blank h]

theorem spelledNumber?_word {word : String} (h : IsRun Char.isAlpha word.toList) :
    spelledNumber? word = specialValue? false word.toList := by
  rw [spelledNumber?_of_not_blank, binary64?_letters h]
  intro c hc
  have hcode := (isAlpha_iff c).mp (h.2 c hc)
  exact isBlank_eq_false (by omega) (by omega)

/-! ### Whole numbers -/

/-- The characters of a whole number as written. -/
def Number.wholeText (n : Int) : List Char :=
  if n < 0 then '-' :: decimalDigits n.natAbs else decimalDigits n.natAbs

theorem toList_repr (n : Int) : n.repr.toList = Number.wholeText n := by
  cases n with
  | ofNat n => exact Nat.toList_repr
  | negSucc n =>
      have hrepr : (Int.negSucc n).repr = "-" ++ (n + 1).repr := rfl
      rw [hrepr, String.toList_append, Nat.toList_repr, wholeText, if_pos (Int.negSucc_lt_zero n)]
      rfl

theorem mem_wholeText {n : Int} {c : Char} (h : c ∈ wholeText n) : c = '-' ∨ c.isDigit = true := by
  have hdigits := (isRun_decimalDigits n.natAbs).2
  unfold wholeText at h
  split at h
  case isTrue =>
    rcases List.mem_cons.mp h with rfl | h
    · exact Or.inl rfl
    · exact Or.inr (hdigits c h)
  case isFalse => exact Or.inr (hdigits c h)

/-- A whole number as written spells the floating-point number that it is rounded to. -/
theorem binary64?_wholeText (n : Int) : binary64? (wholeText n) = some (.ofInt n) := by
  have hrun := isRun_decimalDigits n.natAbs
  rw [wholeText, Binary64.ofInt_eq_nearest]
  split
  case isTrue h =>
    rw [binary64?_minus_digits hrun, digitsValue_decimalDigits, decide_eq_true h]
  case isFalse h =>
    rw [binary64?_digits hrun, digitsValue_decimalDigits, decide_eq_false h]

theorem spelledNumber?_repr (n : Int) :
    spelledNumber? (Text.unquoted n.repr) = some (.ofInt n) := by
  have hunquoted : Text.unquoted n.repr = n.repr := by
    rw [← String.toList_inj, Text.toList_unquoted, toList_repr, List.filter_eq_self]
    intro c hc
    rw [bne_iff_ne]
    rintro rfl
    exact (mem_wholeText hc).elim (by decide) (by decide)
  rw [hunquoted, spelledNumber?_of_not_blank, toList_repr, binary64?_wholeText]
  intro c hc
  rw [toList_repr] at hc
  rcases mem_wholeText hc with rfl | hdigit
  · decide
  · have hcode := (isDigit_iff c).mp hdigit
    exact isBlank_eq_false (by omega) (by omega)

/-- A whole number of a rule is taken as the floating-point number nearest to it. -/
theorem Literal.coerced?_of_whole? {literal : Literal} {d : Int} (h : literal.InGrammar)
    (hwhole : literal.whole? = some d) : literal.coerced? = some (.ofInt d) := by
  cases literal with
  | text s => cases hwhole
  | integer n =>
      obtain rfl := Option.some_inj.mp hwhole
      rfl
  | digits s =>
      obtain rfl := Option.some_inj.mp hwhole
      exact binary64?_digits h.1

end RecordRules
