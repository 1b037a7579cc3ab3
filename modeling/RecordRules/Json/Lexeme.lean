import RecordRules.Json.Basic
import RecordRules.Number.Numeral

/-! The lexemes of JSON text. A text is cut into lexemes from left to right; where no lexeme starts,
the cut ends with a lexeme that no grammar admits, so that a reader sees an error exactly where it
stands and not before. Blanks between lexemes are space, tab, line feed and carriage return. -/

namespace RecordRules.Json

open Number

inductive Lexeme where
  | openBrace
  | closeBrace
  | openBracket
  | closeBracket
  | comma
  | colon
  | null
  | boolean (value : Bool)
  | number (value : JsonNumber)
  | string (value : String)
  | broken
deriving DecidableEq, Repr

/-! ### Numbers -/

theorem length_spanDigits_le (chars : List Char) : (spanDigits chars).2.length ≤ chars.length :=
  (List.dropWhile_sublist _).length_le

theorem length_splitSign_le (chars : List Char) : (splitSign chars).2.length ≤ chars.length := by
  unfold splitSign
  split <;> simp

def splitMinus : List Char → Bool × List Char
  | '-' :: rest => (true, rest)
  | chars => (false, chars)

theorem length_splitMinus_le (chars : List Char) : (splitMinus chars).2.length ≤ chars.length := by
  unfold splitMinus
  split <;> simp

/-- The digits of an integer part: no leading zero, unless zero is the only digit. -/
def isIntegerPart : List Char → Bool
  | [] => false
  | ['0'] => true
  | c :: _ => c != '0'

/-- Reads an optional point and the digits after it; a point without a digit is refused. -/
def fractionPart? : List Char → Option (Option (List Char) × List Char)
  | '.' :: rest =>
      let (digits, after) := spanDigits rest
      if digits.isEmpty then none else some (some digits, after)
  | chars => some (none, chars)

theorem length_fractionPart?_le {chars rest : List Char} {digits : Option (List Char)}
    (h : fractionPart? chars = some (digits, rest)) : rest.length ≤ chars.length := by
  unfold fractionPart? at h
  split at h
  case h_1 tail =>
    simp only at h
    split at h
    · cases h
    · cases h
      have := length_spanDigits_le tail
      simp only [List.length_cons]
      omega
  case h_2 =>
    cases h
    exact Nat.le_refl _

/-- Reads an optional exponent; an exponent mark without a digit is refused. -/
def exponentPart? : List Char → Option (Option Int × List Char)
  | [] => some (none, [])
  | mark :: rest =>
      if mark = 'e' ∨ mark = 'E' then
        let (negative, unsigned) := splitSign rest
        let (digits, after) := spanDigits unsigned
        if digits.isEmpty then none else some (some (withSign negative (digitsValue digits)), after)
      else some (none, mark :: rest)

theorem length_exponentPart?_le {chars rest : List Char} {exponent : Option Int}
    (h : exponentPart? chars = some (exponent, rest)) : rest.length ≤ chars.length := by
  unfold exponentPart? at h
  split at h
  case h_1 =>
    cases h
    exact Nat.le_refl _
  case h_2 mark tail =>
    simp only at h
    split at h
    · split at h
      · cases h
      · cases h
        have := length_spanDigits_le (splitSign tail).2
        have := length_splitSign_le tail
        simp only [List.length_cons]
        omega
    · cases h
      exact Nat.le_refl _

/-- A number from its parts; without fraction and exponent it is whole. -/
def numberOfParts (negative : Bool) (whole : List Char) (fraction : Option (List Char))
    (exponent : Option Int) : JsonNumber :=
  match fraction, exponent with
  | none, none => .whole negative (digitsValue whole)
  | _, _ =>
      .decimal negative (digitsValue whole) ((fraction.getD []).map digitOf) (exponent.getD 0)

/-- Reads the number that a character sequence starts with. A number that cannot be read as a finite
one is refused. -/
def numberLexeme? (chars : List Char) : Option (Lexeme × List Char) :=
  let (negative, unsigned) := splitMinus chars
  let (whole, afterWhole) := spanDigits unsigned
  if isIntegerPart whole then
    match fractionPart? afterWhole with
    | none => none
    | some (fraction, afterFraction) =>
        match exponentPart? afterFraction with
        | none => none
        | some (exponent, rest) =>
            let value := numberOfParts negative whole fraction exponent
            if value.toBinary64?.isSome then some (.number value, rest) else none
  else none

theorem length_numberLexeme?_lt {chars rest : List Char} {lexeme : Lexeme}
    (h : numberLexeme? chars = some (lexeme, rest)) : rest.length < chars.length := by
  have unsigned_le := length_splitMinus_le chars
  unfold numberLexeme? at h
  simp only at h
  generalize (splitMinus chars).2 = unsigned at h unsigned_le
  split at h
  case isFalse => cases h
  case isTrue integerPart =>
    have whole_lt : (spanDigits unsigned).2.length < unsigned.length := by
      have lengths := congrArg List.length
        (List.takeWhile_append_dropWhile (p := Char.isDigit) (l := unsigned))
      have nonempty : 0 < (spanDigits unsigned).1.length := by
        cases digits : (spanDigits unsigned).1 with
        | nil => simp [digits, isIntegerPart] at integerPart
        | cons => simp
      simp only [List.length_append] at lengths
      simp only [spanDigits] at nonempty ⊢
      omega
    split at h
    case h_1 => cases h
    case h_2 fraction =>
      split at h
      case h_1 => cases h
      case h_2 exponent =>
        split at h
        · cases h
          have := length_fractionPart?_le fraction
          have := length_exponentPart?_le exponent
          omega
        · cases h

/-! ### Strings -/

/-- The number that a hexadecimal digit of either case stands for. -/
def hexValue? (c : Char) : Option Nat :=
  if c.isDigit then some (c.toNat - '0'.toNat)
  else if 'a' ≤ c ∧ c ≤ 'f' then some (c.toNat - 'a'.toNat + 10)
  else if 'A' ≤ c ∧ c ≤ 'F' then some (c.toNat - 'A'.toNat + 10)
  else none

def codeUnit? : List Char → Option (Nat × List Char)
  | a :: b :: c :: d :: rest => do
      let a ← hexValue? a
      let b ← hexValue? b
      let c ← hexValue? c
      let d ← hexValue? d
      return (((a * 16 + b) * 16 + c) * 16 + d, rest)
  | _ => none

/-- Reads what follows the letter of a Unicode escape. A character beyond the first 65536 is written
as two escapes, a high and a low surrogate; a surrogate without its partner is refused. -/
def unicodeEscape? (chars : List Char) : Option (Char × List Char) :=
  match codeUnit? chars with
  | none => none
  | some (unit, rest) =>
      if 0xD800 ≤ unit ∧ unit < 0xDC00 then
        match rest with
        | '\\' :: 'u' :: after =>
            match codeUnit? after with
            | none => none
            | some (low, rest) =>
                if 0xDC00 ≤ low ∧ low < 0xE000 then
                  some (Char.ofNat (0x10000 + (unit - 0xD800) * 0x400 + (low - 0xDC00)), rest)
                else none
        | _ => none
      else if 0xDC00 ≤ unit ∧ unit < 0xE000 then none
      else some (Char.ofNat unit, rest)

/-- The character that a backslash and one more character stand for. -/
def simpleEscape? : Char → Option Char
  | '"' => some '"'
  | '\\' => some '\\'
  | '/' => some '/'
  | 'b' => some '\x08'
  | 'f' => some '\x0c'
  | 'n' => some '\n'
  | 'r' => some '\r'
  | 't' => some '\t'
  | _ => none

def escape? : List Char → Option (Char × List Char)
  | [] => none
  | 'u' :: rest => unicodeEscape? rest
  | c :: rest => (simpleEscape? c).map fun char => (char, rest)

theorem length_codeUnit?_lt {chars rest : List Char} {unit : Nat}
    (h : codeUnit? chars = some (unit, rest)) : rest.length < chars.length := by
  unfold codeUnit? at h
  split at h
  case h_1 a b c d tail =>
    simp only [Option.bind_eq_bind, Option.bind_eq_some_iff, Option.pure_def, Option.some.injEq,
      Prod.mk.injEq] at h
    obtain ⟨_, _, _, _, _, _, _, _, _, rfl⟩ := h
    simp only [List.length_cons]
    omega
  case h_2 => cases h

theorem length_unicodeEscape?_lt {chars rest : List Char} {char : Char}
    (h : unicodeEscape? chars = some (char, rest)) : rest.length < chars.length := by
  unfold unicodeEscape? at h
  split at h
  case h_1 => cases h
  case h_2 unit after first =>
    have first_lt := length_codeUnit?_lt first
    split at h
    · split at h
      case h_1 tail =>
        split at h
        case h_1 => cases h
        case h_2 second =>
          have second_lt := length_codeUnit?_lt second
          split at h
          · simp only [Option.some.injEq, Prod.mk.injEq] at h
            obtain ⟨_, rfl⟩ := h
            simp only [List.length_cons] at first_lt
            omega
          · cases h
      case h_2 => cases h
    · split at h
      · cases h
      · simp only [Option.some.injEq, Prod.mk.injEq] at h
        obtain ⟨_, rfl⟩ := h
        exact first_lt

theorem length_escape?_lt {chars rest : List Char} {char : Char}
    (h : escape? chars = some (char, rest)) : rest.length < chars.length := by
  unfold escape? at h
  split at h
  case h_1 => cases h
  case h_2 tail =>
    have := length_unicodeEscape?_lt h
    simp only [List.length_cons]
    omega
  case h_3 c tail _ =>
    simp only [Option.map_eq_some_iff] at h
    obtain ⟨_, _, pair⟩ := h
    cases pair
    simp

/-- Reads the inside of a string and its closing quote; `before` holds the characters already read,
the latest one first. Control characters have to be escaped. -/
def stringBody? (before : List Char) (chars : List Char) : Option (String × List Char) :=
  match chars with
  | [] => none
  | c :: rest =>
      if c = '"' then some (String.ofList before.reverse, rest)
      else if c = '\\' then
        match _ : escape? rest with
        | none => none
        | some (char, after) => stringBody? (char :: before) after
      else if c.toNat < 0x20 then none
      else stringBody? (c :: before) rest
termination_by chars.length
decreasing_by
  · exact Nat.lt_succ_of_lt (length_escape?_lt ‹_›)
  · exact Nat.lt_succ_self _

theorem length_stringBody?_lt {before chars rest : List Char} {value : String}
    (h : stringBody? before chars = some (value, rest)) : rest.length < chars.length := by
  fun_induction stringBody? before chars with
  | case1 => cases h
  | case2 =>
      cases h
      simp
  | case3 => cases h
  | case4 _ _ _ _ escaped _ ih =>
      have := ih h
      have := length_escape?_lt escaped
      simp only [List.length_cons]
      omega
  | case5 => cases h
  | case6 _ _ _ _ _ _ ih =>
      have := ih h
      simp only [List.length_cons]
      omega

/-! ### The cut into lexemes -/

def lexeme? : List Char → Option (Lexeme × List Char)
  | '{' :: rest => some (.openBrace, rest)
  | '}' :: rest => some (.closeBrace, rest)
  | '[' :: rest => some (.openBracket, rest)
  | ']' :: rest => some (.closeBracket, rest)
  | ',' :: rest => some (.comma, rest)
  | ':' :: rest => some (.colon, rest)
  | 'n' :: 'u' :: 'l' :: 'l' :: rest => some (.null, rest)
  | 't' :: 'r' :: 'u' :: 'e' :: rest => some (.boolean true, rest)
  | 'f' :: 'a' :: 'l' :: 's' :: 'e' :: rest => some (.boolean false, rest)
  | '"' :: rest => (stringBody? [] rest).map fun (value, after) => (.string value, after)
  | chars => numberLexeme? chars

theorem length_lexeme?_lt {chars rest : List Char} {lexeme : Lexeme}
    (h : lexeme? chars = some (lexeme, rest)) : rest.length < chars.length := by
  unfold lexeme? at h
  split at h
  case h_10 tail =>
    simp only [Option.map_eq_some_iff] at h
    obtain ⟨⟨value, after⟩, body, pair⟩ := h
    cases pair
    have := length_stringBody?_lt body
    simp only [List.length_cons]
    omega
  case h_11 => exact length_numberLexeme?_lt h
  all_goals
    cases h
    simp only [List.length_cons]
    omega

def isBlank (c : Char) : Bool :=
  c = ' ' || c = '\t' || c = '\n' || c = '\r'

/-- Cuts a character sequence into lexemes; `before` holds those already cut, the latest one first. -/
def lexemesOnto (before : List Lexeme) (chars : List Char) : List Lexeme :=
  match chars with
  | [] => before.reverse
  | c :: rest =>
      if isBlank c then lexemesOnto before rest
      else
        match _ : lexeme? (c :: rest) with
        | none => (.broken :: before).reverse
        | some (lexeme, after) => lexemesOnto (lexeme :: before) after
termination_by chars.length
decreasing_by
  · exact Nat.lt_succ_self _
  · exact length_lexeme?_lt ‹_›

/-- The lexemes of a text. The last one is broken if some part of the text is no lexeme. -/
def lexemes (text : String) : List Lexeme :=
  lexemesOnto [] text.toList

end RecordRules.Json
