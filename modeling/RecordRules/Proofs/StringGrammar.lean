import Mathlib.Tactic.SplitIfs
import RecordRules.Json.Lexeme
import RecordRules.Proofs.Characters

/-! The grammar of strings. The inside of a string is related to the text that it stands for: each
character stands as it is or is escaped, by a sign of its own, by its code, or by the codes of its two
surrogates. A string is read exactly if it is one of the ways to write a text, and then as this text. -/

namespace RecordRules.Json

open RuleText

/-! ### Escapes -/

/-- A hexadecimal digit of either case, with its value. -/
def HexDigit (c : Char) (k : Nat) : Prop :=
  k < 16 ∧ (c = Nat.digitChar k ∨ c = (Nat.digitChar k).toUpper)

theorem hexValue?_digitChar {k : Nat} (h : k < 16) : hexValue? (Nat.digitChar k) = some k := by
  have hall : ∀ k < 16, hexValue? (Nat.digitChar k) = some k := by decide
  exact hall k h

theorem hexValue?_eq_some_iff {c : Char} {k : Nat} : hexValue? c = some k ↔ HexDigit c k := by
  constructor
  · intro h
    have hdecimal : ∀ k < 10, (Nat.digitChar k).toNat = k + 48 := by decide
    have hlower : ∀ k < 16, 10 ≤ k → (Nat.digitChar k).toNat = k + 87 := by decide
    have hupper : ∀ k < 16, 10 ≤ k → (Nat.digitChar k).toUpper.toNat = k + 55 := by decide
    unfold hexValue? at h
    split_ifs at h with hdigit hsmall hcapital
    · change some (c.toNat - 48) = some k at h
      rw [isDigit_iff] at hdigit
      have hk := Option.some_inj.mp h
      have hcode := hdecimal k (by omega)
      exact ⟨by omega, Or.inl (Char.toNat_inj.mp (by omega))⟩
    · change some (c.toNat - 97 + 10) = some k at h
      change 97 ≤ c.toNat ∧ c.toNat ≤ 102 at hsmall
      have hk := Option.some_inj.mp h
      have hcode := hlower k (by omega) (by omega)
      exact ⟨by omega, Or.inl (Char.toNat_inj.mp (by omega))⟩
    · change some (c.toNat - 65 + 10) = some k at h
      change 65 ≤ c.toNat ∧ c.toNat ≤ 70 at hcapital
      have hk := Option.some_inj.mp h
      have hcode := hupper k (by omega) (by omega)
      exact ⟨by omega, Or.inr (Char.toNat_inj.mp (by omega))⟩
  · rintro ⟨hk, rfl | rfl⟩
    · exact hexValue?_digitChar hk
    · have hall : ∀ k < 16, hexValue? (Nat.digitChar k).toUpper = some k := by decide
      exact hall k hk

/-- Four hexadecimal digits with the number that they stand for. -/
inductive CodeUnitText : List Char → Nat → Prop where
  | mk {a b c d : Char} {i j k l : Nat} (ha : HexDigit a i) (hb : HexDigit b j) (hc : HexDigit c k)
      (hd : HexDigit d l) : CodeUnitText [a, b, c, d] (((i * 16 + j) * 16 + k) * 16 + l)

theorem codeUnit?_eq_some_iff {chars rest : List Char} {unit : Nat} :
    codeUnit? chars = some (unit, rest) ↔
      ∃ digits, chars = digits ++ rest ∧ CodeUnitText digits unit := by
  constructor
  · intro h
    unfold codeUnit? at h
    split at h
    · simp only [Option.bind_eq_bind, Option.bind_eq_some_iff, Option.pure_def, Option.some.injEq,
        Prod.mk.injEq] at h
      obtain ⟨i, hi, j, hj, k, hk, l, hl, rfl, rfl⟩ := h
      rw [hexValue?_eq_some_iff] at hi hj hk hl
      exact ⟨_, rfl, .mk hi hj hk hl⟩
    · cases h
  · rintro ⟨_, rfl, hi, hj, hk, hl⟩
    rw [← hexValue?_eq_some_iff] at hi hj hk hl
    simp only [List.cons_append, List.nil_append, codeUnit?, hi, hj, hk, hl]
    rfl

theorem CodeUnitText.lt {digits : List Char} {unit : Nat} (h : CodeUnitText digits unit) :
    unit < 0x10000 := by
  obtain ⟨⟨hi, _⟩, ⟨hj, _⟩, ⟨hk, _⟩, ⟨hl, _⟩⟩ := h
  omega

/-- The signs that may follow a backslash, each with the character that both stand for. -/
def shortEscapes : List (Char × Char) :=
  [('"', '"'), ('\\', '\\'), ('/', '/'), ('b', '\x08'), ('f', '\x0c'), ('n', '\n'), ('r', '\r'),
    ('t', '\t')]

/-- What may follow a backslash, with the character that both stand for: a sign of its own, or the code
of the character, or, beyond the first 65536 characters, its two surrogates. -/
inductive EscapeText : List Char → Char → Prop where
  | short {letter c : Char} (h : (letter, c) ∈ shortEscapes) : EscapeText [letter] c
  | code {digits : List Char} {c : Char} (h : CodeUnitText digits c.toNat) : EscapeText ('u' :: digits) c
  | surrogates {high low : Nat} {first second : List Char} {c : Char}
      (hhigh : CodeUnitText first (0xD800 + high)) (hlow : CodeUnitText second (0xDC00 + low))
      (hhighRange : high < 0x400) (hlowRange : low < 0x400)
      (hc : c.toNat = 0x10000 + high * 0x400 + low) :
      EscapeText ('u' :: (first ++ '\\' :: 'u' :: second)) c

theorem simpleEscape?_eq_some_iff {letter c : Char} :
    simpleEscape? letter = some c ↔ (letter, c) ∈ shortEscapes := by
  constructor
  · intro h
    unfold simpleEscape? at h
    split at h <;> cases h <;> decide
  · intro h
    simp only [shortEscapes, List.mem_cons, Prod.mk.injEq, List.not_mem_nil, or_false] at h
    rcases h with ⟨rfl, rfl⟩ | ⟨rfl, rfl⟩ | ⟨rfl, rfl⟩ | ⟨rfl, rfl⟩ | ⟨rfl, rfl⟩ | ⟨rfl, rfl⟩ |
      ⟨rfl, rfl⟩ | ⟨rfl, rfl⟩ <;> rfl

theorem toNat_ofNat_of_isValidChar {n : Nat} (h : n.isValidChar) : (Char.ofNat n).toNat = n := by
  rw [Char.ofNat, dif_pos h]
  exact BitVec.toNat_ofNatLT _ _

theorem codeUnit?_of_text {digits : List Char} {unit : Nat} (h : CodeUnitText digits unit)
    (rest : List Char) : codeUnit? (digits ++ rest) = some (unit, rest) :=
  codeUnit?_eq_some_iff.mpr ⟨digits, rfl, h⟩

theorem unicodeEscape?_eq_some {chars rest : List Char} {c : Char}
    (h : unicodeEscape? chars = some (c, rest)) :
    ∃ escaped, 'u' :: chars = escaped ++ rest ∧ EscapeText escaped c := by
  unfold unicodeEscape? at h
  split at h
  case h_1 => cases h
  case h_2 unit after hunit =>
    obtain ⟨digits, rfl, hdigits⟩ := codeUnit?_eq_some_iff.mp hunit
    have hlt := hdigits.lt
    split_ifs at h with hhigh hlow
    · split at h
      case h_1 tail =>
        split at h
        case h_1 => cases h
        case h_2 low rest' hlow =>
          obtain ⟨second, rfl, hsecond⟩ := codeUnit?_eq_some_iff.mp hlow
          split_ifs at h with hrange
          rw [Option.some_inj, Prod.mk.injEq] at h
          obtain ⟨rfl, rfl⟩ := h
          obtain ⟨i, rfl⟩ := Nat.exists_eq_add_of_le hhigh.1
          obtain ⟨j, rfl⟩ := Nat.exists_eq_add_of_le hrange.1
          refine ⟨_, ?_, .surrogates hdigits hsecond (by omega) (by omega) ?_⟩
          · simp
          · rw [toNat_ofNat_of_isValidChar (Or.inr (by omega))]
            omega
      case h_2 => cases h
    · cases h
      -- four digits that are no surrogate are the code of a character
      have hvalid : unit.isValidChar := by
        simp only [Nat.isValidChar]
        omega
      refine ⟨_, rfl, .code ?_⟩
      rwa [toNat_ofNat_of_isValidChar hvalid]

/-- What is read behind a backslash is an escape, and the longest one that starts there. -/
theorem escape?_eq_some_iff {chars rest : List Char} {c : Char} :
    escape? chars = some (c, rest) ↔ ∃ escaped, chars = escaped ++ rest ∧ EscapeText escaped c := by
  constructor
  · intro h
    unfold escape? at h
    split at h
    · cases h
    · exact unicodeEscape?_eq_some h
    · rw [Option.map_eq_some_iff] at h
      obtain ⟨c, hc, hpair⟩ := h
      cases hpair
      exact ⟨_, rfl, .short (simpleEscape?_eq_some_iff.mp hc)⟩
  · rintro ⟨escaped, rfl, h | hdigits | ⟨hhigh, hlow, hhighRange, hlowRange, hc⟩⟩
    · rename_i letter
      have hletter : letter ≠ 'u' := by
        rintro rfl
        simp [shortEscapes] at h
      rw [List.singleton_append, escape?, simpleEscape?_eq_some_iff.mpr h, Option.map_some]
      exact hletter
    · have hvalid : c.toNat < 0xD800 ∨ 0xDFFF < c.toNat ∧ c.toNat < 0x110000 := c.valid
      rw [List.cons_append, escape?, unicodeEscape?, codeUnit?_of_text hdigits]
      simp only
      rw [if_neg (by omega), if_neg (by omega), Char.ofNat_toNat]
    · rename_i high low first second
      have hcode : 0x10000 + (0xD800 + high - 0xD800) * 0x400 + (0xDC00 + low - 0xDC00) = c.toNat := by
        omega
      rw [List.cons_append, List.append_assoc, escape?, unicodeEscape?, codeUnit?_of_text hhigh]
      simp only [List.cons_append]
      rw [if_pos (by omega), codeUnit?_of_text hlow]
      simp only
      rw [if_pos (by omega), hcode, Char.ofNat_toNat]

/-! ### Strings -/

/-- How a character may stand in a string: as it is, or escaped. -/
inductive CharText : List Char → Char → Prop where
  | plain {c : Char} (hquote : c ≠ '"') (hbackslash : c ≠ '\\') (hcontrol : 0x20 ≤ c.toNat) :
      CharText [c] c
  | escaped {escaped : List Char} {c : Char} (h : EscapeText escaped c) : CharText ('\\' :: escaped) c

/-- How a text may stand between its quotes. -/
inductive StringText : List Char → List Char → Prop where
  | nil : StringText [] []
  | cons {spelled body text : List Char} {c : Char} (hc : CharText spelled c)
      (hrest : StringText body text) : StringText (spelled ++ body) (c :: text)

theorem CharText.stringBody?_append {spelled : List Char} {c : Char} (h : CharText spelled c)
    (before rest : List Char) :
    stringBody? before (spelled ++ rest) = stringBody? (c :: before) rest := by
  cases h with
  | plain hquote hbackslash hcontrol =>
      rw [List.singleton_append, stringBody?, if_neg hquote, if_neg hbackslash,
        if_neg (Nat.not_lt.mpr hcontrol)]
  | escaped h =>
      rename_i escaped
      have hread : escape? (escaped ++ rest) = some (c, rest) := escape?_eq_some_iff.mpr ⟨_, rfl, h⟩
      rw [List.cons_append, stringBody?, if_neg (by decide), if_pos rfl]
      split
      · rename_i hnone
        rw [hread] at hnone
        cases hnone
      · rename_i hsome
        rw [hread] at hsome
        cases hsome
        rfl

theorem StringText.stringBody?_append {body text : List Char} (h : StringText body text)
    (before rest : List Char) :
    stringBody? before (body ++ '"' :: rest) = some (String.ofList (before.reverse ++ text), rest) := by
  induction h generalizing before with
  | nil => rw [List.nil_append, stringBody?, if_pos rfl, List.append_nil]
  | cons hc _ ih =>
      rw [List.append_assoc, hc.stringBody?_append, ih, List.reverse_cons, List.append_assoc,
        List.singleton_append]

/-- A string ends at the first quote that is not part of an escape. -/
theorem stringBody?_eq_some_iff {before chars rest : List Char} {value : String} :
    stringBody? before chars = some (value, rest) ↔
      ∃ body text, chars = body ++ '"' :: rest ∧ StringText body text ∧
        value = String.ofList (before.reverse ++ text) := by
  constructor
  · intro h
    fun_induction stringBody? before chars with
    | case1 => cases h
    | case2 before rest' =>
        cases h
        exact ⟨[], [], rfl, .nil, by rw [List.append_nil]⟩
    | case3 => cases h
    | case4 before tail c after hescape _ ih =>
        obtain ⟨body, text, rfl, htext, rfl⟩ := ih h
        obtain ⟨escaped, rfl, hescaped⟩ := escape?_eq_some_iff.mp hescape
        exact ⟨_, _, by simp, .cons (.escaped hescaped) htext, by simp⟩
    | case5 => cases h
    | case6 before c tail hquote hbackslash hcontrol ih =>
        obtain ⟨body, text, rfl, htext, rfl⟩ := ih h
        exact ⟨_, _, rfl, .cons (.plain hquote hbackslash (Nat.not_lt.mp hcontrol)) htext, by simp⟩
  · rintro ⟨body, text, rfl, htext, rfl⟩
    exact htext.stringBody?_append before rest

end RecordRules.Json
