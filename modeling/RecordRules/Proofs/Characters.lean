import RecordRules.RuleText.OperandText
import RecordRules.Text.Blank

/-! The kinds of characters in a rule text, by their codes. The kinds that stand next to each other in
an operand have no character in common, and none of them has a blank. -/

namespace RecordRules.RuleText

theorem isNameChar_iff (c : Char) : isNameChar c = true ↔ 97 ≤ c.toNat ∧ c.toNat ≤ 122 := by
  have hcodes : isNameChar c = (decide (97 ≤ c.toNat) && decide (c.toNat ≤ 122)) := rfl
  rw [hcodes, Bool.and_eq_true, decide_eq_true_eq, decide_eq_true_eq]

theorem isComparatorChar_iff (c : Char) :
    isComparatorChar c = true ↔ 60 ≤ c.toNat ∧ c.toNat ≤ 62 := by
  simp only [isComparatorChar, Bool.or_eq_true, decide_eq_true_eq, ← Char.toNat_inj]
  change ((_ = 62 ∨ _ = 60) ∨ _ = 61) ↔ _
  omega

theorem isDigit_iff (c : Char) : c.isDigit = true ↔ 48 ≤ c.toNat ∧ c.toNat ≤ 57 :=
  Char.isDigit_iff_toNat

theorem isUpper_iff (c : Char) : c.isUpper = true ↔ 65 ≤ c.toNat ∧ c.toNat ≤ 90 := by
  have hcodes : c.isUpper = decide (65 ≤ c.toNat ∧ c.toNat ≤ 90) := rfl
  rw [hcodes, decide_eq_true_eq]

theorem isAlpha_iff (c : Char) :
    c.isAlpha = true ↔ (65 ≤ c.toNat ∧ c.toNat ≤ 90) ∨ (97 ≤ c.toNat ∧ c.toNat ≤ 122) := by
  have hcases : c.isAlpha = (c.isUpper || isNameChar c) := rfl
  rw [hcases, Bool.or_eq_true, isUpper_iff, isNameChar_iff]

theorem isNameChar_of_isComparatorChar {c : Char} (h : isComparatorChar c = true) :
    isNameChar c = false := by
  rw [isComparatorChar_iff] at h
  rw [Bool.eq_false_iff, ne_eq, isNameChar_iff]
  omega

theorem isComparatorChar_of_isNameChar {c : Char} (h : isNameChar c = true) :
    isComparatorChar c = false := by
  rw [isNameChar_iff] at h
  rw [Bool.eq_false_iff, ne_eq, isComparatorChar_iff]
  omega

/-- The visible ASCII characters are not blank. -/
theorem isBlank_eq_false {c : Char} (hlow : 33 ≤ c.toNat) (hhigh : c.toNat ≤ 126) :
    Text.isBlank c = false := by
  simp only [Text.isBlank, Text.blankRanges, List.any_cons, List.any_nil, Bool.or_false,
    Bool.or_eq_false_iff, Bool.and_eq_false_iff, decide_eq_false_iff_not]
  omega

/-! ### Runs -/

/-- A non-empty character sequence of one kind. -/
def IsRun (kind : Char → Bool) (chars : List Char) : Prop :=
  chars ≠ [] ∧ ∀ c ∈ chars, kind c = true

instance (kind : Char → Bool) (chars : List Char) : Decidable (IsRun kind chars) :=
  decidable_of_iff (chars.isEmpty = false ∧ chars.all kind = true)
    (and_congr List.isEmpty_eq_false_iff List.all_eq_true)

/-- A character sequence that is empty or starts with a character of another kind. -/
def StartsOutside (kind : Char → Bool) (chars : List Char) : Prop :=
  chars.takeWhile kind = []

variable {kind : Char → Bool} {run rest : List Char}

theorem startsOutside_iff {chars : List Char} :
    StartsOutside kind chars ↔ ∀ c, chars.head? = some c → kind c = false := by
  cases chars with
  | nil => exact iff_of_true rfl nofun
  | cons c rest => simp [StartsOutside, List.takeWhile_cons]

theorem startsOutside_dropWhile (chars : List Char) :
    StartsOutside kind (chars.dropWhile kind) := by
  rw [startsOutside_iff]
  intro c hc
  have h := List.head?_dropWhile_not kind chars
  rw [hc] at h
  exact h

theorem startsOutside_cons {c : Char} (h : kind c = false) : StartsOutside kind (c :: rest) := by
  rw [StartsOutside, List.takeWhile_cons, h]
  rfl

theorem takeWhile_of_all (hall : ∀ c ∈ run, kind c = true) (hrest : StartsOutside kind rest) :
    (run ++ rest).takeWhile kind = run := by
  rw [List.takeWhile_append_of_pos hall, hrest, List.append_nil]

theorem dropWhile_of_all (hall : ∀ c ∈ run, kind c = true) (hrest : StartsOutside kind rest) :
    (run ++ rest).dropWhile kind = rest := by
  have h : rest.takeWhile kind ++ rest.dropWhile kind = rest := List.takeWhile_append_dropWhile
  rw [hrest, List.nil_append] at h
  rw [List.dropWhile_append_of_pos hall, h]

theorem takeWhile_run (hrun : IsRun kind run) (hrest : StartsOutside kind rest) :
    (run ++ rest).takeWhile kind = run :=
  takeWhile_of_all hrun.2 hrest

theorem dropWhile_run (hrun : IsRun kind run) (hrest : StartsOutside kind rest) :
    (run ++ rest).dropWhile kind = rest :=
  dropWhile_of_all hrun.2 hrest

/-- Where a run at the start of a text ends is given by the text. -/
theorem run_append_inj {run' rest' : List Char} (hall : ∀ c ∈ run, kind c = true)
    (hrest : StartsOutside kind rest) (hall' : ∀ c ∈ run', kind c = true)
    (hrest' : StartsOutside kind rest') (h : run ++ rest = run' ++ rest') :
    run = run' ∧ rest = rest' := by
  constructor
  · rw [← takeWhile_of_all hall hrest, h, takeWhile_of_all hall' hrest']
  · rw [← dropWhile_of_all hall hrest, h, dropWhile_of_all hall' hrest']

theorem kind_of_mem_takeWhile {chars : List Char} : ∀ c ∈ chars.takeWhile kind, kind c = true :=
  List.all_eq_true.mp List.all_takeWhile

theorem isRun_takeWhile {chars : List Char} (h : chars.takeWhile kind ≠ []) :
    IsRun kind (chars.takeWhile kind) :=
  ⟨h, kind_of_mem_takeWhile⟩

/-- A run of one kind starts outside another kind that has no character in common with it. -/
theorem IsRun.startsOutside {other : Char → Bool} (hrun : IsRun kind run)
    (hdisjoint : ∀ c, kind c = true → other c = false) : StartsOutside other (run ++ rest) := by
  obtain ⟨hne, hall⟩ := hrun
  obtain ⟨c, cs, rfl⟩ := List.exists_cons_of_ne_nil hne
  exact startsOutside_cons (hdisjoint c (hall c List.mem_cons_self))

end RecordRules.RuleText
