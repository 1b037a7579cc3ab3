import RecordRules.Proofs.LexemeText

/-! The grammar of lexemes. A text is related to the lexemes that it is one way to write: each character
of a string can stand for itself or be escaped, and blanks can stand in front of every lexeme. The cut of
a text into lexemes begins with given ones exactly if the text begins with one of the ways to write them.
Numbers are left out, as where a number ends depends on what follows it. -/

namespace RecordRules.Json

open RuleText (StartsOutside startsOutside_cons)

/-! ### Lexemes -/

/-- The lexemes that have an end of their own: all but a number, which goes on as long as it can, and a
broken one. -/
def Lexeme.isClosed : Lexeme → Bool
  | .number _ => false
  | .broken => false
  | _ => true

/-- How a lexeme with an end of its own may be written. -/
inductive LexemeText : List Char → Lexeme → Prop where
  | openBrace : LexemeText ['{'] .openBrace
  | closeBrace : LexemeText ['}'] .closeBrace
  | openBracket : LexemeText ['['] .openBracket
  | closeBracket : LexemeText [']'] .closeBracket
  | comma : LexemeText [','] .comma
  | colon : LexemeText [':'] .colon
  | null : LexemeText ['n', 'u', 'l', 'l'] .null
  | trueWord : LexemeText ['t', 'r', 'u', 'e'] (.boolean true)
  | falseWord : LexemeText ['f', 'a', 'l', 's', 'e'] (.boolean false)
  | string {body text : List Char} (h : StringText body text) :
      LexemeText ('"' :: (body ++ ['"'])) (.string (String.ofList text))

theorem LexemeText.lexeme?_append {spelled : List Char} {lexeme : Lexeme}
    (h : LexemeText spelled lexeme) (rest : List Char) :
    lexeme? (spelled ++ rest) = some (lexeme, rest) := by
  cases h with
  | string htext =>
      rw [List.cons_append, List.append_assoc, List.singleton_append, lexeme?,
        htext.stringBody?_append]
      rfl
  | _ => rfl

theorem LexemeText.isClosed {spelled : List Char} {lexeme : Lexeme} (h : LexemeText spelled lexeme) :
    lexeme.isClosed = true := by
  cases h <;> rfl

theorem LexemeText.startsOutside {spelled : List Char} {lexeme : Lexeme} (h : LexemeText spelled lexeme)
    (rest : List Char) : StartsOutside isBlank (spelled ++ rest) := by
  cases h <;> exact startsOutside_cons (by decide)

theorem exists_lexemeText_of_lexeme? {chars rest : List Char} {lexeme : Lexeme}
    (hclosed : lexeme.isClosed = true) (h : lexeme? chars = some (lexeme, rest)) :
    ∃ spelled, chars = spelled ++ rest ∧ LexemeText spelled lexeme := by
  unfold lexeme? at h
  split at h
  case h_10 tail =>
    rw [Option.map_eq_some_iff] at h
    obtain ⟨⟨value, after⟩, hbody, hpair⟩ := h
    cases hpair
    obtain ⟨body, text, rfl, htext, rfl⟩ := stringBody?_eq_some_iff.mp hbody
    exact ⟨_, by simp, .string htext⟩
  case h_11 =>
    obtain ⟨value, rfl, _⟩ := exists_number_of_numberLexeme? h
    cases hclosed
  all_goals
    cases h
    exact ⟨_, rfl, by constructor⟩

/-! ### Texts -/

/-- How lexemes may be written one after the other, with blanks in front of each. -/
inductive LexemesText : List Char → List Lexeme → Prop where
  | nil : LexemesText [] []
  | cons {blanks spelled rest : List Char} {lexeme : Lexeme} {lexemes : List Lexeme}
      (hblanks : ∀ c ∈ blanks, isBlank c = true) (hlexeme : LexemeText spelled lexeme)
      (hrest : LexemesText rest lexemes) :
      LexemesText (blanks ++ (spelled ++ rest)) (lexeme :: lexemes)

/-- What is cut already does not bear on what is cut next. -/
theorem lexemesOnto_append (before earlier : List Lexeme) (chars : List Char) :
    lexemesOnto (before ++ earlier) chars = earlier.reverse ++ lexemesOnto before chars := by
  fun_induction lexemesOnto before chars with
  | case1 before => rw [lexemesOnto, List.reverse_append]
  | case2 before c rest hblank ih => rw [lexemesOnto, if_pos hblank, ih]
  | case3 before c rest hblank hnone =>
      rw [lexemesOnto, if_neg hblank]
      split
      · rw [← List.cons_append, List.reverse_append]
      · rename_i hsome
        rw [hnone] at hsome
        cases hsome
  | case4 before c rest hblank lexeme after hlexeme ih =>
      rw [lexemesOnto_of_lexeme? (startsOutside_cons (Bool.eq_false_iff.mpr hblank)) hlexeme,
        ← List.cons_append, ih]

theorem lexemesOnto_eq (before : List Lexeme) (chars : List Char) :
    lexemesOnto before chars = before.reverse ++ lexemesOnto [] chars :=
  lexemesOnto_append [] before chars

/-- Where no blank is, a lexeme starts or the cut ends. -/
theorem lexemesOnto_cons_cases {c : Char} (hc : isBlank c = false) (rest : List Char) :
    lexemesOnto [] (c :: rest) = [.broken] ∨
      ∃ lexeme after, lexeme? (c :: rest) = some (lexeme, after) ∧
        lexemesOnto [] (c :: rest) = lexeme :: lexemesOnto [] after := by
  cases hlexeme : lexeme? (c :: rest) with
  | none =>
      left
      rw [lexemesOnto, if_neg (Bool.eq_false_iff.mp hc)]
      split
      · rfl
      · rename_i hsome
        rw [hlexeme] at hsome
        cases hsome
  | some cut =>
      obtain ⟨lexeme, after⟩ := cut
      refine Or.inr ⟨lexeme, after, rfl, ?_⟩
      rw [lexemesOnto_of_lexeme? (startsOutside_cons hc) hlexeme, lexemesOnto_eq]
      rfl

theorem lexemesOnto_blanks_append {blanks : List Char} (h : ∀ c ∈ blanks, isBlank c = true)
    (before : List Lexeme) (chars : List Char) :
    lexemesOnto before (blanks ++ chars) = lexemesOnto before chars := by
  induction blanks with
  | nil => rfl
  | cons c blanks ih =>
      obtain ⟨hc, hblanks⟩ := List.forall_mem_cons.mp h
      rw [List.cons_append, lexemesOnto, if_pos hc, ih hblanks]

theorem LexemesText.lexemesOnto_append {spelled : List Char} {lexemes : List Lexeme}
    (h : LexemesText spelled lexemes) (rest : List Char) :
    lexemesOnto [] (spelled ++ rest) = lexemes ++ lexemesOnto [] rest := by
  induction h with
  | nil => rfl
  | cons hblanks hlexeme _ ih =>
      rw [List.append_assoc, List.append_assoc, lexemesOnto_blanks_append hblanks,
        lexemesOnto_of_lexeme? (hlexeme.startsOutside _) (hlexeme.lexeme?_append _), lexemesOnto_eq, ih]
      rfl

theorem lexemesOnto_eq_nil_iff {chars : List Char} :
    lexemesOnto [] chars = [] ↔ ∀ c ∈ chars, isBlank c = true := by
  induction chars with
  | nil => exact iff_of_true (by rw [lexemesOnto, List.reverse_nil]) (List.forall_mem_nil _)
  | cons c rest ih =>
      rw [List.forall_mem_cons]
      cases hc : isBlank c with
      | true => rw [lexemesOnto, if_pos hc, ih, eq_self, true_and]
      | false =>
          refine iff_of_false ?_ fun h => Bool.false_ne_true h.1
          rcases lexemesOnto_cons_cases hc rest with h | ⟨lexeme, after, _, h⟩ <;> rw [h] <;>
            exact List.cons_ne_nil _ _

/-- A lexeme at the beginning of the cut stands at the beginning of the text, behind blanks. -/
theorem exists_lexemeText {chars : List Char} {lexeme : Lexeme} {lexemes : List Lexeme}
    (hclosed : lexeme.isClosed = true) (h : lexemesOnto [] chars = lexeme :: lexemes) :
    ∃ blanks spelled rest, chars = blanks ++ (spelled ++ rest) ∧ (∀ c ∈ blanks, isBlank c = true) ∧
      LexemeText spelled lexeme ∧ lexemesOnto [] rest = lexemes := by
  induction chars with
  | nil =>
      rw [lexemesOnto] at h
      cases h
  | cons c rest ih =>
      cases hc : isBlank c with
      | true =>
          rw [lexemesOnto, if_pos hc] at h
          obtain ⟨blanks, spelled, rest', rfl, hblanks, hspelled⟩ := ih h
          exact ⟨c :: blanks, spelled, rest', rfl, List.forall_mem_cons.mpr ⟨hc, hblanks⟩, hspelled⟩
      | false =>
          rcases lexemesOnto_cons_cases hc rest with hbroken | ⟨first, after, hfirst, hcut⟩
          · rw [hbroken] at h
            cases h
            cases hclosed
          · rw [hcut] at h
            cases h
            obtain ⟨spelled, hspelled, htext⟩ := exists_lexemeText_of_lexeme? hclosed hfirst
            exact ⟨[], spelled, after, hspelled, List.forall_mem_nil _, htext, rfl⟩

theorem exists_lexemesText {chars : List Char} {lexemes further : List Lexeme}
    (hclosed : ∀ lexeme ∈ lexemes, lexeme.isClosed = true)
    (h : lexemesOnto [] chars = lexemes ++ further) :
    ∃ spelled rest, chars = spelled ++ rest ∧ LexemesText spelled lexemes ∧
      lexemesOnto [] rest = further := by
  induction lexemes generalizing chars with
  | nil => exact ⟨[], chars, rfl, .nil, h⟩
  | cons lexeme lexemes ih =>
      obtain ⟨hlexeme, hlexemes⟩ := List.forall_mem_cons.mp hclosed
      obtain ⟨blanks, first, tail, rfl, hblanks, hfirst, htail⟩ := exists_lexemeText hlexeme h
      obtain ⟨spelled, rest, rfl, hspelled, hrest⟩ := ih hlexemes htail
      exact ⟨blanks ++ (first ++ spelled), rest, by simp only [List.append_assoc],
        .cons hblanks hfirst hspelled, hrest⟩

/-- A text begins with given lexemes exactly if it begins with a way to write them. -/
theorem exists_lexemes_eq_append_iff {text : String} {lexemes : List Lexeme}
    (hclosed : ∀ lexeme ∈ lexemes, lexeme.isClosed = true) :
    (∃ further, Json.lexemes text = lexemes ++ further) ↔
      ∃ spelled rest, text.toList = spelled ++ rest ∧ LexemesText spelled lexemes := by
  constructor
  · rintro ⟨further, h⟩
    obtain ⟨spelled, rest, htext, hspelled, _⟩ := exists_lexemesText hclosed h
    exact ⟨spelled, rest, htext, hspelled⟩
  · rintro ⟨spelled, rest, htext, hspelled⟩
    exact ⟨_, by rw [Json.lexemes, htext, hspelled.lexemesOnto_append]⟩

theorem lexemes_eq_iff {text : String} {lexemes : List Lexeme}
    (hclosed : ∀ lexeme ∈ lexemes, lexeme.isClosed = true) :
    Json.lexemes text = lexemes ↔ ∃ spelled blanks, text.toList = spelled ++ blanks ∧
      LexemesText spelled lexemes ∧ ∀ c ∈ blanks, isBlank c = true := by
  constructor
  · intro h
    obtain ⟨spelled, blanks, htext, hspelled, hblanks⟩ :=
      exists_lexemesText hclosed (h.trans (List.append_nil _).symm)
    exact ⟨spelled, blanks, htext, hspelled, lexemesOnto_eq_nil_iff.mp hblanks⟩
  · rintro ⟨spelled, blanks, htext, hspelled, hblanks⟩
    rw [Json.lexemes, htext, hspelled.lexemesOnto_append, lexemesOnto_eq_nil_iff.mpr hblanks,
      List.append_nil]

end RecordRules.Json
