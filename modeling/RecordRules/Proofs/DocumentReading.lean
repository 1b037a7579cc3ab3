import RecordRules.Proofs.JsonRoundTrip

/-! Documents are read from their own lexemes only. At every point of a reading, what it holds accounts
for all the lexemes that it has taken, in order: those of the frames from the outside in, each with its
opening and what stands before the unfinished part, and those of the value that was completed last. So a
text that is read as a document has exactly the lexemes of this document, none of them broken, and no
number of it is beyond the finite ones. -/

namespace RecordRules.Json

/-! ### Parts with a comma behind each -/

def elementsBefore (before : List Json) : List Lexeme :=
  before.flatMap fun element => element.spelling ++ [.comma]

def membersBefore (before : List (String × Json)) : List Lexeme :=
  before.flatMap fun member => .string member.1 :: .colon :: (member.2.spelling ++ [.comma])

theorem elementsSpelling_append (first : Json) (before : List Json) (last : Json) :
    first.spelling ++ elementsSpelling (before ++ [last]) =
      elementsBefore (first :: before) ++ last.spelling ++ [.closeBracket] := by
  induction before generalizing first with
  | nil => simp [elementsSpelling, elementsBefore]
  | cons next before ih =>
      rw [List.cons_append, elementsSpelling, ih, elementsBefore, elementsBefore, List.flatMap_cons]
      simp

theorem spelling_array (before : List Json) (last : Json) :
    (Json.array (before ++ [last])).spelling =
      .openBracket :: (elementsBefore before ++ last.spelling ++ [.closeBracket]) := by
  cases before with
  | nil => simp [spelling, elementsSpelling, elementsBefore]
  | cons first before => rw [List.cons_append, spelling, elementsSpelling_append]

theorem membersSpelling_append (first : String × Json) (before : List (String × Json))
    (last : String × Json) :
    .string first.1 :: .colon :: (first.2.spelling ++ membersSpelling (before ++ [last])) =
      membersBefore (first :: before) ++
        .string last.1 :: .colon :: (last.2.spelling ++ [.closeBrace]) := by
  induction before generalizing first with
  | nil => simp [membersSpelling, membersBefore]
  | cons next before ih =>
      rw [List.cons_append, membersSpelling, ih, membersBefore, membersBefore, List.flatMap_cons]
      simp

theorem spelling_object (before : List (String × Json)) (last : String × Json) :
    (Json.object (before ++ [last])).spelling =
      .openBrace ::
        (membersBefore before ++ .string last.1 :: .colon :: (last.2.spelling ++ [.closeBrace])) := by
  cases before with
  | nil => simp [spelling, membersSpelling, membersBefore]
  | cons first before => rw [List.cons_append, spelling, membersSpelling_append]

/-! ### The lexemes that a reading has taken -/

/-- The lexemes of an unfinished array or object, up to its unfinished part. -/
def Frame.taken : Frame → List Lexeme
  | .array before => .openBracket :: elementsBefore before.reverse
  | .object before key => .openBrace :: (membersBefore before.reverse ++ [.string key, .colon])

def framesTaken : List Frame → List Lexeme
  | [] => []
  | frame :: outer => framesTaken outer ++ frame.taken

namespace Reading

def taken : Reading → List Lexeme
  | .value outer => framesTaken outer
  | .firstElement outer => framesTaken outer ++ [.openBracket]
  | .firstKey outer => framesTaken outer ++ [.openBrace]
  | .nextKey before outer => framesTaken outer ++ .openBrace :: membersBefore before.reverse
  | .colon before key outer =>
      framesTaken outer ++ .openBrace :: (membersBefore before.reverse ++ [.string key])
  | .complete done outer => framesTaken outer ++ done.spelling

section

variable {limit : Nat} {next : Reading} {lexeme : Lexeme}

theorem taken_startValue? {outer : List Frame} (h : startValue? limit outer lexeme = some next) :
    next.taken = framesTaken outer ++ [lexeme] := by
  unfold startValue? at h
  split at h
  case h_5 =>
    split at h
    · cases h
      rfl
    · cases h
  case h_6 =>
    split at h
    · cases h
      rfl
    · cases h
  case h_7 => cases h
  all_goals
    cases h
    rw [taken, spelling]

theorem taken_continueFrame? {done : Json} {frame : Frame} {outer : List Frame}
    (h : continueFrame? done frame outer lexeme = some next) :
    next.taken = framesTaken (frame :: outer) ++ done.spelling ++ [lexeme] := by
  unfold continueFrame? at h
  split at h
  · split at h <;> cases h
    · simp [taken, framesTaken, Frame.taken, elementsBefore]
    · simp [taken, framesTaken, Frame.taken, membersBefore]
  · split at h <;> cases h
    rw [taken, List.reverse_cons, spelling_array]
    simp [framesTaken, Frame.taken]
  · split at h <;> cases h
    rw [taken, List.reverse_cons, spelling_object]
    simp [framesTaken, Frame.taken]
  · cases h

/-- A lexeme that is taken comes behind those that were taken before. -/
theorem taken_step? {reading : Reading} (h : reading.step? limit lexeme = some next) :
    next.taken = reading.taken ++ [lexeme] := by
  unfold step? at h
  split at h
  case h_1 => exact taken_startValue? h
  case h_2 =>
    split at h
    · cases h
      simp_all [taken, spelling]
    · rw [taken_startValue? h]
      simp [taken, framesTaken, Frame.taken, elementsBefore]
  case h_7 => exact taken_continueFrame? h
  case h_8 => cases h
  all_goals
    cases h
    simp [taken, framesTaken, Frame.taken, spelling, membersBefore]

theorem taken_foldlM {reading last : Reading} {lexemes : List Lexeme}
    (h : lexemes.foldlM (step? limit) reading = some last) :
    last.taken = reading.taken ++ lexemes := by
  induction lexemes generalizing reading with
  | nil =>
      cases h
      exact (List.append_nil _).symm
  | cons lexeme lexemes ih =>
      rw [List.foldlM_cons, Option.bind_eq_bind, Option.bind_eq_some_iff] at h
      obtain ⟨next, hstep, hrest⟩ := h
      rw [ih hrest, taken_step? hstep, List.append_assoc, List.singleton_append]

end

end Reading

theorem eq_spelling_of_ofLexemes? {limit : Nat} {lexemes : List Lexeme} {document : Json}
    (h : ofLexemes? limit lexemes = some document) : lexemes = document.spelling := by
  rw [ofLexemes?, Option.bind_eq_bind, Option.bind_eq_some_iff] at h
  obtain ⟨last, hrun, hresult⟩ := h
  have htaken := Reading.taken_foldlM hrun
  unfold Reading.result? at hresult
  split at hresult
  · cases hresult
    exact htaken.symm
  · cases hresult

/-! ### No number beyond the finite ones -/

theorem Reading.step?_broken (limit : Nat) (reading : Reading) :
    reading.step? limit .broken = none := by
  cases reading with
  | complete done outer => cases outer <;> rfl
  | _ => rfl

theorem not_broken_mem_of_ofLexemes? {limit : Nat} {lexemes : List Lexeme} {document : Json}
    (h : ofLexemes? limit lexemes = some document) : .broken ∉ lexemes := by
  intro hbroken
  obtain ⟨before, after, rfl⟩ := List.append_of_mem hbroken
  rw [ofLexemes?, Option.bind_eq_bind, Option.bind_eq_some_iff] at h
  obtain ⟨last, hrun, _⟩ := h
  rw [List.foldlM_append, Option.bind_eq_bind, Option.bind_eq_some_iff] at hrun
  obtain ⟨reading, _, hafter⟩ := hrun
  rw [List.foldlM_cons, Reading.step?_broken] at hafter
  cases hafter

theorem readable_of_lexeme? {chars rest : List Char} {lexeme : Lexeme}
    (h : lexeme? chars = some (lexeme, rest)) : lexeme.Readable := by
  unfold lexeme? at h
  split at h
  case h_10 =>
    rw [Option.map_eq_some_iff] at h
    obtain ⟨_, _, hpair⟩ := h
    cases hpair
    exact trivial
  case h_11 =>
    obtain ⟨value, rfl, hread⟩ := exists_number_of_numberLexeme? h
    exact hread
  all_goals
    cases h
    exact trivial

theorem readable_of_mem_lexemesOnto {before : List Lexeme} {chars : List Char} {lexeme : Lexeme}
    (h : lexeme ∈ lexemesOnto before chars) (hbroken : lexeme ≠ .broken) :
    lexeme ∈ before ∨ lexeme.Readable := by
  fun_induction lexemesOnto before chars with
  | case1 before => exact Or.inl (List.mem_reverse.mp h)
  | case2 before c rest hblank ih => exact ih h
  | case3 before c rest hblank hnone =>
      rw [List.mem_reverse] at h
      exact Or.inl (List.mem_of_ne_of_mem hbroken h)
  | case4 before c rest hblank next after hnext ih =>
      rcases ih h with hmem | hreadable
      · rcases List.mem_cons.mp hmem with rfl | hmem
        · exact Or.inr (readable_of_lexeme? hnext)
        · exact Or.inl hmem
      · exact Or.inr hreadable

/-- A text that is read as a document has no lexemes but those of the document. -/
theorem lexemes_of_parse? {text : String} {document : Json} (h : parse? text = some document) :
    lexemes text = document.spelling :=
  eq_spelling_of_ofLexemes? h

theorem numbersFinite_of_parse? {text : String} {document : Json}
    (h : parse? text = some document) : document.NumbersFinite := by
  intro lexeme hmem
  rw [← lexemes_of_parse? h] at hmem
  have hbroken : lexeme ≠ .broken := by
    rintro rfl
    exact not_broken_mem_of_ofLexemes? h hmem
  exact (readable_of_mem_lexemesOnto hmem hbroken).resolve_left List.not_mem_nil

theorem isSome_toBinary64?_of_numbersFinite {number : JsonNumber}
    (h : (Json.number number).NumbersFinite) : number.toBinary64?.isSome = true :=
  h (.number number) (by rw [spelling]; exact List.mem_singleton_self _)

theorem subset_membersSpelling {rest : List (String × Json)} {member : String × Json}
    (h : member ∈ rest) : member.2.spelling ⊆ membersSpelling rest := by
  induction rest with
  | nil => cases h
  | cons first rest ih =>
      rw [membersSpelling]
      intro lexeme hlexeme
      rcases List.mem_cons.mp h with rfl | h
      · simp [hlexeme]
      · simp [ih h hlexeme]

theorem numbersFinite_of_mem {members : List (String × Json)} {member : String × Json}
    (h : (Json.object members).NumbersFinite) (hmember : member ∈ members) :
    member.2.NumbersFinite := by
  intro lexeme hlexeme
  apply h
  cases members with
  | nil => cases hmember
  | cons first rest =>
      rw [spelling]
      rcases List.mem_cons.mp hmember with rfl | hmember
      · simp [hlexeme]
      · simp [subset_membersSpelling hmember hlexeme]

end RecordRules.Json
