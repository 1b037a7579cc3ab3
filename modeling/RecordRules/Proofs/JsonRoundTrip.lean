import RecordRules.Json.Reader
import RecordRules.Proofs.LexemeText

/-! Reading back written JSON. A value is written as the texts of its lexemes, whatever is on the list of
what is still to be written, and read from its lexemes inside any frames, as long as it is not too deep.
So a value that has no number beyond the finite ones is read from its own text, and two such values
have the same text only if they are the same. -/

namespace RecordRules

open RuleText

namespace Json

/-! ### The lexemes of a value -/

mutual

/-- The lexemes that a value is written with. -/
def spelling : Json → List Lexeme
  | .null => [.null]
  | .boolean value => [.boolean value]
  | .number value => [.number value]
  | .string value => [.string value]
  | .array [] => [.openBracket, .closeBracket]
  | .array (element :: rest) => .openBracket :: (element.spelling ++ elementsSpelling rest)
  | .object [] => [.openBrace, .closeBrace]
  | .object ((key, value) :: rest) =>
      .openBrace :: .string key :: .colon :: (value.spelling ++ membersSpelling rest)

/-- The lexemes of the further elements of an array, up to its end. -/
def elementsSpelling : List Json → List Lexeme
  | [] => [.closeBracket]
  | element :: rest => .comma :: (element.spelling ++ elementsSpelling rest)

/-- The lexemes of the further members of an object, up to its end. -/
def membersSpelling : List (String × Json) → List Lexeme
  | [] => [.closeBrace]
  | (key, value) :: rest =>
      .comma :: .string key :: .colon :: (value.spelling ++ membersSpelling rest)

end

def Unwritten.spelling : Unwritten → List Lexeme
  | .value json => json.spelling
  | .elements rest => elementsSpelling rest
  | .members rest => membersSpelling rest

theorem toList_writeOnto (written : String) (items : List Unwritten) :
    (writeOnto written items).toList =
      written.toList ++ (items.flatMap Unwritten.spelling).flatMap Lexeme.text := by
  fun_induction writeOnto written items with
  | case1 written => simp
  | case3 written value items ih => cases value <;> simp_all [Unwritten.spelling, spelling, Lexeme.text]
  | _ => simp_all [Unwritten.spelling, spelling, elementsSpelling, membersSpelling, Lexeme.text]

/-- A value is written as the texts of its lexemes. -/
theorem write_eq (json : Json) : json.write = String.ofList (json.spelling.flatMap Lexeme.text) := by
  rw [← String.toList_inj, write, toList_writeOnto]
  simp [Unwritten.spelling]

/-! ### Reading the lexemes -/

mutual

/-- The number of arrays and objects inside one another. -/
def height : Json → Nat
  | .array elements => elementsHeight elements + 1
  | .object members => membersHeight members + 1
  | _ => 0

def elementsHeight : List Json → Nat
  | [] => 0
  | element :: rest => max element.height (elementsHeight rest)

def membersHeight : List (String × Json) → Nat
  | [] => 0
  | (_, value) :: rest => max value.height (membersHeight rest)

end

section

variable {limit : Nat}

theorem foldlM_cons_of_step? {reading next : Reading} {lexeme : Lexeme} {lexemes : List Lexeme}
    (h : reading.step? limit lexeme = some next) :
    (lexeme :: lexemes).foldlM (Reading.step? limit) reading =
      lexemes.foldlM (Reading.step? limit) next := by
  rw [List.foldlM_cons, h]
  rfl

/-- Before the first element of an array an element is read as it is anywhere, as it does not start
like the end of the array. -/
theorem foldlM_firstElement (element : Json) (further : List Lexeme) (outer : List Frame) :
    (element.spelling ++ further).foldlM (Reading.step? limit) (.firstElement outer) =
      (element.spelling ++ further).foldlM (Reading.step? limit) (.value (.array [] :: outer)) := by
  have hstart : ∃ lexeme rest, element.spelling = lexeme :: rest ∧ lexeme ≠ .closeBracket := by
    cases element with
    | array elements => cases elements <;> exact ⟨_, _, rfl, by decide⟩
    | object members => cases members <;> exact ⟨_, _, rfl, by decide⟩
    | _ => exact ⟨_, _, rfl, Lexeme.noConfusion⟩
  obtain ⟨lexeme, rest, hspelling, hne⟩ := hstart
  rw [hspelling, List.cons_append, List.foldlM_cons, List.foldlM_cons, Reading.step?,
    Reading.step?, if_neg hne]

theorem step?_openBracket {outer : List Frame} (h : outer.length < limit) :
    (Reading.value outer).step? limit .openBracket = some (.firstElement outer) :=
  if_pos h

theorem step?_openBrace {outer : List Frame} (h : outer.length < limit) :
    (Reading.value outer).step? limit .openBrace = some (.firstKey outer) :=
  if_pos h

mutual

/-- A value is read from its lexemes inside any frames, and what follows them is read after it. -/
theorem foldlM_spelling (json : Json) (outer : List Frame) (further : List Lexeme)
    (h : outer.length + json.height ≤ limit) :
    (json.spelling ++ further).foldlM (Reading.step? limit) (.value outer) =
      further.foldlM (Reading.step? limit) (.complete json outer) := by
  match json with
  | .null => exact foldlM_cons_of_step? rfl
  | .boolean value => exact foldlM_cons_of_step? rfl
  | .number value => exact foldlM_cons_of_step? rfl
  | .string value => exact foldlM_cons_of_step? rfl
  | .array [] =>
      have hdepth : outer.length < limit := by
        simp only [height] at h
        omega
      simp only [spelling, List.cons_append, List.nil_append]
      rw [foldlM_cons_of_step? (step?_openBracket hdepth)]
      exact foldlM_cons_of_step? rfl
  | .array (element :: rest) =>
      simp only [height, elementsHeight] at h
      have helement : (Frame.array [] :: outer).length + element.height ≤ limit := by
        simp only [List.length_cons]
        omega
      simp only [spelling, List.cons_append, List.append_assoc]
      rw [foldlM_cons_of_step? (step?_openBracket (by omega)), foldlM_firstElement,
        foldlM_spelling element _ _ helement, foldlM_elementsSpelling rest element [] outer _ (by omega),
        List.reverse_nil, List.nil_append]
  | .object [] =>
      have hdepth : outer.length < limit := by
        simp only [height] at h
        omega
      simp only [spelling, List.cons_append, List.nil_append]
      rw [foldlM_cons_of_step? (step?_openBrace hdepth)]
      exact foldlM_cons_of_step? rfl
  | .object ((key, value) :: rest) =>
      simp only [height, membersHeight] at h
      have hvalue : (Frame.object [] key :: outer).length + value.height ≤ limit := by
        simp only [List.length_cons]
        omega
      simp only [spelling, List.cons_append, List.append_assoc]
      rw [foldlM_cons_of_step? (step?_openBrace (by omega)), foldlM_cons_of_step? rfl,
        foldlM_cons_of_step? rfl, foldlM_spelling value _ _ hvalue,
        foldlM_membersSpelling rest key value [] outer _ (by omega), List.reverse_nil,
        List.nil_append]

/-- After an element of an array the further ones are read up to its end. -/
theorem foldlM_elementsSpelling (rest : List Json) (done : Json) (before : List Json)
    (outer : List Frame) (further : List Lexeme)
    (h : outer.length + 1 + elementsHeight rest ≤ limit) :
    (elementsSpelling rest ++ further).foldlM (Reading.step? limit)
        (.complete done (.array before :: outer)) =
      further.foldlM (Reading.step? limit)
        (.complete (.array (before.reverse ++ done :: rest)) outer) := by
  match rest with
  | [] =>
      rw [← List.reverse_cons]
      exact foldlM_cons_of_step? rfl
  | element :: rest =>
      simp only [elementsHeight] at h
      have helement : (Frame.array (done :: before) :: outer).length + element.height ≤ limit := by
        simp only [List.length_cons]
        omega
      simp only [elementsSpelling, List.cons_append, List.append_assoc]
      rw [foldlM_cons_of_step? rfl, foldlM_spelling element _ _ helement,
        foldlM_elementsSpelling rest element _ outer _ (by omega), List.reverse_cons,
        List.append_assoc, List.singleton_append]

/-- After a member of an object the further ones are read up to its end. -/
theorem foldlM_membersSpelling (rest : List (String × Json)) (key : String) (done : Json)
    (before : List (String × Json)) (outer : List Frame) (further : List Lexeme)
    (h : outer.length + 1 + membersHeight rest ≤ limit) :
    (membersSpelling rest ++ further).foldlM (Reading.step? limit)
        (.complete done (.object before key :: outer)) =
      further.foldlM (Reading.step? limit)
        (.complete (.object (before.reverse ++ (key, done) :: rest)) outer) := by
  match rest with
  | [] =>
      rw [← List.reverse_cons]
      exact foldlM_cons_of_step? rfl
  | (next, value) :: rest =>
      simp only [membersHeight] at h
      have hvalue : (Frame.object ((key, done) :: before) next :: outer).length + value.height ≤
          limit := by
        simp only [List.length_cons]
        omega
      simp only [membersSpelling, List.cons_append, List.append_assoc]
      rw [foldlM_cons_of_step? rfl, foldlM_cons_of_step? rfl, foldlM_cons_of_step? rfl,
        foldlM_spelling value _ _ hvalue, foldlM_membersSpelling rest next value _ outer _ (by omega),
        List.reverse_cons, List.append_assoc, List.singleton_append]

end

/-- A value that is not too deep is read from its lexemes. -/
theorem ofLexemes?_spelling {json : Json} (h : json.height ≤ limit) :
    ofLexemes? limit json.spelling = some json := by
  have hread := foldlM_spelling json [] [] (by simpa using h)
  rw [List.append_nil, List.foldlM_nil] at hread
  rw [ofLexemes?, hread]
  rfl

end

/-! ### Numbers are apart -/

theorem isChain_apart_cons {lexeme : Lexeme} {lexemes : List Lexeme}
    (hlexeme : lexeme.isNumber = false) (h : lexemes.IsChain Lexeme.Apart) :
    (lexeme :: lexemes).IsChain Lexeme.Apart := by
  refine List.isChain_cons.mpr ⟨fun next _ hnumber => ?_, h⟩
  rw [hlexeme] at hnumber
  cases hnumber

theorem head?_elementsSpelling (rest : List Json) (further : List Lexeme) :
    ∀ lexeme ∈ (elementsSpelling rest ++ further).head?, lexeme.isNumber = false := by
  cases rest <;> simp [elementsSpelling, Lexeme.isNumber]

theorem head?_membersSpelling (rest : List (String × Json)) (further : List Lexeme) :
    ∀ lexeme ∈ (membersSpelling rest ++ further).head?, lexeme.isNumber = false := by
  cases rest <;> simp [membersSpelling, Lexeme.isNumber]

mutual

theorem isChain_spelling (json : Json) {further : List Lexeme}
    (hhead : ∀ lexeme ∈ further.head?, lexeme.isNumber = false)
    (h : further.IsChain Lexeme.Apart) : (json.spelling ++ further).IsChain Lexeme.Apart := by
  match json with
  | .null => exact isChain_apart_cons rfl h
  | .boolean value => exact isChain_apart_cons rfl h
  | .number value => exact List.isChain_cons.mpr ⟨fun next hnext _ => hhead next hnext, h⟩
  | .string value => exact isChain_apart_cons rfl h
  | .array [] => exact isChain_apart_cons rfl (isChain_apart_cons rfl h)
  | .array (element :: rest) =>
      simp only [spelling, List.cons_append, List.append_assoc]
      exact isChain_apart_cons rfl
        (isChain_spelling element (head?_elementsSpelling rest _) (isChain_elementsSpelling rest h))
  | .object [] => exact isChain_apart_cons rfl (isChain_apart_cons rfl h)
  | .object ((key, value) :: rest) =>
      simp only [spelling, List.cons_append, List.append_assoc]
      exact isChain_apart_cons rfl (isChain_apart_cons rfl (isChain_apart_cons rfl
        (isChain_spelling value (head?_membersSpelling rest _) (isChain_membersSpelling rest h))))

theorem isChain_elementsSpelling (rest : List Json) {further : List Lexeme}
    (h : further.IsChain Lexeme.Apart) : (elementsSpelling rest ++ further).IsChain Lexeme.Apart := by
  match rest with
  | [] => exact isChain_apart_cons rfl h
  | element :: rest =>
      simp only [elementsSpelling, List.cons_append, List.append_assoc]
      exact isChain_apart_cons rfl
        (isChain_spelling element (head?_elementsSpelling rest _) (isChain_elementsSpelling rest h))

theorem isChain_membersSpelling (rest : List (String × Json)) {further : List Lexeme}
    (h : further.IsChain Lexeme.Apart) : (membersSpelling rest ++ further).IsChain Lexeme.Apart := by
  match rest with
  | [] => exact isChain_apart_cons rfl h
  | (key, value) :: rest =>
      simp only [membersSpelling, List.cons_append, List.append_assoc]
      exact isChain_apart_cons rfl (isChain_apart_cons rfl (isChain_apart_cons rfl
        (isChain_spelling value (head?_membersSpelling rest _) (isChain_membersSpelling rest h))))

end

/-! ### Written and read -/

/-- No number of a value is beyond the finite 64-bit numbers. -/
def NumbersFinite (json : Json) : Prop :=
  ∀ lexeme ∈ json.spelling, lexeme.Readable

theorem numbersFinite_array {elements : List Json}
    (h : ∀ element ∈ elements, element.NumbersFinite) : (Json.array elements).NumbersFinite := by
  have hfurther : ∀ rest : List Json, (∀ element ∈ rest, element.NumbersFinite) →
      ∀ lexeme ∈ elementsSpelling rest, lexeme.Readable := by
    intro rest hrest
    induction rest with
    | nil => simp [elementsSpelling, Lexeme.Readable]
    | cons element rest ih =>
        obtain ⟨helement, hrest⟩ := List.forall_mem_cons.mp hrest
        simpa [elementsSpelling, Lexeme.Readable, or_imp, forall_and] using ⟨helement, ih hrest⟩
  cases elements with
  | nil => simp [NumbersFinite, spelling, Lexeme.Readable]
  | cons element rest =>
      obtain ⟨helement, hrest⟩ := List.forall_mem_cons.mp h
      simpa [NumbersFinite, spelling, Lexeme.Readable, or_imp, forall_and] using
        ⟨helement, hfurther rest hrest⟩

theorem numbersFinite_object {members : List (String × Json)}
    (h : ∀ member ∈ members, member.2.NumbersFinite) : (Json.object members).NumbersFinite := by
  have hfurther : ∀ rest : List (String × Json), (∀ member ∈ rest, member.2.NumbersFinite) →
      ∀ lexeme ∈ membersSpelling rest, lexeme.Readable := by
    intro rest hrest
    induction rest with
    | nil => simp [membersSpelling, Lexeme.Readable]
    | cons member rest ih =>
        obtain ⟨hmember, hrest⟩ := List.forall_mem_cons.mp hrest
        simpa [membersSpelling, Lexeme.Readable, or_imp, forall_and] using ⟨hmember, ih hrest⟩
  cases members with
  | nil => simp [NumbersFinite, spelling, Lexeme.Readable]
  | cons member rest =>
      obtain ⟨hmember, hrest⟩ := List.forall_mem_cons.mp h
      simpa [NumbersFinite, spelling, Lexeme.Readable, or_imp, forall_and] using
        ⟨hmember, hfurther rest hrest⟩

theorem numbersFinite_string (value : String) : (Json.string value).NumbersFinite := by
  simp [NumbersFinite, spelling, Lexeme.Readable]

theorem numbersFinite_number {value : JsonNumber} (h : value.toBinary64?.isSome = true) :
    (Json.number value).NumbersFinite := by
  simpa [NumbersFinite, spelling, Lexeme.Readable] using h

theorem lexemes_write {json : Json} (h : json.NumbersFinite) : lexemes json.write = json.spelling := by
  have hapart : json.spelling.IsChain Lexeme.Apart := by
    rw [← List.append_nil json.spelling]
    exact isChain_spelling json (by simp) List.isChain_nil
  rw [write_eq, lexemes_flatMap_text h hapart]

/-- A value without a number beyond the finite ones is read from its own text, if it is not too deep. -/
theorem parse?_write {json : Json} (hfinite : json.NumbersFinite) (hheight : json.height ≤ depthLimit) :
    parse? json.write = some json := by
  rw [parse?, lexemes_write hfinite, ofLexemes?_spelling hheight]

/-- An object with one member, a number, is read from its own text. -/
theorem parse?_write_member (name : String) {number : JsonNumber}
    (h : number.toBinary64?.isSome = true) :
    parse? (Json.object [(name, .number number)]).write = some (.object [(name, .number number)]) := by
  apply parse?_write
  · apply numbersFinite_object
    simpa using numbersFinite_number h
  · simp [height, membersHeight, depthLimit]

/-- Of any depth, values without a number beyond the finite ones are told apart by their texts. -/
theorem write_inj {a b : Json} (ha : a.NumbersFinite) (hb : b.NumbersFinite)
    (h : a.write = b.write) : a = b := by
  have hspelling : a.spelling = b.spelling := by rw [← lexemes_write ha, h, lexemes_write hb]
  have hread := ofLexemes?_spelling (Nat.le_max_left a.height b.height)
  rw [hspelling, ofLexemes?_spelling (Nat.le_max_right a.height b.height)] at hread
  exact (Option.some_inj.mp hread).symm

end Json

end RecordRules
