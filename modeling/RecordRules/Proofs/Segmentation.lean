import RecordRules.Proofs.Chain
import RecordRules.RuleText.Segment

/-! The segments of a text as a chain: the pieces between the keywords, which hold no keyword
themselves. No keyword ends with a character that another one, or itself, starts with, so keywords
neither overlap nor arise where a piece meets the keyword after it. Hence a chain of pieces without
keywords is what its own text is cut into. -/

namespace RecordRules.RuleText

/-- No keyword stands in a character sequence. -/
def KeywordFree (chars : List Char) : Prop :=
  ∀ connective : Connective, ¬ connective.keyword.toList <:+: chars

instance (chars : List Char) : Decidable (KeywordFree chars) :=
  haveI (keyword : List Char) : Decidable (keyword <:+: chars) :=
    List.instDecidableIsInfixOfDecidableEq keyword chars
  decidable_of_iff
    (¬ Connective.and.keyword.toList <:+: chars ∧ ¬ Connective.or.keyword.toList <:+: chars)
    ⟨fun h connective => match connective with
      | .and => h.1
      | .or => h.2,
    fun h => ⟨h .and, h .or⟩⟩

/-- A character sequence that starts with a character which some keyword has after its first. -/
def StartsInsideKeyword (chars : List Char) : Prop :=
  ∃ connective : Connective, ∃ c ∈ connective.keyword.toList.tail, chars.head? = some c

/-- A chain of pieces with further characters before the first piece. -/
def prepend (run : List Char) (pieces : Chain (List Char)) : Chain (List Char) :=
  ⟨run ++ pieces.first, pieces.further⟩

/-- The characters of a text cut at its keywords. -/
def cut : List Char → Chain (List Char)
  | 'A' :: 'N' :: 'D' :: rest => Chain.append ⟨[], []⟩ .and (cut rest)
  | 'O' :: 'R' :: rest => Chain.append ⟨[], []⟩ .or (cut rest)
  | c :: rest => prepend [c] (cut rest)
  | [] => ⟨[], []⟩

/-- The text that a chain of pieces is cut from. -/
def source (pieces : Chain (List Char)) : List Char :=
  pieces.first ++ pieces.further.flatMap fun step => step.1.keyword.toList ++ step.2

def toSegments (pieces : Chain (List Char)) : List Segment :=
  .text (String.ofList pieces.first) ::
    pieces.further.flatMap fun step => [.connective step.1, .text (String.ofList step.2)]

theorem segmentsOnto_eq (before : List Segment) (run chars : List Char) :
    segmentsOnto before run chars =
      before.reverse ++ toSegments (prepend run.reverse (cut chars)) := by
  induction chars using cut.induct generalizing before run with
  | case1 rest ih =>
      rw [segmentsOnto, ih, cut]
      simp only [toSegments, prepend, Chain.append, List.reverse_cons, List.reverse_nil,
        List.append_nil, List.nil_append, List.append_assoc, List.cons_append, List.flatMap_cons]
  | case2 rest ih =>
      rw [segmentsOnto, ih, cut]
      simp only [toSegments, prepend, Chain.append, List.reverse_cons, List.reverse_nil,
        List.append_nil, List.nil_append, List.append_assoc, List.cons_append, List.flatMap_cons]
  | case3 c rest hand hor ih =>
      rw [segmentsOnto, ih, cut]
      · simp only [prepend, List.reverse_cons, List.append_assoc]
      · exact hand
      · exact hor
      · exact hand
      · exact hor
  | case4 =>
      rw [segmentsOnto, cut]
      simp only [toSegments, prepend, List.append_nil, List.reverse_cons, List.flatMap_nil]

theorem segments_eq_toSegments_cut (text : String) :
    segments text = toSegments (cut text.toList) := by
  rw [segments, segmentsOnto_eq]
  rfl

/-! ### Keywords in a text -/

theorem keyword_toList_ne_nil (connective : Connective) : connective.keyword.toList ≠ [] := by
  cases connective <;> decide

theorem prefix_append_cases {α : Type} {p a b : List α} (h : p <+: a ++ b) :
    p <+: a ∨ ∃ q, p = a ++ q ∧ q <+: b := by
  obtain ⟨t, ht⟩ := h
  rcases List.append_eq_append_iff.mp ht with ⟨s, ha, _⟩ | ⟨q, hp, hb⟩
  · exact Or.inl ⟨s, ha.symm⟩
  · exact Or.inr ⟨q, hp, ⟨t, hb.symm⟩⟩

/-- A keyword at the start of a text stands in the first part of it, unless the second part starts
inside a keyword. -/
theorem keyword_prefix_of_append {connective : Connective} {chars rest : List Char}
    (hne : chars ≠ []) (hrest : ¬ StartsInsideKeyword rest)
    (h : connective.keyword.toList <+: chars ++ rest) : connective.keyword.toList <+: chars := by
  rcases prefix_append_cases h with hstarts | ⟨q, hq, hqrest⟩
  · exact hstarts
  · obtain ⟨c, cs, rfl⟩ := List.exists_cons_of_ne_nil hne
    cases q with
    | nil =>
        have hwhole := hq.trans (List.append_nil (c :: cs))
        exact hwhole ▸ List.prefix_rfl
    | cons d q =>
        -- the keyword goes on into the second part, which then starts inside it
        obtain ⟨t, ht⟩ := hqrest
        refine absurd ⟨connective, d, ?_, ?_⟩ hrest
        · rw [hq, List.cons_append, List.tail_cons]
          exact List.mem_append_right _ List.mem_cons_self
        · rw [← ht, List.cons_append, List.head?_cons]

theorem not_startsInsideKeyword_nil : ¬ StartsInsideKeyword [] := by
  rintro ⟨connective, c, _, h⟩
  cases h

theorem not_startsInsideKeyword_keyword (connective : Connective) (rest : List Char) :
    ¬ StartsInsideKeyword (connective.keyword.toList ++ rest) := by
  rintro ⟨other, c, hc, h⟩
  cases connective <;> cases other <;> cases h <;> revert hc <;> decide

theorem keywordFree_tail {c : Char} {chars : List Char} (h : KeywordFree (c :: chars)) :
    KeywordFree chars :=
  fun connective hinside => h connective (hinside.trans (List.suffix_cons c chars).isInfix)

theorem cut_cons {c : Char} {rest : List Char}
    (h : ∀ connective : Connective, ¬ connective.keyword.toList <+: c :: rest) :
    cut (c :: rest) = prepend [c] (cut rest) := by
  rw [cut]
  · rintro tail rfl rfl
    exact h .and ⟨tail, rfl⟩
  · rintro tail rfl rfl
    exact h .or ⟨tail, rfl⟩

theorem cut_keyword (connective : Connective) (rest : List Char) :
    cut (connective.keyword.toList ++ rest) = Chain.append ⟨[], []⟩ connective (cut rest) := by
  cases connective <;> rfl

/-- Characters without a keyword go to the first piece of what follows them. -/
theorem cut_append {chars rest : List Char} (h : KeywordFree chars)
    (hrest : ¬ StartsInsideKeyword rest) : cut (chars ++ rest) = prepend chars (cut rest) := by
  induction chars with
  | nil => rfl
  | cons c chars ih =>
      rw [List.cons_append, cut_cons, ih (keywordFree_tail h)]
      · rfl
      · intro connective hstarts
        exact h connective
          (keyword_prefix_of_append (List.cons_ne_nil c chars) hrest hstarts).isInfix

/-- A chain of pieces without keywords is what its text is cut into. -/
theorem cut_source {pieces : Chain (List Char)} (h : ∀ piece ∈ pieces.toList, KeywordFree piece) :
    cut (source pieces) = pieces := by
  obtain ⟨first, further⟩ := pieces
  induction further generalizing first with
  | nil =>
      have hfirst : cut (first ++ []) = prepend first (cut []) :=
        cut_append (h first List.mem_cons_self) not_startsInsideKeyword_nil
      rw [source, List.flatMap_nil, hfirst]
      simp only [cut, prepend, List.append_nil]
  | cons step further ih =>
      have hfirst : KeywordFree first := h first List.mem_cons_self
      have hfurther : cut (source ⟨step.2, further⟩) = ⟨step.2, further⟩ :=
        ih step.2 fun piece hpiece => h piece (List.mem_cons_of_mem _ hpiece)
      have hsplit : source ⟨first, step :: further⟩ =
          first ++ (step.1.keyword.toList ++ source ⟨step.2, further⟩) := by
        simp only [source, List.flatMap_cons, List.append_assoc]
      rw [hsplit, cut_append hfirst (not_startsInsideKeyword_keyword _ _), cut_keyword, hfurther]
      simp only [prepend, Chain.append, List.append_nil, List.nil_append]

theorem source_prepend (run : List Char) (pieces : Chain (List Char)) :
    source (prepend run pieces) = run ++ source pieces := by
  simp only [source, prepend, List.append_assoc]

theorem source_append (left : Chain (List Char)) (connective : Connective)
    (right : Chain (List Char)) :
    source (left.append connective right) =
      source left ++ (connective.keyword.toList ++ source right) := by
  simp only [source, Chain.append, List.flatMap_append, List.flatMap_cons, List.append_assoc]

/-- Cutting loses no character. -/
theorem source_cut (chars : List Char) : source (cut chars) = chars := by
  induction chars using cut.induct with
  | case1 rest ih =>
      rw [cut, source_append, ih]
      rfl
  | case2 rest ih =>
      rw [cut, source_append, ih]
      rfl
  | case3 c rest hand hor ih =>
      rw [cut, source_prepend, ih]
      · rfl
      · exact hand
      · exact hor
  | case4 => rfl

theorem first_cut_prefix (chars : List Char) : (cut chars).first <+: chars := by
  have h : (cut chars).first <+: source (cut chars) := List.prefix_append _ _
  rwa [source_cut] at h

theorem keywordFree_nil : KeywordFree [] := by
  intro connective h
  exact keyword_toList_ne_nil connective (List.infix_nil.mp h)

theorem keywordFree_cons {c : Char} {chars : List Char}
    (hstart : ∀ connective : Connective, ¬ connective.keyword.toList <+: c :: chars)
    (h : KeywordFree chars) : KeywordFree (c :: chars) := by
  intro connective hinside
  rcases List.infix_cons_iff.mp hinside with hstarts | hinside
  · exact hstart connective hstarts
  · exact h connective hinside

/-- No piece of a cut text holds a keyword. -/
theorem keywordFree_of_mem_cut {chars piece : List Char} (h : piece ∈ (cut chars).toList) :
    KeywordFree piece := by
  induction chars using cut.induct generalizing piece with
  | case1 rest ih =>
      rw [cut, Chain.toList_append] at h
      rcases List.mem_cons.mp h with rfl | h
      · exact keywordFree_nil
      · exact ih h
  | case2 rest ih =>
      rw [cut, Chain.toList_append] at h
      rcases List.mem_cons.mp h with rfl | h
      · exact keywordFree_nil
      · exact ih h
  | case3 c rest hand hor ih =>
      rw [cut] at h
      · rcases List.mem_cons.mp h with rfl | h
        · refine keywordFree_cons (fun connective hstarts => ?_) (ih List.mem_cons_self)
          have hstart : connective.keyword.toList <+: c :: rest :=
            hstarts.trans (List.cons_prefix_cons.mpr ⟨rfl, first_cut_prefix rest⟩)
          obtain ⟨tail, htail⟩ := hstart
          cases connective with
          | and =>
              injection htail with hc hrest
              exact hand tail hc.symm hrest.symm
          | or =>
              injection htail with hc hrest
              exact hor tail hc.symm hrest.symm
        · exact ih (List.mem_cons_of_mem _ h)
      · exact hand
      · exact hor
  | case4 =>
      rcases List.mem_cons.mp h with rfl | h
      · exact keywordFree_nil
      · cases h

/-! ### Keywords and capital letters -/

theorem isUpper_of_mem_keyword {connective : Connective} {c : Char}
    (h : c ∈ connective.keyword.toList) : c.isUpper = true := by
  have hall : connective.keyword.toList.all Char.isUpper = true := by
    cases connective <;> decide
  exact List.all_eq_true.mp hall c h

theorem not_startsInsideKeyword_cons {c : Char} {rest : List Char} (h : c.isUpper = false) :
    ¬ StartsInsideKeyword (c :: rest) := by
  rintro ⟨connective, d, hd, hhead⟩
  rw [List.head?_cons, Option.some_inj] at hhead
  rw [hhead, isUpper_of_mem_keyword (List.mem_of_mem_tail hd)] at h
  cases h

theorem keywordFree_cons_of_plain {c : Char} {chars : List Char} (hc : c.isUpper = false)
    (h : KeywordFree chars) : KeywordFree (c :: chars) := by
  refine keywordFree_cons (fun connective hstarts => ?_) h
  obtain ⟨d, ds, hkeyword⟩ := List.exists_cons_of_ne_nil (keyword_toList_ne_nil connective)
  have hd : d.isUpper = true := isUpper_of_mem_keyword (by rw [hkeyword]; exact List.mem_cons_self)
  rw [hkeyword, List.cons_prefix_cons] at hstarts
  rw [hstarts.1, hc] at hd
  cases hd

theorem keywordFree_append_of_plain {plain chars : List Char}
    (hplain : ∀ c ∈ plain, c.isUpper = false) (h : KeywordFree chars) :
    KeywordFree (plain ++ chars) := by
  induction plain with
  | nil => exact h
  | cons c plain ih =>
      exact keywordFree_cons_of_plain (hplain c List.mem_cons_self)
        (ih fun d hd => hplain d (List.mem_cons_of_mem c hd))

theorem keywordFree_of_plain {chars : List Char} (h : ∀ c ∈ chars, c.isUpper = false) :
    KeywordFree chars := by
  rw [← List.append_nil chars]
  exact keywordFree_append_of_plain h keywordFree_nil

/-- Two sequences without keywords form none where they meet if the second does not start inside
one. -/
theorem keywordFree_append {chars rest : List Char} (h : KeywordFree chars)
    (hrest : KeywordFree rest) (hstart : ¬ StartsInsideKeyword rest) :
    KeywordFree (chars ++ rest) := by
  induction chars with
  | nil => exact hrest
  | cons c chars ih =>
      refine keywordFree_cons (fun connective hstarts => ?_) (ih (keywordFree_tail h))
      exact h connective
        (keyword_prefix_of_append (List.cons_ne_nil c chars) hstart hstarts).isInfix

theorem keywordFree_append_plain {chars : List Char} {c : Char} {plain : List Char}
    (h : KeywordFree chars) (hplain : ∀ d ∈ c :: plain, d.isUpper = false) :
    KeywordFree (chars ++ c :: plain) :=
  keywordFree_append h (keywordFree_of_plain hplain)
    (not_startsInsideKeyword_cons (hplain c List.mem_cons_self))

end RecordRules.RuleText
