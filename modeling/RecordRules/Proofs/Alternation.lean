import Mathlib.Data.List.Chain
import RecordRules.Proofs.Segmentation

/-! The segments of a text by what they are. They start and end with a text, texts and connectives take
turns, together they spell the text, and no text among them holds a keyword. A list that starts and ends
with a text and takes turns is a chain of pieces, and a chain of pieces without keywords is what its own
text is cut into, so no other list has these properties. -/

namespace RecordRules.RuleText

def Segment.isText : Segment → Bool
  | .text _ => true
  | .connective _ => false

/-- A list of segments that a text can be split into. -/
structure IsSplitting (text : String) (list : List Segment) : Prop where
  startsWithText : ∃ written, list.head? = some (.text written)
  endsWithText : ∃ written, list.getLast? = some (.text written)
  alternates : list.IsChain fun segment next => segment.isText ≠ next.isText
  spells : String.join (list.map Segment.source) = text
  keywordFree : ∀ written, .text written ∈ list → KeywordFree written.toList

/-! ### Chains of pieces as lists of segments -/

theorem toSegments_cons (first : List Char) (step : Connective × List Char)
    (further : List (Connective × List Char)) :
    toSegments ⟨first, step :: further⟩ =
      .text (String.ofList first) :: .connective step.1 :: toSegments ⟨step.2, further⟩ :=
  rfl

theorem head?_toSegments (pieces : Chain (List Char)) :
    (toSegments pieces).head? = some (.text (String.ofList pieces.first)) :=
  rfl

theorem getLast?_toSegments (pieces : Chain (List Char)) :
    ∃ written, (toSegments pieces).getLast? = some (.text written) := by
  obtain ⟨first, further⟩ := pieces
  induction further generalizing first with
  | nil => exact ⟨String.ofList first, rfl⟩
  | cons step further ih =>
      obtain ⟨written, hlast⟩ := ih step.2
      refine ⟨written, ?_⟩
      rw [toSegments_cons, List.getLast?_cons, List.getLast?_cons, hlast]
      rfl

theorem isChain_toSegments (pieces : Chain (List Char)) :
    (toSegments pieces).IsChain fun segment next => segment.isText ≠ next.isText := by
  obtain ⟨first, further⟩ := pieces
  induction further generalizing first with
  | nil => exact List.isChain_singleton _
  | cons step further ih =>
      rw [toSegments_cons, List.isChain_cons, List.isChain_cons, head?_toSegments]
      refine ⟨?_, ?_, ih step.2⟩
      · rintro _ ⟨⟩ h
        cases h
      · rintro _ ⟨⟩ h
        cases h

theorem join_toSegments (pieces : Chain (List Char)) :
    String.join ((toSegments pieces).map Segment.source) = String.ofList (source pieces) := by
  obtain ⟨first, further⟩ := pieces
  induction further generalizing first with
  | nil =>
      rw [source, List.flatMap_nil, List.append_nil]
      exact (String.join_cons).trans (String.append_empty)
  | cons step further ih =>
      rw [toSegments_cons, List.map_cons, List.map_cons, String.join_cons, String.join_cons, ih]
      simp only [source, Segment.source, List.flatMap_cons, String.ofList_append,
        String.ofList_toList, String.append_assoc]

theorem text_mem_toSegments {pieces : Chain (List Char)} {written : String} :
    .text written ∈ toSegments pieces ↔ written.toList ∈ pieces.toList := by
  obtain ⟨first, further⟩ := pieces
  have hspelled : ∀ piece : List Char, written = String.ofList piece ↔ written.toList = piece := by
    intro piece
    rw [← String.toList_inj, String.toList_ofList]
  induction further generalizing first with
  | nil =>
      rw [toSegments, List.flatMap_nil, List.mem_singleton, Segment.text.injEq, hspelled]
      exact List.mem_singleton.symm
  | cons step further ih =>
      have hjoint : Segment.text written ≠ .connective step.1 := by
        intro h
        cases h
      have hfurther : .text written ∈ toSegments ⟨step.2, further⟩ ↔
          written.toList ∈ (Chain.mk step.2 further).toList := ih step.2
      rw [toSegments_cons, List.mem_cons, List.mem_cons, or_iff_right hjoint, Segment.text.injEq,
        hspelled, hfurther]
      exact List.mem_cons.symm

/-- A list of segments that starts and ends with a text and takes turns is a chain of pieces. -/
theorem exists_toSegments_eq (written : String) : ∀ rest : List Segment,
    (∃ last, (.text written :: rest).getLast? = some (.text last)) →
    ((.text written :: rest).IsChain fun segment next => segment.isText ≠ next.isText) →
    ∃ further, toSegments ⟨written.toList, further⟩ = .text written :: rest
  | [], _, _ => ⟨[], congrArg (fun first => [Segment.text first]) String.ofList_toList⟩
  | .text _ :: _, _, hturns => absurd rfl (List.isChain_cons_cons.mp hturns).1
  | [.connective _], ⟨_, hlast⟩, _ => by cases hlast
  | .connective _ :: .connective _ :: _, _, hturns =>
      absurd rfl (List.isChain_cons_cons.mp (List.isChain_cons_cons.mp hturns).2).1
  | .connective joint :: .text next :: rest, ⟨last, hlast⟩, hturns => by
      have hrest := (List.isChain_cons_cons.mp (List.isChain_cons_cons.mp hturns).2).2
      rw [List.getLast?_cons_cons, List.getLast?_cons_cons] at hlast
      obtain ⟨further, hfurther⟩ := exists_toSegments_eq next rest ⟨last, hlast⟩ hrest
      refine ⟨(joint, next.toList) :: further, ?_⟩
      rw [toSegments_cons, hfurther, String.ofList_toList]

/-! ### The segments of a text -/

theorem isSplitting_segments (text : String) : IsSplitting text (segments text) := by
  rw [segments_eq_toSegments_cut]
  refine ⟨⟨_, head?_toSegments _⟩, getLast?_toSegments _, isChain_toSegments _, ?_, ?_⟩
  · rw [join_toSegments, source_cut, String.ofList_toList]
  · intro written hwritten
    exact keywordFree_of_mem_cut (text_mem_toSegments.mp hwritten)

theorem IsSplitting.exists_pieces {text : String} {list : List Segment} (h : IsSplitting text list) :
    ∃ pieces, toSegments pieces = list ∧ source pieces = text.toList ∧
      ∀ piece ∈ pieces.toList, KeywordFree piece := by
  obtain ⟨written, hhead⟩ := h.startsWithText
  obtain ⟨rest, rfl⟩ := List.head?_eq_some_iff.mp hhead
  obtain ⟨further, hpieces⟩ := exists_toSegments_eq written rest h.endsWithText h.alternates
  have hspells := h.spells
  have hfree := h.keywordFree
  rw [← hpieces] at hspells hfree ⊢
  refine ⟨_, rfl, ?_, fun piece hpiece => ?_⟩
  · rw [← hspells, join_toSegments, String.toList_ofList]
  · have hmem := hfree (String.ofList piece)
    rw [text_mem_toSegments, String.toList_ofList] at hmem
    exact hmem hpiece

/-- The segments of a text start and end with a text, texts and connectives take turns in them, with
`AND` and `OR` for the connectives they spell the text, and no text among them holds `AND` or `OR`. No
other list of segments has these properties. -/
theorem eq_segments_iff (text : String) (list : List Segment) :
    list = segments text ↔ IsSplitting text list := by
  constructor
  · rintro rfl
    exact isSplitting_segments text
  · intro h
    obtain ⟨pieces, rfl, hsource, hfree⟩ := h.exists_pieces
    rw [segments_eq_toSegments_cut, ← hsource, cut_source hfree]

/-- Adjacent keywords have an empty text between them, and letters that almost form one stay text. -/
example : segments "AANDORRO" = [.text "A", .connective .and, .text "", .connective .or, .text "RO"] := by
  decide

end RecordRules.RuleText
