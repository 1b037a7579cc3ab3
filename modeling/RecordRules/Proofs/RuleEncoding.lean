import RecordRules.Proofs.JsonRoundTrip
import RecordRules.Proofs.NumberReading
import RecordRules.Proofs.UniqueReading
import RecordRules.Proofs.Walk
import RecordRules.Rule.Encoding

/-! Encoded rules and outlines of rules. A literal is encoded without its kind, and an outline has only
labels; yet both show what rule they are of, since digits are no letters, a connective is told from an
operand by what is beside it, and the label of an operand is read in one way only. As no number in them
is beyond the finite ones, the JSON texts of two rules are the same only if the rules are. -/

namespace RecordRules

open RuleText

/-! ### Encoded rules -/

theorem JsonNumber.ofInt_inj {n m : Int} (h : JsonNumber.ofInt n = JsonNumber.ofInt m) : n = m := by
  simp only [JsonNumber.ofInt, JsonNumber.whole.injEq] at h
  rw [← Number.withSign_natAbs n, h.1, h.2, Number.withSign_natAbs]

theorem RuleText.IsRun.not_letters_of_digits {chars : List Char} (h : IsRun Char.isDigit chars) :
    ¬ IsRun Char.isAlpha chars := by
  intro hletters
  obtain ⟨c, rest, rfl⟩ := List.exists_cons_of_ne_nil h.1
  have hdigit := (isDigit_iff c).mp (h.2 c List.mem_cons_self)
  have hletter := (isAlpha_iff c).mp (hletters.2 c List.mem_cons_self)
  omega

/-- Digits and texts are both encoded as strings, but no digits are letters. -/
theorem Literal.toJson_inj {a b : Literal} (ha : a.InGrammar) (hb : b.InGrammar)
    (h : a.toJson = b.toJson) : a = b := by
  cases a with
  | integer n =>
      cases b with
      | integer m =>
          simp only [toJson, Json.number.injEq] at h
          rw [Int64.toInt_inj.mp (JsonNumber.ofInt_inj h)]
      | digits t => cases h
      | text t => cases h
  | digits s =>
      cases b with
      | integer m => cases h
      | digits t => rw [Json.string.inj h]
      | text t => exact absurd (Json.string.inj h ▸ hb.1) (IsRun.not_letters_of_digits ha.1)
  | text s =>
      cases b with
      | integer m => cases h
      | digits t => exact absurd (Json.string.inj h ▸ ha.1) (IsRun.not_letters_of_digits hb.1)
      | text t => rw [Json.string.inj h]

theorem Connective.keyword_inj {c d : Connective} (h : c.keyword = d.keyword) : c = d :=
  (keyword_append_inj (s := []) (t := []) (by rw [h])).1

theorem Connective.toJson_inj {c d : Connective} (h : c.toJson = d.toJson) : c = d :=
  keyword_inj (Json.string.inj h)

theorem Operand.toJson_inj {a b : Operand} (ha : a.InGrammar) (hb : b.InGrammar)
    (h : a.toJson = b.toJson) : a = b := by
  have hsymbol : ∀ {operand : Operand}, operand.InGrammar →
      .ofSymbol operand.comparator.symbol = operand.comparator := fun hoperand =>
    (Operand.inGrammar_iff _ |>.mp hoperand).2.1.2
  simp only [toJson, Comparator.toJson, Json.object.injEq, List.cons.injEq, Prod.mk.injEq,
    Json.string.injEq, true_and, and_true] at h
  obtain ⟨hname, hcomparator, hliteral⟩ := h
  rw [Operand.mk.injEq, ← hsymbol ha, hcomparator, hsymbol hb]
  exact ⟨hname, rfl, Literal.toJson_inj ha.literal hb.literal hliteral⟩

namespace Rule

theorem toJson_leaf (operand : Operand) : (leaf operand).toJson = operand.toJson :=
  fold_leaf _ _ operand

theorem toJson_join (connective : Connective) (left right : Rule) :
    (join connective left right).toJson = joinToJson connective left.toJson right.toJson :=
  fold_join _ _ connective left right

/-- A fold tells the rules of the grammar apart if it tells their operands apart, and a join shows its
parts and is not like any operand. -/
theorem fold_inj {α : Type} {ofLeaf : Operand → α} {ofJoin : Connective → α → α → α}
    (hleaf : ∀ x y : Operand, x.InGrammar → y.InGrammar → ofLeaf x = ofLeaf y → x = y)
    (hjoin : ∀ c d l l' r r', ofJoin c l r = ofJoin d l' r' → c = d ∧ l = l' ∧ r = r')
    (hne : ∀ x c l r, ofLeaf x ≠ ofJoin c l r) {a b : Rule} (ha : a.InGrammar) (hb : b.InGrammar)
    (h : a.fold ofLeaf ofJoin = b.fold ofLeaf ofJoin) : a = b := by
  induction a generalizing b with
  | leaf operand =>
      cases b with
      | leaf other =>
          rw [fold_leaf, fold_leaf] at h
          rw [hleaf _ _ (ha operand List.mem_cons_self) (hb other List.mem_cons_self) h]
      | join connective left right =>
          rw [fold_leaf, fold_join] at h
          exact absurd h (hne _ _ _ _)
  | join connective left right ihl ihr =>
      cases b with
      | leaf other =>
          rw [fold_leaf, fold_join] at h
          exact absurd h.symm (hne _ _ _ _)
      | join other left' right' =>
          rw [fold_join, fold_join] at h
          obtain ⟨rfl, hleft, hright⟩ := hjoin _ _ _ _ _ _ h
          rw [ihl ha.left hb.left hleft, ihr ha.right hb.right hright]

theorem joinToJson_inj {c d : Connective} {left left' right right' : Json}
    (h : joinToJson c left right = joinToJson d left' right') :
    c = d ∧ left = left' ∧ right = right' := by
  simp only [joinToJson, Json.object.injEq, List.cons.injEq, Prod.mk.injEq, true_and, and_true] at h
  exact ⟨Connective.toJson_inj h.1, h.2⟩

theorem toJson_inj {a b : Rule} (ha : a.InGrammar) (hb : b.InGrammar) (h : a.toJson = b.toJson) :
    a = b := by
  refine fold_inj (fun _ _ => Operand.toJson_inj) (fun _ _ _ _ _ _ => joinToJson_inj) ?_ ha hb h
  intro operand connective left right hsame
  simp [Operand.toJson, joinToJson] at hsame

theorem numbersFinite_toJson (rule : Rule) : rule.toJson.NumbersFinite := by
  induction rule with
  | leaf operand =>
      have hliteral : operand.literal.toJson.NumbersFinite := by
        cases operand.literal with
        | integer n =>
            exact Json.numbersFinite_number (JsonNumber.isSome_toBinary64?_ofInt n)
        | digits s => exact Json.numbersFinite_string s
        | text s => exact Json.numbersFinite_string s
      rw [toJson_leaf]
      apply Json.numbersFinite_object
      simp [Json.numbersFinite_string, Comparator.toJson, hliteral]
  | join connective left right ihl ihr =>
      rw [toJson_join]
      apply Json.numbersFinite_object
      simp [Json.numbersFinite_string, Connective.toJson, ihl, ihr]

end Rule

/-! ### Encoded outlines -/

namespace Outline

/-- A leaf, which has no list of children, is not encoded like a branch. -/
theorem toJson_inj {a b : Outline} (h : a.toJson = b.toJson) : a = b := by
  induction a generalizing b with
  | leaf label =>
      cases b with
      | leaf other =>
          simp only [toJson, Json.object.injEq, List.cons.injEq, Prod.mk.injEq,
            Json.string.injEq, true_and, and_true] at h
          rw [h]
      | branch other left right => simp [toJson] at h
  | branch label left right ihl ihr =>
      cases b with
      | leaf other => simp [toJson] at h
      | branch other left' right' =>
          simp only [toJson, Json.object.injEq, Json.array.injEq, List.cons.injEq, Prod.mk.injEq,
            Json.string.injEq, true_and, and_true] at h
          obtain ⟨hlabel, hleft, hright⟩ := h
          rw [hlabel, ihl hleft, ihr hright]

theorem numbersFinite_toJson (outline : Outline) : outline.toJson.NumbersFinite := by
  induction outline with
  | leaf label =>
      apply Json.numbersFinite_object
      simp [Json.numbersFinite_string]
  | branch label left right ihl ihr =>
      apply Json.numbersFinite_object
      have hchildren : (Json.array [left.toJson, right.toJson]).NumbersFinite := by
        apply Json.numbersFinite_array
        simp [ihl, ihr]
      simp [Json.numbersFinite_string, hchildren]

end Outline

namespace Rule

theorem outline_inj {a b : Rule} (ha : a.InGrammar) (hb : b.InGrammar) (h : a.outline = b.outline) :
    a = b := by
  refine fold_inj (fun x y hx hy hsame => ?_) (fun c d l l' r r' hsame => ?_) ?_ ha hb h
  · exact Operand.toText_inj hx hy (Outline.leaf.inj hsame)
  · rw [Outline.branch.injEq] at hsame
    exact ⟨Connective.keyword_inj hsame.1, hsame.2⟩
  · intro operand connective left right hsame
    cases hsame

/-- Rules of the grammar, whatever their shapes, have the same JSON text only if they are the same, and
so have their outlines. -/
theorem json_texts_eq_iff {a b : Rule} (ha : a.InGrammar) (hb : b.InGrammar) :
    (a.toJson.write = b.toJson.write ↔ a = b) ∧
      (a.outline.toJson.write = b.outline.toJson.write ↔ a = b) := by
  refine ⟨⟨fun h => ?_, fun h => by rw [h]⟩, ⟨fun h => ?_, fun h => by rw [h]⟩⟩
  · exact toJson_inj ha hb (Json.write_inj a.numbersFinite_toJson b.numbersFinite_toJson h)
  · exact outline_inj ha hb (Outline.toJson_inj
      (Json.write_inj a.outline.numbersFinite_toJson b.outline.numbersFinite_toJson h))

/-- Digits and letters, both of which are strings in JSON, beside two groupings. -/
theorem json_texts_eq_iff_of_strings :
    let x : Rule := .leaf ⟨"a", .equal, .digits "9223372036854775808"⟩
    let y : Rule := .leaf ⟨"a", .equal, .text "X"⟩
    let a : Rule := .join .or (.join .or x y) x
    let b : Rule := .join .or x (.join .or y x)
    (x.InGrammar ∧ y.InGrammar ∧ x.toJson.write ≠ y.toJson.write ∧
      x.outline.toJson.write ≠ y.outline.toJson.write) ∧
    (a.InGrammar ∧ b.InGrammar ∧ a.toJson.write ≠ b.toJson.write ∧
      a.outline.toJson.write ≠ b.outline.toJson.write) := by
  intro x y a b
  have hx : x.InGrammar := by decide
  have hy : y.InGrammar := by decide
  have ha : a.InGrammar := by decide
  have hb : b.InGrammar := by decide
  have hxy : x ≠ y := by
    intro h
    injection h with hoperand
    injection hoperand with _ _ hliteral
    cases hliteral
  have hab : a ≠ b := by
    intro h
    injection h with _ hleft _
    cases hleft
  obtain ⟨hjson, houtline⟩ := json_texts_eq_iff hx hy
  obtain ⟨hjson', houtline'⟩ := json_texts_eq_iff ha hb
  exact ⟨⟨hx, hy, fun h => hxy (hjson.mp h), fun h => hxy (houtline.mp h)⟩,
    ⟨ha, hb, fun h => hab (hjson'.mp h), fun h => hab (houtline'.mp h)⟩⟩

end Rule

end RecordRules
