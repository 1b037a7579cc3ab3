import RecordRules.Proofs.Equality
import RecordRules.Proofs.RoundTrip

/-! Canonical texts tell rules apart. No part of an operand has the character that stands behind it,
and no operand starts with a bracket, so from left to right the text of a rule shows the rule, with its
brackets, and where it ends. Reading a text does not look at the brackets, and gives the same rule for
all rules with the same operands and connectives in the same order. -/

namespace RecordRules

open RuleText

/-! ### Operands -/

namespace RuleText

/-- What may stand before the bracket that closes an operand. -/
def isNotClosing (c : Char) : Bool :=
  c != ')'

theorem IsLiteralText.all_isNotClosing {literal : List Char} (h : IsLiteralText literal) :
    ∀ c ∈ literal, isNotClosing c = true := by
  intro c hc
  rw [isNotClosing, bne_iff_ne]
  rintro rfl
  rcases h with hdigits | ⟨letters, hletters, rfl⟩
  · exact absurd (hdigits.2 _ hc) (by decide)
  · simp only [List.mem_cons, List.mem_append, List.not_mem_nil, or_false] at hc
    rcases hc with hquote | hletter | hquote
    · exact absurd hquote (by decide)
    · exact absurd (hletters.2 _ hletter) (by decide)
    · exact absurd hquote (by decide)

end RuleText

namespace Operand

variable {a b : Operand}

theorem toList_toText (operand : Operand) :
    operand.toText.toList = operand.name.toList ++
      ' ' :: (operand.comparator.symbol.toList ++ ' ' :: operand.literal.toText.toList) := by
  simp [toText]

/-- An operand is its own parts as written, which its text shows in front of a closing bracket. -/
theorem toText_append_inj (ha : a.InGrammar) (hb : b.InGrammar) {s t : List Char}
    (h : a.toText.toList ++ ')' :: s = b.toText.toList ++ ')' :: t) : a = b ∧ s = t := by
  have hblank : ∀ chars, StartsOutside isNameChar (' ' :: chars) := fun _ =>
    startsOutside_cons (by decide)
  have hblank' : ∀ chars, StartsOutside isComparatorChar (' ' :: chars) := fun _ =>
    startsOutside_cons (by decide)
  have hclosing : ∀ chars, StartsOutside isNotClosing (')' :: chars) := fun _ =>
    startsOutside_cons (by decide)
  simp only [toList_toText, List.append_assoc, List.cons_append] at h
  obtain ⟨hname, hafterName⟩ := run_append_inj ha.name.2 (hblank _) hb.name.2 (hblank _) h
  obtain ⟨hsymbol, hafterSymbol⟩ := run_append_inj ha.isRun_symbol.2 (hblank' _)
    hb.isRun_symbol.2 (hblank' _) (List.cons.inj hafterName).2
  obtain ⟨hliteral, hafterLiteral⟩ := run_append_inj
    (Literal.isLiteralText_toText ha.literal).all_isNotClosing (hclosing _)
    (Literal.isLiteralText_toText hb.literal).all_isNotClosing (hclosing _) (List.cons.inj hafterSymbol).2
  have hwritten : a.written = b.written := by
    simp only [written, OperandText.mk.injEq, ← String.toList_inj]
    exact ⟨hname, hsymbol, hliteral⟩
  refine ⟨?_, (List.cons.inj hafterLiteral).2⟩
  rw [← ha.toOperand_written, hwritten, hb.toOperand_written]

theorem toText_inj (ha : a.InGrammar) (hb : b.InGrammar) (h : a.toText = b.toText) : a = b := by
  have hclosed : a.toText.toList ++ [')'] = b.toText.toList ++ [')'] := by rw [h]
  exact (toText_append_inj ha hb hclosed).1

theorem InGrammar.toText_ne_bracket (ha : a.InGrammar) (s t : List Char) :
    a.toText.toList ++ s ≠ '(' :: t := by
  obtain ⟨c, name, hname⟩ := List.exists_cons_of_ne_nil ha.name.1
  have hc : isNameChar c = true := ha.name.2 c (by simp [hname])
  intro h
  rw [toList_toText, hname] at h
  rw [(List.cons.inj h).1] at hc
  exact absurd hc (by decide)

end Operand

theorem Connective.keyword_append_inj {c d : Connective} {s t : List Char}
    (h : c.keyword.toList ++ s = d.keyword.toList ++ t) : c = d ∧ s = t := by
  cases c <;> cases d <;> simp [keyword] at h ⊢
  · exact h
  · exact h

/-! ### Rules -/

namespace Rule

theorem toList_bracketed_leaf (operand : Operand) :
    (leaf operand).bracketed.toList = '(' :: (operand.toText.toList ++ [')']) := by
  simp [bracketed]

theorem toList_bracketed_join (connective : Connective) (left right : Rule) :
    (join connective left right).bracketed.toList =
      '(' :: (left.bracketed.toList ++
        ' ' :: (connective.keyword.toList ++ ' ' :: (right.bracketed.toList ++ [')']))) := by
  simp [bracketed]

theorem exists_toList_bracketed_eq (rule : Rule) : ∃ rest, rule.bracketed.toList = '(' :: rest := by
  cases rule with
  | leaf operand => exact ⟨_, toList_bracketed_leaf operand⟩
  | join connective left right => exact ⟨_, toList_bracketed_join connective left right⟩

/-- A text that starts with an operand in brackets does not start with a join. -/
theorem leaf_ne_join {operand : Operand} (h : operand.InGrammar) (connective : Connective)
    (left right : Rule) (s t : List Char) :
    (leaf operand).bracketed.toList ++ s ≠ (join connective left right).bracketed.toList ++ t := by
  obtain ⟨rest, hleft⟩ := exists_toList_bracketed_eq left
  rw [toList_bracketed_leaf, toList_bracketed_join, hleft]
  simp only [List.cons_append, List.append_assoc, ne_eq, List.cons.injEq, true_and]
  exact h.toText_ne_bracket _ _

/-- What a text starts with is the bracketed text of one rule at most, which ends at one place. -/
theorem bracketed_append_inj {a b : Rule} (ha : a.InGrammar) (hb : b.InGrammar) {s t : List Char}
    (h : a.bracketed.toList ++ s = b.bracketed.toList ++ t) : a = b ∧ s = t := by
  induction a generalizing b s t with
  | leaf operand =>
      have hoperand := ha operand List.mem_cons_self
      cases b with
      | leaf other =>
          simp only [toList_bracketed_leaf, List.cons_append, List.append_assoc, List.nil_append,
            List.cons.injEq, true_and] at h
          obtain ⟨rfl, hrest⟩ :=
            Operand.toText_append_inj hoperand (hb other List.mem_cons_self) h
          exact ⟨rfl, hrest⟩
      | join connective left right => exact absurd h (leaf_ne_join hoperand _ _ _ _ _)
  | join connective left right ihl ihr =>
      cases b with
      | leaf other =>
          exact absurd h.symm (leaf_ne_join (hb other List.mem_cons_self) _ _ _ _ _)
      | join other left' right' =>
          simp only [toList_bracketed_join, List.cons_append, List.append_assoc, List.nil_append,
            List.cons.injEq, true_and] at h
          obtain ⟨rfl, hafterLeft⟩ := ihl ha.left hb.left h
          obtain ⟨rfl, hafterKeyword⟩ :=
            Connective.keyword_append_inj (List.cons.inj hafterLeft).2
          obtain ⟨rfl, hafterRight⟩ := ihr ha.right hb.right (List.cons.inj hafterKeyword).2
          exact ⟨rfl, (List.cons.inj hafterRight).2⟩

theorem render_inj {a b : Rule} (ha : a.InGrammar) (hb : b.InGrammar) (h : a.render = b.render) :
    a = b := by
  rw [render_eq_bracketed, render_eq_bracketed] at h
  exact (bracketed_append_inj ha hb (s := []) (t := []) (by rw [h])).1

/-- Rules of the grammar, whatever their shapes, are the same exactly if their canonical texts are, so
that comparing the texts is the same test as comparing the rules. Reading back the texts tells less: it
gives the same rule for both as soon as the two have the same operands with the same connectives
between them, in whatever brackets. -/
theorem render_eq_iff {a b : Rule} (ha : a.InGrammar) (hb : b.InGrammar) :
    (a.render = b.render ↔ a = b) ∧ (a == b) = (a.render == b.render) ∧
      (Rule.parse a.render = Rule.parse b.render ↔ a.chain = b.chain) := by
  have hsame : a.render = b.render ↔ a = b := ⟨render_inj ha hb, congrArg render⟩
  refine ⟨hsame, ?_, ?_⟩
  · rw [Bool.eq_iff_iff, beq_iff_eq, beq_iff_eq, hsame]
  · rw [parse_render ha, parse_render hb, Except.ok.injEq]
    constructor
    · intro h
      rw [← chain_toRule a.chain, h, chain_toRule]
    · exact congrArg Chain.toRule

/-- Two groupings of three operands, which are read back as the same rule. -/
theorem render_eq_iff_of_regrouped :
    let x : Rule := .leaf ⟨"a", .greater, .integer 1⟩
    let y : Rule := .leaf ⟨"b", .equal, .text "X"⟩
    let z : Rule := .leaf ⟨"c", .unrecognized "=<", .digits "9223372036854775808"⟩
    let a : Rule := .join .or (.join .and x y) z
    let b : Rule := .join .and x (.join .or y z)
    a.InGrammar ∧ b.InGrammar ∧ a.render ≠ b.render ∧ (a == b) = false ∧
      Rule.parse a.render = Rule.parse b.render := by
  intro x y z a b
  have ha : a.InGrammar := by decide
  have hb : b.InGrammar := by decide
  have hne : a ≠ b := by
    intro h
    injection h with hconnective
    cases hconnective
  obtain ⟨hrender, hequal, hparse⟩ := render_eq_iff ha hb
  refine ⟨ha, hb, fun h => hne (hrender.mp h), ?_, hparse.mpr rfl⟩
  rw [hequal, beq_eq_false_iff_ne]
  exact fun h => hne (hrender.mp h)

end Rule

end RecordRules
