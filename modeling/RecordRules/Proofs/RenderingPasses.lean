import Mathlib.Logic.Function.Iterate
import RecordRules.Proofs.Rendering

/-! Writing a rule pass by pass. A pass takes the first piece off the list, writes what the piece has to
write at once, and puts its parts in front of the others. What is written and what the pieces left spell
always make up the canonical text, whatever brackets of the joins above are still open; and every pass
leaves one less to come. So writing ends, after a number of passes that the size of the rule fixes, and
with that text. -/

namespace RecordRules.Rule

/-- What a piece writes when it is taken off. -/
def Piece.written : Piece → String
  | .subrule (.leaf operand) => "(" ++ operand.toText ++ ")"
  | .subrule (.join _ _ _) => "("
  | .connective c => " " ++ c.keyword ++ " "
  | .close => ")"

/-- The pieces that a piece leaves in its place. -/
def Piece.parts : Piece → List Piece
  | .subrule (.leaf _) => []
  | .subrule (.join c left right) => [.subrule left, .connective c, .subrule right, .close]
  | .connective _ => []
  | .close => []

/-- One pass; there is nothing to do once no piece is left. -/
def writePass : String × List Piece → String × List Piece
  | (text, []) => (text, [])
  | (text, piece :: pieces) => (text ++ piece.written, piece.parts ++ pieces)

/-- The text written and the pieces left after some passes over a rule. -/
def afterPasses (rule : Rule) (count : Nat) : String × List Piece :=
  writePass^[count] ("", [.subrule rule])

/-- A call of `renderOnto` makes one pass and leaves the others to the next call. -/
theorem renderOnto_cons (text : String) (piece : Piece) (pieces : List Piece) :
    renderOnto text (piece :: pieces) =
      renderOnto (text ++ piece.written) (piece.parts ++ pieces) := by
  cases piece with
  | subrule rule =>
      cases rule with
      | leaf operand =>
          rw [renderOnto, Piece.written, Piece.parts, List.nil_append]
          simp only [String.append_assoc]
      | join connective left right => rw [renderOnto]; rfl
  | connective connective =>
      rw [renderOnto, Piece.written, Piece.parts, List.nil_append]
      simp only [String.append_assoc]
  | close => rw [renderOnto]; rfl

theorem renderOnto_writePass (state : String × List Piece) :
    renderOnto (writePass state).1 (writePass state).2 = renderOnto state.1 state.2 := by
  obtain ⟨text, pieces⟩ := state
  cases pieces with
  | nil => rfl
  | cons piece pieces => exact (renderOnto_cons text piece pieces).symm

/-! ### The text of the pieces left -/

/-- All that a piece comes to spell, its parts included. -/
def Piece.text : Piece → String
  | .subrule rule => rule.bracketed
  | .connective c => " " ++ c.keyword ++ " "
  | .close => ")"

def piecesText : List Piece → String
  | [] => ""
  | piece :: pieces => piece.text ++ piecesText pieces

/-- Any pieces, be they left of a rule or not, are written one behind the other. -/
theorem renderOnto_eq_append (text : String) (pieces : List Piece) :
    renderOnto text pieces = text ++ piecesText pieces := by
  induction pieces generalizing text with
  | nil => rw [renderOnto, piecesText, String.append_empty]
  | cons piece pieces ih =>
      -- a subrule is one piece here, however many passes it takes
      have hpiece : renderOnto text (piece :: pieces) = renderOnto (text ++ piece.text) pieces := by
        cases piece with
        | subrule rule => exact renderOnto_subrule rule text pieces
        | connective connective => exact renderOnto_cons text (.connective connective) pieces
        | close => exact renderOnto_cons text .close pieces
      rw [hpiece, ih, piecesText, String.append_assoc]

/-! ### The passes to come -/

/-- The passes that a piece takes: one for an operand, three for a join besides those of its rules. -/
def Piece.passes : Piece → Nat
  | .subrule rule => 2 * rule.size - 1
  | .connective _ => 1
  | .close => 1

def piecesPasses : List Piece → Nat
  | [] => 0
  | piece :: pieces => piece.passes + piecesPasses pieces

theorem size_pos (rule : Rule) : 0 < rule.size := by
  cases rule <;> exact Nat.succ_pos _

theorem Piece.passes_pos (piece : Piece) : 0 < piece.passes := by
  cases piece with
  | subrule rule =>
      have hsize := rule.size_pos
      simp only [passes]
      omega
  | connective connective => exact Nat.one_pos
  | close => exact Nat.one_pos

theorem piecesPasses_eq_zero_iff (pieces : List Piece) : piecesPasses pieces = 0 ↔ pieces = [] := by
  cases pieces with
  | nil => exact iff_of_true rfl rfl
  | cons piece pieces =>
      have hpiece := piece.passes_pos
      refine iff_of_false ?_ (List.cons_ne_nil piece pieces)
      rw [piecesPasses]
      omega

theorem piecesPasses_parts_append (piece : Piece) (pieces : List Piece) :
    piecesPasses (piece.parts ++ pieces) + 1 = piece.passes + piecesPasses pieces := by
  cases piece with
  | subrule rule =>
      cases rule with
      | leaf operand => exact Nat.add_comm _ 1
      | join connective left right =>
          -- no rule is without a node, so none of the differences is cut off at zero
          have hleft := left.size_pos
          have hright := right.size_pos
          simp only [Piece.parts, List.cons_append, List.nil_append, piecesPasses, Piece.passes, size]
          omega
  | connective connective => exact Nat.add_comm _ 1
  | close => exact Nat.add_comm _ 1

theorem piecesPasses_writePass (state : String × List Piece) :
    piecesPasses (writePass state).2 = piecesPasses state.2 - 1 := by
  obtain ⟨text, pieces⟩ := state
  cases pieces with
  | nil => rfl
  | cons piece pieces =>
      have hparts := piecesPasses_parts_append piece pieces
      simp only [writePass, piecesPasses]
      omega

/-! ### Whole runs -/

/-- How far the writing of a rule has come: from here on it gives the text of the rule, and takes the
passes of the rule less those that were made. -/
structure WrittenFor (rule : Rule) (count : Nat) (state : String × List Piece) : Prop where
  render : renderOnto state.1 state.2 = rule.render
  passes : piecesPasses state.2 = 2 * rule.size - 1 - count

theorem WrittenFor.succ {rule : Rule} {count : Nat} {state : String × List Piece}
    (h : WrittenFor rule count state) : WrittenFor rule (count + 1) (writePass state) where
  render := by rw [renderOnto_writePass, h.render]
  passes := by rw [piecesPasses_writePass, h.passes, Nat.sub_sub]

theorem writtenFor_afterPasses (rule : Rule) (count : Nat) :
    WrittenFor rule count (rule.afterPasses count) := by
  induction count with
  | zero => exact ⟨rfl, rfl⟩
  | succ count ih =>
      rw [afterPasses, Function.iterate_succ_apply']
      exact ih.succ

/-- After any number of passes the text so far goes on with that of the pieces left to the whole text. -/
theorem afterPasses_text (rule : Rule) (count : Nat) :
    (rule.afterPasses count).1 ++ piecesText (rule.afterPasses count).2 = rule.bracketed := by
  rw [← renderOnto_eq_append, (writtenFor_afterPasses rule count).render, render_eq_bracketed]

theorem afterPasses_snd_eq_nil_iff (rule : Rule) (count : Nat) :
    (rule.afterPasses count).2 = [] ↔ 2 * rule.size ≤ count + 1 := by
  have hsize := rule.size_pos
  rw [← piecesPasses_eq_zero_iff, (writtenFor_afterPasses rule count).passes]
  omega

theorem afterPasses_last (rule : Rule) :
    rule.afterPasses (2 * rule.size - 1) = (rule.render, []) := by
  have hpieces : (rule.afterPasses (2 * rule.size - 1)).2 = [] :=
    (rule.afterPasses_snd_eq_nil_iff _).mpr (by omega)
  have htext := (writtenFor_afterPasses rule (2 * rule.size - 1)).render
  rw [hpieces, renderOnto] at htext
  exact Prod.ext htext hpieces

/-- Writing a rule ends, with nothing left to write, after twice as many passes, less one, as the rule has
operands and joins, and not before. After each pass writing goes on to the same text, and what is written
and what the pieces left spell make up the structural text of the rule. So the outcome is that text: an
operand stands in brackets with its name, its comparator and its literal, and a join with its connective
between its two rules. -/
theorem render_pass_by_pass (rule : Rule) :
    (∀ count, (rule.afterPasses count).2 = [] ↔ 2 * rule.size ≤ count + 1) ∧
      (∀ count, renderOnto (rule.afterPasses count).1 (rule.afterPasses count).2 = rule.render ∧
        (rule.afterPasses count).1 ++ piecesText (rule.afterPasses count).2 = rule.bracketed) ∧
      rule.afterPasses (2 * rule.size - 1) = (rule.render, []) ∧
      rule.render = rule.bracketed ∧
      (∀ operand : Operand, (Rule.leaf operand).render =
        "(" ++ operand.name ++ " " ++ operand.comparator.symbol ++ " " ++
          operand.literal.toText ++ ")") ∧
      ∀ (connective : Connective) (left right : Rule), (Rule.join connective left right).render =
        "(" ++ left.render ++ " " ++ connective.keyword ++ " " ++ right.render ++ ")" := by
  refine ⟨rule.afterPasses_snd_eq_nil_iff,
    fun count => ⟨(writtenFor_afterPasses rule count).render, rule.afterPasses_text count⟩,
    rule.afterPasses_last, rule.render_eq_bracketed, ?_, ?_⟩
  · intro operand
    rw [render_eq_bracketed, bracketed, Operand.toText]
    simp only [String.append_assoc]
  · intro connective left right
    simp only [render_eq_bracketed, bracketed]

end RecordRules.Rule
