import RecordRules.Proofs.CombinedEvaluation
import RecordRules.Proofs.StructuralEvaluation

/-! Combining a combination again. A combination is read back from its canonical text, where the
brackets around its rules do not count: its operands come back as one left fold. There an operand
that follows an `AND` in a later rule restricts all that stands before it, the earlier rules as well.
So what comes back is the same rule only if every later rule is an operand, and it is evaluated alike
just where no such rule overrules an earlier one that holds. -/

namespace RecordRules

namespace Rule

/-- The leftmost operand of a rule. -/
def firstOperand : Rule → Operand
  | .leaf operand => operand
  | .join _ left _ => left.firstOperand

/-- All connectives of the rule are `OR`. -/
def Disjunctive : Rule → Prop
  | .leaf _ => True
  | .join connective left right => connective = .or ∧ left.Disjunctive ∧ right.Disjunctive

theorem first_chain (rule : Rule) : rule.chain.first = rule.firstOperand := by
  induction rule with
  | leaf operand => rfl
  | join connective left right ihl _ => exact ihl

theorem leftLeaning_foldl_or_iff (rules : List Rule) (rule : Rule) :
    (rules.foldl (.join .or) rule).LeftLeaning ↔
      rule.LeftLeaning ∧ ∀ later ∈ rules, later.isOperand = true := by
  induction rules generalizing rule with
  | nil => exact ⟨fun h => ⟨h, nofun⟩, fun h => h.1⟩
  | cons next rules ih =>
      rw [List.foldl_cons, ih, List.forall_mem_cons]
      have hnext : next.isOperand = true → next.LeftLeaning := by
        cases next with
        | leaf operand => exact fun _ => trivial
        | join connective left right => exact nofun
      constructor
      · rintro ⟨⟨hoperand, hrule, _⟩, hlater⟩
        exact ⟨hrule, hoperand, hlater⟩
      · rintro ⟨hrule, hoperand, hlater⟩
        exact ⟨⟨hoperand, hrule, hnext hoperand⟩, hlater⟩

section

variable (settings : Settings) (lookup : String → Option Value)

/-- Whether a rule holds if its first operand is taken to hold, or not, as given. -/
def holdsGiven (first : Bool) : Rule → Bool
  | .leaf _ => first
  | .join .and left right => left.holdsGiven first && right.holds settings lookup
  | .join .or left right => left.holdsGiven first || right.holds settings lookup

/-- Whether the first operand of a rule holds. -/
def firstHolds (rule : Rule) : Bool :=
  rule.firstOperand.holds settings.crossKind (lookup rule.firstOperand.name)

/-- Whether a rule holds if its first operand has what stands before the rule as an alternative. -/
def holdsAfter (before : Bool) (rule : Rule) : Bool :=
  rule.holdsGiven settings lookup (before || rule.firstHolds settings lookup)

theorem holdsGiven_join (first : Bool) (connective : Connective) (left right : Rule) :
    (join connective left right).holdsGiven settings lookup first =
      connective.apply (left.holdsGiven settings lookup first) (right.holds settings lookup) := by
  cases connective <;> rfl

theorem holdsGiven_firstHolds (rule : Rule) :
    rule.holdsGiven settings lookup (rule.firstHolds settings lookup) =
      rule.holds settings lookup := by
  induction rule with
  | leaf operand => rfl
  | join connective left right ihl _ =>
      rw [holdsGiven_join, holds_join, ← ihl]
      rfl

theorem holdsGiven_true {rule : Rule} {first : Bool}
    (h : rule.holdsGiven settings lookup first = true) :
    rule.holdsGiven settings lookup true = true := by
  induction rule with
  | leaf operand => rfl
  | join connective left right ihl _ =>
      cases connective with
      | and =>
          rw [holdsGiven, Bool.and_eq_true] at h ⊢
          exact ⟨ihl h.1, h.2⟩
      | or =>
          rw [holdsGiven, Bool.or_eq_true] at h ⊢
          exact h.imp_left ihl

theorem holdsGiven_true_of_disjunctive {rule : Rule} (h : rule.Disjunctive) :
    rule.holdsGiven settings lookup true = true := by
  induction rule with
  | leaf operand => rfl
  | join connective left right ihl _ =>
      obtain ⟨rfl, hleft, _⟩ := h
      rw [holdsGiven, ihl hleft, Bool.true_or]

theorem holds_foldl_extend {rule : Rule} (h : rule.LeftLeaning) (left : Rule) :
    (rule.chain.further.foldl Chain.extend left).holds settings lookup =
      rule.holdsGiven settings lookup (left.holds settings lookup) := by
  induction rule with
  | leaf operand => rfl
  | join connective before right ih _ =>
      obtain ⟨hright, hbefore, _⟩ := h
      cases right with
      | join c l r => cases hright
      | leaf operand =>
          -- the last step of the fold joins this operand to what `before` left
          rw [chain, Chain.append, List.foldl_append, holdsGiven_join, ← ih hbefore]
          exact holds_join settings lookup connective _ _

/-- Where a combination is read back as one left fold, the rules before each rule count as an
alternative to the first operand of that rule only. -/
theorem holds_toRule_chain_foldl_or {rules : List Rule} (h : ∀ rule ∈ rules, rule.LeftLeaning)
    (rule : Rule) :
    (rules.foldl (.join .or) rule).chain.toRule.holds settings lookup =
      rules.foldl (holdsAfter settings lookup) (rule.chain.toRule.holds settings lookup) := by
  induction rules generalizing rule with
  | nil => rfl
  | cons next rules ih =>
      rw [List.foldl_cons, List.foldl_cons,
        ih fun later hlater => h later (List.mem_cons_of_mem _ hlater)]
      congr 1
      rw [chain, Chain.toRule_append, holds_foldl_extend settings lookup (h next List.mem_cons_self),
        first_chain]
      rfl

theorem holds_of_alternatives {rules : List Rule} {combined : Rule}
    (h : alternatives rules = some combined) :
    combined.holds settings lookup = rules.any (holds settings lookup) := by
  have hany := evaluate_alternatives_lookup settings lookup rules
  simpa only [h, evaluate_ofLookup] using hany

/-- A rule that fails even if its first operand is taken to hold fails. -/
theorem holds_eq_false_of_given {rule : Rule}
    (h : rule.holdsGiven settings lookup true = false) : rule.holds settings lookup = false := by
  rw [← Bool.not_eq_true] at h ⊢
  intro hholds
  rw [← holdsGiven_firstHolds] at hholds
  exact h (holdsGiven_true settings lookup hholds)

/-- A rule whose first operand has alternatives before it fails in two ways: with them, or whatever
its first operand gives. -/
theorem holdsAfter_eq_false_iff (before : Bool) (rule : Rule) :
    rule.holdsAfter settings lookup before = false ↔
      (before = false ∧ rule.holds settings lookup = false) ∨
        rule.holdsGiven settings lookup true = false := by
  rw [holdsAfter]
  cases before with
  | true =>
      rw [Bool.true_or]
      exact ⟨Or.inr, fun h => h.resolve_left fun h => nomatch h.1⟩
  | false =>
      rw [Bool.false_or, holdsGiven_firstHolds]
      constructor
      · exact fun h => Or.inl ⟨rfl, h⟩
      · rintro (⟨_, h⟩ | h)
        · exact h
        · exact holds_eq_false_of_given settings lookup h

/-- The last rule that fails whatever its first operand gives leaves the ones after it to decide. -/
theorem foldl_holdsAfter_eq_false_iff (rules : List Rule) (before : Bool) :
    rules.foldl (holdsAfter settings lookup) before = false ↔
      (before = false ∧ ∀ rule ∈ rules, rule.holds settings lookup = false) ∨
        ∃ front rule back, rules = front ++ rule :: back ∧
          rule.holdsGiven settings lookup true = false ∧
          ∀ later ∈ back, later.holds settings lookup = false := by
  induction rules generalizing before with
  | nil =>
      constructor
      · exact fun h => Or.inl ⟨h, nofun⟩
      · rintro (⟨h, _⟩ | ⟨front, rule, back, h, _⟩)
        · exact h
        · exact absurd h.symm (List.append_ne_nil_of_right_ne_nil front (List.cons_ne_nil rule back))
  | cons next rules ih =>
      rw [List.foldl_cons, ih, holdsAfter_eq_false_iff]
      -- the overruling rule is `next`, where none behind it holds, or one of those behind it
      constructor
      · rintro (⟨⟨hbefore, hnext⟩ | hnext, hrules⟩ | ⟨front, rule, back, rfl, hrule, hback⟩)
        · exact Or.inl ⟨hbefore, List.forall_mem_cons.mpr ⟨hnext, hrules⟩⟩
        · exact Or.inr ⟨[], next, rules, rfl, hnext, hrules⟩
        · exact Or.inr ⟨next :: front, rule, back, rfl, hrule, hback⟩
      · rintro (⟨hbefore, hall⟩ | ⟨front, rule, back, hrules, hrule, hback⟩)
        · obtain ⟨hnext, hrules⟩ := List.forall_mem_cons.mp hall
          exact Or.inl ⟨Or.inl ⟨hbefore, hnext⟩, hrules⟩
        · cases front with
          | nil =>
              cases hrules
              exact Or.inl ⟨Or.inr hrule, hback⟩
          | cons first front =>
              cases hrules
              exact Or.inr ⟨front, rule, back, rfl, hrule, hback⟩

end

end Rule

/-- Some rule holds, but a later one fails whatever its first operand gives, and no rule after that
one holds. -/
def Overruled (settings : Settings) (lookup : String → Option Value) (rules : List Rule) : Prop :=
  ∃ front rule back, rules = front ++ rule :: back ∧
    (∃ earlier ∈ front, earlier.holds settings lookup = true) ∧
    rule.holdsGiven settings lookup true = false ∧
    ∀ later ∈ back, later.holds settings lookup = false

theorem not_overruled_of_disjunctive (settings : Settings) (lookup : String → Option Value)
    {rules : List Rule} (h : ∀ rule ∈ rules.tail, rule.Disjunctive) :
    ¬ Overruled settings lookup rules := by
  rintro ⟨front, rule, back, rfl, ⟨earlier, hearlier, _⟩, hrule, _⟩
  cases front with
  | nil => cases hearlier
  | cons first front =>
      have hmem : rule ∈ (first :: front ++ rule :: back).tail :=
        List.mem_append_right front List.mem_cons_self
      rw [Rule.holdsGiven_true_of_disjunctive settings lookup (h rule hmem)] at hrule
      cases hrule

/-- A rule of the grammar, whatever its shape, comes back as the left fold of its operands. -/
theorem combine_singleton {rule : Rule} (h : rule.InGrammar) :
    combine [rule] = .ok (some rule.chain.toRule) := by
  rw [combine_eq, List.map_cons, mapM_cons_of_ok (Rule.parse_render h)]
  rfl

/-- A combination of left-leaning rules, read back as one left fold, fails where no rule holds or one
that does is overruled. -/
theorem holds_toRule_chain_eq_false_iff (settings : Settings) (lookup : String → Option Value)
    {first : Rule} {further : List Rule} (h : ∀ rule ∈ first :: further, rule.LeftLeaning) :
    (further.foldl (.join .or) first).chain.toRule.holds settings lookup = false ↔
      (∀ rule ∈ first :: further, rule.holds settings lookup = false) ∨
        Overruled settings lookup (first :: further) := by
  obtain ⟨hfirst, hfurther⟩ := List.forall_mem_cons.mp h
  rw [Rule.holds_toRule_chain_foldl_or settings lookup hfurther,
    Rule.toRule_chain_of_leftLeaning hfirst, Rule.foldl_holdsAfter_eq_false_iff]
  constructor
  · rintro (hall | ⟨front, rule, back, rfl, hrule, hback⟩)
    · exact Or.inl (List.forall_mem_cons.mpr hall)
    · by_cases hfront : ∃ earlier ∈ first :: front, earlier.holds settings lookup = true
      · exact Or.inr ⟨first :: front, rule, back, rfl, hfront, hrule, hback⟩
      · refine Or.inl fun other hother => ?_
        rw [← List.cons_append] at hother
        rcases List.mem_append.mp hother with hother | hother
        · exact Bool.eq_false_iff.mpr fun hholds => hfront ⟨other, hother, hholds⟩
        · have hrest : ∀ later ∈ rule :: back, later.holds settings lookup = false :=
            List.forall_mem_cons.mpr ⟨Rule.holds_eq_false_of_given settings lookup hrule, hback⟩
          exact hrest other hother
  · rintro (hall | ⟨front, rule, back, hrules, ⟨earlier, hearlier, _⟩, hrule, hback⟩)
    · exact Or.inl (List.forall_mem_cons.mp hall)
    · cases front with
      | nil => cases hearlier
      | cons other front =>
          cases hrules
          exact Or.inr ⟨front, rule, back, rfl, hrule, hback⟩

theorem holds_toRule_chain_eq_iff (settings : Settings) (lookup : String → Option Value)
    {first : Rule} {further : List Rule} (h : ∀ rule ∈ first :: further, rule.LeftLeaning) :
    (further.foldl (.join .or) first).chain.toRule.holds settings lookup =
        (further.foldl (.join .or) first).holds settings lookup ↔
      ¬ Overruled settings lookup (first :: further) := by
  have hfails := holds_toRule_chain_eq_false_iff settings lookup h
  have hany : (further.foldl (.join .or) first).holds settings lookup =
      (first :: further).any (Rule.holds settings lookup) :=
    Rule.holds_of_alternatives settings lookup rfl
  by_cases hoverruled : Overruled settings lookup (first :: further)
  · obtain ⟨front, rule, back, hrules, ⟨earlier, hearlier, hholds⟩, _⟩ := id hoverruled
    have hsome : (first :: further).any (Rule.holds settings lookup) = true :=
      List.any_eq_true.mpr ⟨earlier, hrules ▸ List.mem_append_left _ hearlier, hholds⟩
    rw [hany, hsome, hfails.mpr (Or.inr hoverruled)]
    exact iff_of_false nofun fun h => h hoverruled
  · refine iff_of_true ?_ hoverruled
    rw [or_iff_left hoverruled] at hfails
    rw [hany, Bool.eq_iff_iff, List.any_eq_true, ← Bool.not_eq_false, hfails]
    simp only [Classical.not_forall, Bool.not_eq_false, exists_prop]

/-- Rules that were read can be combined, and their combination can be combined again. What comes
back is the combination itself exactly if every rule but the first is an operand. It holds where the
combination holds, except where a rule that holds is overruled by a later one that fails whatever its
first operand gives. So it is evaluated alike everywhere if no rule but the first has an `AND`. -/
theorem combine_combination_iff {rules : List Rule} (hne : rules ≠ [])
    (hparsed : ∀ rule ∈ rules, ∃ text, Rule.parse text = .ok rule) :
    ∃ combined again, combine rules = .ok (some combined) ∧ combine [combined] = .ok (some again) ∧
      (again = combined ↔ ∀ rule ∈ rules.tail, rule.isOperand = true) ∧
      (∀ (settings : Settings) (lookup : String → Option Value),
        (evaluate settings (.ofLookup lookup) (some again) ()).1 =
            (evaluate settings (.ofLookup lookup) (some combined) ()).1 ↔
          ¬ Overruled settings lookup rules) ∧
      ((∀ rule ∈ rules.tail, rule.Disjunctive) →
        ∀ (settings : Settings) (lookup : String → Option Value),
          (evaluate settings (.ofLookup lookup) (some again) ()).1 =
            (evaluate settings (.ofLookup lookup) (some combined) ()).1) := by
  obtain ⟨first, further, rfl⟩ := List.exists_cons_of_ne_nil hne
  have hleft : ∀ rule ∈ first :: further, rule.LeftLeaning := by
    intro rule hmem
    obtain ⟨text, htext⟩ := hparsed rule hmem
    exact Rule.leftLeaning_of_parse htext
  have hgrammar : ∀ rule ∈ first :: further, rule.InGrammar := by
    intro rule hmem
    obtain ⟨text, htext⟩ := hparsed rule hmem
    exact Rule.inGrammar_of_parse htext
  obtain ⟨hfirst, hfurther⟩ := List.forall_mem_cons.mp hgrammar
  have hevaluate : ∀ (settings : Settings) (lookup : String → Option Value),
      (evaluate settings (.ofLookup lookup)
            (some (further.foldl (.join .or) first).chain.toRule) ()).1 =
          (evaluate settings (.ofLookup lookup) (some (further.foldl (.join .or) first)) ()).1 ↔
        ¬ Overruled settings lookup (first :: further) := by
    intro settings lookup
    rw [evaluate_ofLookup, evaluate_ofLookup]
    exact holds_toRule_chain_eq_iff settings lookup hleft
  refine ⟨further.foldl (.join .or) first, (further.foldl (.join .or) first).chain.toRule,
    combine_of_parsed hparsed, combine_singleton (Rule.inGrammar_foldl_or hfirst hfurther), ?_,
    hevaluate, fun hdisjunctive settings lookup => ?_⟩
  · rw [Rule.toRule_chain_eq_iff, Rule.leftLeaning_foldl_or_iff]
    exact and_iff_right (hleft first List.mem_cons_self)
  · exact (hevaluate settings lookup).mpr (not_overruled_of_disjunctive settings lookup hdisjunctive)

/-- A combination whose second rule is a join by `OR` comes back in another shape, but is evaluated
alike everywhere. -/
theorem combine_combination_of_or :
    let first : Rule :=
      .join .and (.leaf ⟨"a", .greater, .integer 1⟩) (.leaf ⟨"b", .greater, .integer 1⟩)
    let second : Rule :=
      .join .or (.leaf ⟨"c", .equal, .text "X"⟩) (.leaf ⟨"d", .less, .integer 3⟩)
    ∃ combined again, combine [first, second] = .ok (some combined) ∧
      combine [combined] = .ok (some again) ∧ again ≠ combined ∧
      ∀ (settings : Settings) (lookup : String → Option Value),
        (evaluate settings (.ofLookup lookup) (some again) ()).1 =
          (evaluate settings (.ofLookup lookup) (some combined) ()).1 := by
  intro first second
  have hparsed : ∀ rule ∈ [first, second], ∃ text, Rule.parse text = .ok rule := by
    intro rule hrule
    rcases List.mem_cons.mp hrule with rfl | hrule
    · exact ⟨"a > 1 AND b > 1", rfl⟩
    · obtain rfl := List.mem_singleton.mp hrule
      exact ⟨"c = 'X' OR d < 3", rfl⟩
  have hdisjunctive : ∀ rule ∈ [first, second].tail, rule.Disjunctive := by
    intro rule hrule
    obtain rfl := List.mem_singleton.mp hrule
    exact ⟨rfl, trivial, trivial⟩
  obtain ⟨combined, again, hcombine, hagain, hsame, _, halike⟩ :=
    combine_combination_iff (List.cons_ne_nil first [second]) hparsed
  refine ⟨combined, again, hcombine, hagain, fun h => ?_, halike hdisjunctive⟩
  exact Bool.noConfusion (hsame.mp h second List.mem_cons_self)

/-- A combination whose second rule is a join by `AND` comes back as another rule, which fails for a
record that the combination holds for. -/
theorem combine_combination_of_and :
    let a : Rule := .leaf ⟨"a", .equal, .integer 1⟩
    let b : Rule := .leaf ⟨"b", .equal, .integer 1⟩
    let c : Rule := .leaf ⟨"c", .equal, .integer 1⟩
    let combined : Rule := .join .or a (.join .and b c)
    let again : Rule := .join .and (.join .or a b) c
    let record := Record.ofList [("a", .integer 1)]
    (["a = 1", "b = 1 AND c = 1"].map Rule.parse = [a, .join .and b c].map .ok ∧
        combine [a, .join .and b c] = .ok (some combined) ∧
        combine [combined] = .ok (some again)) ∧
      (evaluate {} record.source (some combined) ()).1 = true ∧
      (evaluate {} record.source (some again) ()).1 = false := by
  intro a b c combined again record
  have hparsed : ["a = 1", "b = 1 AND c = 1"].map Rule.parse = [a, .join .and b c].map .ok := rfl
  have hcombined : combined.InGrammar := by decide
  have hget : ∀ name, record.get? name = if "a" = name then some (.integer 1) else none :=
    fun name => Record.get?_insert Record.empty "a" name (.integer 1)
  have ha : record.get? "a" = some (.integer 1) := hget "a"
  have hc : record.get? "c" = none := hget "c"
  refine ⟨⟨hparsed, ?_, combine_singleton hcombined⟩, ?_, ?_⟩
  · refine combine_of_parsed fun rule hrule => ?_
    rcases List.mem_cons.mp hrule with rfl | hrule
    · exact ⟨"a = 1", rfl⟩
    · obtain rfl := List.mem_singleton.mp hrule
      exact ⟨"b = 1 AND c = 1", rfl⟩
  · rw [Record.source, evaluate_ofLookup, Rule.holds, Rule.holds, ha]
    rfl
  · have hfails : c.holds {} record.get? = false := by
      rw [Rule.holds, hc]
      rfl
    rw [Record.source, evaluate_ofLookup, Rule.holds, hfails, Bool.and_false]

end RecordRules
