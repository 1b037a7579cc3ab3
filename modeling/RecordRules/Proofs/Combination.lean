import RecordRules.Combination
import RecordRules.Proofs.FirstFailure
import RecordRules.Proofs.RoundTrip

/-! Combining rules. A cache that holds nothing but what was read answers as reading does, and stays
so. Hence a combination of texts reads them in order: it is the first failure if there is one, and
else the left-leaning chain of alternatives. As every rule that was read is read again from its
canonical text, combining such rules gives the same as combining the texts they were read from. -/

namespace RecordRules

/-- Rules joined by `OR` from left to right; no rules give none. -/
def alternatives : List Rule → Option Rule
  | [] => none
  | rule :: rules => some (rules.foldl (.join .or) rule)

namespace Rule

theorem inGrammar_foldl_or {rules : List Rule} {rule : Rule} (hrule : rule.InGrammar)
    (hrules : ∀ later ∈ rules, later.InGrammar) :
    (rules.foldl (.join .or) rule).InGrammar := by
  induction rules generalizing rule with
  | nil => exact hrule
  | cons next rules ih =>
      refine ih (fun operand hoperand => ?_) fun later h => hrules later (List.mem_cons_of_mem _ h)
      rcases List.mem_append.mp hoperand with h | h
      · exact hrule operand h
      · exact hrules next List.mem_cons_self operand h

end Rule

namespace RuleCache

/-- Every text that is kept is kept with the rule that it spells. -/
def Sound (cache : RuleCache) : Prop :=
  ∀ (text : String) (rule : Rule), cache.rules[text]? = some rule → Rule.parse text = .ok rule

theorem sound_empty (capacity : Nat) : (empty capacity).Sound := by
  intro text rule h
  rw [empty, Std.HashMap.getElem?_emptyWithCapacity] at h
  cases h

theorem Sound.parse {cache : RuleCache} (h : cache.Sound) (text : String) :
    (cache.parse text).1 = Rule.parse text ∧ (cache.parse text).2.Sound := by
  rw [RuleCache.parse]
  cases hkept : cache.rules[text]? with
  | some rule => exact ⟨(h text rule hkept).symm, h⟩
  | none =>
      cases hparse : Rule.parse text with
      | error reason => exact ⟨rfl, h⟩
      | ok rule =>
          refine ⟨rfl, fun other found hfound => ?_⟩
          rw [Std.HashMap.getElem?_insert] at hfound
          split at hfound
          case isTrue heq =>
            rw [← beq_iff_eq.mp heq, hparse, Option.some_inj.mp hfound]
          case isFalse => exact h other found hfound

/-- A sound cache combines texts as reading them in order does. -/
theorem Sound.combineOnto {cache : RuleCache} (h : cache.Sound) (combined : Option Rule)
    (texts : List String) :
    (RuleCache.combineOnto combined texts cache).1 =
        (texts.mapM Rule.parse).map (fun rules =>
          rules.foldl (fun combined rule => some (alternative combined rule)) combined) ∧
      (RuleCache.combineOnto combined texts cache).2.Sound := by
  induction texts generalizing cache combined with
  | nil => exact ⟨rfl, h⟩
  | cons text texts ih =>
      obtain ⟨hresult, hsound⟩ := h.parse text
      rw [RuleCache.combineOnto]
      generalize cache.parse text = step at hresult hsound ⊢
      obtain ⟨result, after⟩ := step
      cases result with
      | error reason =>
          rw [mapM_cons_of_error hresult.symm]
          exact ⟨rfl, hsound⟩
      | ok rule =>
          obtain ⟨hrest, hafter⟩ := ih hsound (some (alternative combined rule))
          refine ⟨?_, hafter⟩
          rw [mapM_cons_of_ok hresult.symm]
          simp only [hrest]
          cases texts.mapM Rule.parse <;> rfl

theorem Sound.combineTexts {cache : RuleCache} (h : cache.Sound) (texts : List String) :
    (cache.combineTexts texts).1 = RecordRules.combineTexts texts ∧
      (cache.combineTexts texts).2.Sound := by
  obtain ⟨hresult, hsound⟩ := h.combineOnto none texts
  refine ⟨?_, hsound⟩
  rw [RecordRules.combineTexts, RuleCache.combineTexts, RuleCache.combineTexts, hresult,
    ((sound_empty 0).combineOnto none texts).1]

theorem Sound.combine {cache : RuleCache} (h : cache.Sound) (rules : List Rule) :
    (cache.combine rules).1 = RecordRules.combine rules ∧ (cache.combine rules).2.Sound :=
  h.combineTexts (rules.map Rule.render)

theorem foldl_alternative (rules : List Rule) :
    rules.foldl (fun combined rule => some (alternative combined rule)) none =
      alternatives rules := by
  have hsome : ∀ (rules : List Rule) (rule : Rule),
      rules.foldl (fun combined rule => some (alternative combined rule)) (some rule) =
        some (rules.foldl (.join .or) rule) := by
    intro rules
    induction rules with
    | nil => intro rule; rfl
    | cons next rules ih => intro rule; exact ih (.join .or rule next)
  cases rules with
  | nil => rfl
  | cons rule rules => exact hsome rules rule

end RuleCache

theorem combineTexts_eq (texts : List String) :
    combineTexts texts = (texts.mapM Rule.parse).map alternatives := by
  rw [combineTexts, RuleCache.combineTexts, ((RuleCache.sound_empty 0).combineOnto none texts).1]
  cases texts.mapM Rule.parse with
  | error reason => rfl
  | ok rules => rw [Except.map, Except.map, RuleCache.foldl_alternative]

theorem combine_eq (rules : List Rule) :
    combine rules = ((rules.map Rule.render).mapM Rule.parse).map alternatives :=
  combineTexts_eq (rules.map Rule.render)

/-- Rules that were read from texts are read again from their canonical texts. -/
theorem mapM_parse_render {rules : List Rule}
    (h : ∀ rule ∈ rules, ∃ text, Rule.parse text = .ok rule) :
    (rules.map Rule.render).mapM Rule.parse = .ok rules := by
  rw [mapM_eq_ok_iff, List.map_map]
  refine List.map_congr_left fun rule hrule => ?_
  obtain ⟨text, htext⟩ := h rule hrule
  rw [Function.comp_apply, Rule.parse_render_of_parse htext]

theorem combine_of_parsed {rules : List Rule}
    (h : ∀ rule ∈ rules, ∃ text, Rule.parse text = .ok rule) :
    combine rules = .ok (alternatives rules) := by
  rw [combine_eq, mapM_parse_render h]
  rfl

theorem exists_combine {rules : List Rule} (hne : rules ≠ [])
    (h : ∀ rule ∈ rules, ∃ text, Rule.parse text = .ok rule) :
    ∃ combined, combine rules = .ok (some combined) ∧ alternatives rules = some combined := by
  obtain ⟨rule, further, rfl⟩ := List.exists_cons_of_ne_nil hne
  exact ⟨_, combine_of_parsed h, rfl⟩

theorem combineTexts_eq_error_iff (texts : List String) (reason : MalformedRule) :
    combineTexts texts = .error reason ↔ FailsFirst Rule.parse texts reason := by
  rw [combineTexts_eq, map_eq_error_iff, mapM_eq_error_iff]

theorem combineTexts_eq_ok_iff (texts : List String) (combined : Option Rule) :
    combineTexts texts = .ok combined ↔
      ∃ rules : List Rule, texts.map Rule.parse = rules.map .ok ∧ alternatives rules = combined := by
  rw [combineTexts_eq, map_eq_ok_iff]
  simp only [mapM_eq_ok_iff]

/-- A combination of texts fails as the first of them that is no rule, gives no rule exactly for no
texts, and else the left-leaning chain of alternatives of their rules as they were read. Combining
these rules themselves, by their canonical texts, gives the same and never fails. -/
theorem combineTexts_eq_alternatives (texts : List String) :
    ((∃ reason, combineTexts texts = .error reason) ↔
      ∃ text ∈ texts, ∃ reason, Rule.parse text = .error reason) ∧
    (∀ reason, combineTexts texts = .error reason ↔ FailsFirst Rule.parse texts reason) ∧
    (combineTexts texts = .ok none ↔ texts = []) ∧
    (∀ combined, combineTexts texts = .ok (some combined) ↔
      ∃ rule rules, texts.map Rule.parse = (rule :: rules).map .ok ∧
        combined = rules.foldl (.join .or) rule) ∧
    ∀ rules : List Rule, texts.map Rule.parse = rules.map .ok →
      combine rules = combineTexts texts ∧ ∃ combined, combine rules = .ok combined := by
  refine ⟨?_, fun reason => ?_, ?_, fun combined => ?_, fun rules h => ?_⟩
  · simp only [combineTexts_eq_error_iff]
    exact exists_failsFirst_iff texts
  · exact combineTexts_eq_error_iff texts reason
  · rw [combineTexts_eq_ok_iff]
    constructor
    · rintro ⟨rules, hrules, hnone⟩
      cases rules with
      | nil => exact List.map_eq_nil_iff.mp hrules
      | cons rule rules => cases hnone
    · rintro rfl
      exact ⟨[], rfl, rfl⟩
  · rw [combineTexts_eq_ok_iff]
    constructor
    · rintro ⟨rules, hrules, hsome⟩
      cases rules with
      | nil => cases hsome
      | cons rule rules => exact ⟨rule, rules, hrules, (Option.some_inj.mp hsome).symm⟩
    · rintro ⟨rule, rules, hrules, rfl⟩
      exact ⟨rule :: rules, hrules, rfl⟩
  · have hparsed : ∀ rule ∈ rules, ∃ text, Rule.parse text = .ok rule := by
      intro rule hrule
      have hmem : Except.ok rule ∈ texts.map Rule.parse := by
        rw [h]
        exact List.mem_map_of_mem hrule
      obtain ⟨text, _, htext⟩ := List.mem_map.mp hmem
      exact ⟨text, htext⟩
    have htexts : combineTexts texts = .ok (alternatives rules) :=
      (combineTexts_eq_ok_iff texts _).mpr ⟨rules, h, rfl⟩
    rw [combine_of_parsed hparsed, htexts]
    exact ⟨rfl, _, rfl⟩

/-- Two texts, of which the second is itself a join. -/
theorem combineTexts_of_two :
    let first : Rule := .leaf ⟨"a", .greater, .integer 1⟩
    let second : Rule :=
      .join .and (.leaf ⟨"b", .equal, .text "X"⟩) (.leaf ⟨"c", .less, .integer 3⟩)
    let texts := ["a > 1", "b = 'X' AND c < 3"]
    texts.map Rule.parse = [first, second].map .ok ∧
      combineTexts texts = .ok (some (.join .or first second)) ∧
        combine [first, second] = combineTexts texts := by
  intro first second texts
  have hparsed : texts.map Rule.parse = [first, second].map .ok := rfl
  obtain ⟨_, _, _, hchain, hcombine⟩ := combineTexts_eq_alternatives texts
  have hjoined := (hchain (.join .or first second)).mpr ⟨first, [second], hparsed, rfl⟩
  exact ⟨hparsed, hjoined, (hcombine [first, second] hparsed).1⟩

end RecordRules
