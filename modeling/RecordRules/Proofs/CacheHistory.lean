import Mathlib.Data.List.Dedup
import RecordRules.Proofs.Combination

/-! A cache over a whole history of operations. Each operation adds the texts that it could read, up
to the first that is no rule, and a clearing forgets them all; nothing else is ever kept, and a text
is kept with the rule that it spells. So after any history every further operation gives what it
gives without a cache, whichever of its texts happen to be kept. -/

namespace RecordRules.RuleCache

/-- What may be asked of a cache. -/
inductive Operation where
  | parse (text : String)
  | combineTexts (texts : List String)
  | combine (rules : List Rule)
  | clear

/-- What a cache gives for an operation. -/
inductive Answer where
  | rule (result : Except MalformedRule Rule)
  | combination (result : Except MalformedRule (Option Rule))
  | cleared

namespace Operation

/-- Carries out an operation on a cache. -/
def run : Operation → RuleCache → Answer × RuleCache
  | .parse text, cache => (.rule (cache.parse text).1, (cache.parse text).2)
  | .combineTexts texts, cache =>
      (.combination (cache.combineTexts texts).1, (cache.combineTexts texts).2)
  | .combine rules, cache => (.combination (cache.combine rules).1, (cache.combine rules).2)
  | .clear, cache => (.cleared, cache.clear)

/-- What an operation gives without a cache. -/
def answer : Operation → Answer
  | .parse text => .rule (Rule.parse text)
  | .combineTexts texts => .combination (RecordRules.combineTexts texts)
  | .combine rules => .combination (RecordRules.combine rules)
  | .clear => .cleared

/-- The texts that an operation has to read, in order; rules are read from their canonical texts. -/
def texts : Operation → List String
  | .parse text => [text]
  | .combineTexts texts => texts
  | .combine rules => rules.map Rule.render
  | .clear => []

end Operation

/-- The texts up to the first that is no rule. -/
def readable (texts : List String) : List String :=
  texts.takeWhile fun text => (Rule.parse text).isOk

/-- The texts read since the last clearing, after those read before an operation. -/
def Operation.readAfter (read : List String) : Operation → List String
  | .clear => []
  | operation => read ++ readable operation.texts

/-- The texts that were read without a failure since the last clearing of a history. -/
def readSinceClear (history : List Operation) : List String :=
  history.foldl Operation.readAfter []

/-- The cache after some operations, carried out one after the other. -/
def after (cache : RuleCache) (history : List Operation) : RuleCache :=
  history.foldl (fun cache operation => (operation.run cache).2) cache

/-! ### What an operation leaves in the cache -/

theorem readable_cons_of_ok {text : String} {rule : Rule} (h : Rule.parse text = .ok rule)
    (texts : List String) : readable (text :: texts) = text :: readable texts := by
  rw [readable, List.takeWhile_cons, h]
  rfl

theorem readable_cons_of_error {text : String} {reason : MalformedRule}
    (h : Rule.parse text = .error reason) (texts : List String) : readable (text :: texts) = [] := by
  rw [readable, List.takeWhile_cons, h]
  rfl

theorem exists_parse_of_mem_readable {texts : List String} {text : String}
    (h : text ∈ readable texts) : ∃ rule, Rule.parse text = .ok rule := by
  have hok := List.all_takeWhile (p := fun text => (Rule.parse text).isOk) (l := texts)
  rw [List.all_eq_true] at hok
  have htext := hok text h
  cases hparse : Rule.parse text with
  | ok rule => exact ⟨rule, rfl⟩
  | error reason =>
      rw [hparse] at htext
      cases htext

/-- A first failure ends what is read. -/
theorem readable_append_cons {before : List String} {text : String} {reason : MalformedRule}
    (hbefore : ∀ earlier ∈ before, ∃ rule, Rule.parse earlier = .ok rule)
    (htext : Rule.parse text = .error reason) (rest : List String) :
    readable (before ++ text :: rest) = before := by
  induction before with
  | nil => exact readable_cons_of_error htext rest
  | cons earlier before ih =>
      obtain ⟨rule, hrule⟩ := hbefore earlier List.mem_cons_self
      rw [List.cons_append, readable_cons_of_ok hrule,
        ih fun other hother => hbefore other (List.mem_cons_of_mem _ hother)]

theorem ite_mem_append {α : Type} (text : String) (earlier later : List String) (a b : α) :
    (if text ∈ later then a else if text ∈ earlier then a else b) =
      if text ∈ earlier ++ later then a else b := by
  by_cases hlater : text ∈ later
  · rw [if_pos hlater, if_pos (List.mem_append_right _ hlater)]
  · rw [if_neg hlater]
    simp only [List.mem_append, hlater, or_false]

theorem Sound.getElem?_of_error {cache : RuleCache} (h : cache.Sound) {text : String}
    {reason : MalformedRule} (hparse : Rule.parse text = .error reason) :
    cache.rules[text]? = none := by
  cases hkept : cache.rules[text]? with
  | none => rfl
  | some rule =>
      rw [h text rule hkept] at hparse
      cases hparse

/-- Reading a text adds it with its rule, if it has one and is not kept already. -/
theorem Sound.getElem?_parse {cache : RuleCache} (h : cache.Sound) (text other : String) :
    (cache.parse text).2.rules[other]? =
      if other ∈ readable [text] then (Rule.parse other).toOption else cache.rules[other]? := by
  rw [RuleCache.parse]
  cases hkept : cache.rules[text]? with
  | some rule =>
      rw [readable_cons_of_ok (h text rule hkept)]
      by_cases hmem : other ∈ text :: readable []
      · obtain rfl := List.mem_singleton.mp hmem
        rw [if_pos hmem, h other rule hkept]
        exact hkept
      · rw [if_neg hmem]
  | none =>
      cases hparse : Rule.parse text with
      | error reason =>
          rw [readable_cons_of_error hparse, if_neg List.not_mem_nil]
      | ok rule =>
          rw [readable_cons_of_ok hparse, Std.HashMap.getElem?_insert]
          by_cases hmem : other ∈ text :: readable []
          · obtain rfl := List.mem_singleton.mp hmem
            rw [if_pos hmem, if_pos (beq_self_eq_true other), hparse]
            rfl
          · have hne : ¬ (text == other) = true := fun heq =>
              hmem (List.mem_singleton.mpr (beq_iff_eq.mp heq).symm)
            rw [if_neg hmem, if_neg hne]

/-- Combining texts adds those before the first that is no rule, each with its rule. -/
theorem Sound.getElem?_combineOnto {cache : RuleCache} (h : cache.Sound) (combined : Option Rule)
    (texts : List String) (other : String) :
    (RuleCache.combineOnto combined texts cache).2.rules[other]? =
      if other ∈ readable texts then (Rule.parse other).toOption else cache.rules[other]? := by
  induction texts generalizing cache combined with
  | nil => rfl
  | cons text texts ih =>
      obtain ⟨hresult, hsound⟩ := h.parse text
      have hkept := h.getElem?_parse text other
      rw [RuleCache.combineOnto]
      -- the match on the first reading only opens once its result is a variable
      generalize cache.parse text = step at hresult hsound hkept ⊢
      obtain ⟨result, next⟩ := step
      cases result with
      | error reason =>
          rw [readable_cons_of_error hresult.symm] at hkept ⊢
          exact hkept
      | ok rule =>
          rw [readable_cons_of_ok hresult.symm] at hkept ⊢
          exact (ih hsound _).trans (hkept ▸ ite_mem_append other [text] (readable texts) _ _)

/-! ### Answers -/

/-- A sound cache gives what is given without a cache. -/
theorem Sound.run_answer {cache : RuleCache} (h : cache.Sound) (operation : Operation) :
    (operation.run cache).1 = operation.answer := by
  cases operation with
  | parse text => exact congrArg Answer.rule (h.parse text).1
  | combineTexts texts => exact congrArg Answer.combination (h.combineTexts texts).1
  | combine rules => exact congrArg Answer.combination (h.combine rules).1
  | clear => rfl

/-! ### Histories -/

/-- The cache holds just the given texts, each with the rule that it spells. -/
def Keeps (cache : RuleCache) (read : List String) : Prop :=
  ∀ text, cache.rules[text]? = if text ∈ read then (Rule.parse text).toOption else none

theorem keeps_empty (capacity : Nat) : (empty capacity).Keeps [] :=
  fun _ => Std.HashMap.getElem?_emptyWithCapacity

theorem Keeps.sound {cache : RuleCache} {read : List String} (h : cache.Keeps read) :
    cache.Sound := by
  intro text rule hkept
  rw [h text] at hkept
  split at hkept
  case isFalse => cases hkept
  case isTrue =>
    cases hparse : Rule.parse text with
    | error reason =>
        rw [hparse] at hkept
        cases hkept
    | ok other =>
        rw [hparse] at hkept
        exact congrArg Except.ok (Option.some_inj.mp hkept)

theorem Sound.getElem?_run {cache : RuleCache} (h : cache.Sound) {operation : Operation}
    (hclear : operation ≠ .clear) (text : String) :
    (operation.run cache).2.rules[text]? =
      if text ∈ readable operation.texts then (Rule.parse text).toOption else cache.rules[text]? := by
  cases operation with
  | parse other => exact h.getElem?_parse other text
  | combineTexts texts => exact h.getElem?_combineOnto none texts text
  | combine rules => exact h.getElem?_combineOnto none (rules.map Rule.render) text
  | clear => exact absurd rfl hclear

theorem Operation.readAfter_of_ne {operation : Operation} (h : operation ≠ .clear)
    (read : List String) : operation.readAfter read = read ++ readable operation.texts := by
  cases operation with
  | parse text => rfl
  | combineTexts texts => rfl
  | combine rules => rfl
  | clear => exact absurd rfl h

theorem Keeps.run {cache : RuleCache} {read : List String} (h : cache.Keeps read)
    (operation : Operation) : (operation.run cache).2.Keeps (operation.readAfter read) := by
  intro text
  by_cases hclear : operation = .clear
  · subst hclear
    exact keeps_empty 0 text
  · rw [h.sound.getElem?_run hclear, Operation.readAfter_of_ne hclear, h text]
    exact ite_mem_append text read (readable operation.texts) _ _

theorem Keeps.after {cache : RuleCache} {read : List String} (h : cache.Keeps read)
    (history : List Operation) :
    (cache.after history).Keeps (history.foldl Operation.readAfter read) := by
  induction history generalizing cache read with
  | nil => exact h
  | cons operation history ih => exact ih (h.run operation)

theorem Operation.exists_parse_of_mem_readAfter {read : List String}
    (h : ∀ text ∈ read, ∃ rule, Rule.parse text = .ok rule) (operation : Operation) :
    ∀ text ∈ operation.readAfter read, ∃ rule, Rule.parse text = .ok rule := by
  intro text htext
  by_cases hclear : operation = .clear
  · subst hclear
    cases htext
  · rw [Operation.readAfter_of_ne hclear] at htext
    rcases List.mem_append.mp htext with htext | htext
    · exact h text htext
    · exact exists_parse_of_mem_readable htext

theorem exists_parse_of_mem_foldl_readAfter {read : List String}
    (h : ∀ text ∈ read, ∃ rule, Rule.parse text = .ok rule) (history : List Operation) :
    ∀ text ∈ history.foldl Operation.readAfter read, ∃ rule, Rule.parse text = .ok rule := by
  induction history generalizing read with
  | nil => exact h
  | cons operation history ih => exact ih (operation.exists_parse_of_mem_readAfter h)

theorem exists_parse_of_mem_readSinceClear {history : List Operation} {text : String}
    (h : text ∈ readSinceClear history) : ∃ rule, Rule.parse text = .ok rule :=
  exists_parse_of_mem_foldl_readAfter (fun _ h => absurd h List.not_mem_nil) history text h

/-- The number of texts kept is that of the different texts read. -/
theorem Keeps.size_eq {cache : RuleCache} {read : List String} (h : cache.Keeps read)
    (hread : ∀ text ∈ read, ∃ rule, Rule.parse text = .ok rule) :
    (∀ text, text ∈ cache.rules ↔ text ∈ read) ∧ cache.size = read.dedup.length := by
  have hmem : ∀ text, text ∈ cache.rules ↔ text ∈ read := by
    intro text
    rw [← Std.HashMap.isSome_getElem?_iff_mem, h text]
    by_cases htext : text ∈ read
    · obtain ⟨rule, hrule⟩ := hread text htext
      rw [if_pos htext, hrule]
      exact ⟨fun _ => htext, fun _ => rfl⟩
    · rw [if_neg htext]
      exact ⟨nofun, fun h => absurd h htext⟩
  have hkeys : cache.rules.keys.Perm read.dedup := by
    rw [List.perm_ext_iff_of_nodup Std.HashMap.nodup_keys (List.nodup_dedup read)]
    intro text
    rw [Std.HashMap.mem_keys, hmem, List.mem_dedup]
  refine ⟨hmem, ?_⟩
  rw [size, ← Std.HashMap.length_keys, hkeys.length_eq]

/-- After any history of operations on a cache that was empty at first, whatever room it had, every
further operation gives what it gives without a cache. The cache then keeps just the different texts
that were read without a failure since the last clearing, each with the rule that it spells. An
operation that fails at one of its texts adds those before it, and nothing for that text or for the
ones after it. -/
theorem answers_and_keys_after (capacity : Nat) (history : List Operation) :
    let cache := (empty capacity).after history
    (∀ operation : Operation, (operation.run cache).1 = operation.answer) ∧
      (∀ text, text ∈ cache.rules ↔ text ∈ readSinceClear history) ∧
      (∀ text ∈ readSinceClear history,
        ∃ rule, cache.rules[text]? = some rule ∧ Rule.parse text = .ok rule) ∧
      cache.size = (readSinceClear history).dedup.length ∧
      ∀ (operation : Operation) (before : List String) (text : String) (rest : List String)
        (reason : MalformedRule), operation.texts = before ++ text :: rest →
        (∀ earlier ∈ before, ∃ rule, Rule.parse earlier = .ok rule) →
        Rule.parse text = .error reason →
        (operation.run cache).2.rules[text]? = none ∧
          ∀ key, (operation.run cache).2.rules[key]? =
            if key ∈ before then (Rule.parse key).toOption else cache.rules[key]? := by
  intro cache
  have hkeeps : cache.Keeps (readSinceClear history) := (keeps_empty capacity).after history
  obtain ⟨hkeys, hsize⟩ := hkeeps.size_eq fun _ => exists_parse_of_mem_readSinceClear
  refine ⟨fun operation => hkeeps.sound.run_answer operation, hkeys, ?_, hsize, ?_⟩
  · intro text htext
    obtain ⟨rule, hrule⟩ := exists_parse_of_mem_readSinceClear htext
    refine ⟨rule, ?_, hrule⟩
    rw [hkeeps text, if_pos htext, hrule]
    rfl
  · intro operation before text rest reason htexts hbefore hfails
    have hclear : operation ≠ .clear := by
      rintro rfl
      exact List.append_ne_nil_of_right_ne_nil before (List.cons_ne_nil text rest) htexts.symm
    refine ⟨(hkeeps.run operation).sound.getElem?_of_error hfails, fun key => ?_⟩
    rw [hkeeps.sound.getElem?_run hclear, htexts, readable_append_cons hbefore hfails]

/-- A combination that fails at its second text, after a clearing and another such combination. -/
theorem answers_and_keys_after_failure :
    let history : List Operation := [.parse "a > 1", .clear, .combineTexts ["b = 2", "AND", "c < 3"]]
    let operation : Operation := .combineTexts ["d = 1", "OR", "b = 2"]
    let cache := (empty 4).after history
    let next := (operation.run cache).2
    cache.size = 1 ∧ "b = 2" ∈ cache.rules ∧
      (operation.run cache).1 = .combination (.error (.noOperand "OR")) ∧
      next.rules["OR"]? = none ∧ next.rules["d = 1"]? = some (.leaf ⟨"d", .equal, .integer 1⟩) := by
  intro history operation cache next
  obtain ⟨hanswers, hkeys, _, hsize, hfailing⟩ := answers_and_keys_after 4 history
  have hread : readSinceClear history = ["b = 2"] := rfl
  have hbefore : ∀ earlier ∈ ["d = 1"], ∃ rule, Rule.parse earlier = .ok rule := by
    intro earlier hearlier
    obtain rfl := List.mem_singleton.mp hearlier
    exact ⟨_, rfl⟩
  obtain ⟨hnone, hadded⟩ := hfailing operation ["d = 1"] "OR" ["b = 2"] _ rfl hbefore rfl
  rw [hread] at hkeys hsize
  refine ⟨hsize, (hkeys "b = 2").mpr List.mem_cons_self, ?_, hnone, ?_⟩
  · rw [hanswers operation, Operation.answer, combineTexts_eq]
    rfl
  · rw [hadded "d = 1", if_pos List.mem_cons_self]
    rfl

end RecordRules.RuleCache
