import RecordRules.Proofs.Combination
import RecordRules.RuleBook

/-! A rule book over a whole history of operations. The rules of a book are those of the texts that
spelled one, in the order they were added in; all other operations only ask. The cache of a book grows
with every combination, but it holds nothing but what was read, so no answer depends on it, and as
the rules of a book were themselves read, their combination cannot fail. -/

namespace RecordRules.RuleBook

/-- What may be asked of a book. -/
inductive Operation where
  | create (text : String)
  | combine
  | evaluate (lookup : String → Option Value)
  | evaluateChecked (lookup : String → Option Value)
  | get (index : Nat)
  | active
  | lines

/-- What a book gives for an operation. -/
inductive Answer where
  | created (result : Except MalformedRule Rule)
  | combination (result : Except MalformedRule (Option Rule))
  | verdict (result : Except TypeMismatch Bool)
  | found (rule? : Option Rule)
  | listing (lines : List String)

namespace Operation

/-- Carries out an operation on a book. -/
def run : Operation → RuleBook → Answer × RuleBook
  | .create text, book => (.created (book.create text).1, (book.create text).2)
  | .combine, book => (.combination book.combine.1, book.combine.2)
  | .evaluate lookup, book => (.verdict (.ok (book.evaluate (.ofLookup lookup) ()).1), book)
  | .evaluateChecked lookup, book =>
      (.verdict (book.evaluateChecked (.ofLookup lookup) ()).1, book)
  | .get index, book => (.found (book.get? index), book)
  | .active, book => (.found book.active?, book)
  | .lines, book => (.listing book.lines, book)

/-- The rule that an operation adds. -/
def created? : Operation → Option Rule
  | .create text => (Rule.parse text).toOption
  | _ => none

/-- What an operation gives where just these rules were added, in this order. -/
def answer (settings : Settings) (rules : List Rule) : Operation → Answer
  | .create text => .created (Rule.parse text)
  | .combine => .combination (.ok (alternatives rules))
  | .evaluate lookup =>
      .verdict (.ok (RecordRules.evaluate settings (.ofLookup lookup) rules.getLast? ()).1)
  | .evaluateChecked lookup =>
      .verdict (RecordRules.evaluateChecked settings (.ofLookup lookup) rules.getLast? ()).1
  | .get index => .found rules[index]?
  | .active => .found rules.getLast?
  | .lines => .listing (rules.mapIdx line)

end Operation

/-- The book after some operations, carried out one after the other. -/
def after (book : RuleBook) (history : List Operation) : RuleBook :=
  history.foldl (fun book operation => (operation.run book).2) book

/-- The rules that a history adds, in order. -/
def created (history : List Operation) : List Rule :=
  history.filterMap Operation.created?

/-- A book under the given settings with just the given rules, all of which were read, and with a
cache that holds nothing but what was read. -/
structure Holds (settings : Settings) (rules : List Rule) (book : RuleBook) : Prop where
  settings_eq : book.settings = settings
  rules_eq : book.rules.toList = rules
  parsed : ∀ rule ∈ rules, ∃ text, Rule.parse text = .ok rule
  sound : book.cache.Sound

theorem holds_empty (settings : Settings) : (empty settings).Holds settings [] where
  settings_eq := rfl
  rules_eq := rfl
  parsed := fun _ h => absurd h List.not_mem_nil
  sound := RuleCache.sound_empty 0

theorem created_cons (operation : Operation) (history : List Operation) :
    created (operation :: history) = operation.created?.toList ++ created history := by
  rw [created, List.filterMap_cons]
  cases operation.created? with
  | none => rfl
  | some rule => rfl

namespace Holds

variable {settings : Settings} {rules : List Rule} {book : RuleBook}

theorem append_none (h : book.Holds settings rules) :
    book.Holds settings (rules ++ (none : Option Rule).toList) := by
  rwa [Option.toList_none, List.append_nil]

theorem create (h : book.Holds settings rules) (text : String) :
    (book.create text).1 = Rule.parse text ∧
      (book.create text).2.Holds settings (rules ++ (Rule.parse text).toOption.toList) := by
  rw [RuleBook.create]
  cases hparse : Rule.parse text with
  | error reason => exact ⟨rfl, h.append_none⟩
  | ok rule =>
      refine ⟨rfl, h.settings_eq, ?_, ?_, h.sound⟩
      · rw [← h.rules_eq]
        exact Array.toList_push
      · intro other hother
        rcases List.mem_append.mp hother with hother | hother
        · exact h.parsed other hother
        · obtain rfl := List.mem_singleton.mp hother
          exact ⟨text, hparse⟩

theorem combine (h : book.Holds settings rules) :
    book.combine.1 = .ok (alternatives rules) ∧ book.combine.2.Holds settings rules := by
  obtain ⟨hresult, hsound⟩ := h.sound.combine book.rules.toList
  rw [h.rules_eq, combine_of_parsed h.parsed] at hresult
  refine ⟨?_, h.settings_eq, h.rules_eq, h.parsed, hsound⟩
  rw [RuleBook.combine, h.rules_eq]
  exact hresult

theorem active?_eq (h : book.Holds settings rules) : book.active? = rules.getLast? := by
  rw [active?, ← h.rules_eq, Array.getLast?_toList]

theorem get?_eq (h : book.Holds settings rules) (index : Nat) :
    book.get? index = rules[index]? := by
  rw [get?, ← h.rules_eq, Array.getElem?_toList]

theorem evaluate_eq (h : book.Holds settings rules) {σ : Type} (source : Source σ) (state : σ) :
    book.evaluate source state = RecordRules.evaluate settings source rules.getLast? state := by
  rw [RuleBook.evaluate, h.settings_eq, h.active?_eq]

theorem evaluateChecked_eq (h : book.Holds settings rules) {σ : Type} (source : Source σ)
    (state : σ) :
    book.evaluateChecked source state =
      RecordRules.evaluateChecked settings source rules.getLast? state := by
  rw [RuleBook.evaluateChecked, h.settings_eq, h.active?_eq]

theorem lines_eq (h : book.Holds settings rules) : book.lines = rules.mapIdx line := by
  rw [RuleBook.lines, h.rules_eq]

/-- No answer depends on the cache. -/
theorem run_answer (h : book.Holds settings rules) (operation : Operation) :
    (operation.run book).1 = operation.answer settings rules := by
  cases operation with
  | create text => exact congrArg Answer.created (h.create text).1
  | combine => exact congrArg Answer.combination h.combine.1
  | evaluate lookup => rw [Operation.run, Operation.answer, h.evaluate_eq]
  | evaluateChecked lookup => rw [Operation.run, Operation.answer, h.evaluateChecked_eq]
  | get index => exact congrArg Answer.found (h.get?_eq index)
  | active => exact congrArg Answer.found h.active?_eq
  | lines => exact congrArg Answer.listing h.lines_eq

theorem run (h : book.Holds settings rules) (operation : Operation) :
    (operation.run book).2.Holds settings (rules ++ operation.created?.toList) := by
  cases operation with
  | create text =>
      -- reduced by hand, as `exact` alone would compute what the text spells
      simp only [Operation.run, Operation.created?]
      exact (h.create text).2
  | combine => exact h.combine.2.append_none
  | evaluate lookup => exact h.append_none
  | evaluateChecked lookup => exact h.append_none
  | get index => exact h.append_none
  | active => exact h.append_none
  | lines => exact h.append_none

theorem after (h : book.Holds settings rules) (history : List Operation) :
    (book.after history).Holds settings (rules ++ created history) := by
  induction history generalizing book rules with
  | nil => exact h.append_none
  | cons operation history ih =>
      rw [created_cons, ← List.append_assoc]
      exact ih (h.run operation)

end Holds

theorem alternatives_eq_none_iff (rules : List Rule) : alternatives rules = none ↔ rules = [] := by
  cases rules with
  | nil => exact ⟨fun _ => rfl, fun _ => rfl⟩
  | cons rule rules => exact ⟨nofun, nofun⟩

/-- After any history of operations on a book that was empty at first, the rules of the book are those
of the texts that spelled one, in the order they were added in, and its settings are as they were. So
every further operation gives what these rules and settings call for, however often and wherever in
the history rules were combined: the active rule is the last one and decides every evaluation, the
lines show the rules counted from one, and the combination is the left-leaning chain of alternatives,
which never fails and is missing only for a book without rules. No operation but the adding of a rule
changes the rules of the book. -/
theorem answers_and_rules_after (settings : Settings) (history : List Operation) :
    let book := (empty settings).after history
    let rules := created history
    (book.rules.toList = rules ∧ book.settings = settings) ∧
      (∀ operation : Operation,
        (operation.run book).1 = operation.answer settings rules ∧
          (operation.run book).2.settings = settings ∧
          (operation.run book).2.rules.toList = rules ++ operation.created?.toList) ∧
      (book.active? = rules.getLast? ∧
        ∀ {σ : Type} (source : Source σ) (state : σ),
          book.evaluate source state =
              RecordRules.evaluate settings source rules.getLast? state ∧
            book.evaluateChecked source state =
              RecordRules.evaluateChecked settings source rules.getLast? state ∧
            (rules = [] → book.evaluate source state = (false, state) ∧
              book.evaluateChecked source state = (.ok false, state))) ∧
      (∀ index, book.lines[index]? =
        rules[index]?.map fun rule => "Rule " ++ (index + 1).repr ++ ": " ++ rule.render) ∧
      (∀ reason, book.combine.1 ≠ .error reason) ∧
      (book.combine.1 = .ok none ↔ rules = []) ∧
      ∀ first further, rules = first :: further →
        book.combine.1 = .ok (some (further.foldl (.join .or) first)) := by
  intro book rules
  have hbook : book.Holds settings rules := (holds_empty settings).after history
  have hcombine : book.combine.1 = .ok (alternatives rules) := hbook.combine.1
  refine ⟨⟨hbook.rules_eq, hbook.settings_eq⟩, fun operation => ?_, ⟨hbook.active?_eq, ?_⟩, ?_, ?_, ?_,
    ?_⟩
  · have hnext := hbook.run operation
    exact ⟨hbook.run_answer operation, hnext.settings_eq, hnext.rules_eq⟩
  · intro σ source state
    refine ⟨hbook.evaluate_eq source state, hbook.evaluateChecked_eq source state, fun hnone => ?_⟩
    rw [hbook.evaluate_eq, hbook.evaluateChecked_eq, hnone]
    exact ⟨rfl, rfl⟩
  · intro index
    rw [hbook.lines_eq, List.getElem?_mapIdx]
    rfl
  · intro reason hfails
    rw [hcombine] at hfails
    cases hfails
  · rw [hcombine, Except.ok.injEq, alternatives_eq_none_iff]
  · intro first further hrules
    rw [hcombine, hrules]
    rfl

/-- Two rules and a text that is none, with a combination in between. -/
theorem answers_and_rules_after_two :
    let first : Rule := .leaf ⟨"a", .greater, .integer 1⟩
    let second : Rule :=
      .join .and (.leaf ⟨"b", .equal, .text "X"⟩) (.leaf ⟨"c", .less, .integer 3⟩)
    let history : List Operation :=
      [.create "a > 1", .combine, .create "AND", .create "b = 'X' AND c < 3"]
    let book := (empty ⟨.reject⟩).after history
    book.rules.toList = [first, second] ∧ book.active? = some second ∧
      book.lines[1]? = some "Rule 2: ((b = 'X') AND (c < 3))" ∧
      book.combine.1 = .ok (some (.join .or first second)) := by
  intro first second history book
  have hcreated : created history = [first, second] := rfl
  obtain ⟨⟨hrules, _⟩, _, ⟨hactive, _⟩, hlines, _, _, hcombine⟩ :=
    answers_and_rules_after ⟨.reject⟩ history
  refine ⟨hrules.trans hcreated, hactive.trans (hcreated ▸ rfl), ?_,
    hcombine first [second] hcreated⟩
  rw [hlines 1, hcreated, List.getElem?_cons_succ, List.getElem?_cons_zero, Option.map_some,
    Rule.render_eq_bracketed]
  rfl

end RecordRules.RuleBook
