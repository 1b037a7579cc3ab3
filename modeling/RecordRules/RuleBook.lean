import RecordRules.Combination
import RecordRules.Evaluation.Verdict

/-! Rule books. Rules are added at the end of a book and never changed or removed; the latest one is
the active rule, which records are evaluated with. -/

namespace RecordRules

structure RuleBook where
  settings : Settings
  rules : Array Rule
  cache : RuleCache

namespace RuleBook

def empty (settings : Settings) : RuleBook :=
  ⟨settings, #[], .empty 0⟩

/-- Adds the rule that a text spells; a text that is no rule changes nothing. -/
def create (book : RuleBook) (text : String) : Except MalformedRule Rule × RuleBook :=
  match Rule.parse text with
  | .ok rule => (.ok rule, { book with rules := book.rules.push rule })
  | .error reason => (.error reason, book)

def size (book : RuleBook) : Nat :=
  book.rules.size

def isEmpty (book : RuleBook) : Bool :=
  book.rules.isEmpty

def get? (book : RuleBook) (index : Nat) : Option Rule :=
  book.rules[index]?

/-- The latest rule. -/
def active? (book : RuleBook) : Option Rule :=
  book.rules.back?

/-- The line of a rule in the listing, where rules are counted from one. -/
def line (index : Nat) (rule : Rule) : String :=
  "Rule " ++ (index + 1).repr ++ ": " ++ rule.render

def lines (book : RuleBook) : List String :=
  book.rules.toList.mapIdx line

/-- The combination of all rules; an empty book gives no rule. -/
def combine (book : RuleBook) : Except MalformedRule (Option Rule) × RuleBook :=
  match book.cache.combine book.rules.toList with
  | (combined, cache) => (combined, { book with cache := cache })

/-- Whether the active rule holds for the values of a source. -/
def evaluate {σ : Type} (book : RuleBook) (source : Source σ) (state : σ) : Bool × σ :=
  RecordRules.evaluate book.settings source book.active? state

/-- Whether the active rule holds for the values of a source, or the first mismatch in it. -/
def evaluateChecked {σ : Type} (book : RuleBook) (source : Source σ) (state : σ) :
    Except TypeMismatch Bool × σ :=
  RecordRules.evaluateChecked book.settings source book.active? state

end RuleBook

end RecordRules
