import Std.Data.HashMap
import RecordRules.RuleText.Reading

/-! A cache of rules by the text that they were read from. A text that is no rule is not kept. -/

namespace RecordRules

structure RuleCache where
  rules : Std.HashMap String Rule

namespace RuleCache

/-- The empty cache with room for a number of rules. -/
def empty (capacity : Nat) : RuleCache :=
  ⟨Std.HashMap.emptyWithCapacity capacity⟩

/-- The number of texts whose rules are kept. -/
def size (cache : RuleCache) : Nat :=
  cache.rules.size

def isEmpty (cache : RuleCache) : Bool :=
  cache.rules.isEmpty

/-- Forgets all rules. -/
def clear (_cache : RuleCache) : RuleCache :=
  .empty 0

/-- The rule that a text spells, read only if it is not kept already. -/
def parse (cache : RuleCache) (text : String) : Except MalformedRule Rule × RuleCache :=
  match cache.rules[text]? with
  | some rule => (.ok rule, cache)
  | none =>
      match Rule.parse text with
      | .ok rule => (.ok rule, ⟨cache.rules.insert text rule⟩)
      | .error reason => (.error reason, cache)

end RuleCache

end RecordRules
