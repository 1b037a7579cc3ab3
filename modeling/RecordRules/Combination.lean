import RecordRules.Rule.Rendering
import RecordRules.RuleCache

/-! Combinations: rules joined by `OR`, from left to right. A rule is combined by reading its
canonical text, so that a cache serves rules and texts alike. The first text that is no rule ends a
combination; what was read before it stays in the cache. -/

namespace RecordRules.RuleCache

/-- Joins a further rule to what has been combined. -/
def alternative (combined : Option Rule) (rule : Rule) : Rule :=
  match combined with
  | none => rule
  | some left => .join .or left rule

/-- Joins the rules of further texts to what has been combined. -/
def combineOnto (combined : Option Rule) :
    List String → RuleCache → Except MalformedRule (Option Rule) × RuleCache
  | [], cache => (.ok combined, cache)
  | text :: texts, cache =>
      match cache.parse text with
      | (.error reason, cache) => (.error reason, cache)
      | (.ok rule, cache) => combineOnto (some (alternative combined rule)) texts cache

/-- The combination of the rules of some texts; no texts give no rule. -/
def combineTexts (cache : RuleCache) (texts : List String) :
    Except MalformedRule (Option Rule) × RuleCache :=
  combineOnto none texts cache

/-- The combination of some rules, each read again from its canonical text. -/
def combine (cache : RuleCache) (rules : List Rule) :
    Except MalformedRule (Option Rule) × RuleCache :=
  cache.combineTexts (rules.map Rule.render)

end RecordRules.RuleCache

namespace RecordRules

/-- The combination of the rules of some texts, without a cache. -/
def combineTexts (texts : List String) : Except MalformedRule (Option Rule) :=
  ((RuleCache.empty 0).combineTexts texts).1

/-- The combination of some rules, without a cache. -/
def combine (rules : List Rule) : Except MalformedRule (Option Rule) :=
  ((RuleCache.empty 0).combine rules).1

end RecordRules
