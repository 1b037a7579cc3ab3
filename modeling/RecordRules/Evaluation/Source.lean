import RecordRules.Record.Basic

/-! Sources of values. A rule asks a source for the value of an attribute by its name; a source may
carry a state from one question to the next, such as the names it was asked for. -/

namespace RecordRules

/-- Answers the question for an attribute and goes on to its next state. -/
abbrev Source (σ : Type) := String → σ → Option Value × σ

namespace Source

/-- The source without a state that looks every name up. -/
def ofLookup (lookup : String → Option Value) : Source Unit :=
  fun name state => (lookup name, state)

/-- The source that looks every name up and keeps the names, in the order of the questions. -/
def logged (lookup : String → Option Value) : Source (Array String) :=
  fun name asked => (lookup name, asked.push name)

end Source

def Record.source (record : Record) : Source Unit :=
  .ofLookup record.get?

end RecordRules
