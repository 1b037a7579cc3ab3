import Std.Data.TreeMap
import RecordRules.Value

/-! Records: values by attribute name, at most one for each name. -/

namespace RecordRules

structure Record where
  values : Std.TreeMap String Value

namespace Record

def empty : Record :=
  ⟨∅⟩

def get? (record : Record) (name : String) : Option Value :=
  record.values[name]?

/-- Sets an attribute, and gives the value that it had before. -/
def insert (record : Record) (name : String) (value : Value) : Option Value × Record :=
  (record.get? name, ⟨record.values.insert name value⟩)

def size (record : Record) : Nat :=
  record.values.size

def isEmpty (record : Record) : Bool :=
  record.values.isEmpty

/-- The record of a list of attributes, of which a later one replaces an earlier one of its name. -/
def ofList (attributes : List (String × Value)) : Record :=
  attributes.foldl (fun record entry => (record.insert entry.1 entry.2).2) empty

theorem get?_insert (record : Record) (name other : String) (value : Value) :
    (record.insert name value).2.get? other =
      if name = other then some value else record.get? other := by
  simp only [insert, get?, Std.TreeMap.getElem?_insert, Std.compare_eq_iff_eq]

end Record

end RecordRules
