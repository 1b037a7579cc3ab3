import RecordRules.Json.Reader
import RecordRules.Record.Basic

/-! Reading a record from JSON text. The text has to be an object whose members are texts and
numbers. Of members with the same key the last one counts, whatever the others are; of bad members
the one with the smallest key is reported. -/

namespace RecordRules

/-- The value of a JSON number. A whole number in the 64-bit integers is kept exactly, save that
minus zero keeps its sign; every other number is kept as the floating-point number that is read. -/
def Value.ofJsonNumber? (n : JsonNumber) : Option Value :=
  match n.int64? with
  | some i => some (.integer i)
  | none => n.toBinary64?.map .decimal

namespace Record

/-- Why a text is no record. -/
inductive DecodeError where
  | notJson
  /-- The text is JSON of another kind than an object. -/
  | notObject (kind : Json.Kind)
  /-- The named member is a number beyond the finite 64-bit ones. -/
  | outOfRange (name : String)
  /-- The named member is neither a text nor a number. -/
  | badAttribute (name : String) (kind : Json.Kind)
deriving DecidableEq, Repr

def DecodeError.message : DecodeError → String
  | .notJson => "Record decode error: not a JSON text"
  | .notObject kind => "Record decode error: expected a JSON object, found " ++ kind.name
  | .outOfRange name => "Record decode error: number out of range for '" ++ name ++ "'"
  | .badAttribute name kind =>
      "Record decode error: attribute '" ++ name ++ "' must be a string or number, found " ++ kind.name

/-- The members of an object by key; a later member replaces an earlier one of its key. -/
def membersByKey (members : List (String × Json)) : Std.TreeMap String Json :=
  members.foldl (fun byKey member => byKey.insert member.1 member.2) ∅

def attribute? (member : String × Json) : Except DecodeError (String × Value) :=
  match member.2 with
  | .string text => .ok (member.1, .text text)
  | .number number =>
      match Value.ofJsonNumber? number with
      | some value => .ok (member.1, value)
      | none => .error (.outOfRange member.1)
  | json => .error (.badAttribute member.1 json.kind)

def ofJson : Json → Except DecodeError Record
  | .object members => do
      let attributes ← (membersByKey members).toList.mapM attribute?
      return ofList attributes
  | json => .error (.notObject json.kind)

def parse (text : String) : Except DecodeError Record :=
  match Json.parse? text with
  | some json => ofJson json
  | none => .error .notJson

end Record

end RecordRules
