import RecordRules.Json.Basic

/-! Compact JSON text: no blanks, members in order, and an escape only for a quote, a backslash and
a control character below the space. The writer keeps what is still to be written on a list, so a
value of any depth is written without nested calls. -/

namespace RecordRules.Json

/-- The escape of a control character that has no letter of its own. -/
def controlEscape (c : Char) : List Char :=
  ['\\', 'u', '0', '0', Nat.digitChar (c.toNat / 16), Nat.digitChar (c.toNat % 16)]

def escape (c : Char) : List Char :=
  if c = '"' then ['\\', '"']
  else if c = '\\' then ['\\', '\\']
  else if c = '\x08' then ['\\', 'b']
  else if c = '\x0c' then ['\\', 'f']
  else if c = '\n' then ['\\', 'n']
  else if c = '\r' then ['\\', 'r']
  else if c = '\t' then ['\\', 't']
  else if c.toNat < 0x20 then controlEscape c
  else [c]

def quoted (text : String) : String :=
  String.ofList ('"' :: (text.toList.flatMap escape ++ ['"']))

/-- A magnitude behind its sign; only a minus is written. -/
def signedText (negative : Bool) (magnitude : Nat) : String :=
  if negative then "-" ++ magnitude.repr else magnitude.repr

/-- The digits after a point, with the point. -/
def fractionText : List (Fin 10) → String
  | [] => ""
  | digit :: rest => String.ofList ('.' :: (digit :: rest).map Number.digitChar)

/-- A number as written in JSON: a decimal always with its exponent. -/
def numberText : JsonNumber → String
  | .whole negative magnitude => signedText negative magnitude
  | .decimal negative integral fraction exponent =>
      signedText negative integral ++ fractionText fraction ++ "e" ++ exponent.repr

/-- Something still to be written: a value, or the rest of an array or object whose first part is
written. -/
inductive Unwritten where
  | value (json : Json)
  | elements (rest : List Json)
  | members (rest : List (String × Json))

namespace Unwritten

/-- A bound on the number of steps that writing takes. -/
noncomputable def weight : Unwritten → Nat
  | .value json => sizeOf json
  | .elements rest => sizeOf rest
  | .members rest => sizeOf rest

noncomputable def totalWeight : List Unwritten → Nat
  | [] => 0
  | item :: items => item.weight + totalWeight items

end Unwritten

/-- Writes the items of a list after `written`. -/
def writeOnto (written : String) : List Unwritten → String
  | [] => written
  | .value .null :: items => writeOnto (written ++ "null") items
  | .value (.boolean value) :: items =>
      writeOnto (written ++ if value then "true" else "false") items
  | .value (.number value) :: items => writeOnto (written ++ numberText value) items
  | .value (.string value) :: items => writeOnto (written ++ quoted value) items
  | .value (.array []) :: items => writeOnto (written ++ "[]") items
  | .value (.array (element :: rest)) :: items =>
      writeOnto (written ++ "[") (.value element :: .elements rest :: items)
  | .value (.object []) :: items => writeOnto (written ++ "\x7b\x7d") items
  | .value (.object ((key, value) :: rest)) :: items =>
      writeOnto (written ++ "\x7b" ++ quoted key ++ ":") (.value value :: .members rest :: items)
  | .elements [] :: items => writeOnto (written ++ "]") items
  | .elements (element :: rest) :: items =>
      writeOnto (written ++ ",") (.value element :: .elements rest :: items)
  | .members [] :: items => writeOnto (written ++ "\x7d") items
  | .members ((key, value) :: rest) :: items =>
      writeOnto (written ++ "," ++ quoted key ++ ":") (.value value :: .members rest :: items)
termination_by items => Unwritten.totalWeight items
decreasing_by
  all_goals
    simp only [Unwritten.totalWeight, Unwritten.weight, Json.null.sizeOf_spec,
      Json.boolean.sizeOf_spec, Json.number.sizeOf_spec, Json.string.sizeOf_spec,
      Json.array.sizeOf_spec, Json.object.sizeOf_spec, List.cons.sizeOf_spec, List.nil.sizeOf_spec,
      Prod.mk.sizeOf_spec]
    omega

def write (json : Json) : String :=
  writeOnto "" [.value json]

end RecordRules.Json
