import RecordRules.Json.Lexeme
import RecordRules.Settings.Basic

/-! Reading settings from JSON text. They are an object with at most the one key, or an array with
at most the one policy; a policy is its name, or an object with its name as only key and null as
value. The text is decoded lexeme by lexeme, so the first fault from the left is the one reported. -/

namespace RecordRules

open Json (Lexeme)

/-- Why a text is no settings. -/
inductive InvalidSettings where
  /-- An object has another key than the one for the policy. -/
  | unknownField (name : String)
  /-- There is no policy of the given name. -/
  | unknownPolicy (name : String)
  /-- An object has the key for the policy twice. -/
  | duplicateField
  /-- Anything else, such as a text that is not JSON. -/
  | malformed
deriving DecidableEq, Repr

def InvalidSettings.message : InvalidSettings → String
  | .unknownField name => "Invalid config: unknown field `" ++ name ++ "`, expected `cross_type`"
  | .unknownPolicy name =>
      "Invalid config: unknown variant `" ++ name ++
        "`, expected one of `always_false`, `coerce`, `reject`"
  | .duplicateField => "Invalid config: duplicate field `cross_type`"
  | .malformed => "Invalid config: malformed"

def Policy.named (name : String) : Except InvalidSettings Policy :=
  match Policy.ofName? name with
  | some policy => .ok policy
  | none => .error (.unknownPolicy name)

def Policy.ofLexemes : List Lexeme → Except InvalidSettings (Policy × List Lexeme)
  | .string name :: rest => do
      let policy ← Policy.named name
      return (policy, rest)
  | .openBrace :: .string name :: rest => do
      let policy ← Policy.named name
      match rest with
      | .colon :: .null :: .closeBrace :: rest => return (policy, rest)
      | _ => throw .malformed
  | _ => .error .malformed

namespace Settings

/-- What may follow the policy in an object: only the end, as every further key is a fault. -/
def endObject : List Lexeme → Except InvalidSettings Unit
  | [.closeBrace] => .ok ()
  | .comma :: .string key :: _ =>
      .error (if key = crossKindKey then .duplicateField else .unknownField key)
  | _ => .error .malformed

def endArray : List Lexeme → Except InvalidSettings Unit
  | [.closeBracket] => .ok ()
  | _ => .error .malformed

def ofLexemes : List Lexeme → Except InvalidSettings Settings
  | [.openBrace, .closeBrace] => .ok {}
  | [.openBracket, .closeBracket] => .ok {}
  | .openBrace :: .string key :: rest =>
      if key = crossKindKey then
        match rest with
        | .colon :: rest => do
            let (policy, rest) ← Policy.ofLexemes rest
            endObject rest
            return ⟨policy⟩
        | _ => .error .malformed
      else .error (.unknownField key)
  | .openBracket :: rest => do
      let (policy, rest) ← Policy.ofLexemes rest
      endArray rest
      return ⟨policy⟩
  | _ => .error .malformed

def parse (text : String) : Except InvalidSettings Settings :=
  ofLexemes (Json.lexemes text)

end Settings

end RecordRules
