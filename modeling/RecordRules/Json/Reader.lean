import RecordRules.Json.Lexeme

/-! Reading a JSON value from lexemes. The reader takes one lexeme at a time and keeps the arrays
and objects it is inside of on a stack, so text of any length is read without nested calls. The
number of arrays and objects inside one another is bounded. -/

namespace RecordRules.Json

/-- An array or object whose parts are being read, with the parts already read, the latest first. -/
inductive Frame where
  | array (before : List Json)
  | object (before : List (String × Json)) (key : String)

/-- What has to come next, with the frames around it, the innermost first. -/
inductive Reading where
  | value (outer : List Frame)
  /-- The first value of an array, or its end. -/
  | firstElement (outer : List Frame)
  /-- The first key of an object, or its end. -/
  | firstKey (outer : List Frame)
  | nextKey (before : List (String × Json)) (outer : List Frame)
  | colon (before : List (String × Json)) (key : String) (outer : List Frame)
  /-- What follows a value that has been read. -/
  | complete (value : Json) (outer : List Frame)

namespace Reading

/-- Takes the lexeme that a value starts with. An array or object is refused when `limit` of them
are around it already. -/
def startValue? (limit : Nat) (outer : List Frame) : Lexeme → Option Reading
  | .null => some (.complete .null outer)
  | .boolean flag => some (.complete (.boolean flag) outer)
  | .number figure => some (.complete (.number figure) outer)
  | .string text => some (.complete (.string text) outer)
  | .openBracket => if outer.length < limit then some (.firstElement outer) else none
  | .openBrace => if outer.length < limit then some (.firstKey outer) else none
  | _ => none

/-- Takes the lexeme after a value that stands directly inside a frame. -/
def continueFrame? (done : Json) (frame : Frame) (outer : List Frame) : Lexeme → Option Reading
  | .comma =>
      match frame with
      | .array before => some (.value (.array (done :: before) :: outer))
      | .object before key => some (.nextKey ((key, done) :: before) outer)
  | .closeBracket =>
      match frame with
      | .array before => some (.complete (.array (done :: before).reverse) outer)
      | .object _ _ => none
  | .closeBrace =>
      match frame with
      | .array _ => none
      | .object before key => some (.complete (.object ((key, done) :: before).reverse) outer)
  | _ => none

/-- Takes the next lexeme, if it may stand here. -/
def step? (limit : Nat) : Reading → Lexeme → Option Reading
  | .value outer, lexeme => startValue? limit outer lexeme
  | .firstElement outer, lexeme =>
      if lexeme = .closeBracket then some (.complete (.array []) outer)
      else startValue? limit (.array [] :: outer) lexeme
  | .firstKey outer, .closeBrace => some (.complete (.object []) outer)
  | .firstKey outer, .string key => some (.colon [] key outer)
  | .nextKey before outer, .string key => some (.colon before key outer)
  | .colon before key outer, .colon => some (.value (.object before key :: outer))
  | .complete done (frame :: outer), lexeme => continueFrame? done frame outer lexeme
  | _, _ => none

/-- The value that has been read, if nothing around it is unfinished. -/
def result? : Reading → Option Json
  | .complete done [] => some done
  | _ => none

end Reading

/-- The number of arrays and objects that may be inside one another. -/
def depthLimit : Nat :=
  127

def ofLexemes? (limit : Nat) (lexemes : List Lexeme) : Option Json := do
  let reading ← lexemes.foldlM (Reading.step? limit) (.value [])
  reading.result?

def parse? (text : String) : Option Json :=
  ofLexemes? depthLimit (lexemes text)

end RecordRules.Json
