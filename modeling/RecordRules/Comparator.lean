/-! Comparators: the five symbols that name an order, and every other run of the same characters,
which is kept as written and never satisfied. -/

namespace RecordRules

inductive Comparator where
  | greater
  | less
  | equal
  | greaterEqual
  | lessEqual
  | unrecognized (symbol : String)
deriving DecidableEq, Repr

namespace Comparator

/-- A comparator as written in rule text. -/
def symbol : Comparator → String
  | .greater => ">"
  | .less => "<"
  | .equal => "="
  | .greaterEqual => ">="
  | .lessEqual => "<="
  | .unrecognized text => text

def ofSymbol (text : String) : Comparator :=
  if text = ">" then .greater
  else if text = "<" then .less
  else if text = "=" then .equal
  else if text = ">=" then .greaterEqual
  else if text = "<=" then .lessEqual
  else .unrecognized text

def isRecognized : Comparator → Bool
  | .unrecognized _ => false
  | _ => true

/-- Whether an order of a record value against a literal satisfies a comparator. -/
def admits : Comparator → Ordering → Bool
  | .greater, order => order == .gt
  | .less, order => order == .lt
  | .equal, order => order == .eq
  | .greaterEqual, order => order != .lt
  | .lessEqual, order => order != .gt
  | .unrecognized _, _ => false

/-- Whether a comparator holds; values without an order satisfy none. -/
def holds (comparator : Comparator) (order : Option Ordering) : Bool :=
  order.any comparator.admits

theorem symbol_ofSymbol (text : String) : (ofSymbol text).symbol = text := by
  grind [ofSymbol, Comparator.symbol]

end Comparator

end RecordRules
