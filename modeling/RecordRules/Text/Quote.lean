/-! Quotes. A text literal of a rule stands in quotes and holds none; in a record's text quotes may
stand anywhere, but they never count. -/

namespace RecordRules.Text

/-- The character around a text literal. -/
def quote : Char :=
  '\''

/-- A text without its quotes, wherever they stand. -/
def unquoted (text : String) : String :=
  String.ofList (text.toList.filter fun c => c != quote)

/-- A text between two quotes. -/
def inQuotes (text : String) : String :=
  String.ofList (quote :: (text.toList ++ [quote]))

theorem toList_unquoted (text : String) :
    (unquoted text).toList = text.toList.filter fun c => c != quote :=
  String.toList_ofList

theorem toList_inQuotes (text : String) :
    (inQuotes text).toList = quote :: (text.toList ++ [quote]) :=
  String.toList_ofList

end RecordRules.Text
