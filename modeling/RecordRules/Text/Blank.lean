/-! Blank characters: the Unicode property `White_Space`, given by its ranges. Rule text is read
with every blank removed, and a text that may spell a number is read with the blanks at both of its
ends removed. -/

namespace RecordRules.Text

/-- The code points with the property `White_Space`, as ranges with both ends included. -/
def blankRanges : List (Nat × Nat) :=
  [(0x09, 0x0D), (0x20, 0x20), (0x85, 0x85), (0xA0, 0xA0), (0x1680, 0x1680), (0x2000, 0x200A),
    (0x2028, 0x2029), (0x202F, 0x202F), (0x205F, 0x205F), (0x3000, 0x3000)]

/-- Whether a character has the property `White_Space`. -/
def isBlank (c : Char) : Bool :=
  blankRanges.any fun range => range.1 ≤ c.toNat && c.toNat ≤ range.2

/-- The characters of a text that are not blank, in order. -/
def removeBlanks (text : String) : String :=
  String.ofList (text.toList.filter fun c => !isBlank c)

/-- A character sequence without the blanks at its two ends. -/
def trimBlanks (chars : List Char) : List Char :=
  ((chars.dropWhile isBlank).reverse.dropWhile isBlank).reverse

theorem toList_removeBlanks (text : String) :
    (removeBlanks text).toList = text.toList.filter fun c => !isBlank c :=
  String.toList_ofList

end RecordRules.Text
