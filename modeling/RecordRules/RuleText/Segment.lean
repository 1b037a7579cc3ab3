import RecordRules.Connective

/-! The segments of a text: the keywords of connectives, wherever their letters stand, and the texts
between them. The texts at both ends and between adjacent keywords are segments too, even when they
are empty. -/

namespace RecordRules.RuleText

inductive Segment where
  | text (text : String)
  | connective (connective : Connective)
deriving DecidableEq, Repr

/-- The characters of a segment in the text that it was cut from. -/
def Segment.source : Segment → String
  | .text written => written
  | .connective joint => joint.keyword

/-- Cuts the rest of a text; `before` holds the segments already cut and `run` the characters of the
one being read, both with the latest first. -/
def segmentsOnto (before : List Segment) (run : List Char) : List Char → List Segment
  | 'A' :: 'N' :: 'D' :: rest =>
      segmentsOnto (.connective .and :: .text (String.ofList run.reverse) :: before) [] rest
  | 'O' :: 'R' :: rest =>
      segmentsOnto (.connective .or :: .text (String.ofList run.reverse) :: before) [] rest
  | c :: rest => segmentsOnto before (c :: run) rest
  | [] => (.text (String.ofList run.reverse) :: before).reverse

def segments (text : String) : List Segment :=
  segmentsOnto [] [] text.toList

end RecordRules.RuleText
