/-
Lines of text.

A line ends at a line feed, which is not part of it; a carriage return directly before the line feed is not part of it
either. What stands after the last line feed is a line too, unless it is empty, and keeps whatever it ends with.
-/
namespace PatternAutomata.Text

/-- A line that a line feed ends, from its characters in reverse. -/
def endedLine : List Char → List Char
  | '\r' :: rest => rest.reverse
  | reversed => reversed.reverse

/-- The lines of a text whose first line begins with the characters already read, given in reverse. -/
def linesFrom (reversed : List Char) : List Char → List (List Char)
  | [] => if reversed.isEmpty then [] else [reversed.reverse]
  | '\n' :: rest => endedLine reversed :: linesFrom [] rest
  | c :: rest => linesFrom (c :: reversed) rest

/-- The lines of a text. -/
def lines (s : String) : List String := (linesFrom [] s.toList).map String.ofList

end PatternAutomata.Text
