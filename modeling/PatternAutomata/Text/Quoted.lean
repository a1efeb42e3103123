/-
Characters and strings as quoted literals.

A literal stands between two equal quotation marks. Inside it the quotation mark in use and the backslash are escaped
by a backslash, four controls have a letter of their own, a character that would not show or would attach itself to its
neighbour is written by its code point, and every other character stands for itself. Which quotation mark is in use is
a parameter: the other one is never escaped.
-/
import PatternAutomata.Text.Unprintable
import PatternAutomata.Text.DefaultIgnorable
import PatternAutomata.Text.ExtendingMark

namespace PatternAutomata.Text

/-- The code point of a character in lower-case hexadecimal, without leading zeros. -/
def hexDigits (c : Char) : List Char := Nat.toDigits 16 c.toNat

/-- Whether a character cannot stand for itself in a literal, whatever the quotation mark. -/
def needsCodePoint (c : Char) : Bool := isUnprintable c || isDefaultIgnorable c || isExtendingMark c

/-- One character as it stands in a literal with quotation mark `mark`. -/
def escapeChar (mark c : Char) : List Char :=
  if c = '\x00' then ['\\', '0']
  else if c = '\t' then ['\\', 't']
  else if c = '\n' then ['\\', 'n']
  else if c = '\r' then ['\\', 'r']
  else if c = '\\' || c = mark then ['\\', c]
  else if needsCodePoint c then ['\\', 'u', '\x7b'] ++ hexDigits c ++ ['\x7d']
  else [c]

/-- A character as a literal in apostrophes. -/
def quoteChar (c : Char) : String := String.ofList (['\''] ++ escapeChar '\'' c ++ ['\''])

/-- A string as a literal in double quotation marks. -/
def quoteString (s : String) : String := String.ofList (['"'] ++ s.toList.flatMap (escapeChar '"') ++ ['"'])

end PatternAutomata.Text
