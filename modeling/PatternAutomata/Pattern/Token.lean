/-
The tokens of a pattern.

A pattern is a string in which five characters have a meaning: the bar separates alternatives, parentheses group, and
star and plus repeat what stands before them. A backslash takes the meaning away from the character after it, whatever
that is, and cannot stand at the end. Every token knows where it starts, in bytes of the UTF-8 form of the pattern; an
escaped character starts at its backslash.
-/
namespace PatternAutomata

/-- What a token says. Only a plain character carries a value of its own. -/
inductive Lexeme where
  | character (c : Char)
  | bar
  | star
  | plus
  | leftParen
  | rightParen
  deriving DecidableEq, Repr

/-- The kinds of things that may stand at a place in a pattern: the kinds of tokens, and the end. -/
inductive TokenKind where
  | character
  | bar
  | star
  | plus
  | leftParen
  | rightParen
  | endOfPattern
  deriving DecidableEq, Repr

/-- The name of a kind in messages. -/
def TokenKind.name : TokenKind → String
  | character => "CHARACTER"
  | bar => "UNION"
  | star => "STAR"
  | plus => "PLUS"
  | leftParen => "LPAREN"
  | rightParen => "RPAREN"
  | endOfPattern => "EOF"

namespace Lexeme

/-- The kind of a lexeme. -/
def kind : Lexeme → TokenKind
  | character _ => .character
  | bar => .bar
  | star => .star
  | plus => .plus
  | leftParen => .leftParen
  | rightParen => .rightParen

/-- The character that a lexeme stands for: an operator stands for the character it is written with. -/
def char : Lexeme → Char
  | character c => c
  | bar => '|'
  | star => '*'
  | plus => '+'
  | leftParen => '('
  | rightParen => ')'

/-- What a character says when no backslash stands before it. -/
def ofChar (c : Char) : Lexeme :=
  if c = '|' then bar
  else if c = '*' then star
  else if c = '+' then plus
  else if c = '(' then leftParen
  else if c = ')' then rightParen
  else character c

end Lexeme

/-- A lexeme and the byte offset at which it starts. -/
structure Token where
  lexeme : Lexeme
  offset : Nat
  deriving DecidableEq, Repr

/-! ## Errors -/

/-- Why a pattern is refused. -/
inductive PatternError where
  | unexpectedToken (expected found : TokenKind) (offset : Nat)
  | trailingEscape (offset : Nat)
  | nestLimitExceeded (limit offset : Nat)
  deriving DecidableEq, Repr

namespace PatternError

/-- The byte offset at which the pattern goes wrong. -/
def offset : PatternError → Nat
  | unexpectedToken _ _ offset => offset
  | trailingEscape offset => offset
  | nestLimitExceeded _ offset => offset

/-- What is wrong there. -/
def reason : PatternError → String
  | unexpectedToken expected found _ => "expected " ++ expected.name ++ ", found " ++ found.name
  | trailingEscape _ => "escape character at end of pattern"
  | nestLimitExceeded limit _ => "groups nested deeper than " ++ toString limit

/-- The whole message. -/
def message (e : PatternError) : String := "syntax error at offset " ++ toString e.offset ++ ": " ++ e.reason

end PatternError

/-! ## Reading tokens -/

/-- The tokens of the rest of a pattern that starts at a byte offset. -/
def tokensFrom (offset : Nat) : List Char → Except PatternError (List Token)
  | [] => .ok []
  | ['\\'] => .error (.trailingEscape offset)
  | '\\' :: c :: rest =>
    (tokensFrom (offset + '\\'.utf8Size + c.utf8Size) rest).map (⟨.character c, offset⟩ :: ·)
  | c :: rest => (tokensFrom (offset + c.utf8Size) rest).map (⟨.ofChar c, offset⟩ :: ·)

/-- The tokens of a pattern. -/
def tokens (pattern : String) : Except PatternError (List Token) := tokensFrom 0 pattern.toList

end PatternAutomata
