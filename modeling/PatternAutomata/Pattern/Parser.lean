/-
Reading a pattern as a tree.

The tokens are read once, from left to right. What has been read of each open group is kept as the alternatives that a
bar has ended and the items of the alternative in progress; the whole pattern counts as the outermost of these groups.
A repetition rewrites the last item, a bar ends an alternative, and a closing parenthesis makes the group one item of
the group around it. Alternatives nest to the left and sequences to the right, and an alternative without items is
empty.

A token that cannot stand where it stands ends the reading at once. What was expected instead is the end of what is
open: the end of the pattern outside all groups, and a closing parenthesis inside one.
-/
import PatternAutomata.Pattern.Token
import PatternAutomata.Pattern.Tree.Basic

namespace PatternAutomata

/-- What has been read of a group that is still open. -/
structure OpenGroup where
  /-- the alternatives that a bar has ended, as one tree -/
  ended : Option Tree
  /-- the items of the alternative in progress, the last one in front -/
  items : List Tree
  deriving DecidableEq, Repr

namespace OpenGroup

/-- A group of which nothing has been read. -/
def new : OpenGroup := ⟨none, []⟩

/-- Items in a row as one tree, given with the last one in front. -/
def sequenceOf : List Tree → Tree
  | [] => .empty
  | last :: earlier => earlier.foldl (fun rest item => .concat item rest) last

/-- Everything read of the group as one tree. -/
def tree (g : OpenGroup) : Tree :=
  match g.ended with
  | none => sequenceOf g.items
  | some left => .union left (sequenceOf g.items)

/-- Adds an item to the alternative in progress. -/
def push (g : OpenGroup) (item : Tree) : OpenGroup := { g with items := item :: g.items }

/-- Ends the alternative in progress. -/
def endAlternative (g : OpenGroup) : OpenGroup := ⟨some g.tree, []⟩

end OpenGroup

/-- Everything that is open at a place in a pattern: the innermost group, and the groups around it from inside out, the
last of which is the pattern itself. -/
structure Nesting where
  inner : OpenGroup
  outer : List OpenGroup
  deriving DecidableEq, Repr

namespace Nesting

/-- The start of a pattern. -/
def start : Nesting := ⟨.new, []⟩

/-- How many groups are open. -/
def depth (n : Nesting) : Nat := n.outer.length

/-- What would end the innermost thing that is open. -/
def closer (n : Nesting) : TokenKind := if n.outer.isEmpty then .endOfPattern else .rightParen

/-- Rewrites the last item, which a repetition needs to have. -/
def repeatLast (n : Nesting) (how : Tree → Tree) (token : Token) : Except PatternError Nesting :=
  match n.inner.items with
  | [] => .error (.unexpectedToken n.closer token.lexeme.kind token.offset)
  | last :: earlier => .ok { n with inner := { n.inner with items := how last :: earlier } }

/-- Reads one token. -/
def read (limit : Nat) (n : Nesting) (token : Token) : Except PatternError Nesting :=
  match token.lexeme with
  | .character c => .ok { n with inner := n.inner.push (.literal c) }
  | .bar => .ok { n with inner := n.inner.endAlternative }
  | .star => n.repeatLast .repeatStar token
  | .plus => n.repeatLast .repeatPlus token
  | .leftParen =>
    if limit ≤ n.depth then .error (.nestLimitExceeded limit token.offset)
    else .ok ⟨.new, n.inner :: n.outer⟩
  | .rightParen =>
    match n.outer with
    | [] => .error (.unexpectedToken .endOfPattern .rightParen token.offset)
    | around :: outer => .ok ⟨around.push n.inner.tree, outer⟩

/-- Ends the reading at a byte offset, where no group may be open any more. -/
def finish (n : Nesting) (offset : Nat) : Except PatternError Tree :=
  match n.outer with
  | [] => .ok n.inner.tree
  | _ :: _ => .error (.unexpectedToken .rightParen .endOfPattern offset)

end Nesting

/-- How deep groups may nest unless the caller says otherwise. -/
def defaultNestLimit : Nat := 250

/-- The tree of a token list that ends at a byte offset, with groups nested at most `limit` deep. -/
def treeOfTokens (limit : Nat) (tokens : List Token) (offset : Nat) : Except PatternError Tree :=
  (tokens.foldlM (Nesting.read limit) Nesting.start).bind fun n => n.finish offset

/-- The tree of a pattern, with groups nested at most `limit` deep. Escapes are read first, so an escape at the end is
reported before anything else. -/
def parse (limit : Nat) (pattern : String) : Except PatternError Tree :=
  (tokens pattern).bind fun tokens => treeOfTokens limit tokens pattern.utf8ByteSize

end PatternAutomata
