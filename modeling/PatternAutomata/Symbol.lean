/-
Symbols on the arrows of an automaton.

A symbol is a character or epsilon, which reads nothing. Characters come first, by code point, and epsilon last; the
letter that epsilon is printed as is an ordinary character and a different symbol. The keys of a rule map are pairs of a
state and a symbol, ordered by state and then by symbol.
-/
import Std.Data.ExtTreeMap
import PatternAutomata.State
import PatternAutomata.Text.Quoted

namespace PatternAutomata

/-- What an arrow of an automaton reads: one character, or nothing. -/
inductive Symbol where
  | char (c : Char)
  | epsilon
  deriving DecidableEq, Repr, Inhabited

namespace Symbol

/-- The place of a symbol in the order: its code point, and for epsilon the first number that is no code point. -/
def rank : Symbol → Nat
  | char c => c.toNat
  | epsilon => 0x110000

/-- The character of a symbol, if it is one. -/
def char? : Symbol → Option Char
  | char c => some c
  | epsilon => none

/-- Whether the symbol reads nothing. -/
def isEpsilon : Symbol → Bool
  | char _ => false
  | epsilon => true

/-- The symbol as it is printed in a rule. -/
def text : Symbol → String
  | char c => String.singleton c
  | epsilon => "ε"

/-- The symbol with its kind, which tells epsilon from the letter it is printed as. -/
def tagged : Symbol → String
  | char c => "Char(" ++ Text.quoteChar c ++ ")"
  | epsilon => "Epsilon"

instance : Ord Symbol where
  compare := compareOn rank

instance : Std.TransOrd Symbol := inferInstanceAs (Std.TransCmp (compareOn rank))

theorem rank_injective {a b : Symbol} (h : a.rank = b.rank) : a = b := by
  have bound : ∀ c : Char, c.toNat < 0x110000 := fun c => by
    have := c.valid
    simp only [UInt32.isValidChar, Nat.isValidChar] at this
    show c.val.toNat < _
    omega
  cases a <;> cases b <;> simp only [rank] at h
  · exact congrArg char (Char.toNat_inj.1 h)
  · have := bound ‹Char›; omega
  · have := bound ‹Char›; omega
  · rfl

instance : Std.LawfulEqOrd Symbol where
  eq_of_compare h := rank_injective (Std.LawfulEqOrd.eq_of_compare (α := Nat) h)

end Symbol

/-- Pairs are ordered by their first parts and then by their second. -/
@[inline] def pairOrder {α β : Type} [Ord α] [Ord β] (a b : α × β) : Ordering :=
  (compare a.1 b.1).then (compare a.2 b.2)

instance {α β : Type} [Ord α] [Ord β] [Std.TransOrd α] [Std.TransOrd β] : Std.TransCmp (@pairOrder α β _ _) :=
  inferInstanceAs (Std.TransCmp (compareLex (compareOn Prod.fst) (compareOn Prod.snd)))

instance {α β : Type} [Ord α] [Ord β] [Std.LawfulEqOrd α] [Std.LawfulEqOrd β] :
    Std.LawfulEqCmp (@pairOrder α β _ _) where
  compare_self := by simp [pairOrder]
  eq_of_compare h :=
    have both := Ordering.then_eq_eq.1 h
    Prod.ext (Std.LawfulEqOrd.eq_of_compare both.1) (Std.LawfulEqOrd.eq_of_compare both.2)

end PatternAutomata
