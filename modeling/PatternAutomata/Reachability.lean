/-
What can be reached along arrows.

Closures follow the epsilon arrows between states, and the subset automaton has the arrows between sets of states. Both
are told by `Reaches`, whatever way the program takes to find what is reached.
-/
namespace PatternAutomata

/-- The second node can be reached from the first by following arrows. -/
inductive Reaches {α : Type} (arrow : α → α → Prop) (a : α) : α → Prop where
  | refl : Reaches arrow a a
  | tail {b c : α} : Reaches arrow a b → arrow b c → Reaches arrow a c

theorem Reaches.trans {α : Type} {arrow : α → α → Prop} {a b c : α} (hab : Reaches arrow a b)
    (hbc : Reaches arrow b c) : Reaches arrow a c := by
  induction hbc with
  | refl => exact hab
  | tail _ h ih => exact ih.tail h

end PatternAutomata
