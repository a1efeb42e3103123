/-
States of an automaton.

A state is its number and nothing else: two automata with the same numbers have the same states. A number is an
identifier of 32 bits, so there are 4294967296 of them. What counts states shows the identifier of its count and starts
over behind the last one.
-/
namespace PatternAutomata

/-- A state of an automaton, known by its number alone. -/
abbrev State := Nat

/-- The identifier that a counter of 32 bits shows at a count. -/
def identifier (count : Nat) : State := count % 4294967296

theorem identifier_of_lt {count : Nat} (h : count < 4294967296) : identifier count = count := Nat.mod_eq_of_lt h

/-- The first count behind all identifiers shows 0 again, and only there does it differ from its identifier. -/
theorem identifier_of_le {count : Nat} (h : count ≤ 4294967296) (hne : identifier count ≠ 0) :
    identifier count = count := by
  refine identifier_of_lt (Nat.lt_of_le_of_ne h ?_)
  rintro rfl
  exact hne (Nat.mod_self _)

/-- The written form of a state. -/
def State.name (q : State) : String := "q" ++ toString q

end PatternAutomata
