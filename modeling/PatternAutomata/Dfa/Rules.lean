/-
The rules of a deterministic automaton.

A rule map takes a key, which is a state and a character, to the one state that the character leads to; a key that is
absent leads nowhere. The row of a state is the list of its rules by ascending character. Merging states takes a map
from the states that disappear to those that stand for them: the rules that leave a state that disappears go with it,
and those that enter it are turned to the state that stands for it.

Rules between numbers of any size become rules between states by giving each number its identifier (`identified`). The
rules are entered in the order of their keys, so where two numbers share an identifier the rule of the greater one stays.
-/
import PatternAutomata.StateSet.Basic
import PatternAutomata.Symbol
import PatternAutomata.Tabulation

namespace PatternAutomata

/-- For each key, the state that its character leads to from its state. -/
abbrev Dfa.Rules := Std.ExtTreeMap (State × Char) State pairOrder

/-- The states that disappear in a merge, each with the state that stands for it afterwards. -/
abbrev Dfa.Merging := Std.ExtTreeMap State State

namespace Dfa

/-- The state that stands for a state after a merge: itself, unless it disappears. -/
def Merging.redirect (into : Merging) (q : State) : State := into[q]?.getD q

namespace Rules

/-- Where a character leads from a state. -/
def destination? (rules : Rules) (q : State) (c : Char) : Option State := rules[(q, c)]?

/-- The destinations of all rules in the order of their keys, one for each rule. -/
def destinationsByKey (rules : Rules) : List State := rules.toList.map Prod.snd

/-- The destinations of all rules in ascending order, one for each rule. -/
def destinations (rules : Rules) : List State := rules.destinationsByKey.mergeSort

/-- Every rule, by source, character and destination. -/
def transitions (rules : Rules) : List (State × Char × State) :=
  rules.toList.map fun ((q, c), p) => (q, c, p)

/-- The rules that leave a state, by ascending character. -/
def row (rules : Rules) (q : State) : List (Char × State) :=
  rules.toList.filterMap fun ((source, c), p) => if source = q then some (c, p) else none

/-- Every state that has a rule, with its row. All rows are collected in one sweep over the rules. -/
def rows (rules : Rules) : Std.ExtTreeMap State (List (Char × State)) :=
  rules.toList.foldr (fun ((q, c), p) rows => rows.insert q ((c, p) :: rows[q]?.getD [])) ∅

/-- Drops the rules that leave a state that disappears and redirects those that enter one. -/
def mergeStates (rules : Rules) (into : Merging) : Rules :=
  (rules.filter fun key _ => !into.contains key.1).map fun _ p => into.redirect p

/-- The rules between the identifiers of their sources and destinations, entered one after the other. -/
def identified (rules : Rules) : Rules :=
  .ofList (rules.toList.map fun ((q, c), p) => ((identifier q, c), identifier p)) pairOrder

/-- One line for each rule, in the order of the keys. -/
def text (rules : Rules) : String :=
  "\n".intercalate (rules.toList.map fun ((q, c), p) =>
    State.name q ++ "\t--['" ++ String.singleton c ++ "']-->\t" ++ State.name p)

/-! ## What the operations do to a look-up -/

theorem mem_destinationsByKey (rules : Rules) (p : State) :
    p ∈ rules.destinationsByKey ↔ ∃ key : State × Char, rules[key]? = some p := by
  simp [destinationsByKey, Std.ExtTreeMap.mem_toList_iff_getElem?_eq_some]

theorem mem_row (rules : Rules) (q : State) (c : Char) (p : State) :
    (c, p) ∈ rules.row q ↔ rules.destination? q c = some p := by
  rw [row, List.mem_filterMap, destination?, ← Std.ExtTreeMap.mem_toList_iff_getElem?_eq_some]
  refine ⟨?_, fun h => ⟨((q, c), p), h, if_pos rfl⟩⟩
  intro h
  obtain ⟨⟨⟨source, d⟩, t⟩, hentry, heq⟩ := h
  dsimp only at heq
  split at heq
  · rename_i hsource
    cases heq
    exact hsource ▸ hentry
  · cases heq

/-- The row that the sweep collects for a state is the row of the state. -/
theorem getD_getElem?_rows (rules : Rules) (q : State) : rules.rows[q]?.getD [] = rules.row q := by
  rw [rows, row]
  induction rules.toList with
  | nil => simp
  | cons entry entries ih =>
    obtain ⟨⟨source, c⟩, p⟩ := entry
    rw [List.foldr_cons, Std.ExtTreeMap.getElem?_insert, List.filterMap_cons]
    by_cases h : source = q
    · subst h
      simp [ih]
    · simp [h, ih]

theorem getElem?_mergeStates (rules : Rules) (into : Merging) (key : State × Char) :
    (rules.mergeStates into)[key]? =
      if key.1 ∈ into then none else rules[key]?.map into.redirect := by
  rw [mergeStates, Std.ExtTreeMap.getElem?_map, Std.ExtTreeMap.getElem?_filter']
  by_cases h : key.1 ∈ into <;> cases rules[key]? <;> simp [h, Option.filter]

/-- Rules between numbers that are identifiers stay as they are. -/
theorem identified_eq_self (rules : Rules)
    (h : ∀ (key : State × Char) (p : State), rules[key]? = some p → key.1 < 4294967296 ∧ p < 4294967296) :
    rules.identified = rules := by
  have hentries : rules.toList.map (fun ((q, c), p) => ((identifier q, c), identifier p)) = rules.toList := by
    refine (List.map_congr_left fun entry hentry => ?_).trans (List.map_id _)
    obtain ⟨⟨q, c⟩, p⟩ := entry
    obtain ⟨hq, hp⟩ := h (q, c) p (Std.ExtTreeMap.mem_toList_iff_getElem?_eq_some.1 hentry)
    dsimp only [id]
    rw [identifier_of_lt hq, identifier_of_lt hp]
  rw [identified, hentries, ofList_toList]

end Rules

end Dfa

end PatternAutomata
