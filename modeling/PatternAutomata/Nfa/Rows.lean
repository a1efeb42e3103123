/-
The rules of a nondeterministic automaton by rows.

A row takes a character to the states that it leads to. `Rules.rows` sorts the rules that read a character by state, and
`Rows.gather` joins the rows of all members of a set: the moves from the set by all its characters are found at once, in
time that goes with the rules there and not with the size of the alphabet. `Rules.ofRows` turns rows into a rule map.
What a row holds is told by `Row.destinations` alone.
-/
import PatternAutomata.Nfa.Rules
import PatternAutomata.Tabulation

namespace PatternAutomata.Nfa

/-- Where the characters lead from one place. -/
abbrev Row := Std.ExtTreeMap Char StateSet

/-- The row of each state; a state without rules needs none. -/
abbrev Rows := Std.ExtTreeMap State Row

namespace Row

/-- Where a character leads. -/
def destinations (row : Row) (c : Char) : StateSet := row[c]?.getD ∅

/-- Adds destinations of a character. -/
def add (row : Row) (c : Char) (states : StateSet) : Row := row.insert c (states ∪ row.destinations c)

/-- Adds everything in another row. -/
def join (row other : Row) : Row := other.toList.foldr (fun (c, states) row => row.add c states) row

/-- Applies a function to the destinations of each character. -/
def mapStates (row : Row) (f : StateSet → StateSet) : Row := row.map fun _ states => f states

/-- The row without the characters that lead nowhere. -/
def proper (row : Row) : Row := row.filter fun _ states => !states.isEmpty

theorem destinations_empty (c : Char) : (∅ : Row).destinations c = ∅ := by
  simp [destinations]

theorem mem_destinations_add (row : Row) (c d : Char) (states : StateSet) (p : State) :
    p ∈ (row.add c states).destinations d ↔ (c = d ∧ p ∈ states) ∨ p ∈ row.destinations d := by
  by_cases h : c = d
  · subst h
    simp [destinations, add]
  · simp [destinations, add, Std.ExtTreeMap.getElem?_insert, h]

theorem mem_destinations_join (row other : Row) (c : Char) (p : State) :
    p ∈ (row.join other).destinations c ↔ p ∈ other.destinations c ∨ p ∈ row.destinations c := by
  have fold : ∀ entries : List (Char × StateSet),
      p ∈ destinations (entries.foldr (fun (c, states) row => Row.add row c states) row) c ↔
        (∃ states, (c, states) ∈ entries ∧ p ∈ states) ∨ p ∈ row.destinations c := by
    intro entries
    induction entries with
    | nil => simp
    | cons entry entries ih =>
      obtain ⟨d, states⟩ := entry
      rw [List.foldr_cons, mem_destinations_add, ih]
      simp only [List.mem_cons, Prod.mk.injEq]
      grind
  rw [join, fold, destinations.eq_def other]
  simp only [Std.ExtTreeMap.mem_toList_iff_getElem?_eq_some]
  cases other[c]? <;> simp

theorem destinations_mapStates (row : Row) (f : StateSet → StateSet) (hf : f ∅ = ∅) (c : Char) :
    (row.mapStates f).destinations c = f (row.destinations c) := by
  rw [destinations, mapStates, Std.ExtTreeMap.getElem?_map, destinations]
  cases row[c]? <;> simp [hf]

theorem getElem?_proper (row : Row) (c : Char) :
    row.proper[c]? = if (row.destinations c).isEmpty then none else some (row.destinations c) := by
  rw [proper, Std.ExtTreeMap.getElem?_filter', destinations]
  cases row[c]? with
  | none => rfl
  | some states => cases h : states.isEmpty <;> simp [h, Option.filter]

/-- Rows with the same destinations are equal once the characters that lead nowhere are left out. -/
theorem proper_congr {row other : Row} (h : ∀ c, row.destinations c = other.destinations c) :
    row.proper = other.proper := by
  apply Std.ExtTreeMap.ext_getElem?
  intro c
  rw [getElem?_proper, getElem?_proper, h]

end Row

namespace Rows

/-- The row of a state. -/
def row (rows : Rows) (q : State) : Row := rows[q]?.getD ∅

/-- The rows of the members of a set, joined. -/
def gather (rows : Rows) (s : StateSet) : Row := s.toList.foldr (fun q gathered => Row.join gathered (rows.row q)) ∅

/-- All destinations. -/
def targets (rows : Rows) : List State :=
  rows.toList.flatMap fun (_, row) => row.toList.flatMap fun (_, states) => states.toList

/-- Applies a function to the destinations of each rule. -/
def mapStates (rows : Rows) (f : StateSet → StateSet) : Rows := rows.map fun _ row => Row.mapStates row f

/-- A character leads from a set wherever it leads from a member. -/
theorem mem_destinations_gather (rows : Rows) (s : StateSet) (c : Char) (p : State) :
    p ∈ (rows.gather s).destinations c ↔ ∃ q, q ∈ s ∧ p ∈ (rows.row q).destinations c := by
  have fold : ∀ l : List State,
      p ∈ Row.destinations (l.foldr (fun q gathered => Row.join gathered (rows.row q)) (∅ : Row)) c ↔
        ∃ q ∈ l, p ∈ (rows.row q).destinations c := by
    intro l
    induction l with
    | nil => simp [Row.destinations_empty]
    | cons q l ih =>
      rw [List.foldr_cons, Row.mem_destinations_join, ih]
      simp only [List.mem_cons, exists_eq_or_imp]
  rw [gather, fold]
  simp only [StateSet.mem_toList]

theorem mem_targets (rows : Rows) (q : State) (c : Char) (p : State) (h : p ∈ (rows.row q).destinations c) :
    p ∈ rows.targets := by
  rw [row, Row.destinations] at h
  cases hrow : rows[q]? with
  | none => simp [hrow] at h
  | some row =>
    rw [hrow, Option.getD_some] at h
    cases hstates : row[c]? with
    | none => simp [hstates] at h
    | some states =>
      rw [hstates, Option.getD_some] at h
      refine List.mem_flatMap.2 ⟨(q, row), Std.ExtTreeMap.mem_toList_iff_getElem?_eq_some.2 hrow, ?_⟩
      refine List.mem_flatMap.2 ⟨(c, states), Std.ExtTreeMap.mem_toList_iff_getElem?_eq_some.2 hstates, ?_⟩
      exact StateSet.mem_toList.2 h

theorem row_mapStates (rows : Rows) (f : StateSet → StateSet) (q : State) :
    (rows.mapStates f).row q = (rows.row q).mapStates f := by
  rw [row, mapStates, Std.ExtTreeMap.getElem?_map, row]
  cases rows[q]? <;> simp [Row.mapStates]

end Rows

namespace Rules

/-- The rules that read a character, by their state. -/
def rows (rules : Rules) : Rows :=
  rules.toList.foldr (fun ((q, a), states) rows => match a with
    | .char c => rows.insert q ((Rows.row rows q).add c states)
    | .epsilon => rows) ∅

/-- The rule map with the rules of all rows, those that lead nowhere left out. -/
def ofRows (rows : Rows) : Rules :=
  tabulate (rows.toList.flatMap fun (q, row) => row.keys.map fun c => (q, .char c)) fun (q, a) => match a with
    | .char c =>
      let states := (rows.row q).destinations c
      bif states.isEmpty then none else some states
    | .epsilon => none

/-- The row of a state holds the rules that leave it. -/
theorem mem_destinations_rows (rules : Rules) (q : State) (c : Char) (p : State) :
    p ∈ (rules.rows.row q).destinations c ↔ p ∈ rules.destinations q (.char c) := by
  have fold : ∀ entries : List ((State × Symbol) × StateSet),
      p ∈ ((entries.foldr (fun ((q, a), states) rows => match a with
        | .char c => rows.insert q ((Rows.row rows q).add c states)
        | .epsilon => rows) (∅ : Rows)).row q).destinations c ↔
        ∃ states, ((q, Symbol.char c), states) ∈ entries ∧ p ∈ states := by
    intro entries
    induction entries with
    | nil => simp [Rows.row, Row.destinations_empty]
    | cons entry entries ih =>
      obtain ⟨⟨source, a⟩, states⟩ := entry
      rw [List.foldr_cons]
      cases a with
      | epsilon =>
        rw [ih]
        simp
      | char d =>
        rw [Rows.row, Std.ExtTreeMap.getElem?_insert]
        by_cases h : source = q
        · subst h
          simp only [Std.ReflCmp.compare_self, if_true, Option.getD_some, Row.mem_destinations_add, ih, List.mem_cons,
            Prod.mk.injEq, Symbol.char.injEq, true_and]
          grind
        · simp only [Std.LawfulEqOrd.compare_eq_iff_eq, if_neg h, List.mem_cons, Prod.mk.injEq, Ne.symm h, false_and,
            false_or, ← Rows.row.eq_def, ih]
  rw [rows, fold, destinations]
  simp only [Std.ExtTreeMap.mem_toList_iff_getElem?_eq_some]
  cases rules[(q, Symbol.char c)]? <;> simp

theorem getElem?_ofRows_char (rows : Rows) (q : State) (c : Char) :
    (ofRows rows)[(q, Symbol.char c)]? =
      if ((rows.row q).destinations c).isEmpty then none else some ((rows.row q).destinations c) := by
  rw [ofRows, getElem?_tabulate]
  split
  · exact Bool.cond_eq_ite ..
  · rename_i hkey
    rw [if_pos]
    have hnone : (rows.row q)[c]? = none := by
      rw [Rows.row]
      cases hrow : rows[q]? with
      | none => simp
      | some row =>
        rw [Option.getD_some]
        refine Classical.byContradiction fun hc => hkey (List.mem_flatMap.2 ⟨(q, row), ?_, ?_⟩)
        · exact Std.ExtTreeMap.mem_toList_iff_getElem?_eq_some.2 hrow
        · refine List.mem_map.2 ⟨c, ?_, rfl⟩
          rw [Std.ExtTreeMap.mem_keys, Std.ExtTreeMap.mem_iff_isSome_getElem?]
          exact Option.isSome_iff_ne_none.2 hc
    rw [Row.destinations, hnone]
    rfl

theorem getElem?_ofRows_epsilon (rows : Rows) (q : State) : (ofRows rows)[(q, Symbol.epsilon)]? = none := by
  rw [ofRows, getElem?_tabulate]
  split <;> rfl

end Rules

end PatternAutomata.Nfa
