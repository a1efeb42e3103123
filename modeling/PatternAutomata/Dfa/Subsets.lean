/-
The subset automaton.

The states of the subset automaton are the sets of states that a nondeterministic automaton may be in. They are
discovered from the set that holds the initial state alone, following the characters in ascending order. A character that
leads nowhere gets no rule, so the empty set is never a state and the automaton is partial. Epsilon rules are not
followed: they are to be eliminated first.

A set is known by the identifier of its place in the order of discovery. The places themselves make an automaton whatever
their number (`byPlace`), and up to as many sets as there are identifiers that is the subset automaton
(`determinize_eq_byPlace`). With more sets, some share an identifier, and the rules of the later ones stay.

All moves from a set are read off the joined rows of its members. What they are is told without rows by
`getElem?_moves`, for the rules between the places of the sets by `getElem?_placeRules`.
-/
import PatternAutomata.Dfa.Basic
import PatternAutomata.Discovery
import PatternAutomata.Nfa.Rows
import PatternAutomata.Nfa.Simulation

namespace PatternAutomata.Nfa

/-- Where the characters lead from a set, those that lead nowhere left out. -/
def moves (rows : Rows) (s : StateSet) : Row := (rows.gather s).proper

theorem mem_targets_of_moves (rows : Rows) (s next : StateSet) (h : next ∈ (moves rows s).toList.map Prod.snd)
    (p : State) (hp : p ∈ next) : p ∈ rows.targets := by
  obtain ⟨⟨c, _⟩, hmove, rfl⟩ := List.mem_map.1 h
  rw [Std.ExtTreeMap.mem_toList_iff_getElem?_eq_some, moves, Row.getElem?_proper] at hmove
  split at hmove
  · cases hmove
  · obtain rfl := Option.some.inj hmove
    obtain ⟨q, -, hq⟩ := (rows.mem_destinations_gather s c p).1 hp
    exact rows.mem_targets q c p hq

/-- The sets of states with the characters between them. -/
def subsetGraph (rows : Rows) : Graph StateSet Row where
  expand := moves rows
  heads row := row.toList.map Prod.snd
  targets _ := StateSet.subsetsOf rows.targets
  heads_mem s next h := StateSet.mem_subsetsOf next _ (mem_targets_of_moves rows s next h)

/-- The sets of states that an automaton may be in, in order of discovery, each with its moves. -/
def subsetsWithMoves (rows : Rows) (initial : State) : List (StateSet × Row) :=
  (subsetGraph rows).discover [{initial}]

/-- The rules between the places of the listed sets. -/
def placeRules (found : List (StateSet × Row)) : Dfa.Rules :=
  let places : Std.ExtTreeMap StateSet State := placesOf (found.map Prod.fst)
  let rows := numbered (found.map Prod.snd)
  tabulate (rows.toList.flatMap fun (k, row) => row.keys.map fun c => (k, c)) fun (k, c) =>
    rows[k]?.bind fun row => row[c]?.bind fun next => places[next]?

/-- The automaton over a list of sets, each known by its place. -/
def placeAutomaton (accepts : StateSet) (found : List (StateSet × Row)) : Dfa where
  initial := 0
  accepts := StateSet.ofList ((found.zipIdx.filter fun entry => entry.1.1.intersects accepts).map Prod.snd)
  rules := placeRules found

/-- The subset automaton over a list of sets, each known by the identifier of its place. -/
def subsetAutomaton (accepts : StateSet) (found : List (StateSet × Row)) : Dfa := (placeAutomaton accepts found).identified

/-- The sets of states that the automaton may be in, in order of discovery, each with its moves. -/
def discovered (m : Nfa) : List (StateSet × Row) := subsetsWithMoves m.rules.rows m.initial

/-- The sets of states that the automaton may be in, in order of discovery. -/
def subsets (m : Nfa) : List StateSet := m.discovered.map Prod.fst

/-- The automaton on the places of the sets. -/
def byPlace (m : Nfa) : Dfa := placeAutomaton m.accepts m.discovered

/-- The subset automaton. -/
def determinize (m : Nfa) : Dfa := subsetAutomaton m.accepts m.discovered

/-! ## The rules without rows -/

/-- The moves by rows are the moves of the automaton. -/
theorem getElem?_moves (m : Nfa) (s : StateSet) (c : Char) :
    (moves m.rules.rows s)[c]? = if (m.move s c).isEmpty then none else some (m.move s c) := by
  have hmove : (m.rules.rows.gather s).destinations c = m.move s c := StateSet.ext fun p => by
    simp only [Rows.mem_destinations_gather, Rules.mem_destinations_rows, mem_move_iff]
  rw [moves, Row.getElem?_proper, hmove]

theorem arrow_subsetGraph_iff (m : Nfa) (s next : StateSet) :
    (subsetGraph m.rules.rows).Arrow s next ↔ next.isEmpty = false ∧ ∃ c, m.move s c = next := by
  show next ∈ (moves m.rules.rows s).toList.map Prod.snd ↔ _
  simp only [List.mem_map, Prod.exists, Std.ExtTreeMap.mem_toList_iff_getElem?_eq_some, getElem?_moves]
  refine ⟨?_, ?_⟩
  · intro h
    obtain ⟨c, _, h, rfl⟩ := h
    split at h
    · cases h
    · rename_i hne
      obtain rfl := Option.some.inj h
      exact ⟨Bool.not_eq_true _ ▸ hne, c, rfl⟩
  · intro h
    obtain ⟨hne, c, rfl⟩ := h
    exact ⟨c, _, by rw [hne]; rfl, rfl⟩

/-- The discovered sets are those that characters lead to. -/
theorem mem_subsets_iff (m : Nfa) (s : StateSet) :
    s ∈ m.subsets ↔ Reaches (fun s next => next.isEmpty = false ∧ ∃ c, m.move s c = next) {m.initial} s := by
  have harrow : (subsetGraph m.rules.rows).Arrow = fun s next => next.isEmpty = false ∧ ∃ c, m.move s c = next :=
    funext fun s => funext fun next => propext (m.arrow_subsetGraph_iff s next)
  rw [subsets, discovered, subsetsWithMoves, Graph.mem_discover_iff, harrow]
  simp only [List.mem_singleton, exists_eq_left]

theorem nodup_subsets (m : Nfa) : m.subsets.Nodup := (subsetGraph m.rules.rows).nodup_discover _

/-- The set that holds the initial state alone has the first place. -/
theorem getElem?_subsets_zero (m : Nfa) : m.subsets[0]? = some {m.initial} := by
  rw [subsets, List.getElem?_map, discovered, subsetsWithMoves, Graph.getElem?_discover_zero]
  rfl

theorem getElem?_placeRules (found : List (StateSet × Row)) (k : State) (c : Char) :
    (placeRules found)[(k, c)]? =
      found[k]?.bind fun node => node.2[c]?.bind fun next => (found.map Prod.fst).idxOf? next := by
  have hrows : ∀ k : State, (numbered (found.map Prod.snd))[k]? = found[k]?.map Prod.snd :=
    fun k => by rw [getElem?_numbered, List.getElem?_map]
  rw [placeRules, getElem?_tabulate]
  simp only [hrows, getElem?_placesOf, Option.bind_map, Function.comp_def]
  split
  · rfl
  · rename_i hkey
    cases hnode : found[k]? with
    | none => rfl
    | some node =>
      have hrow : node.2[c]? = none := by
        refine Classical.byContradiction fun hc => hkey (List.mem_flatMap.2 ⟨(k, node.2), ?_, ?_⟩)
        · rw [Std.ExtTreeMap.mem_toList_iff_getElem?_eq_some, hrows, hnode, Option.map_some]
        · refine List.mem_map.2 ⟨c, ?_, rfl⟩
          rw [Std.ExtTreeMap.mem_keys, Std.ExtTreeMap.mem_iff_isSome_getElem?]
          exact Option.isSome_iff_ne_none.2 hc
      rw [Option.bind_some, hrow]
      rfl

/-- A character leads from the place of a set to the place of the set it leads to, if that is not empty. -/
theorem getElem?_byPlace (m : Nfa) (k : State) (c : Char) :
    m.byPlace.rules[(k, c)]? =
      m.subsets[k]?.bind fun s => if (m.move s c).isEmpty then none else m.subsets.idxOf? (m.move s c) := by
  show (placeRules m.discovered)[(k, c)]? = _
  rw [getElem?_placeRules, subsets, List.getElem?_map, Option.bind_map]
  cases hnode : m.discovered[k]? with
  | none => rfl
  | some node =>
    have hmoves : node.2 = moves m.rules.rows node.1 :=
      (subsetGraph m.rules.rows).discover_expansion _ node (List.mem_of_getElem? hnode)
    simp only [Option.bind_some, Function.comp_apply, hmoves, getElem?_moves]
    split <;> rfl

theorem mem_accepts_byPlace (m : Nfa) (k : State) :
    k ∈ m.byPlace.accepts ↔ ∃ s, m.subsets[k]? = some s ∧ s.intersects m.accepts = true := by
  show k ∈ StateSet.ofList _ ↔ _
  simp only [StateSet.mem_ofList, List.mem_map, List.mem_filter, Prod.exists, exists_eq_right,
    List.mem_zipIdx_iff_getElem?, subsets, List.getElem?_map, Option.map_eq_some_iff]
  grind

theorem determinize_eq_identified (m : Nfa) : m.determinize = m.byPlace.identified := rfl

/-- With as many identifiers as sets, the subset automaton is on their places. -/
theorem determinize_eq_byPlace (m : Nfa) (h : m.subsets.length ≤ 4294967296) : m.determinize = m.byPlace := by
  have hlt : ∀ (k : State) (s : StateSet), m.subsets[k]? = some s → k < 4294967296 :=
    fun k s hk => Nat.lt_of_lt_of_le (List.getElem?_eq_some_iff.1 hk).1 h
  refine Dfa.identified_eq_self _ (Nat.two_pow_pos 32) (fun k hk => ?_) ?_
  · obtain ⟨s, hs, -⟩ := (m.mem_accepts_byPlace k).1 hk
    exact hlt k s hs
  · rintro ⟨k, c⟩ p hrule
    obtain ⟨s, hs, hplace⟩ := Option.bind_eq_some_iff.1 ((m.getElem?_byPlace k c).symm.trans hrule)
    refine ⟨hlt k s hs, ?_⟩
    split at hplace
    · cases hplace
    · obtain ⟨hp, -, -⟩ := List.idxOf?_eq_some_iff.1 hplace
      exact Nat.lt_of_lt_of_le hp h

end PatternAutomata.Nfa
