/-
Closures along epsilon rules.

The closure of a set of states adds every state that epsilon rules lead to from there (`mem_closureOf_iff`). It is found
layer by layer: the rules of a layer are followed, and the states met for the first time make up the next layer.

A table of closures holds the closure of some states. A search that meets one of them takes its closure from the table
and goes no further there. `Nfa.closureTable` holds the closures of all states of an automaton: most states are taken
when all their epsilon rules lead to states that are in the table already, so their search is a single step.

- `mem_closureOf_iff`, `mem_closure_iff`: closures are what epsilon rules reach.
- `closureTable_get`: the table holds the closure of every state.
-/
import PatternAutomata.Nfa.Basic
import PatternAutomata.Reachability

namespace PatternAutomata.Nfa

/-- The closures of some states. -/
structure ClosureTable where
  known : StateSet
  closures : Std.ExtTreeMap State StateSet

namespace ClosureTable

/-- The table without any entry. -/
def empty : ClosureTable := ⟨∅, ∅⟩

/-- The closure of a state by the table, empty if there is none. -/
def get (table : ClosureTable) (q : State) : StateSet := table.closures[q]?.getD ∅

/-- The union of the closures of the members of a set by the table. -/
def getAll (table : ClosureTable) (s : StateSet) : StateSet := s.biUnion table.get

/-- Adds the closure of a state. -/
def insert (table : ClosureTable) (q : State) (closure : StateSet) : ClosureTable :=
  ⟨table.known.insert q, table.closures.insert q closure⟩

/-- The entries of the table are what epsilon rules reach. -/
def Right (m : Nfa) (table : ClosureTable) : Prop :=
  ∀ q, q ∈ table.known → ∀ p, p ∈ table.get q ↔ Reaches m.Silent q p

end ClosureTable

/-! ## The search -/

/-- Where one epsilon rule leads from the states of a set. -/
def silentMove (m : Nfa) (s : StateSet) : StateSet := s.biUnion fun q => m.rules.destinations q .epsilon

theorem mem_silentMove_iff (m : Nfa) (s : StateSet) (p : State) : p ∈ m.silentMove s ↔ ∃ q, q ∈ s ∧ m.Silent q p := by
  rw [silentMove, StateSet.mem_biUnion]
  rfl

/-- Fewer states of the rules remain after a layer with new states. -/
theorem size_remaining_lt (m : Nfa) (met layer more : StateSet) (h : ¬ (m.silentMove layer \ met).size = 0) :
    (m.rules.states \ (met ∪ (m.silentMove layer \ met) ∪ more)).size < (m.rules.states \ met).size := by
  rw [StateSet.size_eq_zero_iff, Classical.not_forall] at h
  obtain ⟨p, hp⟩ := h
  have hp := Classical.not_not.1 hp
  obtain ⟨hmove, hmet⟩ := StateSet.mem_sdiff.1 hp
  obtain ⟨q, -, hq⟩ := (m.mem_silentMove_iff _ _).1 hmove
  refine StateSet.size_lt_size _ _ p (fun r hr => ?_) ?_ fun hin => ?_
  · simp only [StateSet.mem_sdiff, StateSet.mem_union, not_or] at hr
    exact StateSet.mem_sdiff.2 ⟨hr.1, hr.2.1.1⟩
  · exact StateSet.mem_sdiff.2 ⟨m.rules.mem_states_of_destination q _ p hq, hmet⟩
  · exact (StateSet.mem_sdiff.1 hin).2 (StateSet.mem_union.2 (Or.inl (StateSet.mem_union.2 (Or.inr hp))))

/-- Adds to `met` all that epsilon rules lead to; `layer` holds the members of `met` whose rules were not followed
yet. -/
def closureFrom (m : Nfa) (table : ClosureTable) (met layer : StateSet) : StateSet :=
  let fresh := m.silentMove layer \ met
  if _ : fresh.size = 0 then met
  else m.closureFrom table (met ∪ fresh ∪ table.getAll (fresh ∩ table.known)) (fresh \ table.known)
termination_by (m.rules.states \ met).size
decreasing_by exact m.size_remaining_lt met layer _ ‹_›

/-- The states of a set and all that epsilon rules lead to from them. The search starts from all members at once, so
what one member covers is not searched again from another. -/
def closureOf (m : Nfa) (s : StateSet) : StateSet := m.closureFrom .empty s s

/-- A state and all that epsilon rules lead to from it. -/
def closure (m : Nfa) (q : State) : StateSet := m.closureOf {q}

theorem subset_closureFrom (m : Nfa) (table : ClosureTable) (met layer : StateSet) (q : State) (hq : q ∈ met) :
    q ∈ m.closureFrom table met layer := by
  fun_induction closureFrom m table met layer with
  | case1 => exact hq
  | case2 met layer fresh _ ih => exact ih (StateSet.mem_union.2 (Or.inl (StateSet.mem_union.2 (Or.inl hq))))

theorem closureFrom_closed (m : Nfa) (table : ClosureTable) (htable : table.Right m) (met layer : StateSet)
    (hmet : ∀ q, q ∈ met → q ∈ layer ∨ ∀ p, m.Silent q p → p ∈ met) :
    ∀ q, q ∈ m.closureFrom table met layer → ∀ p, m.Silent q p → p ∈ m.closureFrom table met layer := by
  fun_induction closureFrom m table met layer with
  | case1 met layer fresh h =>
    intro q hq p hqp
    rcases hmet q hq with hl | hc
    · refine Classical.not_not.1 fun hp => (StateSet.size_eq_zero_iff _).1 h p ?_
      exact StateSet.mem_sdiff.2 ⟨(m.mem_silentMove_iff _ _).2 ⟨q, hl, hqp⟩, hp⟩
    · exact hc p hqp
  | case2 met layer fresh _ ih =>
    refine ih fun q hq => ?_
    simp only [StateSet.mem_union, ClosureTable.getAll, StateSet.mem_biUnion, StateSet.mem_inter] at hq ⊢
    have hknown : ∀ r, r ∈ fresh → r ∈ table.known → ∀ p, Reaches m.Silent r p →
        (p ∈ met ∨ p ∈ fresh) ∨ ∃ r, (r ∈ fresh ∧ r ∈ table.known) ∧ p ∈ table.get r :=
      fun r hr hk p hp => Or.inr ⟨r, ⟨hr, hk⟩, (htable r hk p).2 hp⟩
    rcases hq with (hq | hq) | ⟨r, ⟨hr, hk⟩, hq⟩
    · refine Or.inr fun p hqp => Or.inl ?_
      by_cases hp : p ∈ met
      · exact Or.inl hp
      · rcases hmet q hq with hl | hc
        · exact Or.inr (StateSet.mem_sdiff.2 ⟨(m.mem_silentMove_iff _ _).2 ⟨q, hl, hqp⟩, hp⟩)
        · exact absurd (hc p hqp) hp
    · by_cases hk : q ∈ table.known
      · exact Or.inr fun p hqp => hknown q hq hk p (.tail .refl hqp)
      · exact Or.inl (StateSet.mem_sdiff.2 ⟨hq, hk⟩)
    · exact Or.inr fun p hqp => hknown r hr hk p (((htable r hk q).1 hq).tail hqp)

theorem reaches_of_mem_closureFrom (m : Nfa) (table : ClosureTable) (htable : table.Right m) (s met layer : StateSet)
    (hlayer : ∀ q, q ∈ layer → q ∈ met) (h : ∀ p, p ∈ met → ∃ q, q ∈ s ∧ Reaches m.Silent q p) :
    ∀ p, p ∈ m.closureFrom table met layer → ∃ q, q ∈ s ∧ Reaches m.Silent q p := by
  fun_induction closureFrom m table met layer with
  | case1 => exact h
  | case2 met layer fresh _ ih =>
    have hfresh : ∀ p, p ∈ fresh → ∃ q, q ∈ s ∧ Reaches m.Silent q p := by
      intro p hp
      obtain ⟨r, hr, hrp⟩ := (m.mem_silentMove_iff _ _).1 (StateSet.mem_sdiff.1 hp).1
      obtain ⟨q, hq, hqr⟩ := h r (hlayer r hr)
      exact ⟨q, hq, hqr.tail hrp⟩
    refine ih (fun q hq => ?_) fun p hp => ?_
    · exact StateSet.mem_union.2 (Or.inl (StateSet.mem_union.2 (Or.inr (StateSet.mem_sdiff.1 hq).1)))
    · simp only [StateSet.mem_union, ClosureTable.getAll, StateSet.mem_biUnion, StateSet.mem_inter] at hp
      rcases hp with (hp | hp) | ⟨r, ⟨hr, hk⟩, hp⟩
      · exact h p hp
      · exact hfresh p hp
      · obtain ⟨q, hq, hqr⟩ := hfresh r hr
        exact ⟨q, hq, hqr.trans ((htable r hk p).1 hp)⟩

/-- A search finds what epsilon rules reach, whatever is in the table. -/
theorem mem_closureFrom_iff (m : Nfa) (table : ClosureTable) (htable : table.Right m) (s : StateSet) (p : State) :
    p ∈ m.closureFrom table s s ↔ ∃ q, q ∈ s ∧ Reaches m.Silent q p := by
  refine ⟨?_, ?_⟩
  · exact m.reaches_of_mem_closureFrom table htable s s s (fun _ hq => hq) (fun q hq => ⟨q, hq, .refl⟩) p
  · intro h
    obtain ⟨q, hq, hr⟩ := h
    induction hr with
    | refl => exact m.subset_closureFrom table s s q hq
    | tail _ hp ih => exact m.closureFrom_closed table htable s s (fun _ hq => Or.inl hq) _ ih _ hp

theorem right_empty (m : Nfa) : ClosureTable.empty.Right m := fun q hq => absurd hq (StateSet.not_mem_empty q)

theorem mem_closureOf_iff (m : Nfa) (s : StateSet) (p : State) :
    p ∈ m.closureOf s ↔ ∃ q, q ∈ s ∧ Reaches m.Silent q p := m.mem_closureFrom_iff _ m.right_empty s p

theorem mem_closure_iff (m : Nfa) (q p : State) : p ∈ m.closure q ↔ Reaches m.Silent q p := by
  rw [closure, mem_closureOf_iff]
  simp only [StateSet.mem_singleton, exists_eq_left]

/-- The closure of a set is the union of the closures of its members. -/
theorem closureOf_eq_biUnion (m : Nfa) (s : StateSet) : m.closureOf s = s.biUnion m.closure := by
  apply StateSet.ext
  intro p
  rw [mem_closureOf_iff, StateSet.mem_biUnion]
  simp only [mem_closure_iff]

/-- Only a state of the automaton reaches more than itself. -/
theorem eq_or_mem_states_of_reaches (m : Nfa) {q p : State} (h : Reaches m.Silent q p) : q = p ∨ q ∈ m.states := by
  induction h with
  | refl => exact Or.inl rfl
  | tail _ hstep ih => exact Or.inr (ih.elim (fun hq => hq ▸ m.mem_states_of_source _ _ _ hstep) id)

/-! ## The table of all closures -/

/-- Adds the closure of a state to a table. -/
def addClosure (m : Nfa) (table : ClosureTable) (q : State) : ClosureTable :=
  table.insert q (m.closureFrom table {q} {q})

/-- Adds the closure of a state if it is not there and all the epsilon rules of the state lead into the table. -/
def addIfReady (m : Nfa) (table : ClosureTable) (q : State) : ClosureTable :=
  bif !table.known.contains q && (m.rules.destinations q .epsilon \ table.known).isEmpty then m.addClosure table q
  else table

/-- Adds the closure of a state if it is not there. -/
def addIfMissing (m : Nfa) (table : ClosureTable) (q : State) : ClosureTable :=
  bif table.known.contains q then table else m.addClosure table q

/-- The closures of all states. The epsilon rules of an assembled automaton lead up and down in long runs, so two sweeps
in either direction leave few states whose search takes more than a step. -/
def closureTable (m : Nfa) : ClosureTable :=
  let up := m.states.toList
  let down := up.reverse
  down.foldl m.addIfMissing ((up ++ down ++ up ++ down).foldl m.addIfReady .empty)

theorem ClosureTable.get_insert (table : ClosureTable) (q : State) (closure : StateSet) (p : State) :
    (table.insert q closure).get p = if q = p then closure else table.get p := by
  rw [get, insert, Std.ExtTreeMap.getElem?_insert]
  by_cases h : q = p <;> simp [h, get]

theorem right_addClosure (m : Nfa) (table : ClosureTable) (h : table.Right m) (q : State) :
    (m.addClosure table q).Right m := by
  intro r hr p
  rw [addClosure, ClosureTable.get_insert]
  split
  · rename_i hqr
    rw [m.mem_closureFrom_iff table h, ← hqr]
    simp only [StateSet.mem_singleton, exists_eq_left]
  · rename_i hqr
    exact h r ((StateSet.mem_insert.1 hr).resolve_left (Ne.symm hqr)) p

theorem right_addIfReady (m : Nfa) (states : List State) (table : ClosureTable) (h : table.Right m) :
    (states.foldl m.addIfReady table).Right m := by
  induction states generalizing table with
  | nil => exact h
  | cons q states ih =>
    refine ih _ ?_
    rw [addIfReady, Bool.cond_eq_ite]
    split
    · exact m.right_addClosure table h q
    · exact h

theorem right_addIfMissing (m : Nfa) (states : List State) (table : ClosureTable) (h : table.Right m) :
    (states.foldl m.addIfMissing table).Right m ∧
      ∀ q, q ∈ states ∨ q ∈ table.known → q ∈ (states.foldl m.addIfMissing table).known := by
  induction states generalizing table with
  | nil => exact ⟨h, fun q hq => hq.resolve_left List.not_mem_nil⟩
  | cons a states ih =>
    have hstep : (m.addIfMissing table a).Right m ∧
        ∀ q, q = a ∨ q ∈ table.known → q ∈ (m.addIfMissing table a).known := by
      rw [addIfMissing, Bool.cond_eq_ite]
      split
      · rename_i ha
        exact ⟨h, fun q hq => hq.elim (fun hqa => hqa ▸ StateSet.contains_iff.1 ha) id⟩
      · exact ⟨m.right_addClosure table h a, fun q hq => StateSet.mem_insert.2 hq⟩
    obtain ⟨ih1, ih2⟩ := ih _ hstep.1
    refine ⟨ih1, fun q hq => ih2 q ?_⟩
    rcases hq with hq | hq
    · rcases List.mem_cons.1 hq with hqa | hq
      · exact Or.inr (hstep.2 q (Or.inl hqa))
      · exact Or.inl hq
    · exact Or.inr (hstep.2 q (Or.inr hq))

/-- The table holds the closure of every state. -/
theorem closureTable_get (m : Nfa) (q : State) (hq : q ∈ m.states) : m.closureTable.get q = m.closure q := by
  obtain ⟨hright, hknown⟩ := m.right_addIfMissing m.states.toList.reverse _
    (m.right_addIfReady (m.states.toList ++ m.states.toList.reverse ++ m.states.toList ++ m.states.toList.reverse) _
      m.right_empty)
  apply StateSet.ext
  intro p
  rw [mem_closure_iff]
  exact hright q (hknown q (Or.inl (List.mem_reverse.2 (StateSet.mem_toList.2 hq)))) p

end PatternAutomata.Nfa
