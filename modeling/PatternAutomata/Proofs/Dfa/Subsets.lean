/-
The subset automaton and the simulation on sets of states go in step.

As long as the discovered sets have identifiers of their own, each state of the subset automaton is the place of a set
among them. It starts from the initial state alone, which need not be closed under epsilon rules; from the first character
on its sets are those of the simulation (`foldl_move_withoutEpsilon`). What one character does is `transition?_byPlace`,
and by induction a whole word is read in step with the moves of its set (`read_byPlace`): the reading stops exactly where
no state would be left.

- `read_toDfa`: how far a word is read, and the set whose place the reading stops in.
- `acceptsWord_toDfa`: the subset automaton accepts what the simulation accepts.
- `length_subsets_le`: a bound for the number of sets.
-/
import PatternAutomata.Dfa.Direct
import PatternAutomata.Proofs.Nfa.Path

namespace PatternAutomata

/-! ## How many sets there are -/

theorem StateSet.length_subsetsOf (states : List State) : (subsetsOf states).length = 2 ^ states.length := by
  induction states with
  | nil => rfl
  | cons q rest ih =>
    rw [subsetsOf, List.length_append, List.length_map, ih, List.length_cons, Nat.pow_succ, Nat.mul_two]

namespace Nfa

theorem mem_states_of_mem_subsets (m : Nfa) (s : StateSet) (hs : s ∈ m.subsets) (q : State) (hq : q ∈ s) :
    q ∈ m.states := by
  cases (m.mem_subsets_iff s).1 hs with
  | refl =>
    rw [StateSet.mem_singleton.1 hq]
    exact StateSet.mem_insert.2 (Or.inl rfl)
  | tail _ hstep =>
    obtain ⟨-, c, rfl⟩ := hstep
    obtain ⟨p, -, hrule⟩ := (m.mem_move_iff ..).1 hq
    exact m.mem_states_of_destination p _ q hrule

/-- The sets have their members in a list, so they are no more than its subsets. -/
theorem length_subsets_le_of_mem (m : Nfa) (states : List State) (h : ∀ s ∈ m.subsets, ∀ q, q ∈ s → q ∈ states) :
    m.subsets.length ≤ 2 ^ states.length := by
  rw [← StateSet.length_subsetsOf]
  exact m.nodup_subsets.length_le_of_subset fun s hs => StateSet.mem_subsetsOf s _ (h s hs)

/-- There are no more states than sets of states. -/
theorem length_subsets_le (m : Nfa) : m.subsets.length ≤ 2 ^ m.states.size :=
  m.length_subsets_le_of_mem m.states.toList fun s hs q hq =>
    StateSet.mem_toList.2 (m.mem_states_of_mem_subsets s hs q hq)

/-! ## One character and one word, without epsilon rules -/

/-- A character leads from the place of a set to the place of the set it leads to, unless that is empty. -/
theorem transition?_byPlace (m : Nfa) (k : State) (s : StateSet) (hk : m.subsets[k]? = some s) (c : Char) :
    ((m.move s c).isEmpty = true ∧ m.byPlace.transition? k c = none) ∨
      ∃ p, m.byPlace.transition? k c = some p ∧ m.subsets[p]? = some (m.move s c) := by
  have hrule : m.byPlace.transition? k c =
      if (m.move s c).isEmpty then none else m.subsets.idxOf? (m.move s c) := by
    show m.byPlace.rules[(k, c)]? = _
    rw [getElem?_byPlace, hk, Option.bind_some]
  by_cases hempty : (m.move s c).isEmpty = true
  · exact Or.inl ⟨hempty, by rw [hrule, if_pos hempty]⟩
  · have hmem : m.move s c ∈ m.subsets := by
      have hs := (m.mem_subsets_iff s).1 (List.mem_of_getElem? hk)
      exact (m.mem_subsets_iff _).2 (hs.tail ⟨Bool.not_eq_true _ ▸ hempty, c, rfl⟩)
    cases hplace : m.subsets.idxOf? (m.move s c) with
    | none => exact absurd hmem (List.idxOf?_eq_none_iff.1 hplace)
    | some p =>
      obtain ⟨hlt, heq, -⟩ := List.idxOf?_eq_some_iff.1 hplace
      refine Or.inr ⟨p, by rw [hrule, if_neg hempty, hplace], ?_⟩
      rw [List.getElem?_eq_getElem hlt, heq]

/-- A word is read from the place of a set as long as the moves of the set leave any state. -/
theorem read_byPlace (m : Nfa) (w : List Char) (k : State) (s : StateSet) (hk : m.subsets[k]? = some s) :
    ∃ u v p, w = u ++ v ∧ m.byPlace.read k w = ⟨p, v⟩ ∧ m.subsets[p]? = some (u.foldl m.move s) ∧
      ∀ c rest, v = c :: rest → (m.move (u.foldl m.move s) c).isEmpty = true := by
  induction w generalizing k s with
  | nil => exact ⟨[], [], k, rfl, rfl, hk, fun c rest h => absurd h (List.cons_ne_nil c rest).symm⟩
  | cons c w ih =>
    rcases m.transition?_byPlace k s hk c with ⟨hempty, hstop⟩ | ⟨p, hgo, hp⟩
    · refine ⟨[], c :: w, k, rfl, by rw [Dfa.read, hstop], hk, fun d rest h => ?_⟩
      obtain ⟨rfl, -⟩ := List.cons.inj h
      exact hempty
    · obtain ⟨u, v, t, hw, hread, ht, hstuck⟩ := ih p (m.move s c) hp
      exact ⟨c :: u, v, t, by rw [hw, List.cons_append], by rw [Dfa.read, hgo]; exact hread, ht, hstuck⟩

/-! ## The sets that are met -/

theorem move_withoutEpsilon (m : Nfa) (s : StateSet) (hs : m.Closed s) (c : Char) :
    m.withoutEpsilon.move s c = m.step s c := by
  apply StateSet.ext
  intro p
  simp only [mem_move_iff, mem_destinations_withoutEpsilon, mem_step_iff, mem_closure_iff]
  refine ⟨?_, ?_⟩
  · intro h
    obtain ⟨q, hq, r, hqr, hr⟩ := h
    exact ⟨r, hs.mem_of_reaches hq hqr, hr⟩
  · intro h
    obtain ⟨q, hq, hr⟩ := h
    exact ⟨q, hq, q, .refl, hr⟩

theorem move_withoutEpsilon_initial (m : Nfa) (c : Char) :
    m.withoutEpsilon.move {m.initial} c = m.step (m.closure m.initial) c := by
  apply StateSet.ext
  intro p
  rw [mem_move_iff]
  simp only [StateSet.mem_singleton, exists_eq_left, mem_destinations_withoutEpsilon]

/-- From the first character on, the moves from the initial state alone give the sets of the simulation. -/
theorem foldl_move_withoutEpsilon (m : Nfa) (w : List Char) (hw : w ≠ []) :
    w.foldl m.withoutEpsilon.move {m.initial} = m.statesAfter w := by
  have closed : ∀ (v : List Char) (s : StateSet), m.Closed s →
      v.foldl m.withoutEpsilon.move s = v.foldl m.step s := by
    intro v
    induction v with
    | nil => exact fun _ _ => rfl
    | cons c v ih =>
      intro s hs
      rw [List.foldl_cons, List.foldl_cons, m.move_withoutEpsilon s hs, ih _ (m.closed_step s c)]
  cases w with
  | nil => exact absurd rfl hw
  | cons c v =>
    unfold statesAfter
    rw [List.foldl_cons, List.foldl_cons, move_withoutEpsilon_initial, closed v _ (m.closed_step _ c)]

/-- The set that the subset automaton is in after a word. -/
def subsetAfter (m : Nfa) (w : List Char) : StateSet := w.foldl m.withoutEpsilon.move {m.initial}

theorem subsetAfter_append_singleton (m : Nfa) (u : List Char) (c : Char) :
    m.withoutEpsilon.move (m.subsetAfter u) c = m.statesAfter (u ++ [c]) := by
  rw [← m.foldl_move_withoutEpsilon (u ++ [c]) (by simp), List.foldl_append]
  rfl

/-- Each discovered set is the one after some word. -/
theorem exists_subsetAfter (m : Nfa) (s : StateSet) (hs : s ∈ m.withoutEpsilon.subsets) : ∃ w, m.subsetAfter w = s := by
  rw [mem_subsets_iff] at hs
  induction hs with
  | refl => exact ⟨[], rfl⟩
  | tail _ hstep ih =>
    obtain ⟨w, rfl⟩ := ih
    obtain ⟨-, c, rfl⟩ := hstep
    exact ⟨w ++ [c], List.foldl_append⟩

/-- The set after a word is discovered unless the simulation is left without states. -/
theorem subsetAfter_mem_subsets (m : Nfa) (w : List Char) (h : (m.statesAfter w).isEmpty = false) :
    m.subsetAfter w ∈ m.withoutEpsilon.subsets := by
  obtain ⟨u, v, p, rfl, -, hp, hstuck⟩ :=
    m.withoutEpsilon.read_byPlace w 0 {m.initial} m.withoutEpsilon.getElem?_subsets_zero
  cases v with
  | nil =>
    rw [List.append_nil]
    exact List.mem_of_getElem? hp
  | cons c rest =>
    have hempty : (m.statesAfter (u ++ c :: rest)).isEmpty = true := by
      rw [← List.singleton_append, ← List.append_assoc]
      refine m.isEmpty_statesAfter_append _ _ ?_
      rw [← subsetAfter_append_singleton]
      exact hstuck c rest rfl
    exact absurd (hempty.symm.trans h) (by decide)

theorem mem_directAccepts (m : Nfa) (q : State) :
    q ∈ m.directAccepts ↔ q ∈ m.accepts ∨ (q = m.initial ∧ ∃ p, Reaches m.Silent m.initial p ∧ p ∈ m.accepts) := by
  have hclosure : (m.closure m.initial).intersects m.accepts = true ↔
      ∃ p, Reaches m.Silent m.initial p ∧ p ∈ m.accepts := by
    rw [StateSet.intersects_iff]
    simp only [mem_closure_iff]
  unfold directAccepts
  split
  · rename_i h
    rw [StateSet.mem_insert]
    have hinitial := hclosure.1 h
    exact ⟨fun h => h.elim (fun h => Or.inr ⟨h, hinitial⟩) Or.inl, fun h => h.elim Or.inr fun h => Or.inl h.1⟩
  · rename_i h
    exact ⟨Or.inl, fun hq => hq.elim id fun hq => absurd (hclosure.2 hq.2) h⟩

/-- The acceptance given to the initial state is right wherever that state is met again, since the sets met later are
closed. -/
theorem intersects_subsetAfter (m : Nfa) (w : List Char) :
    (m.subsetAfter w).intersects m.directAccepts = m.acceptsWord w := by
  rw [acceptsWord_eq, Bool.eq_iff_iff, StateSet.intersects_iff, StateSet.intersects_iff]
  simp only [mem_directAccepts]
  by_cases hw : w = []
  · subst hw
    have hstart : ∀ p, p ∈ m.statesAfter [] ↔ Reaches m.Silent m.initial p := m.mem_closure_iff m.initial
    simp only [subsetAfter, List.foldl_nil, StateSet.mem_singleton, exists_eq_left, hstart, true_and]
    refine ⟨?_, ?_⟩
    · intro h
      rcases h with h | h
      · exact ⟨m.initial, .refl, h⟩
      · exact h
    · exact Or.inr
  · rw [subsetAfter, m.foldl_move_withoutEpsilon w hw]
    refine ⟨?_, ?_⟩
    · intro h
      rcases h with ⟨q, hq, hacc | ⟨rfl, p, hp, hacc⟩⟩
      · exact ⟨q, hq, hacc⟩
      · exact ⟨p, (m.closed_statesAfter w).mem_of_reaches hq hp, hacc⟩
    · intro h
      obtain ⟨q, hq, hacc⟩ := h
      exact ⟨q, hq, Or.inl hacc⟩

/-! ## Reading a word -/

/-- How far a word is read, and the set whose place the reading stops in. -/
theorem read_toDfa (m : Nfa) (hcount : m.withoutEpsilon.subsets.length ≤ 2 ^ 32) (w : List Char) :
    ∃ u v k, w = u ++ v ∧ m.toDfa.read m.toDfa.initial w = ⟨k, v⟩ ∧
      m.withoutEpsilon.subsets[k]? = some (m.subsetAfter u) ∧
      ∀ c rest, v = c :: rest → (m.statesAfter (u ++ [c])).isEmpty = true := by
  have hstart : m.withoutEpsilon.subsets[0]? = some {m.initial} := m.withoutEpsilon.getElem?_subsets_zero
  obtain ⟨u, v, k, hw, hread, hk, hstuck⟩ := m.withoutEpsilon.read_byPlace w 0 {m.initial} hstart
  rw [toDfa_eq_byPlace m hcount]
  refine ⟨u, v, k, hw, hread, hk, fun c rest hv => ?_⟩
  rw [← subsetAfter_append_singleton]
  exact hstuck c rest hv

/-- A reading does not pass a set without states, so no set on the way is empty. -/
theorem isEmpty_statesAfter_of_mem_subsets (m : Nfa) (u : List Char) (h : m.subsetAfter u ∈ m.withoutEpsilon.subsets) :
    (m.statesAfter u).isEmpty = false := by
  by_cases hu : u = []
  · subst hu
    exact m.isEmpty_statesAfter_nil
  · rw [subsetAfter, m.foldl_move_withoutEpsilon u hu, mem_subsets_iff] at h
    generalize hs : m.statesAfter u = s at h
    cases h with
    | refl => exact (StateSet.isEmpty_eq_false_iff _).2 ⟨_, StateSet.mem_singleton.2 rfl⟩
    | tail _ hstep => exact hstep.1

/-- The subset automaton accepts what the simulation accepts. -/
theorem acceptsWord_toDfa (m : Nfa) (hcount : m.withoutEpsilon.subsets.length ≤ 2 ^ 32) (w : List Char) :
    m.toDfa.acceptsWord w = m.acceptsWord w := by
  obtain ⟨u, v, k, hw, hread, hk, hstuck⟩ := m.read_toDfa hcount w
  rw [Dfa.acceptsWord, hread, Dfa.isAcceptedAt]
  cases v with
  | nil =>
    rw [List.append_nil] at hw
    have hplace : m.toDfa.isAccepting k = (m.subsetAfter u).intersects m.directAccepts := by
      rw [Bool.eq_iff_iff, toDfa_eq_byPlace m hcount, Dfa.isAccepting, StateSet.contains_iff, mem_accepts_byPlace, hk]
      simp only [Option.some.injEq, exists_eq_left']
      rfl
    rw [hw, ← intersects_subsetAfter, ← hplace]
    rfl
  | cons c rest =>
    have hempty : (m.statesAfter w).isEmpty = true := by
      rw [hw, ← List.singleton_append, ← List.append_assoc]
      exact m.isEmpty_statesAfter_append _ _ (hstuck c rest rfl)
    rw [acceptsWord_eq, StateSet.intersects_eq_false_of_isEmpty _ _ hempty]
    rfl

/-- The subset automaton gets through what is accepted. -/
theorem unread_toDfa_of_acceptsWord (m : Nfa) (hcount : m.withoutEpsilon.subsets.length ≤ 2 ^ 32) (w : List Char)
    (h : m.acceptsWord w = true) : (m.toDfa.read m.toDfa.initial w).unread = [] := by
  have hdfa : m.toDfa.isAcceptedAt (m.toDfa.read m.toDfa.initial w) = true := 
    (m.acceptsWord_toDfa hcount w).trans h
  unfold Dfa.isAcceptedAt at hdfa
  rw [Bool.and_eq_true] at hdfa
  exact List.isEmpty_iff.1 hdfa.1

/-- The reading stops in front of a character exactly where the simulation has states left before the character and none
after it. -/
theorem unread_toDfa_iff (m : Nfa) (hcount : m.withoutEpsilon.subsets.length ≤ 2 ^ 32) (u : List Char) (c : Char)
    (rest : List Char) :
    (m.toDfa.read m.toDfa.initial (u ++ c :: rest)).unread = c :: rest ↔
      (m.statesAfter u).isEmpty = false ∧ (m.statesAfter (u ++ [c])).isEmpty = true := by
  obtain ⟨x, y, k, hw, hread, hk, hstuck⟩ := m.read_toDfa hcount (u ++ c :: rest)
  have hleft := m.isEmpty_statesAfter_of_mem_subsets x (List.mem_of_getElem? hk)
  rw [hread]
  refine ⟨?_, ?_⟩
  · rintro rfl
    rw [List.append_cancel_right hw]
    exact ⟨hleft, hstuck c rest rfl⟩
  · intro h
    obtain ⟨hbefore, hafter⟩ := h
    -- a reading that stops earlier or later would contradict `hbefore` or `hafter`
    rcases List.append_eq_append_iff.1 hw with ⟨z, hx, hz⟩ | ⟨z, hu, hz⟩
    · cases z with
      | nil => exact hz.symm
      | cons d z =>
        obtain ⟨rfl, -⟩ := List.cons.inj hz
        rw [hx, ← List.singleton_append, ← List.append_assoc, m.isEmpty_statesAfter_append _ _ hafter] at hleft
        exact absurd hleft (by decide)
    · cases z with
      | nil => exact hz
      | cons d z =>
        rw [hu, ← List.singleton_append, ← List.append_assoc, m.isEmpty_statesAfter_append _ _ (hstuck d _ hz)] at hbefore
        exact absurd hbefore (by decide)

/-- A word that is read to its end leads to the place of its set. -/
theorem subsets_state_toDfa (m : Nfa) (hcount : m.withoutEpsilon.subsets.length ≤ 2 ^ 32) (w : List Char)
    (h : (m.toDfa.read m.toDfa.initial w).unread = []) :
    m.withoutEpsilon.subsets[(m.toDfa.read m.toDfa.initial w).state]? = some (m.subsetAfter w) := by
  obtain ⟨u, v, k, hw, hread, hk, -⟩ := m.read_toDfa hcount w
  rw [hread] at h ⊢
  rw [hw, show v = [] from h, List.append_nil]
  exact hk

end Nfa

end PatternAutomata
