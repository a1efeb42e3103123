/-
Automata without superfluous states.

An automaton is trim if each of its states lies on the way from the initial state to an accepting one, and nothing
outside its states accepts or has rules. In the subset automaton every state is the place of a set that some word leads
to, as long as the sets have identifiers of their own, and the set is not empty; as soon as from each of its members some
word leads on to an accepting state, one leads on from the place. A map that takes a trim automaton over to one that knows
nothing of the states it moves leaves that automaton trim, so minimization keeps it.

- `mem_states_byPlace_iff`: the states of the automaton on places are those of the discovered sets.
- `trim_toDfa`: the subset automaton is trim if no path leads to a dead end.
- `Folds.trim`: minimization keeps it.
- `Trim.exists_transition?_iff`: the characters on the rules are those of the accepted words.
-/
import PatternAutomata.Proofs.Dfa.Confluence
import PatternAutomata.Proofs.Dfa.Subsets

namespace PatternAutomata

namespace Dfa

/-- Every state is reached by some word and leads to acceptance by some word, and only states accept or have rules. -/
structure Trim (d : Dfa) : Prop where
  reached : ∀ q, q ∈ d.states → ∃ w, d.read d.initial w = ⟨q, []⟩
  productive : ∀ q, q ∈ d.states → ∃ w, d.isAcceptedAt (d.read q w) = true
  accepts : ∀ q, q ∈ d.accepts → q ∈ d.states
  sources : ∀ q c p, d.transition? q c = some p → q ∈ d.states

variable {d e : Dfa} {p q : State}

/-! ## Reading one word after another -/

theorem read_cons_eq_iff (d : Dfa) (c : Char) (w : List Char) :
    d.read q (c :: w) = ⟨p, []⟩ ↔ ∃ t, d.transition? q c = some t ∧ d.read t w = ⟨p, []⟩ := by
  rw [read]
  cases d.transition? q c with
  | none =>
    refine ⟨fun h => absurd (congrArg Stop.unread h) (List.cons_ne_nil c w), ?_⟩
    rintro ⟨t, ht, -⟩
    cases ht
  | some t =>
    refine ⟨fun h => ⟨t, rfl, h⟩, ?_⟩
    rintro ⟨t', ht, h⟩
    exact Option.some.inj ht ▸ h

theorem read_singleton (d : Dfa) (c : Char) (h : d.transition? q c = some p) : d.read q [c] = ⟨p, []⟩ :=
  (d.read_cons_eq_iff c []).2 ⟨p, h, rfl⟩

theorem read_append (d : Dfa) (u v : List Char) (h : d.read q u = ⟨p, []⟩) : d.read q (u ++ v) = d.read p v := by
  induction u generalizing q with
  | nil =>
    obtain rfl : q = p := congrArg Stop.state h
    rfl
  | cons c u ih =>
    obtain ⟨t, hstep, hrest⟩ := (d.read_cons_eq_iff c u).1 h
    rw [List.cons_append, read, hstep]
    exact ih hrest

theorem mem_states_of_read (d : Dfa) (w : List Char) (h : d.read q w = ⟨p, []⟩) (hq : q ∈ d.states) : p ∈ d.states := by
  induction w generalizing q with
  | nil =>
    obtain rfl : q = p := congrArg Stop.state h
    exact hq
  | cons c w ih =>
    obtain ⟨t, hstep, hrest⟩ := (d.read_cons_eq_iff c w).1 h
    exact ih hrest (d.mem_states_of_transition? hstep)

theorem isAcceptedAt_read_cons_iff (d : Dfa) (q : State) (c : Char) (w : List Char) :
    d.isAcceptedAt (d.read q (c :: w)) = true ↔
      ∃ t, d.transition? q c = some t ∧ d.isAcceptedAt (d.read t w) = true := by
  rw [read]
  cases d.transition? q c with
  | none =>
    refine ⟨fun h => absurd h Bool.false_ne_true, ?_⟩
    rintro ⟨t, ht, -⟩
    cases ht
  | some t =>
    refine ⟨fun h => ⟨t, rfl, h⟩, ?_⟩
    rintro ⟨t', ht, h⟩
    exact Option.some.inj ht ▸ h

/-- The characters of an accepted word are all on rules. -/
theorem exists_transition?_of_isAcceptedAt (d : Dfa) (q : State) (w : List Char) (h : d.isAcceptedAt (d.read q w) = true)
    (c : Char) (hc : c ∈ w) : ∃ s t, d.transition? s c = some t := by
  induction w generalizing q with
  | nil => exact absurd hc List.not_mem_nil
  | cons a w ih =>
    obtain ⟨t, hstep, hrest⟩ := (d.isAcceptedAt_read_cons_iff q a w).1 h
    rcases List.mem_cons.1 hc with rfl | hc
    · exact ⟨q, t, hstep⟩
    · exact ih t hrest hc

/-! ## Trim automata -/

/-- The characters on the rules of a trim automaton are those of the words it accepts. -/
theorem Trim.exists_transition?_iff (h : d.Trim) (c : Char) :
    (∃ q p, d.transition? q c = some p) ↔ ∃ w, d.acceptsWord w = true ∧ c ∈ w := by
  refine ⟨?_, ?_⟩
  · intro hrule
    obtain ⟨q, p, hstep⟩ := hrule
    obtain ⟨u, hu⟩ := h.reached q (h.sources q c p hstep)
    obtain ⟨v, hv⟩ := h.productive p (d.mem_states_of_transition? hstep)
    refine ⟨u ++ c :: v, ?_, List.mem_append_right u List.mem_cons_self⟩
    rw [acceptsWord, d.read_append u _ hu, isAcceptedAt_read_cons_iff]
    exact ⟨p, hstep, hv⟩
  · intro hword
    obtain ⟨w, hw, hc⟩ := hword
    exact d.exists_transition?_of_isAcceptedAt d.initial w hw c hc

/-- A map that takes a trim automaton over to one that forgets what it moves leaves that trim. -/
theorem Folds.trim {r : State → State} (h : Folds r d e) (hforgets : Forgets r e) (hd : d.Trim) : e.Trim where
  reached q hq := by
    obtain ⟨hqd, hfixed⟩ := h.states q hq
    obtain ⟨w, hw⟩ := hd.reached q hqd
    exact ⟨w, by rw [h.initial, h.read, hw, hfixed]⟩
  productive q hq := by
    obtain ⟨hqd, hfixed⟩ := h.states q hq
    obtain ⟨w, hw⟩ := hd.productive q hqd
    refine ⟨w, ?_⟩
    rw [← hfixed, h.read, ← hw]
    unfold isAcceptedAt
    rw [h.accepting]
  accepts q hq := by
    have hfixed : r q = q := Classical.byContradiction fun hmoved =>
      Bool.false_ne_true ((hforgets q hmoved).1.symm.trans (StateSet.contains_iff.2 hq))
    have hqd : d.isAccepting q = true := by
      rw [← h.accepting, hfixed]
      exact StateSet.contains_iff.2 hq
    exact hfixed ▸ h.mem_states q (hd.accepts q (StateSet.contains_iff.1 hqd))
  sources q c p hstep := by
    have hfixed : r q = q := Classical.byContradiction fun hmoved => by
      rw [(hforgets q hmoved).2 c] at hstep
      cases hstep
    rw [← hfixed, h.transition?] at hstep
    obtain ⟨t, ht, -⟩ := Option.map_eq_some_iff.1 hstep
    exact hfixed ▸ h.mem_states q (hd.sources q c t ht)

/-- Minimization keeps an automaton trim. -/
theorem Trim.minimize (h : d.Trim) : d.minimize.Trim := by
  obtain ⟨r, hr, hforgets, -⟩ := exists_folds_of_fairlyMergesTo d.reaches_minimize
  exact hr.trim hforgets h

end Dfa

namespace Nfa

/-! ## The subset automaton -/

/-- Some word leads to each discovered set. -/
theorem exists_read_byPlace (m : Nfa) (s : StateSet) (hs : s ∈ m.subsets) :
    ∃ w k, m.byPlace.read m.byPlace.initial w = ⟨k, []⟩ ∧ m.subsets[k]? = some s := by
  rw [mem_subsets_iff] at hs
  induction hs with
  | refl => exact ⟨[], m.byPlace.initial, rfl, m.getElem?_subsets_zero⟩
  | tail _ hstep ih =>
    obtain ⟨w, k, hread, hk⟩ := ih
    obtain ⟨hne, c, rfl⟩ := hstep
    rcases m.transition?_byPlace k _ hk c with ⟨hempty, -⟩ | ⟨p, hgo, hp⟩
    · exact absurd (hempty.symm.trans hne) (by decide)
    · refine ⟨w ++ [c], p, ?_, hp⟩
      rw [m.byPlace.read_append w [c] hread, m.byPlace.read_singleton c hgo]

/-- Some word leads to the place of each discovered set. -/
theorem exists_read_place_byPlace (m : Nfa) (k : State) (s : StateSet) (hk : m.subsets[k]? = some s) :
    ∃ w, m.byPlace.read m.byPlace.initial w = ⟨k, []⟩ := by
  obtain ⟨w, k', hread, hk'⟩ := m.exists_read_byPlace s (List.mem_of_getElem? hk)
  have hlt := (List.getElem?_eq_some_iff.1 hk').1
  exact ⟨w, (List.getElem?_inj hlt m.nodup_subsets).1 (hk'.trans hk.symm) ▸ hread⟩

/-- The states of the automaton on places are those of the discovered sets. -/
theorem mem_states_byPlace_iff (m : Nfa) (k : State) :
    k ∈ m.byPlace.states ↔ ∃ s, m.subsets[k]? = some s := by
  refine ⟨?_, ?_⟩
  · intro hk
    rcases (m.byPlace.mem_states k).1 hk with rfl | ⟨⟨q, c⟩, hrule⟩
    · exact ⟨_, m.getElem?_subsets_zero⟩
    · rw [getElem?_byPlace] at hrule
      obtain ⟨s, -, hplace⟩ := Option.bind_eq_some_iff.1 hrule
      split at hplace
      · cases hplace
      · obtain ⟨hlt, -, -⟩ := List.idxOf?_eq_some_iff.1 hplace
        exact ⟨_, List.getElem?_eq_getElem hlt⟩
  · intro h
    obtain ⟨s, hs⟩ := h
    obtain ⟨w, hw⟩ := m.exists_read_place_byPlace k s hs
    exact m.byPlace.mem_states_of_read w hw ((m.byPlace.mem_states _).2 (Or.inl rfl))

/-- The subset automaton is trim if no path from the initial state leads to a dead end. -/
theorem trim_toDfa (m : Nfa) (hcount : m.withoutEpsilon.subsets.length ≤ 2 ^ 32)
    (h : ∀ u q, m.Path m.initial u q → ∃ v p, p ∈ m.accepts ∧ m.Path q v p) : m.toDfa.Trim := by
  have hplace : ∀ k, k ∈ m.toDfa.states ↔ ∃ s, m.withoutEpsilon.subsets[k]? = some s := by
    rw [toDfa_eq_byPlace m hcount]
    exact m.withoutEpsilon.mem_states_byPlace_iff
  have hreached : ∀ k, k ∈ m.toDfa.states → ∃ w, m.toDfa.read m.toDfa.initial w = ⟨k, []⟩ := by
    intro k hk
    obtain ⟨s, hs⟩ := (hplace k).1 hk
    rw [toDfa_eq_byPlace m hcount]
    exact m.withoutEpsilon.exists_read_place_byPlace k s hs
  refine ⟨hreached, fun k hk => ?_, fun k hk => ?_, fun k c p hrule => ?_⟩
  · obtain ⟨u, hu⟩ := hreached k hk
    -- the set after `u` has a member, and from there a word leads to acceptance
    have hset := m.subsets_state_toDfa hcount u (congrArg Dfa.Stop.unread hu)
    obtain ⟨q, hq⟩ := (StateSet.isEmpty_eq_false_iff _).1
      (m.isEmpty_statesAfter_of_mem_subsets u (List.mem_of_getElem? hset))
    have hpath := (m.mem_statesAfter_iff u q).1 hq
    obtain ⟨v, p, hp, hrest⟩ := h u q hpath
    have hword : m.toDfa.acceptsWord (u ++ v) = true := by
      rw [m.acceptsWord_toDfa hcount, acceptsWord_iff_mem_language]
      exact ⟨p, hp, hpath.append hrest⟩
    rw [Dfa.acceptsWord, m.toDfa.read_append u v hu] at hword
    exact ⟨v, hword⟩
  · rw [toDfa_eq_byPlace m hcount, mem_accepts_byPlace] at hk
    obtain ⟨s, hs, -⟩ := hk
    exact (hplace k).2 ⟨s, hs⟩
  · rw [toDfa_eq_byPlace m hcount] at hrule
    obtain ⟨s, hs, -⟩ := Option.bind_eq_some_iff.1 ((m.withoutEpsilon.getElem?_byPlace k c).symm.trans hrule)
    exact (hplace k).2 ⟨s, hs⟩

end Nfa

end PatternAutomata
