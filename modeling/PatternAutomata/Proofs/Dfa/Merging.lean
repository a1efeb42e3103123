/-
What merging keeps of the runs of an automaton.

A merge takes each state that disappears to a smaller one that stays, accepts alike and leads to the same states
(`Fair`). The map from every state to the one that stands for it then takes the automaton over to the merged one: it
commutes with the rules, keeps acceptance and never goes up (`Folds`). Maps with this property compose, so there is one
for any number of passes, and a run of the merged automaton visits what the map gives for the states of the original run,
wherever that run gets stuck. The initial state is no exception: it is taken over like any other state.

- `Fair.folds`: every fair merge takes the automaton over to the merged one.
- `fair_merging`: what one pass merges is a fair merge.
- `exists_folds_minimize`: one map takes an automaton over to the one that minimization gives.
- `Folds.visited`, `Folds.read`: runs and readings after a map.
- `minimize_follows`: minimization keeps all answers, stops and visited states.
-/
import PatternAutomata.Dfa.Merging

namespace PatternAutomata.Dfa

/-! ## Runs -/

/-- The states that a word leads through as far as the rules go, the one it is read from first. -/
def visited (d : Dfa) (q : State) : List Char → List State
  | [] => [q]
  | c :: w =>
    match d.transition? q c with
    | none => [q]
    | some p => q :: d.visited p w

/-! ## Maps that take an automaton over to another -/

/-- The map `r` takes the automaton `d` over to `e`, whose states are among those of `d`. -/
structure Folds (r : State → State) (d e : Dfa) : Prop where
  initial : e.initial = r d.initial
  le : ∀ q, r q ≤ q
  accepting : ∀ q, e.isAccepting (r q) = d.isAccepting q
  transition? : ∀ q c, e.transition? (r q) c = (d.transition? q c).map r
  /-- what is left are states of before, and the map leaves them in place -/
  states : ∀ q, q ∈ e.states → q ∈ d.states ∧ r q = q
  moved : ∀ q, r q ≠ q → q ∈ d.states

theorem mem_states_of_transition? (d : Dfa) {q p : State} {c : Char} (h : d.transition? q c = some p) :
    p ∈ d.states := (d.mem_states p).2 (Or.inr ⟨(q, c), h⟩)

namespace Folds

variable {r s : State → State} {d e f : Dfa}

theorem refl (d : Dfa) : Folds id d d where
  initial := rfl
  le _ := Nat.le_refl _
  accepting _ := rfl
  transition? _ _ := (Option.map_id_apply ..).symm
  states _ h := ⟨h, rfl⟩
  moved _ h := absurd rfl h

theorem trans (h1 : Folds r d e) (h2 : Folds s e f) : Folds (s ∘ r) d f where
  initial := by rw [h2.initial, h1.initial]; rfl
  le q := Nat.le_trans (h2.le (r q)) (h1.le q)
  accepting q := (h2.accepting (r q)).trans (h1.accepting q)
  transition? q c := by
    calc f.transition? (s (r q)) c = (e.transition? (r q) c).map s := h2.transition? (r q) c
      _ = ((d.transition? q c).map r).map s := by rw [h1.transition? q c]
      _ = (d.transition? q c).map (s ∘ r) := Option.map_map ..
  states q h := by
    obtain ⟨he, hs⟩ := h2.states q h
    obtain ⟨hd, hr⟩ := h1.states q he
    exact ⟨hd, by rw [Function.comp_apply, hr, hs]⟩
  moved q h := by
    by_cases hr : r q = q
    · rw [Function.comp_apply, hr] at h
      exact (h1.states q (h2.moved q h)).1
    · exact h1.moved q hr

/-- A state of the automaton is taken to a state of the other. -/
theorem mem_states (h : Folds r d e) (q : State) (hq : q ∈ d.states) : r q ∈ e.states := by
  rcases (d.mem_states q).1 hq with rfl | ⟨key, hkey⟩
  · exact (e.mem_states _).2 (Or.inl h.initial.symm)
  · have hstep : e.transition? (r key.1) key.2 = some (r q) := by
      rw [h.transition?, show d.transition? key.1 key.2 = some q from hkey, Option.map_some]
    exact e.mem_states_of_transition? hstep

/-- A state accepts if and only if the one that stands for it did so before. -/
theorem isAccepting (h : Folds r d e) (q : State) : d.isAccepting (r q) = d.isAccepting q := by
  by_cases hq : r q = q
  · rw [hq]
  · have hfixed : r (r q) = r q := (h.states _ (h.mem_states q (h.moved q hq))).2
    calc d.isAccepting (r q) = e.isAccepting (r (r q)) := (h.accepting (r q)).symm
      _ = e.isAccepting (r q) := by rw [hfixed]
      _ = d.isAccepting q := h.accepting q

theorem visited (h : Folds r d e) (q : State) (w : List Char) : e.visited (r q) w = (d.visited q w).map r := by
  induction w generalizing q with
  | nil => rfl
  | cons c w ih =>
    unfold Dfa.visited
    rw [h.transition?]
    cases d.transition? q c with
    | none => rfl
    | some p =>
      dsimp only [Option.map_some]
      rw [ih p, List.map_cons]

theorem read (h : Folds r d e) (q : State) (w : List Char) :
    e.read (r q) w = ⟨r (d.read q w).state, (d.read q w).unread⟩ := by
  induction w generalizing q with
  | nil => rfl
  | cons c w ih =>
    unfold Dfa.read
    rw [h.transition?]
    cases d.transition? q c with
    | none => rfl
    | some p => exact ih p

theorem acceptsWord (h : Folds r d e) (w : List Char) : e.acceptsWord w = d.acceptsWord w := by
  unfold Dfa.acceptsWord
  rw [h.initial, h.read]
  unfold isAcceptedAt
  rw [h.accepting]

end Folds

/-! ## Fair merges -/

/-- Each state that disappears is replaced by a smaller state that stays, accepts alike and has the same rules. -/
structure Fair (d : Dfa) (into : Merging) : Prop where
  states : ∀ q p : State, into[q]? = some p → q ∈ d.states ∧ p ∈ d.states
  lt : ∀ q p : State, into[q]? = some p → p < q
  stays : ∀ q p : State, into[q]? = some p → into[p]? = none
  accepting : ∀ q p : State, into[q]? = some p → d.isAccepting p = d.isAccepting q
  transition? : ∀ q p : State, into[q]? = some p → ∀ c, d.transition? p c = d.transition? q c

/-- A state that does not disappear stands for itself. -/
theorem redirect_of_none (into : Merging) (q : State) (h : into[q]? = none) : into.redirect q = q := by
  rw [Merging.redirect, h, Option.getD_none]

theorem redirect_of_some (into : Merging) (q p : State) (h : into[q]? = some p) : into.redirect q = p := by
  rw [Merging.redirect, h, Option.getD_some]

theorem isAccepting_merge (d : Dfa) (into : Merging) (q : State) (h : into[q]? = none) :
    (d.merge into).isAccepting q = d.isAccepting q := by
  have hnot : ¬ q ∈ into := by rw [Std.ExtTreeMap.mem_iff_isSome_getElem?, h]; exact Bool.false_ne_true
  rw [Bool.eq_iff_iff]
  unfold isAccepting merge
  rw [StateSet.contains_iff, StateSet.contains_iff, StateSet.mem_filter]
  refine ⟨fun hq => hq.1, fun hq => ⟨hq, ?_⟩⟩
  rw [Bool.not_eq_true', ← Bool.not_eq_true]
  exact hnot

theorem transition?_merge (d : Dfa) (into : Merging) (q : State) (c : Char) (h : into[q]? = none) :
    (d.merge into).transition? q c = (d.transition? q c).map into.redirect := by
  have hnot : ¬ q ∈ into := by rw [Std.ExtTreeMap.mem_iff_isSome_getElem?, h]; exact Bool.false_ne_true
  show (d.rules.mergeStates into)[(q, c)]? = _
  rw [Rules.getElem?_mergeStates, if_neg hnot]
  rfl

namespace Fair

variable {d : Dfa} {into : Merging}

/-- The state that stands for another stays, accepts alike and has the same rules. -/
theorem redirect (h : Fair d into) (q : State) :
    into[into.redirect q]? = none ∧ into.redirect q ≤ q ∧ d.isAccepting (into.redirect q) = d.isAccepting q ∧
      ∀ c, d.transition? (into.redirect q) c = d.transition? q c := by
  cases hq : into[q]? with
  | none =>
    rw [redirect_of_none into q hq]
    exact ⟨hq, Nat.le_refl q, rfl, fun _ => rfl⟩
  | some p =>
    rw [redirect_of_some into q p hq]
    exact ⟨h.stays q p hq, Nat.le_of_lt (h.lt q p hq), h.accepting q p hq, h.transition? q p hq⟩

theorem redirect_mem_states (h : Fair d into) (q : State) (hq : q ∈ d.states) : into.redirect q ∈ d.states := by
  cases hinto : into[q]? with
  | none => rwa [redirect_of_none into q hinto]
  | some p =>
    rw [redirect_of_some into q p hinto]
    exact (h.states q p hinto).2

/-- **A fair merge takes the automaton over to the merged one.** -/
theorem folds (h : Fair d into) : Folds into.redirect d (d.merge into) where
  initial := rfl
  le q := (h.redirect q).2.1
  accepting q := by
    obtain ⟨hstays, -, hacc, -⟩ := h.redirect q
    rw [isAccepting_merge d into _ hstays, hacc]
  transition? q c := by
    obtain ⟨hstays, -, -, htrans⟩ := h.redirect q
    rw [transition?_merge d into _ c hstays, htrans c]
  states q hq := by
    -- what is left is what stands for the initial state or for the destination of a rule
    obtain ⟨p, hp, rfl⟩ : ∃ p, p ∈ d.states ∧ into.redirect p = q := by
      rcases ((d.merge into).mem_states q).1 hq with hq | ⟨key, hkey⟩
      · exact ⟨d.initial, (d.mem_states _).2 (Or.inl rfl), hq.symm⟩
      · replace hkey : (d.rules.mergeStates into)[key]? = some q := hkey
        rw [Rules.getElem?_mergeStates] at hkey
        split at hkey
        · cases hkey
        · obtain ⟨p, hp, hpq⟩ := Option.map_eq_some_iff.1 hkey
          exact ⟨p, (d.mem_states p).2 (Or.inr ⟨key, hp⟩), hpq⟩
    exact ⟨h.redirect_mem_states p hp, redirect_of_none into _ (h.redirect p).1⟩
  moved q hq := by
    cases hinto : into[q]? with
    | none => exact absurd (redirect_of_none into q hinto) hq
    | some p => exact (h.states q p hinto).1

end Fair

/-! ## Passes -/

/-- The state found with a signature is the least that has it. -/
theorem leastWith_le (d : Dfa) (s : Signature) (p q : State) (h : d.leastWith s = some p) (hq : q ∈ d.states)
    (hs : d.signature q = s) : p ≤ q := by
  unfold leastWith at h
  obtain ⟨-, before, after, hlist, hbefore⟩ := List.find?_eq_some_iff_append.1 h
  have hsorted := d.states.sorted_toList
  have hmem := StateSet.mem_toList.2 hq
  rw [hlist] at hsorted hmem
  rcases List.mem_append.1 hmem with hmem | hmem
  · exact absurd (hbefore q hmem) (by simp [hs])
  · rcases List.mem_cons.1 hmem with rfl | hmem
    · exact Nat.le_refl q
    · exact Nat.le_of_lt ((List.pairwise_cons.1 (List.pairwise_append.1 hsorted).2.1).1 q hmem)

/-- States with the same row have the same rules. -/
theorem transition?_of_row_eq (d : Dfa) (p q : State) (h : d.rules.row p = d.rules.row q) (c : Char) :
    d.transition? p c = d.transition? q c := by
  apply Option.ext
  intro t
  unfold transition?
  rw [← Rules.mem_row, ← Rules.mem_row, h]

/-- What one pass merges is a fair merge. -/
theorem fair_merging (d : Dfa) : d.Fair d.merging := by
  have hfound : ∀ q p : State, d.merging[q]? = some p → q ∈ d.states ∧ d.leastWith (d.signature q) = some p ∧ p ≠ q := by
    intro q p h
    rw [getElem?_merging] at h
    split at h
    · rename_i hq
      obtain ⟨hleast, hne⟩ := Option.filter_eq_some_iff.1 h
      exact ⟨hq, hleast, of_decide_eq_true hne⟩
    · cases h
  have hsurvivor := d.survivor_of_getElem?_merging
  refine ⟨fun q p h => ⟨(hfound q p h).1, (hsurvivor q p h).1⟩, fun q p h => ?_, fun q p h => (hsurvivor q p h).2.2,
    fun q p h => congrArg Signature.accepting (hsurvivor q p h).2.1, fun q p h => ?_⟩
  · obtain ⟨hq, hleast, hne⟩ := hfound q p h
    exact Nat.lt_of_le_of_ne (d.leastWith_le _ p q hleast hq rfl) hne
  · exact d.transition?_of_row_eq p q (congrArg Signature.row (hsurvivor q p h).2.1)

/-- One map takes an automaton over to the one that is left after all passes. -/
theorem exists_folds_minimize (d : Dfa) : ∃ r, Folds r d d.minimize := by
  unfold minimize
  fun_induction reduce d with
  | case1 d merging _ => exact ⟨id, Folds.refl d⟩
  | case2 d merging _ later ih =>
    obtain ⟨r, hr⟩ := ih
    exact ⟨r ∘ merging.redirect, d.fair_merging.folds.trans hr⟩

/-- **Minimization follows every run.** One map, which never goes up and keeps acceptance, gives the states that the
minimized automaton visits on any word from those that the automaton visits. Both read equally far and give the same
answer. -/
theorem minimize_follows (d : Dfa) :
    ∃ r : State → State, (∀ q, r q ≤ q) ∧ (∀ q, d.minimize.isAccepting (r q) = d.isAccepting q) ∧
      (∀ q, d.isAccepting (r q) = d.isAccepting q) ∧
      ∀ w, d.minimize.visited d.minimize.initial w = (d.visited d.initial w).map r ∧
        d.minimize.read d.minimize.initial w = ⟨r (d.read d.initial w).state, (d.read d.initial w).unread⟩ ∧
        (d.minimize.cursor.matchWord w).1 = (d.cursor.matchWord w).1 := by
  obtain ⟨r, hr⟩ := d.exists_folds_minimize
  refine ⟨r, hr.le, hr.accepting, hr.isAccepting, fun w => ⟨?_, ?_, hr.acceptsWord w⟩⟩
  · rw [hr.initial, hr.visited]
  · rw [hr.initial, hr.read]

end PatternAutomata.Dfa
