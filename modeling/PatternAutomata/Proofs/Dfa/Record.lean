/-
The record of a minimization.

A pass decides all its merges on the rows it starts from and carries them out in one go, while the record lists them one
after another. Both come to the same: the merges of a pass, one at a time, lead to what the pass leaves, and each takes
a pair that is mergeable when its turn comes (`Recorded`). A merge earlier in the pass cannot spoil a later one, because
the states that are kept in a pass are not merged in it, so both states of the later pair are still there and their
rules are turned alike.

All the rest is told by one merge of a mergeable pair. It takes one state out and leaves the others as states, with the
acceptance they had, and it adds nothing. So a run of such merges never mentions a state that is gone, and has as many
records as there are fewer states in the end.

- `Fair.recorded`: a fair merge is the run of its entries.
- `recorded_reduce`: minimization is the run of its record.
- `Recorded.within`, `Recorded.pairwise`, `Recorded.length_add_size`: what a run keeps, mentions and counts.
- `reduce_recorded`: when the passes end, and what their record is worth.
-/
import PatternAutomata.Proofs.Dfa.Confluence
import PatternAutomata.Trace

namespace PatternAutomata

/-- The state that disappears in an event of a merge, and the one that stands for it. -/
def Event.merge? : Event → Option (State × State)
  | .merged state survivor => some (state, survivor)
  | _ => none

namespace Dfa

variable {d e f : Dfa} {i j : State} {before after : List (State × State)}

/-! ## Nothing is added -/

/-- The automaton `e` has no state, accepting state or key that `d` has not. -/
structure Within (e d : Dfa) : Prop where
  states : ∀ q, q ∈ e.states → q ∈ d.states
  accepts : ∀ q, q ∈ e.accepts → q ∈ d.accepts
  keys : ∀ key, key ∈ e.rules → key ∈ d.rules

namespace Within

theorem refl (d : Dfa) : Within d d := ⟨fun _ h => h, fun _ h => h, fun _ h => h⟩

theorem trans (hfe : Within f e) (hed : Within e d) : Within f d :=
  ⟨fun q h => hed.states q (hfe.states q h), fun q h => hed.accepts q (hfe.accepts q h),
    fun key h => hed.keys key (hfe.keys key h)⟩

end Within

/-! ## One merge of a mergeable pair -/

section Pair

variable {q : State} (hq : q ≠ j)
include hq

theorem getElem?_pair_of_ne : (Merging.pair i j)[q]? = none := by
  rw [getElem?_pair, if_neg (Ne.symm hq)]

theorem isAccepting_mergePair (d : Dfa) : (d.mergePair i j).isAccepting q = d.isAccepting q := by
  rw [mergePair_eq_merge, isAccepting_merge d _ q (getElem?_pair_of_ne hq)]

theorem transition?_mergePair (d : Dfa) (c : Char) :
    (d.mergePair i j).transition? q c = (d.transition? q c).map (Merging.pair i j).redirect := by
  rw [mergePair_eq_merge, transition?_merge d _ q c (getElem?_pair_of_ne hq)]

end Pair

namespace Mergeable

variable (h : d.Mergeable i j)
include h

theorem folds : Folds (Merging.pair i j).redirect d (d.mergePair i j) := by
  rw [mergePair_eq_merge]
  exact h.fair.folds

/-- One state is gone, and the others are left. -/
theorem mem_states_iff (q : State) : q ∈ (d.mergePair i j).states ↔ q ∈ d.states ∧ q ≠ j := by
  refine ⟨fun hq => ?_, fun hq => ?_⟩
  · obtain ⟨hqd, hfixed⟩ := h.folds.states q hq
    refine ⟨hqd, ?_⟩
    rintro rfl
    rw [redirect_pair, if_pos rfl] at hfixed
    exact Nat.ne_of_lt h.lt hfixed
  · obtain ⟨hqd, hne⟩ := hq
    have hmem := h.folds.mem_states q hqd
    rwa [redirect_pair, if_neg hne] at hmem

theorem size_states : d.states.size = (d.mergePair i j).states.size + 1 := by
  have hstates : d.states = (d.mergePair i j).states.insert j := StateSet.ext fun q => by
    rw [StateSet.mem_insert, h.mem_states_iff]
    by_cases hq : q = j
    · exact iff_of_true (hq ▸ h.right) (Or.inl hq)
    · simp [hq]
  rw [hstates, StateSet.size_insert _ _ fun hj => ((h.mem_states_iff j).1 hj).2 rfl]

theorem within : Within (d.mergePair i j) d where
  states q hq := ((h.mem_states_iff q).1 hq).1
  accepts q hq := (StateSet.mem_erase.1 hq).2
  keys key hkey := by
    rw [mergePair, Std.ExtTreeMap.mem_map] at hkey
    exact Std.ExtTreeMap.mem_of_mem_filter hkey

end Mergeable

/-! ## Runs of records -/

/-- The automaton after the merges of a record, one after another; each entry holds the state that disappears and the
one that stands for it. -/
def replay (d : Dfa) (record : List (State × State)) : Dfa :=
  record.foldl (fun e (state, survivor) => e.mergePair survivor state) d

/-- The record leads from the first automaton to the second, and the pair of each entry is mergeable in the automaton
that the entries before it lead to. -/
inductive Recorded : Dfa → List (State × State) → Dfa → Prop where
  | nil (d : Dfa) : Recorded d [] d
  | cons {d e : Dfa} {state survivor : State} {record : List (State × State)} :
    d.Mergeable survivor state → Recorded (d.mergePair survivor state) record e →
      Recorded d ((state, survivor) :: record) e

namespace Recorded

theorem replay_eq {record : List (State × State)} (h : Recorded d record e) : d.replay record = e := by
  induction h with
  | nil => rfl
  | cons _ _ ih => exact ih

theorem append (hde : Recorded d before e) (hef : Recorded e after f) : Recorded d (before ++ after) f := by
  induction hde with
  | nil => exact hef
  | cons hpair _ ih => exact .cons hpair (ih hef)

/-- A part of a record is a record too. -/
theorem split (h : Recorded d (before ++ after) e) :
    Recorded d before (d.replay before) ∧ Recorded (d.replay before) after e := by
  induction before generalizing d with
  | nil => exact ⟨.nil d, h⟩
  | cons entry before ih =>
    cases h with
    | cons hpair hrest =>
      obtain ⟨hbefore, hafter⟩ := ih hrest
      exact ⟨.cons hpair hbefore, hafter⟩

variable {record : List (State × State)}

theorem within (h : Recorded d record e) : Within e d := by
  induction h with
  | nil d => exact Within.refl d
  | cons hpair _ ih => exact ih.trans hpair.within

theorem length_add_size (h : Recorded d record e) : record.length + e.states.size = d.states.size := by
  induction h with
  | nil => exact Nat.zero_add _
  | cons hpair _ ih =>
    rw [hpair.size_states, ← ih, List.length_cons]
    omega

/-- An entry mentions states of the automaton, the one that is kept below the other, and they accept alike there. -/
theorem entry (h : Recorded d record e) {state survivor : State} (hmem : (state, survivor) ∈ record) :
    survivor < state ∧ state ∈ d.states ∧ survivor ∈ d.states ∧ d.isAccepting state = d.isAccepting survivor := by
  induction h with
  | nil => cases hmem
  | cons hpair _ ih =>
    rcases List.mem_cons.1 hmem with heq | hmem
    · obtain ⟨rfl, rfl⟩ := Prod.mk.inj heq
      exact ⟨hpair.lt, hpair.right, hpair.left, hpair.accepting.symm⟩
    · obtain ⟨hlt, hstate, hsurvivor, haccepting⟩ := ih hmem
      obtain ⟨hstate, hne⟩ := (hpair.mem_states_iff state).1 hstate
      obtain ⟨hsurvivor, hne'⟩ := (hpair.mem_states_iff survivor).1 hsurvivor
      rw [isAccepting_mergePair hne, isAccepting_mergePair hne'] at haccepting
      exact ⟨hlt, hstate, hsurvivor, haccepting⟩

/-- No entry mentions a state that an earlier one took out. -/
theorem pairwise (h : Recorded d record e) :
    record.Pairwise fun earlier later => later.1 ≠ earlier.1 ∧ later.2 ≠ earlier.1 := by
  induction h with
  | nil => exact .nil
  | cons hpair hrest ih =>
    refine List.pairwise_cons.2 ⟨fun later hlater => ?_, ih⟩
    obtain ⟨-, hstate, hsurvivor, -⟩ := hrest.entry hlater
    exact ⟨((hpair.mem_states_iff _).1 hstate).2, ((hpair.mem_states_iff _).1 hsurvivor).2⟩

end Recorded

/-! ## A merge of many states, one at a time -/

/-- What is left to do of a merge when one of its states has disappeared. -/
theorem Merging.getElem?_erase (into : Merging) (j q : State) :
    (into.erase j)[q]? = if j = q then none else into[q]? := by
  rw [Std.ExtTreeMap.getElem?_erase]
  simp only [Std.LawfulEqOrd.compare_eq_iff_eq]

namespace Fair

variable {into : Merging}

/-- Each state of a fair merge is mergeable with the one that stands for it. -/
theorem mergeable (h : d.Fair into) (hinto : into[j]? = some i) : d.Mergeable i j :=
  ⟨h.lt j i hinto, (h.states j i hinto).2, (h.states j i hinto).1, h.accepting j i hinto, h.transition? j i hinto⟩

/-- The state that has disappeared is not met again in what is left to do. -/
theorem of_getElem?_erase (h : d.Fair into) (hinto : into[j]? = some i) {q p : State}
    (hq : (into.erase j)[q]? = some p) : q ≠ j ∧ p ≠ j ∧ into[q]? = some p := by
  rw [Merging.getElem?_erase] at hq
  split at hq
  · cases hq
  · rename_i hne
    refine ⟨Ne.symm hne, ?_, hq⟩
    rintro rfl
    rw [h.stays q _ hq] at hinto
    cases hinto

/-- What is left to do is fair: both states of a later pair are still there, and their rules were turned alike. -/
theorem erase (h : d.Fair into) (hinto : into[j]? = some i) : (d.mergePair i j).Fair (into.erase j) := by
  have hpair := h.mergeable hinto
  refine ⟨fun q p hq => ?_, fun q p hq => ?_, fun q p hq => ?_, fun q p hq => ?_, fun q p hq c => ?_⟩ <;>
    obtain ⟨hqj, hpj, hq⟩ := h.of_getElem?_erase hinto hq
  · obtain ⟨hqd, hpd⟩ := h.states q p hq
    exact ⟨(hpair.mem_states_iff q).2 ⟨hqd, hqj⟩, (hpair.mem_states_iff p).2 ⟨hpd, hpj⟩⟩
  · exact h.lt q p hq
  · rw [Merging.getElem?_erase, if_neg (Ne.symm hpj), h.stays q p hq]
  · rw [isAccepting_mergePair hpj, isAccepting_mergePair hqj, h.accepting q p hq]
  · rw [transition?_mergePair hpj, transition?_mergePair hqj, h.transition? q p hq c]

/-- What is left to do takes every state from where the first merge took it to where the whole merge takes it. -/
theorem redirect_erase (h : d.Fair into) (hinto : into[j]? = some i) :
    Merging.redirect (into.erase j) ∘ (Merging.pair i j).redirect = into.redirect := by
  funext q
  rw [Function.comp_apply, redirect_pair]
  by_cases hq : q = j
  · subst hq
    have hstays : (into.erase q)[i]? = none := by
      rw [Merging.getElem?_erase, if_neg (Nat.ne_of_gt (h.lt q i hinto)), h.stays q i hinto]
    rw [if_pos rfl, redirect_of_some into q i hinto, redirect_of_none _ i hstays]
  · rw [if_neg hq, Merging.redirect, Merging.redirect, Merging.getElem?_erase, if_neg (Ne.symm hq)]

/-- One merge first and then the others: the states go where the whole merge takes them, which tells the automaton. -/
theorem merge_erase (h : d.Fair into) (hinto : into[j]? = some i) :
    (d.mergePair i j).merge (into.erase j) = d.merge into := by
  have hforgets : Forgets (Merging.pair i j).redirect (d.mergePair i j) := by
    rw [mergePair_eq_merge]
    exact forgets_merge d _
  have hrest := (h.erase hinto).folds
  have hfolds := (h.mergeable hinto).folds.trans hrest
  have hforgotten := hforgets.trans hrest (forgets_merge _ _)
  rw [h.redirect_erase hinto] at hfolds hforgotten
  exact hfolds.eq_of_forgets h.folds hforgotten (forgets_merge d into)

end Fair

theorem merge_empty (d : Dfa) : d.merge ∅ = d := by
  have hnone : ∀ q : State, (∅ : Merging)[q]? = none := fun q => Std.ExtTreeMap.getElem?_empty
  refine eq_of_transition? (redirect_of_none _ _ (hnone _)) (fun q => isAccepting_merge d _ q (hnone q)) fun q c => ?_
  have hid : Merging.redirect ∅ = id := funext fun q => redirect_of_none _ q (hnone q)
  rw [transition?_merge d _ q c (hnone q), hid, Option.map_id_apply]

/-- **A fair merge is the run of its entries**, in whatever order they are listed. -/
theorem Fair.recorded {into : Merging} (h : d.Fair into) (record : List (State × State))
    (hentries : ∀ q p, (q, p) ∈ record ↔ into[q]? = some p)
    (hdistinct : record.Pairwise fun earlier later => earlier.1 ≠ later.1) : Recorded d record (d.merge into) := by
  induction record generalizing d into with
  | nil =>
    have hempty : into = ∅ := Std.ExtTreeMap.ext_getElem? fun q => by
      rw [Std.ExtTreeMap.getElem?_empty, Option.eq_none_iff_forall_ne_some]
      exact fun p hq => List.not_mem_nil ((hentries q p).2 hq)
    rw [hempty, merge_empty]
    exact .nil d
  | cons entry record ih =>
    obtain ⟨state, survivor⟩ := entry
    obtain ⟨hhead, htail⟩ := List.pairwise_cons.1 hdistinct
    have hinto : into[state]? = some survivor := (hentries state survivor).1 List.mem_cons_self
    rw [← h.merge_erase hinto]
    refine .cons (h.mergeable hinto) (ih (h.erase hinto) (fun q p => ?_) htail)
    rw [Merging.getElem?_erase]
    by_cases hq : state = q
    · rw [if_pos hq]
      exact iff_of_false (fun hmem => hhead _ hmem hq) (Option.some_ne_none p).symm
    · rw [if_neg hq, ← hentries, List.mem_cons]
      exact ⟨Or.inr, fun hmem => hmem.resolve_left fun heq => hq (Prod.mk.inj heq).1.symm⟩

/-! ## The passes -/

/-- **Minimization is the run of its record.** -/
theorem recorded_reduce (d : Dfa) : Recorded d d.reduce.merges d.minimize := by
  unfold minimize
  fun_induction reduce d with
  | case1 d merging _ => exact .nil d
  | case2 d merging _ later ih =>
    refine Recorded.append (d.fair_merging.recorded merging.toList (fun q p => ?_) ?_) ih
    · exact Std.ExtTreeMap.mem_toList_iff_getElem?_eq_some
    · refine Std.ExtTreeMap.distinct_keys_toList.imp fun {a b} h heq => h ?_
      rw [heq]
      exact Std.ReflCmp.compare_self

/-- Every pass that is counted has an entry in the record. -/
theorem passes_le_length_merges (d : Dfa) : d.reduce.passes ≤ d.reduce.merges.length := by
  fun_induction reduce d with
  | case1 => exact Nat.le_refl 0
  | case2 d merging h later ih =>
    have hlater : later.passes ≤ later.merges.length := ih
    show later.passes + 1 ≤ (merging.toList ++ later.merges).length
    rw [List.length_append, Std.ExtTreeMap.length_toList]
    omega

/-- A pass that finds nothing to merge changes nothing. -/
theorem mergePass_eq_self (d : Dfa) (h : d.merging.size = 0) : d.mergePass = d := by
  rw [mergePass, Std.ExtTreeMap.eq_empty_iff_size_eq_zero.2 h, merge_empty]

/-- The passes that are counted are those that merge something, and the automaton after them is the minimized one. -/
theorem iterate_mergePass (d : Dfa) :
    mergePass^[d.reduce.passes] d = d.minimize ∧
      ∀ n, (mergePass^[n] d).merging.size = 0 ↔ d.reduce.passes ≤ n := by
  unfold minimize
  fun_induction reduce d with
  | case1 d merging h =>
    refine ⟨rfl, fun n => iff_of_true ?_ (Nat.zero_le n)⟩
    rw [Function.iterate_fixed (d.mergePass_eq_self h)]
    exact h
  | case2 d merging h later ih =>
    obtain ⟨hresult, hsizes⟩ := ih
    refine ⟨hresult, fun n => ?_⟩
    cases n with
    | zero => exact iff_of_false h (Nat.not_succ_le_zero _)
    | succ n => exact (hsizes n).trans Nat.succ_le_succ_iff.symm

/-- The states of an automaton are never none. -/
theorem size_states_pos (d : Dfa) : 0 < d.states.size :=
  Nat.pos_of_ne_zero fun h =>
    (d.states.size_eq_zero_iff).1 h d.initial ((d.mem_states d.initial).2 (Or.inl rfl))

/-- The events of a run list its record, entry by entry. -/
theorem Reduction.filterMap_events (r : Reduction) (d : Dfa) : (r.events d).filterMap Event.merge? = r.merges := by
  rw [Reduction.events, List.filterMap_append, List.filterMap_map]
  simp [Function.comp_def, Event.merge?]

/-- **The account of a minimization.** The passes go on as long as one merges something; fewer of them do than there are
states, and the automaton they leave is the result. The events of the run list its record, entry by entry. Each entry
merges a greater state of the automaton into a smaller one that accepts alike, and no entry mentions a state that an
earlier one took out. There are as many entries as the result has fewer states. The merges of the record, one at a time,
lead to the result; those of any part of it from the start add no state, accepting state or key to the automaton, and
those after it add none to what it led to. -/
theorem reduce_recorded (d : Dfa) :
    d.reduce.passes + 1 ≤ d.states.size ∧
    (∀ n, (mergePass^[n] d).merging.size = 0 ↔ d.reduce.passes ≤ n) ∧
    mergePass^[d.reduce.passes] d = d.minimize ∧
    (d.reduce.events d).filterMap Event.merge? = d.reduce.merges ∧
    (∀ state survivor, (state, survivor) ∈ d.reduce.merges →
      survivor < state ∧ state ∈ d.states ∧ survivor ∈ d.states ∧ d.isAccepting state = d.isAccepting survivor) ∧
    (d.reduce.merges.Pairwise fun earlier later => later.1 ≠ earlier.1 ∧ later.2 ≠ earlier.1) ∧
    d.reduce.merges.length + d.minimize.states.size = d.states.size ∧
    d.replay d.reduce.merges = d.minimize ∧
    ∀ before after, before ++ after = d.reduce.merges →
      Within (d.replay before) d ∧ Within d.minimize (d.replay before) := by
  have hrecorded := d.recorded_reduce
  have hlength := hrecorded.length_add_size
  obtain ⟨hresult, hsizes⟩ := d.iterate_mergePass
  refine ⟨?_, hsizes, hresult, ?_, fun _ _ => hrecorded.entry, hrecorded.pairwise, hlength, hrecorded.replay_eq, ?_⟩
  · have hpasses := d.passes_le_length_merges
    have hpos := d.minimize.size_states_pos
    omega
  · exact d.reduce.filterMap_events d
  · intro before after happend
    rw [← happend] at hrecorded
    obtain ⟨hbefore, hafter⟩ := hrecorded.split
    exact ⟨hbefore.within, hafter.within⟩

/-- Where two ways part and each comes to an accepting end, the first pass merges the ends and the second one the states
before them, which have the same rules only then. -/
theorem reduce_recorded_two_ways :
    let d : Dfa := ⟨(0 : Nat), .ofList [3, 4],
      Std.ExtTreeMap.ofList [((0, 'a'), 1), ((0, 'b'), 2), ((1, 'c'), 3), ((2, 'c'), 4)] pairOrder⟩
    ((2 : Nat), (1 : Nat)) ∈ d.reduce.merges ∧ d.isAccepting (2 : Nat) = d.isAccepting (1 : Nat) ∧
      [((4 : Nat), (3 : Nat))] ++ [((2 : Nat), (1 : Nat))] = d.reduce.merges ∧
      Within d.minimize (d.replay [((4 : Nat), (3 : Nat))]) ∧ d.reduce.passes = 2 := by
  intro d
  have hmerges : [((4 : Nat), (3 : Nat))] ++ [((2 : Nat), (1 : Nat))] = d.reduce.merges := by decide +kernel
  have hpasses : d.reduce.passes = 2 := by decide +kernel
  have hmem : ((2 : Nat), (1 : Nat)) ∈ d.reduce.merges := hmerges ▸ List.mem_cons_of_mem _ List.mem_cons_self
  obtain ⟨-, -, -, -, hentries, -, -, -, hparts⟩ := d.reduce_recorded
  exact ⟨hmem, (hentries _ _ hmem).2.2.2, hmerges, (hparts _ _ hmerges).2, hpasses⟩

end Dfa

end PatternAutomata
