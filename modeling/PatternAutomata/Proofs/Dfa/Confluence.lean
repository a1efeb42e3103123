/-
Merging pairs of states in any order.

Two states are mergeable if they accept alike and have the same rules. One eager merge takes the greater of them into the
smaller one at once, and what is mergeable afterwards is asked of the automaton that is left. Minimization looks at all
states before it merges any of them, but the order makes no difference: whatever pairs are merged, as soon as none is
mergeable any more, the automaton is the one that minimization gives.

Eager merges and the passes of the minimization are fair merges alike. What any number of fair merges leads to is told by
the map from every state to the one that stands for it: the map takes the automaton over to the result (`Folds`), and the
result knows nothing of the states that the map moves (`Forgets`), so the map alone tells it. A map into an irreducible
automaton absorbs every such map (`Fair.absorbed`), since two states that may be merged on the way look alike in the end.
Of two ways to irreducible automata each map therefore absorbs the other, and because neither goes up they are the same.

- `exists_folds_of_fairlyMergesTo`: the map of a run of fair merges, and what absorbs it.
- `eq_of_irreducible`: fair merges lead to one irreducible automaton only.
- `irreducible_minimize`: minimization leaves no mergeable pair.
- `MergesTo.size_lt`, `exists_irreducible`: every merge leaves fewer states, so merging comes to an end.
- `minimize_eq_of_mergesTo`: merging pairs in any order ends with the minimized automaton.
-/
import Mathlib.Order.WellFounded
import PatternAutomata.Proofs.Dfa.Merging
import PatternAutomata.Reachability

namespace PatternAutomata.Dfa

variable {r s : State → State} {d e f : Dfa} {i j : State}

/-- Automata that start, accept and move alike are equal. -/
theorem eq_of_transition? (hinitial : d.initial = e.initial) (haccepting : ∀ q, d.isAccepting q = e.isAccepting q)
    (htransition : ∀ q c, d.transition? q c = e.transition? q c) : d = e := by
  have haccepts : d.accepts = e.accepts := StateSet.ext fun q => by
    rw [← StateSet.contains_iff, ← StateSet.contains_iff]
    exact Bool.eq_iff_iff.1 (haccepting q)
  have hrules : d.rules = e.rules := Std.ExtTreeMap.ext_getElem? fun key => htransition key.1 key.2
  cases d
  cases e
  cases hinitial
  cases haccepts
  cases hrules
  rfl

/-! ## Merging one pair -/

/-- Two states, the smaller one first, that accept alike and have the same rules. -/
structure Mergeable (d : Dfa) (i j : State) : Prop where
  lt : i < j
  left : i ∈ d.states
  right : j ∈ d.states
  accepting : d.isAccepting i = d.isAccepting j
  transition? : ∀ c, d.transition? i c = d.transition? j c

/-- Takes the state `j` into the state `i`: the rules that leave `j` go, those that enter it are turned to `i`, `j` does
not accept any more, and `i` is initial if `j` was. -/
def mergePair (d : Dfa) (i j : State) : Dfa where
  initial := if d.initial = j then i else d.initial
  accepts := d.accepts.erase j
  rules := (d.rules.filter fun key _ => key.1 ≠ j).map fun _ p => if p = j then i else p

/-- One eager merge of a mergeable pair. -/
def MergesTo (d e : Dfa) : Prop := ∃ i j, d.Mergeable i j ∧ e = d.mergePair i j

/-- No mergeable pair is left. -/
def Irreducible (d : Dfa) : Prop := ∀ i j, ¬ d.Mergeable i j

/-- The merge in which one state alone disappears. -/
def Merging.pair (i j : State) : Merging := (∅ : Merging).insert j i

theorem getElem?_pair (i j q : State) : (Merging.pair i j)[q]? = if j = q then some i else none := by
  rw [Merging.pair, Std.ExtTreeMap.getElem?_insert]
  simp only [Std.LawfulEqOrd.compare_eq_iff_eq]
  rfl

theorem redirect_pair (i j q : State) : (Merging.pair i j).redirect q = if q = j then i else q := by
  rw [Merging.redirect, getElem?_pair]
  by_cases h : j = q
  · rw [if_pos h, if_pos h.symm, Option.getD_some]
  · rw [if_neg h, if_neg (Ne.symm h), Option.getD_none]

theorem contains_pair (i j q : State) : (Merging.pair i j).contains q = decide (q = j) := by
  rw [Std.ExtTreeMap.contains_eq_isSome_getElem?, getElem?_pair]
  by_cases h : j = q
  · rw [if_pos h, decide_eq_true h.symm, Option.isSome_some]
  · rw [if_neg h, decide_eq_false (Ne.symm h), Option.isSome_none]

/-- To merge one pair is to merge with one state that disappears. -/
theorem mergePair_eq_merge (d : Dfa) (i j : State) : d.mergePair i j = d.merge (Merging.pair i j) := by
  refine eq_of_transition? (redirect_pair i j d.initial).symm (fun q => ?_) fun q c => ?_
  · rw [Bool.eq_iff_iff]
    unfold isAccepting mergePair merge
    rw [StateSet.contains_iff, StateSet.contains_iff, StateSet.mem_erase, StateSet.mem_filter, contains_pair, and_comm,
      Bool.not_eq_true', decide_eq_false_iff_not]
  · unfold transition? mergePair merge Rules.mergeStates
    simp only [contains_pair, redirect_pair, decide_not]

/-- The merge of a mergeable pair is fair. -/
theorem Mergeable.fair (h : d.Mergeable i j) : d.Fair (Merging.pair i j) := by
  have hpair : ∀ q p : State, (Merging.pair i j)[q]? = some p → q = j ∧ p = i := by
    intro q p hq
    rw [getElem?_pair] at hq
    split at hq
    · rename_i hj
      exact ⟨hj.symm, (Option.some.inj hq).symm⟩
    · cases hq
  refine ⟨fun q p hq => ?_, fun q p hq => ?_, fun q p hq => ?_, fun q p hq => ?_, fun q p hq c => ?_⟩ <;>
    obtain ⟨rfl, rfl⟩ := hpair q p hq
  · exact ⟨h.right, h.left⟩
  · exact h.lt
  · rw [getElem?_pair, if_neg (Nat.ne_of_gt h.lt)]
  · exact h.accepting
  · exact h.transition? c

/-- In an irreducible automaton, states that accept alike and have the same rules are the same state. -/
theorem Irreducible.eq (hd : d.Irreducible) {p q : State} (hp : p ∈ d.states) (hq : q ∈ d.states)
    (haccepting : d.isAccepting p = d.isAccepting q) (htransition : ∀ c, d.transition? p c = d.transition? q c) :
    p = q := by
  rcases Nat.lt_trichotomy p q with h | h | h
  · exact absurd ⟨h, hp, hq, haccepting, htransition⟩ (hd p q)
  · exact h
  · exact absurd ⟨h, hq, hp, haccepting.symm, fun c => (htransition c).symm⟩ (hd q p)

/-! ## Fair merges, one after another -/

/-- The automaton knows nothing of the states that the map moves. -/
def Forgets (r : State → State) (e : Dfa) : Prop :=
  ∀ q, r q ≠ q → e.isAccepting q = false ∧ ∀ c, e.transition? q c = none

/-- A merge forgets the states that disappear. -/
theorem forgets_merge (d : Dfa) (into : Merging) : Forgets into.redirect (d.merge into) := by
  intro q hq
  have hmem : q ∈ into := by
    rw [Std.ExtTreeMap.mem_iff_isSome_getElem?, Option.isSome_iff_ne_none]
    exact fun hnone => hq (redirect_of_none into q hnone)
  refine ⟨?_, fun c => ?_⟩
  · rw [← Bool.not_eq_true]
    unfold isAccepting merge
    rw [StateSet.contains_iff, StateSet.mem_filter, Std.ExtTreeMap.contains_iff_mem.2 hmem]
    exact fun h => Bool.false_ne_true h.2
  · show (d.rules.mergeStates into)[(q, c)]? = none
    rw [Rules.getElem?_mergeStates, if_pos hmem]

theorem Forgets.trans (hr : Forgets r e) (h : Folds s e f) (hs : Forgets s f) : Forgets (s ∘ r) f := by
  intro q hq
  by_cases hsq : s q = q
  · -- `s` leaves `q` in place, so `r` moved it, and what `e` forgot is not known to `f`
    have hrq : r q ≠ q := fun hrq => hq (by rw [Function.comp_apply, hrq, hsq])
    obtain ⟨haccepting, htransition⟩ := hr q hrq
    refine ⟨?_, fun c => ?_⟩
    · rw [← hsq, h.accepting, haccepting]
    · rw [← hsq, h.transition?, htransition, Option.map_none]
  · exact hs q hsq

/-- A map tells what it takes an automaton over to, if that is forgetful. -/
theorem Folds.eq_of_forgets (h1 : Folds r d e) (h2 : Folds r d f) (he : Forgets r e) (hf : Forgets r f) : e = f := by
  refine eq_of_transition? (h1.initial.trans h2.initial.symm) (fun q => ?_) fun q c => ?_
  · by_cases hq : r q = q
    · rw [← hq, h1.accepting, h2.accepting]
    · rw [(he q hq).1, (hf q hq).1]
  · by_cases hq : r q = q
    · rw [← hq, h1.transition?, h2.transition?]
    · rw [(he q hq).2, (hf q hq).2]

/-- One fair merge, of any number of states. -/
def FairlyMergesTo (d e : Dfa) : Prop := ∃ into, d.Fair into ∧ e = d.merge into

theorem MergesTo.fairlyMergesTo (h : MergesTo d e) : FairlyMergesTo d e := by
  obtain ⟨i, j, hij, rfl⟩ := h
  exact ⟨Merging.pair i j, hij.fair, d.mergePair_eq_merge i j⟩

/-- A map into an irreducible automaton that absorbs a map absorbs what a fair merge makes of that too. -/
theorem Fair.absorbed {into : Merging} (h : e.Fair into) (hr : Folds r d e) (hs : Folds s d f) (hf : f.Irreducible)
    (habsorbs : ∀ q, s (r q) = s q) (q : State) : s (into.redirect q) = s q := by
  cases hinto : into[q]? with
  | none => rw [redirect_of_none into q hinto]
  | some p =>
    rw [redirect_of_some into q p hinto]
    obtain ⟨hqe, hpe⟩ := h.states q p hinto
    obtain ⟨hqd, hq⟩ := hr.states q hqe
    obtain ⟨hpd, hp⟩ := hr.states p hpe
    -- what `e` shows of its states is what `d` shows of them, up to `r` and so up to `s`
    have haccepting : ∀ t, r t = t → f.isAccepting (s t) = e.isAccepting t := fun t ht => by
      rw [hs.accepting, ← hr.accepting, ht]
    have htransition : ∀ t c, r t = t → f.transition? (s t) c = (e.transition? t c).map s := fun t c ht => by
      have hstep : e.transition? t c = (d.transition? t c).map r := by rw [← hr.transition?, ht]
      rw [hs.transition?, hstep, Option.map_map, show s ∘ r = s from funext habsorbs]
    refine hf.eq (hs.mem_states p hpd) (hs.mem_states q hqd) ?_ fun c => ?_
    · rw [haccepting p hp, haccepting q hq, h.accepting q p hinto]
    · rw [htransition p c hp, htransition q c hq, h.transition? q p hinto]

/-- The map of a run of fair merges: the result forgets what it moves, and every map into an irreducible automaton absorbs
it. -/
theorem exists_folds_of_fairlyMergesTo (h : Reaches FairlyMergesTo d e) :
    ∃ r, Folds r d e ∧ Forgets r e ∧ ∀ s f, Folds s d f → f.Irreducible → ∀ q, s (r q) = s q := by
  induction h with
  | refl => exact ⟨id, Folds.refl d, fun q hq => absurd rfl hq, fun _ _ _ _ _ => rfl⟩
  | tail _ hstep ih =>
    obtain ⟨r, hr, hforgets, habsorbed⟩ := ih
    obtain ⟨into, hfair, rfl⟩ := hstep
    refine ⟨into.redirect ∘ r, hr.trans hfair.folds, hforgets.trans hfair.folds (forgets_merge _ into), ?_⟩
    intro s f hs hf q
    calc s (into.redirect (r q)) = s (r q) := hfair.absorbed hr hs hf (habsorbed s f hs hf) (r q)
      _ = s q := habsorbed s f hs hf q

/-- **One end.** Fair merges lead to one irreducible automaton only. -/
theorem eq_of_irreducible (he : Reaches FairlyMergesTo d e) (hf : Reaches FairlyMergesTo d f) (hirre : e.Irreducible)
    (hirrf : f.Irreducible) : e = f := by
  obtain ⟨r, hr, hrforgets, hrabsorbed⟩ := exists_folds_of_fairlyMergesTo he
  obtain ⟨s, hs, hsforgets, hsabsorbed⟩ := exists_folds_of_fairlyMergesTo hf
  have hrs : r = s := by
    funext q
    apply Nat.le_antisymm
    · calc r q = r (s q) := (hsabsorbed r e hr hirre q).symm
        _ ≤ s q := hr.le (s q)
    · calc s q = s (r q) := (hrabsorbed s f hs hirrf q).symm
        _ ≤ r q := hs.le (r q)
  subst hrs
  exact hr.eq_of_forgets hs hrforgets hsforgets

/-! ## Minimization -/

/-- The rules in a row ascend by their characters. -/
theorem sorted_row (rules : Rules) (q : State) : (rules.row q).Pairwise fun a b => compare a.1 b.1 = .lt := by
  unfold Rules.row
  rw [List.pairwise_filterMap]
  refine Std.ExtTreeMap.ordered_keys_toList.imp ?_
  rintro ⟨⟨source, c⟩, p⟩ ⟨⟨source', c'⟩, p'⟩ hlt x hx y hy
  dsimp only at hx hy
  split at hx
  · split at hy
    · rename_i hsource hsource'
      obtain rfl := Option.some.inj hx
      obtain rfl := Option.some.inj hy
      rwa [pairOrder, hsource, hsource', Std.compare_self, Ordering.eq_then] at hlt
    · cases hy
  · cases hx

/-- States with the same rules have the same row. -/
theorem row_eq_of_transition? (d : Dfa) (p q : State) (h : ∀ c, d.transition? p c = d.transition? q c) :
    d.rules.row p = d.rules.row q := by
  refine eq_of_ascending (sorted_row d.rules p) (sorted_row d.rules q) ?_
  rintro ⟨c, t⟩
  rw [Rules.mem_row, Rules.mem_row]
  exact Eq.congr_left (h c)

/-- Where a pass finds nothing to merge, no mergeable pair is left. -/
theorem irreducible_of_size_merging (d : Dfa) (h : d.merging.size = 0) : d.Irreducible := by
  intro i j hij
  have hsignature : d.signature i = d.signature j := by
    unfold signature
    rw [hij.accepting, d.row_eq_of_transition? i j hij.transition?]
  have hstays : (d.leastWith (d.signature j)).filter (fun p => p ≠ j) = none := by
    have hnone : d.merging[j]? = none := by
      rw [Std.ExtTreeMap.eq_empty_iff_size_eq_zero.2 h, Std.ExtTreeMap.getElem?_empty]
    rwa [getElem?_merging, if_pos hij.right] at hnone
  -- the least state that looks like `j` is no greater than `i`, so `j` would be merged into it
  cases hleast : d.leastWith (d.signature j) with
  | none => exact List.find?_eq_none.1 hleast i (StateSet.mem_toList.2 hij.left) (decide_eq_true hsignature)
  | some p =>
    have hle : p ≤ i := d.leastWith_le _ p i hleast hij.left hsignature
    have hne : p ≠ j := Nat.ne_of_lt (Nat.lt_of_le_of_lt hle hij.lt)
    rw [hleast, Option.filter_some, if_pos (decide_eq_true hne)] at hstays
    cases hstays

theorem irreducible_minimize (d : Dfa) : d.minimize.Irreducible := by
  unfold minimize
  fun_induction reduce d with
  | case1 d merging h => exact d.irreducible_of_size_merging h
  | case2 d merging h later ih => exact ih

theorem reaches_minimize (d : Dfa) : Reaches FairlyMergesTo d d.minimize := by
  unfold minimize
  fun_induction reduce d with
  | case1 d merging h => exact .refl
  | case2 d merging h later ih => exact (Reaches.refl.tail ⟨merging, d.fair_merging, rfl⟩).trans ih

/-! ## Merging comes to an end -/

/-- An eager merge leaves fewer states. -/
theorem MergesTo.size_lt (h : MergesTo d e) : e.states.size < d.states.size := by
  obtain ⟨i, j, hij, rfl⟩ := h
  rw [mergePair_eq_merge]
  have hfolds := hij.fair.folds
  refine StateSet.size_lt_size _ _ j (fun q hq => (hfolds.states q hq).1) hij.right fun hj => ?_
  have hfixed := (hfolds.states j hj).2
  rw [redirect_pair, if_pos rfl] at hfixed
  exact Nat.ne_of_lt hij.lt hfixed

/-- Eager merges lead to an irreducible automaton. -/
theorem exists_irreducible (d : Dfa) : ∃ e, Reaches MergesTo d e ∧ e.Irreducible := by
  induction hsize : d.states.size using Nat.strongRecOn generalizing d with
  | ind n ih =>
    by_cases h : d.Irreducible
    · exact ⟨d, .refl, h⟩
    · obtain ⟨i, hi⟩ := Classical.not_forall.1 h
      obtain ⟨j, hij⟩ := Classical.not_forall.1 hi
      have hstep : MergesTo d (d.mergePair i j) := ⟨i, j, Classical.not_not.1 hij, rfl⟩
      obtain ⟨e, he, hirr⟩ := ih _ (hsize ▸ hstep.size_lt) (d.mergePair i j) rfl
      exact ⟨e, (Reaches.refl.tail hstep).trans he, hirr⟩

theorem reaches_fairlyMergesTo (h : Reaches MergesTo d e) : Reaches FairlyMergesTo d e := by
  induction h with
  | refl => exact .refl
  | tail _ hstep ih => exact ih.tail hstep.fairlyMergesTo

/-- **Any order.** No sequence of eager merges goes on for ever, and whichever pairs are merged, as soon as no mergeable
pair is left the automaton is the minimized one; from wherever a sequence has led, eager merges still lead there. The
minimized automaton itself has no mergeable pair, and minimizing it again changes nothing. -/
theorem minimize_eq_of_mergesTo (d : Dfa) :
    (∀ run : Nat → Dfa, ∃ n, ¬ MergesTo (run n) (run (n + 1))) ∧
    (∀ e, Reaches MergesTo d e → e.Irreducible → e = d.minimize) ∧
    (∀ e, Reaches MergesTo d e → Reaches MergesTo e d.minimize) ∧
    d.minimize.Irreducible ∧ d.minimize.minimize = d.minimize := by
  have hends : ∀ e, Reaches MergesTo d e → e.Irreducible → e = d.minimize := fun e he hirr =>
    eq_of_irreducible (reaches_fairlyMergesTo he) d.reaches_minimize hirr d.irreducible_minimize
  refine ⟨fun run => ?_, hends, fun e he => ?_, d.irreducible_minimize, ?_⟩
  · obtain ⟨n, hn⟩ := WellFounded.not_rel_apply_succ (r := (· < ·)) fun n => (run n).states.size
    exact ⟨n, fun h => hn h.size_lt⟩
  · obtain ⟨f, hf, hirr⟩ := e.exists_irreducible
    exact hends f (he.trans hf) hirr ▸ hf
  · exact (eq_of_irreducible .refl d.minimize.reaches_minimize d.irreducible_minimize
      d.minimize.irreducible_minimize).symm

/-- Two accepting states without rules, at the two ends of a fork, can be merged, and that minimizes the fork. -/
theorem minimize_eq_of_mergesTo_fork :
    let d : Dfa := ⟨(0 : Nat), .ofList [1, 2], ((∅ : Rules).insert (0, 'a') (1 : Nat)).insert (0, 'b') (2 : Nat)⟩
    let e := d.mergePair (1 : Nat) (2 : Nat)
    Reaches MergesTo d e ∧ e.Irreducible ∧ e = d.minimize := by
  intro d e
  have hends : ∀ (q : State) c, 0 < q → d.transition? q c = none := by
    intro q c hq
    have hne : ∀ x, ¬ ((0 : Nat), x) = (q, c) := fun x h => Nat.ne_of_lt hq (Prod.mk.inj h).1
    show (((∅ : Rules).insert (0, 'a') (1 : Nat)).insert (0, 'b') (2 : Nat))[(q, c)]? = none
    simp only [Std.ExtTreeMap.getElem?_insert, Std.LawfulEqCmp.compare_eq_iff_eq, if_neg (hne _),
      Std.ExtTreeMap.getElem?_empty]
  have hmergeable : d.Mergeable (1 : Nat) (2 : Nat) :=
    ⟨by decide, by decide +kernel, by decide +kernel, by decide +kernel, fun c => by
      rw [hends _ c (by decide), hends _ c (by decide)]⟩
  have hreaches : Reaches MergesTo d e := Reaches.refl.tail ⟨_, _, hmergeable, rfl⟩
  have hirreducible : e.Irreducible := by
    -- the start and the one end that are left do not accept alike
    have hstates : ∀ q, q ∈ e.states → q = (0 : Nat) ∨ q = (1 : Nat) := by
      have hlist : e.states.toList = [(0 : Nat), (1 : Nat)] := by decide +kernel
      intro q hq
      simpa [hlist] using StateSet.mem_toList.2 hq
    have hstart : e.isAccepting (0 : Nat) ≠ e.isAccepting (1 : Nat) := by decide +kernel
    rintro i j ⟨hlt, hi, hj, hacc, -⟩
    rcases hstates i hi with rfl | rfl <;> rcases hstates j hj with rfl | rfl
    · exact Nat.lt_irrefl _ hlt
    · exact hstart hacc
    · exact hstart hacc.symm
    · exact Nat.lt_irrefl _ hlt
  exact ⟨hreaches, hirreducible, (minimize_eq_of_mergesTo d).2.1 e hreaches hirreducible⟩

end PatternAutomata.Dfa
