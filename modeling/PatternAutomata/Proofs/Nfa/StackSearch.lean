/-
Closures by a stack.

The closure of a state can be found one state at a time: what is met for the first time is put on a stack, and a round
takes the state on top and meets all that its epsilon rules lead to. After any number of rounds, what is met can be
reached, and a state that is met still waits on the stack or has had its rules followed (`Tracks`). A state waits once
only, so every round is for another state of the closure. The stack is empty after as many rounds as the closure has
states and no sooner, whatever cycles the rules make.

The closure of a set can be put together from those of its members, one after another. A member that is met already is
passed over: closures are closed, so its own closure is met with it.

- `Tracks.round`, `tracks_iterate`: what a round, and any number of rounds, keeps.
- `stack_eq_nil_iff`, `iterate_eq`: when the rounds come to an end, and what they leave.
- `mem_closeEach`: passing over what is met loses nothing.
- `closures_by_stack`: both, with the closure as the least closed set.
-/
import Mathlib.Order.Bounds.Basic
import PatternAutomata.Proofs.Nfa.Path

namespace PatternAutomata.Nfa

/-- The states met so far, and those whose rules have not been followed yet, the one that came last in front. -/
structure StackSearch where
  met : StateSet
  stack : List State
  deriving DecidableEq

namespace StackSearch

/-- One state is met, and its rules have not been followed. -/
def start (q : State) : StackSearch := ⟨{q}, [q]⟩

/-- Meets a state. One that is new has to wait. -/
def meet (l : StackSearch) (p : State) : StackSearch :=
  if l.met.contains p then l else ⟨l.met.insert p, p :: l.stack⟩

/-- Follows the epsilon rules of the state on top, if there is one. -/
def round (m : Nfa) (l : StackSearch) : StackSearch :=
  match l.stack with
  | [] => l
  | q :: rest => (m.rules.destinations q .epsilon).toList.foldl meet { l with stack := rest }

/-! ## What the rounds keep -/

/-- After so many rounds from a state, with some states still ahead in the last of them: all are reached from the state,
what waits is met, what does not wait has had its rules followed, and each round was for a state of its own. -/
structure Tracks (m : Nfa) (q : State) (rounds : Nat) (ahead : List State) (l : StackSearch) : Prop where
  origin : q ∈ l.met
  reached : ∀ p, p ∈ l.met ∨ p ∈ ahead → Reaches m.Silent q p
  waiting : ∀ p ∈ l.stack, p ∈ l.met
  followed : ∀ p, p ∈ l.met → p ∈ l.stack ∨ ∀ r, m.Silent p r → r ∈ l.met ∨ r ∈ ahead
  size : l.met.size = rounds + l.stack.length

variable {m : Nfa} {q : State} {rounds : Nat} {ahead : List State} {l : StackSearch}

theorem tracks_start (m : Nfa) (q : State) : Tracks m q 0 [] (start q) where
  origin := StateSet.mem_singleton.2 rfl
  reached p hp := by
    obtain rfl := StateSet.mem_singleton.1 (hp.resolve_right List.not_mem_nil)
    exact .refl
  waiting p hp := StateSet.mem_singleton.2 (List.mem_singleton.1 hp)
  followed p hp := Or.inl (List.mem_singleton.2 (StateSet.mem_singleton.1 hp))
  size := by
    have hempty : (∅ : StateSet).size = 0 := rfl
    have hsingle : ({q} : StateSet) = (∅ : StateSet).insert q := StateSet.ext fun p => by simp
    rw [start, hsingle, StateSet.size_insert _ _ (StateSet.not_mem_empty q), hempty]
    rfl

/-- Meeting the next of the states ahead. -/
theorem Tracks.meet {p : State} (h : Tracks m q rounds (p :: ahead) l) : Tracks m q rounds ahead (l.meet p) := by
  unfold StackSearch.meet
  split
  · next hp =>
    have hmet : p ∈ l.met := StateSet.contains_iff.1 hp
    have hhead : ∀ {r : State}, r ∈ l.met ∨ r ∈ p :: ahead → r ∈ l.met ∨ r ∈ ahead := by
      rintro r (hr | hr)
      · exact Or.inl hr
      · rcases List.mem_cons.1 hr with rfl | hr
        · exact Or.inl hmet
        · exact Or.inr hr
    exact ⟨h.origin, fun r hr => h.reached r (hr.imp_right (List.mem_cons_of_mem p)), h.waiting,
      fun r hr => (h.followed r hr).imp_right fun hall s hs => hhead (hall s hs), h.size⟩
  · next hp =>
    have hnot : ¬ p ∈ l.met := fun hmet => hp (StateSet.contains_iff.2 hmet)
    refine ⟨StateSet.mem_insert.2 (Or.inr h.origin), fun r hr => h.reached r ?_, fun r hr => ?_, fun r hr => ?_, ?_⟩
    · rw [StateSet.mem_insert] at hr
      rw [List.mem_cons]
      tauto
    · exact StateSet.mem_insert.2 ((List.mem_cons.1 hr).imp_right (h.waiting r))
    · rcases StateSet.mem_insert.1 hr with rfl | hr
      · exact Or.inl List.mem_cons_self
      · refine (h.followed r hr).imp (List.mem_cons_of_mem p) fun hall s hs => ?_
        have hs := hall s hs
        rw [List.mem_cons] at hs
        rw [StateSet.mem_insert]
        tauto
    · rw [StateSet.size_insert _ _ hnot, h.size, List.length_cons]
      omega

theorem Tracks.foldl_meet (h : Tracks m q rounds ahead l) : Tracks m q rounds [] (ahead.foldl StackSearch.meet l) := by
  induction ahead generalizing l with
  | nil => exact h
  | cons p ahead ih => exact ih h.meet

/-- **Steps.** A round is for one state more. -/
theorem Tracks.round (h : Tracks m q rounds [] l) (hstack : l.stack ≠ []) :
    Tracks m q (rounds + 1) [] (StackSearch.round m l) := by
  obtain ⟨met, stack⟩ := l
  cases stack with
  | nil => exact absurd rfl hstack
  | cons r rest =>
    have hr : Reaches m.Silent q r := h.reached r (Or.inl (h.waiting r List.mem_cons_self))
    -- the state is taken off the stack, and where its rules lead is ahead
    have htaken : Tracks m q (rounds + 1) (m.rules.destinations r .epsilon).toList ⟨met, rest⟩ := by
      refine ⟨h.origin, fun p hp => ?_, fun p hp => h.waiting p (List.mem_cons_of_mem r hp), fun p hp => ?_, ?_⟩
      · rcases hp with hp | hp
        · exact h.reached p (Or.inl hp)
        · exact hr.tail (StateSet.mem_toList.1 hp)
      · rcases h.followed p hp with hwait | hall
        · rcases List.mem_cons.1 hwait with rfl | hwait
          · exact Or.inr fun s hs => Or.inr (StateSet.mem_toList.2 hs)
          · exact Or.inl hwait
        · exact Or.inr fun s hs => Or.inl ((hall s hs).resolve_right List.not_mem_nil)
      · have hsize : met.size = rounds + (rest.length + 1) := h.size
        exact hsize.trans (Nat.add_right_comm rounds rest.length 1)
    exact htaken.foldl_meet

/-! ## How the rounds end -/

/-- What is met lies in the closure, and is all of it when nothing waits. -/
theorem Tracks.met_eq (h : Tracks m q rounds [] l) (hstack : l.stack = []) : l.met = m.closure q := by
  refine StateSet.ext fun p => ?_
  rw [mem_closure_iff]
  refine ⟨fun hp => h.reached p (Or.inl hp), fun hp => ?_⟩
  induction hp with
  | refl => exact h.origin
  | tail _ hstep ih =>
    have hall := (h.followed _ ih).resolve_left (hstack ▸ List.not_mem_nil)
    exact (hall _ hstep).resolve_right List.not_mem_nil

/-- While a state waits there have been fewer rounds than the closure has states. -/
theorem Tracks.lt_size (h : Tracks m q rounds [] l) (hstack : l.stack ≠ []) : rounds < (m.closure q).size := by
  have hle : l.met.size ≤ (m.closure q).size :=
    StateSet.size_le_size _ _ fun p hp => (m.mem_closure_iff q p).2 (h.reached p (Or.inl hp))
  have hpos : 0 < l.stack.length := List.length_pos_iff.2 hstack
  have hsize := h.size
  omega

theorem Tracks.eq_size (h : Tracks m q rounds [] l) (hstack : l.stack = []) : rounds = (m.closure q).size := by
  rw [← h.met_eq hstack, h.size, hstack]
  rfl

/-- **Runs.** Up to as many rounds as the closure has states are each for a state of its own. -/
theorem tracks_iterate (m : Nfa) (q : State) (n : Nat) (hn : n ≤ (m.closure q).size) :
    Tracks m q n [] ((round m)^[n] (start q)) := by
  induction n with
  | zero => exact tracks_start m q
  | succ n ih =>
    have htracks := ih (Nat.le_of_succ_le hn)
    rw [Function.iterate_succ_apply']
    exact htracks.round fun hstack => absurd (htracks.eq_size hstack) (Nat.ne_of_lt hn)

/-- As many rounds as the closure has states find the closure, and more of them change nothing. -/
theorem iterate_eq (m : Nfa) (q : State) (n : Nat) :
    (round m)^[(m.closure q).size + n] (start q) = ⟨m.closure q, []⟩ := by
  have htracks := tracks_iterate m q (m.closure q).size (Nat.le_refl _)
  have hstack : ((round m)^[(m.closure q).size] (start q)).stack = [] :=
    Classical.not_not.1 fun hne => Nat.lt_irrefl _ (htracks.lt_size hne)
  have hfound : (round m)^[(m.closure q).size] (start q) = ⟨m.closure q, []⟩ := by
    generalize (round m)^[(m.closure q).size] (start q) = l at htracks hstack ⊢
    obtain ⟨met, stack⟩ := l
    obtain rfl : stack = [] := hstack
    exact congrArg (StackSearch.mk · []) (htracks.met_eq rfl)
  have hfixed : round m ⟨m.closure q, []⟩ = ⟨m.closure q, []⟩ := rfl
  rw [Nat.add_comm, Function.iterate_add_apply, hfound, Function.iterate_fixed hfixed]

theorem stack_eq_nil_iff (m : Nfa) (q : State) (n : Nat) :
    ((round m)^[n] (start q)).stack = [] ↔ (m.closure q).size ≤ n := by
  refine ⟨fun hstack => ?_, fun hn => ?_⟩
  · by_contra hlt
    have htracks := tracks_iterate m q n (Nat.le_of_not_le hlt)
    exact hlt (Nat.le_of_eq (htracks.eq_size hstack).symm)
  · obtain ⟨k, rfl⟩ := Nat.exists_eq_add_of_le hn
    rw [iterate_eq]

end StackSearch

/-! ## The members of a set, one after another -/

/-- Adds the closure of a state, unless the state is met already. -/
def cover (m : Nfa) (met : StateSet) (q : State) : StateSet :=
  if met.contains q then met else met ∪ m.closure q

/-- The closures of the members of a set, in ascending order. -/
def closeEach (m : Nfa) (s : StateSet) : StateSet := s.toList.foldl m.cover ∅

theorem mem_cover (m : Nfa) {met : StateSet} (hmet : m.Closed met) (q p : State) :
    p ∈ m.cover met q ↔ p ∈ met ∨ Reaches m.Silent q p := by
  unfold cover
  split
  · next hq => exact ⟨Or.inl, fun h => h.elim id (hmet.mem_of_reaches (StateSet.contains_iff.1 hq))⟩
  · rw [StateSet.mem_union, mem_closure_iff]

theorem closed_cover (m : Nfa) {met : StateSet} (hmet : m.Closed met) (q : State) : m.Closed (m.cover met q) := by
  intro p hp r hr
  rw [m.mem_cover hmet] at hp ⊢
  exact hp.imp (fun hp => hmet p hp r hr) fun hp => hp.tail hr

theorem mem_foldl_cover (m : Nfa) {met : StateSet} (hmet : m.Closed met) (states : List State) (p : State) :
    p ∈ states.foldl m.cover met ↔ p ∈ met ∨ ∃ q ∈ states, Reaches m.Silent q p := by
  induction states generalizing met with
  | nil => simp only [List.foldl_nil, List.not_mem_nil, false_and, exists_false, or_false]
  | cons q states ih =>
    rw [List.foldl_cons, ih (m.closed_cover hmet q), m.mem_cover hmet, List.exists_mem_cons_iff, or_assoc]

/-- Passing over the members that are met already loses nothing. -/
theorem mem_closeEach (m : Nfa) (s : StateSet) (p : State) :
    p ∈ m.closeEach s ↔ ∃ q, q ∈ s ∧ Reaches m.Silent q p := by
  have hempty : m.Closed ∅ := fun q hq => absurd hq (StateSet.not_mem_empty q)
  rw [closeEach, m.mem_foldl_cover hempty]
  simp only [StateSet.not_mem_empty, false_or, StateSet.mem_toList]

/-- **Closures by a stack.** The stack is empty after exactly as many rounds as the closure of the state has members,
and then the closure is what has been met. It holds the states that epsilon rules reach, and is the least set that has
the state and is closed under epsilon rules. Going through the members of a set and passing over those that are met
gives the union of their closures, which is the closure of the set. -/
theorem closures_by_stack (m : Nfa) :
    (∀ q n, ((StackSearch.round m)^[n] (.start q)).stack = [] ↔ (m.closure q).size ≤ n) ∧
    (∀ q n, (StackSearch.round m)^[(m.closure q).size + n] (.start q) = ⟨m.closure q, []⟩) ∧
    (∀ q p, p ∈ m.closure q ↔ Reaches m.Silent q p) ∧
    (∀ q, IsLeast {s : Set State | q ∈ s ∧ ∀ r ∈ s, ∀ p, m.Silent r p → p ∈ s} {p | p ∈ m.closure q}) ∧
    ∀ s, m.closeEach s = s.biUnion m.closure ∧ m.closureOf s = s.biUnion m.closure := by
  refine ⟨StackSearch.stack_eq_nil_iff m, StackSearch.iterate_eq m, m.mem_closure_iff, fun q => ⟨⟨?_, ?_⟩, ?_⟩,
    fun s => ⟨?_, m.closureOf_eq_biUnion s⟩⟩
  · exact (m.mem_closure_iff q q).2 .refl
  · exact m.closed_closureOf {q}
  · intro s hs p hp
    obtain ⟨hq, hclosed⟩ := hs
    induction (m.mem_closure_iff q p).1 hp with
    | refl => exact hq
    | tail hreach hstep ih => exact hclosed _ (ih ((m.mem_closure_iff q _).2 hreach)) _ hstep
  · rw [← closureOf_eq_biUnion]
    exact StateSet.ext fun p => (m.mem_closeEach s p).trans (m.mem_closureOf_iff s p).symm

/-- Two states on an epsilon cycle, with a third behind it: three rounds, and nothing waits any more. -/
example :
    let rules : Rules := ((Rules.add ∅ 0 .epsilon 1).add 1 .epsilon 0).add 1 .epsilon 2
    let search n := (StackSearch.round { initial := 0, accepts := ∅, rules })^[n] (.start 0)
    (search 2).stack = [2] ∧ search 3 = ⟨.ofList [0, 1, 2], []⟩ := by
  decide +kernel

end PatternAutomata.Nfa
