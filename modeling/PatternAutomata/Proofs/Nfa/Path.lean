/-
Paths of a nondeterministic automaton, and what its simulation on sets of states finds out about them.

A path leads from a state to a state and spells a word: every step follows one rule, and a step along an epsilon rule
spells nothing. The language of an automaton holds the words that paths spell from the initial state to an accepting
one.

- `path_cons_iff`: a path that spells a word follows epsilon rules up to its first character.
- `mem_statesAfter_iff`: the simulated set after a word holds the ends of the paths that spell it.
- `acceptsWord_eq`: leaving off once no state is left changes no answer.
- `acceptsWord_iff_mem_language`: the simulation accepts the words of the language.
-/
import Mathlib.Computability.Language
import PatternAutomata.Nfa.Simulation

namespace PatternAutomata.Nfa

/-! ## Paths -/

/-- A path from the first state to the second that spells the word. -/
inductive Path (m : Nfa) : State → List Char → State → Prop where
  | refl (q : State) : Path m q [] q
  | silent {q r p : State} {w : List Char} (hstep : m.Silent q r) (rest : Path m r w p) : Path m q w p
  | read {q r p : State} {c : Char} {w : List Char} (hstep : r ∈ m.rules.destinations q (.char c))
      (rest : Path m r w p) : Path m q (c :: w) p

/-- The words that paths spell from the initial state to an accepting one. -/
def language (m : Nfa) : Language Char := {w | ∃ p, p ∈ m.accepts ∧ m.Path m.initial w p}

theorem mem_language (m : Nfa) (w : List Char) : w ∈ m.language ↔ ∃ p, p ∈ m.accepts ∧ m.Path m.initial w p := Iff.rfl

namespace Path

variable {m : Nfa} {q r p : State} {u v w : List Char} {c : Char}

theorem append (h1 : m.Path q u r) (h2 : m.Path r v p) : m.Path q (u ++ v) p := by
  induction h1 with
  | refl => exact h2
  | silent hstep _ ih => exact silent hstep (ih h2)
  | read hstep _ ih => exact read hstep (ih h2)

theorem of_reaches (h : Reaches m.Silent q p) : m.Path q [] p := by
  induction h with
  | refl => exact refl q
  | tail _ hstep ih => exact append ih (silent hstep (refl _))

/-- A path first follows epsilon rules; then it ends or reads its first character. -/
theorem cases_head (h : m.Path q w p) :
    (w = [] ∧ Reaches m.Silent q p) ∨
      ∃ c v r s, w = c :: v ∧ Reaches m.Silent q r ∧ s ∈ m.rules.destinations r (.char c) ∧ m.Path s v p := by
  induction h with
  | refl q => exact Or.inl ⟨rfl, .refl⟩
  | silent hstep _ ih =>
    have hone : Reaches m.Silent _ _ := Reaches.refl.tail hstep
    rcases ih with ⟨hw, hr⟩ | ⟨c, v, r, s, hw, hr, hs, hrest⟩
    · exact Or.inl ⟨hw, hone.trans hr⟩
    · exact Or.inr ⟨c, v, r, s, hw, hone.trans hr, hs, hrest⟩
  | read hstep rest => exact Or.inr ⟨_, _, _, _, rfl, .refl, hstep, rest⟩

theorem reaches_of_nil (h : m.Path q [] p) : Reaches m.Silent q p := by
  rcases h.cases_head with ⟨-, hr⟩ | ⟨c, v, r, s, hw, -⟩
  · exact hr
  · exact absurd hw (List.cons_ne_nil c v).symm

end Path

theorem path_cons_iff (m : Nfa) (q p : State) (c : Char) (w : List Char) :
    m.Path q (c :: w) p ↔
      ∃ r s, Reaches m.Silent q r ∧ s ∈ m.rules.destinations r (.char c) ∧ m.Path s w p := by
  refine ⟨?_, ?_⟩
  · intro h
    rcases h.cases_head with ⟨hw, -⟩ | ⟨d, v, r, s, hw, hr, hs, hrest⟩
    · exact absurd hw (List.cons_ne_nil c w)
    · obtain ⟨rfl, rfl⟩ := List.cons.inj hw
      exact ⟨r, s, hr, hs, hrest⟩
  · intro h
    obtain ⟨r, s, hr, hs, hrest⟩ := h
    exact (Path.of_reaches hr).append (.read hs hrest)

/-! ## The simulation -/

/-- Epsilon rules do not lead out of the set. -/
def Closed (m : Nfa) (s : StateSet) : Prop := ∀ q, q ∈ s → ∀ p, m.Silent q p → p ∈ s

theorem Closed.mem_of_reaches {m : Nfa} {s : StateSet} (hs : m.Closed s) {q p : State} (hq : q ∈ s)
    (h : Reaches m.Silent q p) : p ∈ s := by
  induction h with
  | refl => exact hq
  | tail _ hstep ih => exact hs _ ih _ hstep

theorem closed_closureOf (m : Nfa) (s : StateSet) : m.Closed (m.closureOf s) := by
  intro q hq p hqp
  obtain ⟨r, hr, hrq⟩ := (m.mem_closureOf_iff s q).1 hq
  exact (m.mem_closureOf_iff s p).2 ⟨r, hr, hrq.tail hqp⟩

theorem closed_step (m : Nfa) (s : StateSet) (c : Char) : m.Closed (m.step s c) := m.closed_closureOf _

theorem closed_foldl_step (m : Nfa) (s : StateSet) (hs : m.Closed s) (w : List Char) :
    m.Closed (w.foldl m.step s) := by
  induction w generalizing s with
  | nil => exact hs
  | cons c w ih => exact ih _ (m.closed_step s c)

theorem closed_statesAfter (m : Nfa) (w : List Char) : m.Closed (m.statesAfter w) :=
  m.closed_foldl_step _ (m.closed_closureOf _) w

/-- From a closed set, a word leads to the ends of the paths that spell it. -/
theorem mem_foldl_step_iff (m : Nfa) (s : StateSet) (hs : m.Closed s) (w : List Char) (p : State) :
    p ∈ w.foldl m.step s ↔ ∃ q, q ∈ s ∧ m.Path q w p := by
  induction w generalizing s with
  | nil =>
    refine ⟨?_, ?_⟩
    · exact fun hp => ⟨p, hp, .refl p⟩
    · intro h
      obtain ⟨q, hq, h⟩ := h
      exact hs.mem_of_reaches hq h.reaches_of_nil
  | cons c w ih =>
    rw [List.foldl_cons, ih _ (m.closed_step s c)]
    refine ⟨?_, ?_⟩
    · intro h
      obtain ⟨t, ht, hrest⟩ := h
      obtain ⟨q, hq, r, hr, hrt⟩ := (m.mem_step_iff s c t).1 ht
      exact ⟨q, hq, .read hr ((Path.of_reaches hrt).append hrest)⟩
    · intro h
      obtain ⟨q, hq, h⟩ := h
      obtain ⟨r, t, hqr, ht, hrest⟩ := (m.path_cons_iff q p c w).1 h
      exact ⟨t, (m.mem_step_iff s c t).2 ⟨r, hs.mem_of_reaches hq hqr, t, ht, .refl⟩, hrest⟩

/-- The simulated set after a word holds the ends of the paths that spell it. -/
theorem mem_statesAfter_iff (m : Nfa) (w : List Char) (p : State) :
    p ∈ m.statesAfter w ↔ m.Path m.initial w p := by
  unfold statesAfter
  rw [m.mem_foldl_step_iff (m.closure m.initial) (m.closed_closureOf _)]
  refine ⟨?_, ?_⟩
  · intro h
    obtain ⟨q, hq, h⟩ := h
    exact (Path.of_reaches ((m.mem_closure_iff m.initial q).1 hq)).append h
  · exact fun h => ⟨m.initial, (m.mem_closure_iff _ _).2 .refl, h⟩

/-- Once no state is left, none comes back. -/
theorem isEmpty_foldl_step (m : Nfa) (s : StateSet) (hs : s.isEmpty = true) (w : List Char) :
    (w.foldl m.step s).isEmpty = true := by
  induction w generalizing s with
  | nil => exact hs
  | cons c w ih =>
    apply ih
    rw [StateSet.isEmpty_iff] at hs ⊢
    intro p hp
    obtain ⟨q, hq, -⟩ := (m.mem_step_iff s c p).1 hp
    exact hs q hq

theorem isEmpty_statesAfter_append (m : Nfa) (u v : List Char) (h : (m.statesAfter u).isEmpty = true) :
    (m.statesAfter (u ++ v)).isEmpty = true := by
  unfold statesAfter at h ⊢
  rw [List.foldl_append]
  exact m.isEmpty_foldl_step _ h v

theorem isEmpty_statesAfter_nil (m : Nfa) : (m.statesAfter []).isEmpty = false := by
  rw [StateSet.isEmpty_eq_false_iff]
  exact ⟨m.initial, (m.mem_statesAfter_iff [] m.initial).2 (.refl _)⟩

theorem acceptsFrom_eq (m : Nfa) (s : StateSet) (w : List Char) :
    m.acceptsFrom s w = (w.foldl m.step s).intersects m.accepts := by
  induction w generalizing s with
  | nil => rfl
  | cons c w ih =>
    rw [acceptsFrom, List.foldl_cons]
    split
    · rename_i hempty
      exact (StateSet.intersects_eq_false_of_isEmpty _ _ (m.isEmpty_foldl_step _ hempty w)).symm
    · exact ih _

/-- Leaving off once no state is left changes no answer. -/
theorem acceptsWord_eq (m : Nfa) (w : List Char) : m.acceptsWord w = (m.statesAfter w).intersects m.accepts :=
  m.acceptsFrom_eq _ w

/-- The simulation accepts the words of the language. -/
theorem acceptsWord_iff_mem_language (m : Nfa) (w : List Char) : m.acceptsWord w = true ↔ w ∈ m.language := by
  rw [acceptsWord_eq, StateSet.intersects_iff, mem_language]
  refine exists_congr fun p => ?_
  rw [mem_statesAfter_iff, and_comm]

end PatternAutomata.Nfa
