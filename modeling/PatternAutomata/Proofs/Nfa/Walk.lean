/-
Walks of a nondeterministic automaton, label by label.

A walk follows rules one at a time and keeps every label that it meets, epsilon as well. What it spells is what is left
of the labels when the epsilons are erased. A path tells of a walk only where it leads and what it spells, so walks that
differ in silent rules alone, such as those around an epsilon cycle, are one path.

- `path_iff_exists_walk`: paths are walks without their silent labels.
- `acceptsWord_iff_exists_walk`: the simulation accepts the words that walks to an accepting state spell.
-/
import PatternAutomata.Proofs.Nfa.Path

namespace PatternAutomata.Nfa

/-- A walk from the first state to the second along rules with these labels. -/
inductive Walk (m : Nfa) : State → List Symbol → State → Prop where
  | refl (q : State) : Walk m q [] q
  | step {q r p : State} {a : Symbol} {labels : List Symbol} (hstep : r ∈ m.rules.destinations q a)
      (rest : Walk m r labels p) : Walk m q (a :: labels) p

/-- What labels spell: their characters in a row, with the epsilons erased. -/
def spelled (labels : List Symbol) : List Char := labels.filterMap Symbol.char?

variable {m : Nfa} {q p : State}

theorem Walk.path {labels : List Symbol} (h : m.Walk q labels p) : m.Path q (spelled labels) p := by
  induction h with
  | refl q => exact .refl q
  | @step _ _ _ a _ hstep _ ih =>
    cases a with
    | char c => exact .read hstep ih
    | epsilon => exact .silent hstep ih

theorem Path.exists_walk {w : List Char} (h : m.Path q w p) : ∃ labels, m.Walk q labels p ∧ spelled labels = w := by
  induction h with
  | refl q => exact ⟨[], .refl q, rfl⟩
  | silent hstep _ ih =>
    obtain ⟨labels, hwalk, hspelled⟩ := ih
    exact ⟨.epsilon :: labels, .step hstep hwalk, hspelled⟩
  | @read _ _ _ c _ hstep _ ih =>
    obtain ⟨labels, hwalk, hspelled⟩ := ih
    exact ⟨.char c :: labels, .step hstep hwalk, congrArg (c :: ·) hspelled⟩

/-- Paths are walks without their silent labels. -/
theorem path_iff_exists_walk (m : Nfa) (q p : State) (w : List Char) :
    m.Path q w p ↔ ∃ labels, m.Walk q labels p ∧ spelled labels = w := by
  refine ⟨Path.exists_walk, ?_⟩
  rintro ⟨labels, hwalk, rfl⟩
  exact hwalk.path

/-- **Acceptance.** A word is accepted if and only if a walk from the initial state to an accepting one spells it. The
states that the simulation is in after a word are the ends of all walks that spell it, and reading on to the end of the
word where no state is left gives the same answer. -/
theorem acceptsWord_iff_exists_walk (m : Nfa) (w : List Char) :
    (m.acceptsWord w = true ↔ ∃ labels p, m.Walk m.initial labels p ∧ spelled labels = w ∧ p ∈ m.accepts) ∧
    (∀ p, p ∈ m.statesAfter w ↔ ∃ labels, m.Walk m.initial labels p ∧ spelled labels = w) ∧
    m.acceptsWord w = (m.statesAfter w).intersects m.accepts := by
  have hstates : ∀ p, p ∈ m.statesAfter w ↔ ∃ labels, m.Walk m.initial labels p ∧ spelled labels = w := fun p =>
    (m.mem_statesAfter_iff w p).trans (m.path_iff_exists_walk m.initial p w)
  refine ⟨?_, hstates, m.acceptsWord_eq w⟩
  rw [acceptsWord_eq, StateSet.intersects_iff]
  refine ⟨?_, ?_⟩
  · rintro ⟨p, hp, haccepts⟩
    obtain ⟨labels, hwalk, hspelled⟩ := (hstates p).1 hp
    exact ⟨labels, p, hwalk, hspelled, haccepts⟩
  · rintro ⟨labels, p, hwalk, hspelled, haccepts⟩
    exact ⟨p, (hstates p).2 ⟨labels, hwalk, hspelled⟩, haccepts⟩

end PatternAutomata.Nfa
