/-
The rules that epsilon elimination leaves.

A state leads to another by a character if epsilon rules, then one rule for the character and then epsilon rules again
take it there (`Leads`). Elimination makes one rule of each such way: a state that is known has a key for a character if
it leads anywhere by it, and the key holds all that it leads to.

The rules grow by this, since a state takes over what its closure can do, and still a second elimination finds nothing
to do. After the first one no key reads nothing and every key leads somewhere (`Direct`), and where that holds each
state is its own closure, so that it leads just where its rules lead.

- `mem_directRules_iff`, `mem_destinations_withoutEpsilon_iff`: the keys that are left, and where they lead.
- `withoutEpsilon_eq_self`: elimination leaves an automaton with direct rules as it is.
- `withoutEpsilon_withoutEpsilon`: eliminating twice, what elimination leaves alone, and what it makes of the rest.
-/
import PatternAutomata.Proofs.Nfa.Elimination

namespace PatternAutomata.Nfa

/-- Epsilon rules, one rule for the character and epsilon rules again lead from the first state to the second. -/
def Leads (m : Nfa) (q : State) (c : Char) (p : State) : Prop :=
  ∃ r t, Reaches m.Silent q r ∧ t ∈ m.rules.destinations r (.char c) ∧ Reaches m.Silent t p

/-- No key reads nothing, and every key leads somewhere. -/
structure Direct (m : Nfa) : Prop where
  hasEpsilon : m.rules.hasEpsilon = false
  nonempty : ∀ key : State × Symbol, m.rules[key]? ≠ some ∅

/-! ## What the rules hold -/

theorem mem_step_closure_iff (m : Nfa) (q : State) (c : Char) (p : State) :
    p ∈ m.step (m.closure q) c ↔ m.Leads q c p := by
  simp only [mem_step_iff, mem_closure_iff, Leads, exists_and_left]

theorem mem_destinations_withoutEpsilon_iff (m : Nfa) (q : State) (c : Char) (p : State) :
    p ∈ m.withoutEpsilon.rules.destinations q (.char c) ↔ m.Leads q c p :=
  (m.mem_destinations_withoutEpsilon q c p).trans (m.mem_step_closure_iff q c p)

theorem mem_states_iff (m : Nfa) (q : State) : q ∈ m.states ↔ q = m.initial ∨ q ∈ m.rules.states :=
  StateSet.mem_insert

/-- A state that is known has a key for each character by which it leads anywhere. -/
theorem mem_directRules_iff (m : Nfa) (q : State) (c : Char) :
    (q, Symbol.char c) ∈ m.directRules ↔ q ∈ m.states ∧ ∃ p, m.Leads q c p := by
  have hleads : (m.step (m.closure q) c).isEmpty = false ↔ ∃ p, m.Leads q c p := by
    simp only [StateSet.isEmpty_eq_false_iff, mem_step_closure_iff]
  rw [Std.ExtTreeMap.mem_iff_isSome_getElem?, getElem?_directRules_char, ← hleads]
  split
  · exact iff_of_true rfl ‹_›
  · exact iff_of_false Bool.false_ne_true ‹_›

theorem direct_withoutEpsilon (m : Nfa) : m.withoutEpsilon.Direct where
  hasEpsilon := m.hasEpsilon_withoutEpsilon
  nonempty key hkey := by
    change m.directRules[key]? = some ∅ at hkey
    obtain ⟨q, a⟩ := key
    cases a with
    | epsilon =>
      rw [getElem?_directRules_epsilon] at hkey
      cases hkey
    | char c =>
      rw [getElem?_directRules_char] at hkey
      split at hkey
      · rename_i hsome
        obtain ⟨p, hp⟩ := (StateSet.isEmpty_eq_false_iff _).1 hsome.2
        rw [Option.some.inj hkey] at hp
        exact StateSet.not_mem_empty p hp
      · cases hkey

/-! ## Where there is nothing to eliminate -/

section Direct

variable {m : Nfa} (h : m.Direct)
include h

/-- A state leads just where its rules lead. -/
theorem step_closure_eq_destinations (q : State) (c : Char) :
    m.step (m.closure q) c = m.rules.destinations q (.char c) := by
  refine StateSet.ext fun p => ?_
  rw [step, closureOf_eq_self h.hasEpsilon, closure, closureOf_eq_self h.hasEpsilon, mem_move_iff]
  simp only [StateSet.mem_singleton, exists_eq_left]

theorem directRules_eq_self : m.directRules = m.rules := by
  refine Std.ExtTreeMap.ext_getElem? fun key => ?_
  obtain ⟨q, a⟩ := key
  cases a with
  | epsilon => rw [getElem?_directRules_epsilon, (Rules.hasEpsilon_eq_false_iff _).1 h.hasEpsilon q]
  | char c =>
    rw [getElem?_directRules_char, step_closure_eq_destinations h, Rules.destinations]
    cases hkey : m.rules[(q, Symbol.char c)]? with
    | none => exact if_neg fun hsome => Bool.false_ne_true hsome.2.symm
    | some s =>
      -- the key leads somewhere, so its state is one of those that get rules
      have hs : s.isEmpty = false := by
        rw [← Bool.not_eq_true, StateSet.isEmpty_iff]
        intro hnone
        have hempty : s = ∅ := StateSet.ext fun p => iff_of_false (hnone p) (StateSet.not_mem_empty p)
        exact h.nonempty _ (hempty ▸ hkey)
      have hq : q ∈ m.states :=
        (m.mem_states_iff q).2 (Or.inr ((m.rules.mem_states q).2 ⟨_, s, hkey, Or.inl rfl⟩))
      exact if_pos ⟨hq, hs⟩

theorem directAccepts_eq_self : m.directAccepts = m.accepts := by
  refine StateSet.ext fun q => (m.mem_directAccepts q).trans ⟨?_, Or.inl⟩
  rintro (hq | ⟨rfl, p, hreach, hp⟩)
  · exact hq
  · cases hreach with
    | refl => exact hp
    | tail _ hstep => exact absurd hstep (not_silent_of_hasEpsilon h.hasEpsilon _ _)

/-- Elimination leaves an automaton with direct rules as it is. -/
theorem withoutEpsilon_eq_self : m.withoutEpsilon = m := by
  rw [withoutEpsilon, directAccepts_eq_self h, directRules_eq_self h]

end Direct

/-- **Eliminating twice** is eliminating once. Elimination leaves an automaton as it is if and only if no key of it
reads nothing and every key leads somewhere. Whatever the automaton, no key that reads nothing is left; a state that is
initial or mentioned by a rule has a key for a character if and only if it leads anywhere by the character, other states
have none, and where a state leads by its rules afterwards is exactly where it leads by the character. -/
theorem withoutEpsilon_withoutEpsilon (m : Nfa) :
    m.withoutEpsilon.withoutEpsilon = m.withoutEpsilon ∧
    (m.withoutEpsilon = m ↔ (∀ q : State, m.rules[(q, Symbol.epsilon)]? = none) ∧
      ∀ key : State × Symbol, m.rules[key]? ≠ some ∅) ∧
    (∀ q : State, m.withoutEpsilon.rules[(q, Symbol.epsilon)]? = none) ∧
    (∀ (q : State) (c : Char), (q, Symbol.char c) ∈ m.withoutEpsilon.rules ↔
      (q = m.initial ∨ q ∈ m.rules.states) ∧ ∃ p, m.Leads q c p) ∧
    ∀ q c p, p ∈ m.withoutEpsilon.rules.destinations q (.char c) ↔ m.Leads q c p := by
  refine ⟨withoutEpsilon_eq_self m.direct_withoutEpsilon, ⟨fun heq => ?_, fun hdirect => ?_⟩,
    m.getElem?_directRules_epsilon, fun q c => ?_, m.mem_destinations_withoutEpsilon_iff⟩
  · have hdirect := m.direct_withoutEpsilon
    rw [heq] at hdirect
    exact ⟨(Rules.hasEpsilon_eq_false_iff _).1 hdirect.hasEpsilon, hdirect.nonempty⟩
  · exact withoutEpsilon_eq_self ⟨(Rules.hasEpsilon_eq_false_iff _).2 hdirect.1, hdirect.2⟩
  · rw [← m.mem_states_iff]
    exact m.mem_directRules_iff q c

end PatternAutomata.Nfa
