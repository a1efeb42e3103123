/-
What an automaton accepts from its states, and how few states it can have.

The residual of a state is the set of words accepted from it. Minimization merges states only if their rules already lead
to the same states, so states that lead to one another may keep equal residuals. A finite residual leaves no room for
that: by induction on the longest word in it, two states of a trim and irreducible automaton that have it have the same
rules, hence are one state (`Trim.eq_of_residual_eq`). An automaton whose states have different residuals has the least
number of states, because any other automaton for its language needs a state for each of them
(`Trim.size_states_le`).
-/
import Mathlib.Computability.Language
import Mathlib.Data.Set.Finite.Lattice
import PatternAutomata.Proofs.Dfa.Trim

namespace PatternAutomata

namespace Dfa

variable {d e : Dfa} {p q : State}

/-- The words accepted from a state. -/
def residual (d : Dfa) (q : State) : Language Char := {w | d.isAcceptedAt (d.read q w) = true}

theorem nil_mem_residual_iff (d : Dfa) (q : State) : [] ∈ d.residual q ↔ d.isAccepting q = true := Iff.rfl

theorem cons_mem_residual_iff (d : Dfa) (q : State) (c : Char) (w : List Char) :
    c :: w ∈ d.residual q ↔ ∃ t, d.transition? q c = some t ∧ w ∈ d.residual t :=
  d.isAcceptedAt_read_cons_iff q c w

/-- What a character leads to has the same residual from states with the same residual. -/
theorem residual_eq_of_transition? (heq : d.residual p = d.residual q) {c : Char} {s t : State}
    (hp : d.transition? p c = some s) (hq : d.transition? q c = some t) : d.residual s = d.residual t := by
  have hstep : ∀ {a b : State}, d.transition? a c = some b → ∀ w, w ∈ d.residual b ↔ c :: w ∈ d.residual a := by
    intro a b hab w
    rw [cons_mem_residual_iff]
    refine ⟨fun h => ⟨b, hab, h⟩, ?_⟩
    rintro ⟨b', hb, h⟩
    exact Option.some.inj (hb.symm.trans hab) ▸ h
  ext w
  rw [hstep hp, hstep hq, heq]

/-- A character that leads somewhere from a state leads somewhere from every state with the same residual. -/
theorem Trim.exists_transition?_of_residual_eq (h : d.Trim) (heq : d.residual p = d.residual q) {c : Char} {s : State}
    (hp : d.transition? p c = some s) : ∃ t, d.transition? q c = some t := by
  obtain ⟨w, hw⟩ := h.productive s (d.mem_states_of_transition? hp)
  have hword : c :: w ∈ d.residual q := heq ▸ (d.cons_mem_residual_iff p c w).2 ⟨s, hp, hw⟩
  obtain ⟨t, ht, -⟩ := (d.cons_mem_residual_iff q c w).1 hword
  exact ⟨t, ht⟩

/-- Where no mergeable pair is left, states with the same residual are one state, if its words are bounded in length. -/
theorem Trim.eq_of_residual_eq (h : d.Trim) (hirr : d.Irreducible) (bound : Nat) (hp : p ∈ d.states) (hq : q ∈ d.states)
    (hbound : ∀ w ∈ d.residual p, w.length < bound) (heq : d.residual p = d.residual q) : p = q := by
  induction bound generalizing p q with
  | zero =>
    obtain ⟨w, hw⟩ := h.productive p hp
    exact absurd (hbound w hw) (Nat.not_lt_zero _)
  | succ bound ih =>
    refine hirr.eq hp hq (Bool.eq_iff_iff.2 ?_) fun c => ?_
    · rw [← nil_mem_residual_iff, ← nil_mem_residual_iff, heq]
    · cases hpc : d.transition? p c with
      | none =>
        cases hqc : d.transition? q c with
        | none => rfl
        | some t =>
          obtain ⟨s, hs⟩ := h.exists_transition?_of_residual_eq heq.symm hqc
          cases hpc.symm.trans hs
      | some s =>
        obtain ⟨t, hqc⟩ := h.exists_transition?_of_residual_eq heq hpc
        have hshorter : ∀ w ∈ d.residual s, w.length < bound := fun w hw =>
          Nat.lt_of_succ_lt_succ (hbound (c :: w) ((d.cons_mem_residual_iff p c w).2 ⟨s, hpc, hw⟩))
        rw [hqc, ih (d.mem_states_of_transition? hpc) (d.mem_states_of_transition? hqc) hshorter
          (residual_eq_of_transition? heq hpc hqc)]

/-- A finite set of words is bounded in length. -/
theorem exists_length_lt_of_finite (l : Language Char) (h : Set.Finite l) : ∃ bound, ∀ w ∈ l, w.length < bound := by
  obtain ⟨longest, hlongest⟩ := (h.image List.length).bddAbove
  exact ⟨longest + 1, fun w hw => Nat.lt_succ_of_le (hlongest ⟨w, hw, rfl⟩)⟩

/-! ## The least number of states -/

/-- The residual of a state holds what follows a word that leads to it. -/
theorem mem_residual_of_read (d : Dfa) (u w : List Char) (h : d.read d.initial u = ⟨q, []⟩) :
    w ∈ d.residual q ↔ d.acceptsWord (u ++ w) = true := by
  rw [acceptsWord, d.read_append u w h]
  rfl

/-- If finitely many words are accepted, finitely many are accepted from each state that is reached. -/
theorem Trim.finite_residual (h : d.Trim) (hfinite : Set.Finite {w | d.acceptsWord w = true}) (q : State)
    (hq : q ∈ d.states) : Set.Finite (d.residual q) := by
  obtain ⟨u, hu⟩ := h.reached q hq
  have hinjective : Function.Injective (u ++ · : List Char → List Char) := List.append_right_injective u
  refine (hfinite.preimage hinjective.injOn).subset fun w hw => ?_
  exact (d.mem_residual_of_read u w hu).1 hw

/-- A word that can be continued to an accepted one is read to its end. -/
theorem exists_read_of_isAcceptedAt_append (d : Dfa) (q : State) (u w : List Char)
    (h : d.isAcceptedAt (d.read q (u ++ w)) = true) : ∃ p, d.read q u = ⟨p, []⟩ := by
  induction u generalizing q with
  | nil => exact ⟨q, rfl⟩
  | cons c u ih =>
    obtain ⟨t, hstep, hrest⟩ := (d.isAcceptedAt_read_cons_iff q c (u ++ w)).1 h
    obtain ⟨p, hp⟩ := ih t hrest
    exact ⟨p, (d.read_cons_eq_iff c u).2 ⟨t, hstep, hp⟩⟩

/-- Every other automaton with the language of a trim automaton has a state with the residual of each of its states. -/
theorem Trim.exists_residual_eq (h : d.Trim) (hsame : ∀ w, e.acceptsWord w = d.acceptsWord w) (q : State)
    (hq : q ∈ d.states) : ∃ t, t ∈ e.states ∧ e.residual t = d.residual q := by
  obtain ⟨u, hu⟩ := h.reached q hq
  obtain ⟨v, hv⟩ := h.productive q hq
  have haccepted : e.acceptsWord (u ++ v) = true := (hsame _).trans ((d.mem_residual_of_read u v hu).1 hv)
  obtain ⟨t, ht⟩ := e.exists_read_of_isAcceptedAt_append e.initial u v haccepted
  refine ⟨t, e.mem_states_of_read u ht ((e.mem_states _).2 (Or.inl rfl)), ?_⟩
  ext w
  rw [e.mem_residual_of_read u w ht, d.mem_residual_of_read u w hu, hsame]

/-- A trim automaton whose states have different residuals has no more states than any other for its language. -/
theorem Trim.size_states_le (h : d.Trim)
    (hdistinct : ∀ p q, p ∈ d.states → q ∈ d.states → d.residual p = d.residual q → p = q)
    (hsame : ∀ w, e.acceptsWord w = d.acceptsWord w) : d.states.size ≤ e.states.size := by
  choose! image himage hresidual using h.exists_residual_eq hsame
  have hinjective : ∀ p ∈ d.states.toList, ∀ q ∈ d.states.toList, image p = image q → p = q := by
    intro p hp q hq heq
    rw [StateSet.mem_toList] at hp hq
    refine hdistinct p q hp hq ?_
    rw [← hresidual p hp, ← hresidual q hq, heq]
  have hnodup : (d.states.toList.map image).Nodup := d.states.nodup_toList.map_on hinjective
  have hsubset : d.states.toList.map image ⊆ e.states.toList := by
    intro t ht
    obtain ⟨q, hq, rfl⟩ := List.mem_map.1 ht
    exact StateSet.mem_toList.2 (himage q (StateSet.mem_toList.1 hq))
  calc d.states.size = (d.states.toList.map image).length := (List.length_map image).symm
    _ ≤ e.states.size := hnodup.length_le_of_subset hsubset

end Dfa

end PatternAutomata
