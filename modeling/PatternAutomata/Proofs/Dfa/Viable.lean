/-
How far an automaton reads a word.

A word is viable in a language if it can be continued to a word of the language. A trim automaton has no state from which
acceptance is out of reach, so it reads exactly the viable words to their end, and any word as far as its longest viable
prefix. A cursor starts every word over, so what it was used on before comes into none of this.

- `Trim.exists_read_iff`: what is read to its end is what is viable.
- `Trim.longestViable_read`: a reading stops after the longest viable prefix.
- `Cursor.matchWord_eq`: what a cursor answers and where it stays, by its automaton alone.
-/
import PatternAutomata.Proofs.Dfa.Residual

namespace PatternAutomata

/-- The word can be continued to one of the language. -/
def Viable (l : Language Char) (u : List Char) : Prop := ∃ v, u ++ v ∈ l

/-- The first word is the longest viable beginning of the second. -/
structure LongestViable (l : Language Char) (u w : List Char) : Prop where
  starts : u <+: w
  viable : Viable l u
  longest : ∀ x, x <+: w → Viable l x → x <+: u

namespace Dfa

variable {d : Dfa} {l : Language Char}

/-- A word splits where its reading stops: the part before is read to its end, and no rule reads the character after. -/
theorem exists_read_eq (d : Dfa) (q : State) (w : List Char) :
    ∃ u v p, w = u ++ v ∧ d.read q u = ⟨p, []⟩ ∧ d.read q w = ⟨p, v⟩ ∧
      ∀ c rest, v = c :: rest → d.transition? p c = none := by
  induction w generalizing q with
  | nil => exact ⟨[], [], q, rfl, rfl, rfl, fun c rest h => absurd h (List.cons_ne_nil c rest).symm⟩
  | cons c w ih =>
    cases hstep : d.transition? q c with
    | none =>
      refine ⟨[], c :: w, q, rfl, rfl, by rw [read, hstep], fun a rest h => ?_⟩
      obtain ⟨rfl, -⟩ := List.cons.inj h
      exact hstep
    | some t =>
      obtain ⟨u, v, p, hw, hu, hread, hstuck⟩ := ih t
      refine ⟨c :: u, v, p, by rw [hw, List.cons_append], (d.read_cons_eq_iff c u).2 ⟨t, hstep, hu⟩, ?_, hstuck⟩
      rw [read, hstep]
      exact hread

/-- A trim automaton reads a word to its end exactly if the word is viable. -/
theorem Trim.exists_read_iff (h : d.Trim) (hl : ∀ w, d.acceptsWord w = true ↔ w ∈ l) (u : List Char) :
    (∃ p, d.read d.initial u = ⟨p, []⟩) ↔ Viable l u := by
  refine ⟨?_, ?_⟩
  · intro hread
    obtain ⟨p, hp⟩ := hread
    obtain ⟨v, hv⟩ := h.productive p (d.mem_states_of_read u hp ((d.mem_states _).2 (Or.inl rfl)))
    exact ⟨v, (hl _).1 ((d.mem_residual_of_read u v hp).1 hv)⟩
  · intro hviable
    obtain ⟨v, hv⟩ := hviable
    exact d.exists_read_of_isAcceptedAt_append d.initial u v ((hl _).2 hv)

/-- A trim automaton stops reading after the longest viable prefix. -/
theorem Trim.longestViable_read (h : d.Trim) (hl : ∀ w, d.acceptsWord w = true ↔ w ∈ l) (w : List Char) :
    ∃ u v p, w = u ++ v ∧ LongestViable l u w ∧ d.read d.initial u = ⟨p, []⟩ ∧ d.read d.initial w = ⟨p, v⟩ := by
  obtain ⟨u, v, p, hw, hu, hread, hstuck⟩ := d.exists_read_eq d.initial w
  refine ⟨u, v, p, hw, ⟨hw ▸ List.prefix_append u v, (h.exists_read_iff hl u).1 ⟨p, hu⟩, fun x hx hviable => ?_⟩, hu, hread⟩
  rcases List.prefix_or_prefix_of_prefix hx (hw ▸ List.prefix_append u v) with hxu | ⟨y, rfl⟩
  · exact hxu
  · -- a viable prefix beyond `u` would be read past the place where no rule goes on
    obtain ⟨t, ht⟩ := (h.exists_read_iff hl _).2 hviable
    rw [d.read_append u y hu] at ht
    cases y with
    | nil => rw [List.append_nil]
    | cons c y =>
      obtain ⟨s, hs, -⟩ := (d.read_cons_eq_iff c y).1 ht
      obtain ⟨z, hz⟩ := hx
      rw [hw, List.append_assoc] at hz
      cases (hstuck c (y ++ z) (List.append_cancel_left hz).symm).symm.trans hs

namespace Cursor

/-- A cursor after it was used on some words, one after the other. -/
def after (k : Cursor) (history : List (List Char)) : Cursor := history.foldl (fun k w => (k.matchWord w).2) k

theorem dfa_after (k : Cursor) (history : List (List Char)) : (k.after history).dfa = k.dfa := by
  unfold after
  induction history generalizing k with
  | nil => rfl
  | cons w history ih => exact ih (k.matchWord w).2

/-- What a cursor answers, and where it stays, is told by its automaton alone. -/
theorem matchWord_eq (k : Cursor) (w : List Char) :
    k.matchWord w = (k.dfa.acceptsWord w, ⟨k.dfa, (k.dfa.read k.dfa.initial w).state⟩) := rfl

end Cursor

end Dfa

end PatternAutomata
