/-
Automata on new states.

As long as there are identifiers, states are handed out in ascending order, so an automaton that was built while the
draws went from `low` to `high` mentions states in between only (`Minted`). Automata built one after the other share no
state (`Minted.both`), and the next new states are mentioned by neither: that is what the languages of the combinators ask
for. Every combinator keeps the invariant, with the interval it adds its new states to.

- `Minting.run_union`, `Minting.run_star`, `Minting.run_plus`: the states that are drawn while there are identifiers.
- `Minted.union`, `Minted.concat`, `Minted.star`, `Minted.plus`: the invariant through the combinators.
- `Minted.language_union`, `Minted.language_star`, `Minted.language_plus`: their languages on the next new states.
-/
import PatternAutomata.Proofs.Nfa.Combinators

namespace PatternAutomata

/-! ## Draws -/

namespace Minting

variable {n : Nat}

theorem run_emptyWord (h : n + 1 ≤ 2 ^ 32) : emptyWord.run n = (Nfa.emptyWord n, n + 1) :=
  congrArg (fun q => (Nfa.emptyWord q, n + 1)) (identifier_of_lt h)

theorem run_character (h : n + 2 ≤ 2 ^ 32) (c : Char) :
    (character c).run n = (Nfa.character n (n + 1) c, n + 2) := by
  show (Nfa.character (identifier n) (identifier (n + 1)) c, n + 2) = _
  rw [identifier_of_lt (Nat.lt_of_succ_lt h), identifier_of_lt h]

theorem run_union (h : n + 1 ≤ 2 ^ 32) (left right : Nfa) :
    (union left right).run n = (Nfa.union n left right, n + 1) :=
  congrArg (fun q => (Nfa.union q left right, n + 1)) (identifier_of_lt h)

theorem run_star (h : n + 2 ≤ 2 ^ 32) (body : Nfa) : (star body).run n = (Nfa.star n (n + 1) body, n + 2) := by
  show (Nfa.star (identifier n) (identifier (n + 1)) body, n + 2) = _
  rw [identifier_of_lt (Nat.lt_of_succ_lt h), identifier_of_lt h]

theorem run_plus (h : n + 2 ≤ 2 ^ 32) (first rest : Nfa) :
    (plus first rest).run n = (Nfa.plus n (n + 1) first rest, n + 2) := by
  show (Nfa.plus (identifier n) (identifier (n + 1)) first rest, n + 2) = _
  rw [identifier_of_lt (Nat.lt_of_succ_lt h), identifier_of_lt h]

end Minting

namespace Nfa

open Computability

/-- All mentioned states lie between two counts of the states handed out, and no rule leads into the initial state. -/
structure Minted (m : Nfa) (low high : Nat) : Prop where
  bounds : ∀ q : Nat, m.Mentions q → low ≤ q ∧ q < high
  noEntry : m.NoEntry

namespace Minted

variable {m n : Nfa} {low mid high : Nat}

theorem lt (h : m.Minted low high) : low < high :=
  Nat.lt_of_le_of_lt (h.bounds _ m.mentions_initial).1 (h.bounds _ m.mentions_initial).2

/-- Later states are new. -/
theorem not_mentions (h : m.Minted low high) (q : Nat) (hq : high ≤ q) : ¬ m.Mentions q :=
  fun hm => Nat.lt_irrefl q (Nat.lt_of_lt_of_le (h.bounds q hm).2 hq)

theorem mono {low' high' : Nat} (h : m.Minted low high) (hlow : low' ≤ low) (hhigh : high ≤ high') :
    m.Minted low' high' where
  bounds q hq := ⟨Nat.le_trans hlow (h.bounds q hq).1, Nat.lt_of_lt_of_le (h.bounds q hq).2 hhigh⟩
  noEntry := h.noEntry

/-- Automata built one after the other share no state. -/
theorem apart (hm : m.Minted low mid) (hn : n.Minted mid high) : m.Apart n :=
  fun q h1 h2 => Nat.lt_irrefl q (Nat.lt_of_lt_of_le (hm.bounds q h1).2 (hn.bounds q h2).1)

/-- Automata built one after the other, put side by side. -/
theorem both (hm : m.Minted low mid) (hn : n.Minted mid high) :
    m.Minted low high ∧ n.Minted low high ∧ m.Apart n :=
  ⟨hm.mono (Nat.le_refl low) (Nat.le_of_lt hn.lt), hn.mono (Nat.le_of_lt hm.lt) (Nat.le_refl high), hm.apart hn⟩

/-! ## What the combinators keep -/

theorem emptyWord (q : Nat) : (Nfa.emptyWord q).Minted q (q + 1) where
  bounds s h := by
    obtain rfl := (mentions_emptyWord q s).1 h
    exact ⟨Nat.le_refl s, Nat.lt_succ_self s⟩
  noEntry := noEntry_emptyWord q

theorem character (q : Nat) (c : Char) : (Nfa.character q (q + 1) c).Minted q (q + 2) where
  bounds s h := by
    rcases (mentions_character q (q + 1) c s).1 h with rfl | rfl <;> omega
  noEntry := noEntry_character q (q + 1) c (Nat.ne_of_lt (Nat.lt_succ_self q))

theorem union (hm : m.Minted low high) (hn : n.Minted low high) : (Nfa.union high m n).Minted low (high + 1) where
  bounds s h := by
    have h1 := hm.lt
    rcases (mentions_union high m n s).1 h with rfl | h | h
    · omega
    · have := hm.bounds s h
      omega
    · have := hn.bounds s h
      omega
  noEntry := noEntry_union high m n (hm.not_mentions high (Nat.le_refl high)) (hn.not_mentions high (Nat.le_refl high))

theorem concat (hm : m.Minted low high) (hn : n.Minted low high) (happart : m.Apart n) :
    (Nfa.concat m n).Minted low high where
  bounds s h := by
    rcases mentions_of_mentions_concat m n s h with h | h
    · exact hm.bounds s h
    · exact hn.bounds s h
  noEntry := noEntry_concat m n hm.noEntry happart

theorem star (hm : m.Minted low high) : (Nfa.star high (high + 1) m).Minted low (high + 2) where
  bounds s h := by
    have h1 := hm.lt
    rcases (mentions_star high (high + 1) m s).1 h with rfl | rfl | h
    · omega
    · omega
    · have := hm.bounds s h
      omega
  noEntry := noEntry_star high (high + 1) m (hm.not_mentions high (Nat.le_refl high))
    (Nat.ne_of_lt (Nat.lt_succ_self high))

theorem plus (hm : m.Minted low high) (hn : n.Minted low high) (happart : m.Apart n) :
    (Nfa.plus high (high + 1) m n).Minted low (high + 2) where
  bounds s h := by
    have h1 := hm.lt
    rcases mentions_of_mentions_plus high (high + 1) m n s h with h | rfl | rfl | h
    · have := hm.bounds s h
      omega
    · omega
    · omega
    · have := hn.bounds s h
      omega
  noEntry := noEntry_plus high (high + 1) m n hm.noEntry happart (hm.not_mentions high (Nat.le_refl high))
    (hm.not_mentions (high + 1) (Nat.le_succ high))

/-! ## Languages on the next new states -/

theorem language_union (hm : m.Minted low high) (hn : n.Minted low high) (happart : m.Apart n) :
    (Nfa.union high m n).language = m.language + n.language :=
  Nfa.language_union high m n (hm.not_mentions high (Nat.le_refl high)) (hn.not_mentions high (Nat.le_refl high)) happart

theorem language_star (hm : m.Minted low high) : (Nfa.star high (high + 1) m).language = m.language∗ :=
  Nfa.language_star high (high + 1) m hm.noEntry (hm.not_mentions high (Nat.le_refl high))
    (hm.not_mentions (high + 1) (Nat.le_succ high)) (Nat.ne_of_lt (Nat.lt_succ_self high))

theorem language_plus (hm : m.Minted low high) (hn : n.Minted low high) (happart : m.Apart n) :
    (Nfa.plus high (high + 1) m n).language = m.language * n.language∗ :=
  Nfa.language_plus high (high + 1) m n hn.noEntry happart (hm.not_mentions high (Nat.le_refl high))
    (hm.not_mentions (high + 1) (Nat.le_succ high)) (hn.not_mentions high (Nat.le_refl high))
    (hn.not_mentions (high + 1) (Nat.le_succ high)) (Nat.ne_of_lt (Nat.lt_succ_self high))

end Minted

end Nfa

end PatternAutomata
