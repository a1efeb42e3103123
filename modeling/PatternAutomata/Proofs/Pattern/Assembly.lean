/-
The automaton of a tree accepts the language of the tree, and so do the automata compiled from it.

The induction on the tree carries three facts at once: the draws go up by the states of the tree, the states of the
automaton are those handed out meanwhile, and the automaton has the language of the tree. The second gives the new and
distinct states that the language theorems of the combinators ask for. It needs identifiers for all states, and the subset
automaton needs them for all sets of these: that is what a tree has to keep to (`Identified`). Every tree of up to 32
states does, since there are no more sets then.

- `run_union`, `run_concat`, `run_star`, `run_plus`: what is assembled from where the draws stand.
- `run_assemble_snd`: how many states are handed out.
- `minted_assemble`, `language_assemble`: the states and the language of what is assembled.
- `acceptsWord_toDfa_minimize`: minimizing changes no answer, with or without enough identifiers.
- `routes_agree`: simulation, subset automaton and minimized automaton accept the language of the tree.
-/
import PatternAutomata.Proofs.Dfa.Merging
import PatternAutomata.Proofs.Dfa.Subsets
import PatternAutomata.Proofs.Nfa.Minting
import PatternAutomata.Proofs.Pattern.Language
import PatternAutomata.Regex

namespace PatternAutomata

/-- The members of a discovered set are states of the automaton that epsilon rules were eliminated from. -/
theorem Nfa.mentions_of_mem_subsets (m : Nfa) (s : StateSet) (hs : s ∈ m.withoutEpsilon.subsets) (q : State)
    (hq : q ∈ s) : m.Mentions q := by
  obtain ⟨w, rfl⟩ := m.exists_subsetAfter s hs
  by_cases hw : w = []
  · subst hw
    exact StateSet.mem_singleton.1 hq ▸ m.mentions_initial
  · rw [Nfa.subsetAfter, m.foldl_move_withoutEpsilon w hw, Nfa.mem_statesAfter_iff] at hq
    exact hq.mentions m.mentions_initial

namespace Tree

/-! ## Runs -/

theorem run_union (left right : Tree) (n : Nat) :
    (union left right).assemble.run n =
      (let l := left.assemble.run n
       let r := right.assemble.run l.2
       (Nfa.union (identifier r.2) l.1 r.1, r.2 + 1)) := by
  rw [assemble_union]
  rfl

theorem run_concat (first second : Tree) (n : Nat) :
    (concat first second).assemble.run n =
      (let f := first.assemble.run n
       let s := second.assemble.run f.2
       (Nfa.concat f.1 s.1, s.2)) := by
  rw [assemble_concat]
  rfl

theorem run_star (body : Tree) (n : Nat) :
    (star body).assemble.run n =
      (let b := body.assemble.run n
       (Nfa.star (identifier b.2) (identifier (b.2 + 1)) b.1, b.2 + 2)) := by
  rw [assemble]
  rfl

theorem run_plus (body : Tree) (n : Nat) :
    (plus body).assemble.run n =
      (let f := body.assemble.run n
       let r := body.assemble.run f.2
       (Nfa.plus (identifier r.2) (identifier (r.2 + 1)) f.1 r.1, r.2 + 2)) := by
  rw [assemble]
  rfl

/-- How many states a tree takes. -/
def stateCount : Tree → Nat
  | empty => 1
  | literal _ => 2
  | union left right => 1 + left.stateCount + right.stateCount
  | concat first second => first.stateCount + second.stateCount
  | star body => 2 + body.stateCount
  | plus body => 2 + 2 * body.stateCount

/-- So many states are handed out. -/
theorem run_assemble_snd (t : Tree) (n : Nat) : (t.assemble.run n).2 = n + t.stateCount := by
  induction t generalizing n with
  | empty => rw [assemble]; rfl
  | literal c => rw [assemble]; rfl
  | union left right ihl ihr => simp only [run_union, ihl, ihr, stateCount]; omega
  | concat first second ihf ihs => simp only [run_concat, ihf, ihs, stateCount]; omega
  | star body ih => simp only [run_star, ih, stateCount]; omega
  | plus body ih => simp only [run_plus, ih, stateCount]; omega

/-! ## States and language -/

/-- What is assembled has the states handed out meanwhile, as long as there are identifiers for them. -/
theorem minted_assemble (t : Tree) (n : Nat) (hcount : n + t.stateCount ≤ 2 ^ 32) :
    (t.assemble.run n).1.Minted n (n + t.stateCount) := by
  induction t generalizing n with
  | empty =>
    rw [assemble, Minting.run_emptyWord hcount]
    exact .emptyWord n
  | literal c =>
    rw [assemble, Minting.run_character hcount]
    exact .character n c
  | union left right ihl ihr =>
    rw [stateCount] at hcount
    obtain ⟨hl, hr, -⟩ := (ihl n (by omega)).both (ihr _ (by omega))
    rw [run_union]
    simp only [run_assemble_snd]
    rw [identifier_of_lt (by omega)]
    exact (hl.union hr).mono (Nat.le_refl n) (by rw [stateCount]; omega)
  | concat first second ihf ihs =>
    rw [stateCount] at hcount
    obtain ⟨hf, hs, happart⟩ := (ihf n (by omega)).both (ihs _ (by omega))
    rw [run_concat]
    simp only [run_assemble_snd]
    exact (hf.concat hs happart).mono (Nat.le_refl n) (by rw [stateCount]; omega)
  | star body ih =>
    rw [stateCount] at hcount
    rw [run_star]
    simp only [run_assemble_snd]
    rw [identifier_of_lt (by omega), identifier_of_lt (by omega)]
    exact (ih n (by omega)).star.mono (Nat.le_refl n) (by rw [stateCount]; omega)
  | plus body ih =>
    rw [stateCount] at hcount
    obtain ⟨hf, hr, happart⟩ := (ih n (by omega)).both (ih _ (by omega))
    rw [run_plus]
    simp only [run_assemble_snd]
    rw [identifier_of_lt (by omega), identifier_of_lt (by omega)]
    exact (hf.plus hr happart).mono (Nat.le_refl n) (by rw [stateCount]; omega)

/-- What is assembled has the language of the tree, as long as there are identifiers for its states. -/
theorem language_assemble (t : Tree) (n : Nat) (hcount : n + t.stateCount ≤ 2 ^ 32) :
    (t.assemble.run n).1.language = t.language := by
  induction t generalizing n with
  | empty =>
    rw [assemble, Minting.run_emptyWord hcount]
    exact Nfa.language_emptyWord n
  | literal c =>
    rw [assemble, Minting.run_character hcount]
    exact Nfa.language_character n (n + 1) c (Nat.ne_of_lt (Nat.lt_succ_self n))
  | union left right ihl ihr =>
    rw [stateCount] at hcount
    have hright : n + left.stateCount + right.stateCount ≤ 2 ^ 32 := by omega
    obtain ⟨hl, hr, happart⟩ := (left.minted_assemble n (by omega)).both (right.minted_assemble _ hright)
    rw [run_union]
    simp only [run_assemble_snd]
    rw [identifier_of_lt (by omega), language, ← ihl n (by omega), ← ihr _ hright]
    exact hl.language_union hr happart
  | concat first second ihf ihs =>
    rw [stateCount] at hcount
    have hsecond : n + first.stateCount + second.stateCount ≤ 2 ^ 32 := by omega
    obtain ⟨-, -, happart⟩ := (first.minted_assemble n (by omega)).both (second.minted_assemble _ hsecond)
    rw [run_concat]
    simp only [run_assemble_snd]
    rw [language, ← ihf n (by omega), ← ihs _ hsecond]
    exact Nfa.language_concat _ _ happart
  | star body ih =>
    rw [stateCount] at hcount
    rw [run_star]
    simp only [run_assemble_snd]
    rw [identifier_of_lt (by omega), identifier_of_lt (by omega), language, ← ih n (by omega)]
    exact (body.minted_assemble n (by omega)).language_star
  | plus body ih =>
    rw [stateCount] at hcount
    have hrest : n + body.stateCount + body.stateCount ≤ 2 ^ 32 := by omega
    obtain ⟨hf, hr, happart⟩ := (body.minted_assemble n (by omega)).both (body.minted_assemble _ hrest)
    rw [run_plus]
    simp only [run_assemble_snd]
    rw [identifier_of_lt (by omega), identifier_of_lt (by omega), language]
    exact (hf.language_plus hr happart).trans (by rw [ih n (by omega), ih _ hrest])

/-! ## Trees that keep to the identifiers -/

/-- There are identifiers for the states that are assembled and for the sets of them that the subset automaton is made
of. -/
structure Identified (t : Tree) : Prop where
  states : t.stateCount ≤ 2 ^ 32
  subsets : t.toNfa.withoutEpsilon.subsets.length ≤ 2 ^ 32

/-- There are no more sets than those of the states handed out. -/
theorem length_subsets_le (t : Tree) (hcount : t.stateCount ≤ 2 ^ 32) :
    t.toNfa.withoutEpsilon.subsets.length ≤ 2 ^ t.stateCount := by
  have hminted := t.minted_assemble 0 (by omega)
  have hle := t.toNfa.withoutEpsilon.length_subsets_le_of_mem (List.range t.stateCount) fun s hs q hq => by
    have hmentions := t.toNfa.mentions_of_mem_subsets s hs q hq
    have hbounds := (hminted.bounds q hmentions).2
    exact List.mem_range.2 (by omega)
  rwa [List.length_range] at hle

/-- So trees of up to 32 states keep to the identifiers, whatever they are. -/
theorem Identified.of_stateCount_le {t : Tree} (h : t.stateCount ≤ 32) : t.Identified where
  states := h.trans (by decide)
  subsets := (t.length_subsets_le (h.trans (by decide))).trans (Nat.pow_le_pow_right (by decide) h)

/-! ## The three routes -/

theorem acceptsWord_toNfa (t : Tree) (hcount : t.stateCount ≤ 2 ^ 32) (w : List Char) :
    t.toNfa.acceptsWord w = true ↔ w ∈ t.language := by
  rw [Nfa.acceptsWord_iff_mem_language]
  unfold toNfa
  rw [language_assemble t 0 (by omega)]

/-- Minimizing changes no answer, whether or not there are identifiers enough. -/
theorem acceptsWord_toDfa_minimize (t : Tree) (minimize : Bool) (w : List Char) :
    (t.toDfa minimize).acceptsWord w = t.toNfa.toDfa.acceptsWord w := by
  cases minimize with
  | false => rfl
  | true =>
    obtain ⟨r, hr⟩ := t.toNfa.toDfa.exists_folds_minimize
    exact hr.acceptsWord w

/-- The compiled automaton accepts the language of the tree, minimized or not. -/
theorem Identified.acceptsWord_toDfa_iff {t : Tree} (h : t.Identified) (minimize : Bool) (w : List Char) :
    (t.toDfa minimize).acceptsWord w = true ↔ w ∈ t.language := by
  rw [acceptsWord_toDfa_minimize, t.toNfa.acceptsWord_toDfa h.subsets, t.acceptsWord_toNfa h.states]

/-- **The three routes agree.** The simulation of the assembled automaton, the compiled automaton and the minimized one
accept exactly the words of the language of the tree, as long as there are identifiers for their states. -/
theorem routes_agree (t : Tree) (h : t.Identified) (w : List Char) :
    (t.toNfa.acceptsWord w = true ↔ w ∈ t.language) ∧
    (((t.toDfa false).cursor.matchWord w).1 = true ↔ w ∈ t.language) ∧
    (((t.toDfa true).cursor.matchWord w).1 = true ↔ w ∈ t.language) :=
  ⟨t.acceptsWord_toNfa h.states w, h.acceptsWord_toDfa_iff false w, h.acceptsWord_toDfa_iff true w⟩

/-- A repetition of a repetition, on a word of two rounds. -/
theorem routes_agree_repeated :
    let t : Tree := .plus (.star (.union (.literal 'a') .empty))
    t.Identified ∧
    (t.toNfa.acceptsWord ['a', 'a'] = true ↔ ['a', 'a'] ∈ t.language) ∧
    (((t.toDfa false).cursor.matchWord ['a', 'a']).1 = true ↔ ['a', 'a'] ∈ t.language) ∧
    (((t.toDfa true).cursor.matchWord ['a', 'a']).1 = true ↔ ['a', 'a'] ∈ t.language) := by
  intro t
  have hidentified : t.Identified := .of_stateCount_le (by decide)
  exact ⟨hidentified, routes_agree t hidentified ['a', 'a']⟩

end Tree

end PatternAutomata
