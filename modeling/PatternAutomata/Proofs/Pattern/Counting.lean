/-
The states of the automaton of a tree, one by one.

Assembling along spines comes to the same as assembling node by node: a node's operands one after the other, from left to
right, and then the combinator of the node (`assembleEach`). A spine may lean to one side for long and its operands may
be spines of their own; each of its nodes still draws its states when node by node assembly would.

So the numbers handed out follow the tree, and `stateCount` says by recursion how many there are. As long as they are
identifiers, what is assembled is on these numbers and on all of them. None is idle: each is reached from the initial
state and leads on to acceptance. The parts of that hang together. A sequence mentions and reaches its second operand
only if the first one accepts somewhere, which it does because it has no dead ends.

- `run_assemble_eq`: assembling along spines is assembling node by node.
- `mentions_assemble_iff`: the states handed out are all used, and no others.
- `assemble_fills`: these, no rule into the initial state, an accepting state, and no idle state.
-/
import PatternAutomata.Proofs.Nfa.Accessible
import PatternAutomata.Proofs.Pattern.Compiled

namespace PatternAutomata.Tree

/-! ## Node by node -/

/-- The automaton of a tree, assembled by plain recursion: the operands of each node from left to right, then the
combinator of the node. -/
def assembleEach : Tree → Minting Nfa
  | empty => Minting.emptyWord
  | literal c => Minting.character c
  | union left right => do
    let l ← left.assembleEach
    let r ← right.assembleEach
    Minting.union l r
  | concat first second => do
    let f ← first.assembleEach
    let s ← second.assembleEach
    return Nfa.concat f s
  | star body => do
    let b ← body.assembleEach
    Minting.star b
  | plus body => do
    let first ← body.assembleEach
    let rest ← body.assembleEach
    Minting.plus first rest

theorem assemble_eq_assembleEach (t : Tree) : t.assemble = t.assembleEach := by
  induction t with
  | empty => rw [assemble, assembleEach]
  | literal c => rw [assemble, assembleEach]
  | union left right ihl ihr => rw [assemble_union, assembleEach, ihl, ihr]
  | concat first second ihf ihs => rw [assemble_concat, assembleEach, ihf, ihs]
  | star body ih => rw [assemble, assembleEach, ih]
  | plus body ih => rw [assemble, assembleEach, ih]

/-- **Spines.** From any count of states handed out, assembling along spines gives the automaton that plain recursion
gives, state by state, and leaves the same count. -/
theorem run_assemble_eq (t : Tree) (n : Nat) : t.assemble.run n = t.assembleEach.run n := by
  rw [assemble_eq_assembleEach]

/-! ## Which states there are -/

/-- Acceptance can be reached from the initial state. -/
theorem live_initial_assemble (t : Tree) (n : Nat) : (t.assemble.run n).1.Live (t.assemble.run n).1.initial :=
  t.productive_assemble n _ (Nfa.mentions_initial _)

/-- The states handed out are all used, and no others are. -/
theorem mentions_assemble_iff (t : Tree) (n q : Nat) (hcount : n + t.stateCount ≤ 2 ^ 32) :
    (t.assemble.run n).1.Mentions q ↔ n ≤ q ∧ q < n + t.stateCount := by
  induction t generalizing n with
  | empty =>
    rw [assemble, Minting.run_emptyWord hcount]
    refine (Nfa.mentions_emptyWord n q).trans ?_
    simp only [stateCount, State]
    omega
  | literal c =>
    rw [assemble, Minting.run_character hcount]
    refine (Nfa.mentions_character n (n + 1) c q).trans ?_
    simp only [stateCount, State]
    omega
  | union left right ihl ihr =>
    rw [stateCount] at hcount ⊢
    simp only [run_union, run_assemble_snd, Nfa.mentions_union]
    rw [identifier_of_lt (by omega), ihl n (by omega), ihr _ (by omega)]
    simp only [State]
    omega
  | concat first second ihf ihs =>
    rw [stateCount] at hcount ⊢
    simp only [run_concat, run_assemble_snd, Nfa.mentions_concat_iff _ _ (first.live_initial_assemble n).exists_accepts]
    rw [ihf n (by omega), ihs _ (by omega)]
    omega
  | star body ih =>
    rw [stateCount] at hcount ⊢
    simp only [run_star, run_assemble_snd, Nfa.mentions_star]
    rw [identifier_of_lt (by omega), identifier_of_lt (by omega), ih n (by omega)]
    simp only [State]
    omega
  | plus body ih =>
    rw [stateCount] at hcount ⊢
    simp only [run_plus, run_assemble_snd,
      Nfa.mentions_plus_iff _ _ _ _ (body.live_initial_assemble n).exists_accepts]
    rw [identifier_of_lt (by omega), identifier_of_lt (by omega), ih n (by omega), ih _ (by omega)]
    simp only [State]
    omega

/-! ## What the states are for -/

/-- What is assembled has no state that is not reached. -/
theorem accessible_assemble (t : Tree) (n : Nat) : (t.assemble.run n).1.Accessible := by
  induction t generalizing n with
  | empty => rw [assemble]; exact Nfa.accessible_emptyWord (identifier n)
  | literal c => rw [assemble]; exact Nfa.accessible_character (identifier n) (identifier (n + 1)) c
  | union left right ihl ihr => rw [run_union]; exact Nfa.accessible_union _ _ _ (ihl n) (ihr _)
  | concat first second ihf ihs =>
    rw [run_concat]
    exact Nfa.accessible_concat _ _ (ihf n) (ihs _) (first.live_initial_assemble n)
  | star body ih => rw [run_star]; exact Nfa.accessible_star _ _ _ (ih n)
  | plus body ih =>
    rw [run_plus]
    exact Nfa.accessible_plus _ _ _ _ (ih n) (ih _) (body.live_initial_assemble n)

/-- **No idle states.** Assembling a tree with `n` states handed out hands out as many more as the tree takes, so the
counter goes to the sum unless it starts over there, and as long as they have identifiers the automaton is on exactly
these states. No rule leads into its initial state, and some state accepts. The states that are reached from the initial
one by the rules of the automaton are exactly those handed out, and so are the states from which the rules lead to an
accepting one. -/
theorem assemble_fills (t : Tree) (n : Nat) (hcount : n + t.stateCount ≤ 2 ^ 32) :
    let m := (t.assemble.run n).1
    (t.assemble.run n).2 = n + t.stateCount ∧
    (n + t.stateCount < 2 ^ 32 → identifier (t.assemble.run n).2 = n + t.stateCount) ∧
    (∀ q, m.Mentions q ↔ n ≤ q ∧ q < n + t.stateCount) ∧
    (∀ q a, ¬ m.initial ∈ m.rules.destinations q a) ∧
    (∃ p, p ∈ m.accepts) ∧
    (∀ q, (∃ w, m.Path m.initial w q) ↔ n ≤ q ∧ q < n + t.stateCount) ∧
    ∀ q, (∃ w p, p ∈ m.accepts ∧ m.Path q w p) ↔ n ≤ q ∧ q < n + t.stateCount := by
  intro m
  have hstates := fun q => t.mentions_assemble_iff n q hcount
  refine ⟨t.run_assemble_snd n, fun hlt => ?_, hstates, (t.minted_assemble n hcount).noEntry,
    (t.live_initial_assemble n).exists_accepts, fun q => ?_, fun q => ?_⟩
  · rw [run_assemble_snd, identifier_of_lt hlt]
  · rw [← hstates q]
    exact ⟨Nfa.Reached.mentions, t.accessible_assemble n q⟩
  · rw [← hstates q]
    exact ⟨Nfa.Live.mentions, t.productive_assemble n q⟩

/-- A repeated letter, which leaves the counter at the last identifier. -/
theorem assemble_fills_star :
    let t : Tree := .star (.literal 'a')
    let n := 2 ^ 32 - 5
    let m := (t.assemble.run n).1
    n + t.stateCount < 2 ^ 32 ∧ (t.assemble.run n).2 = n + 4 ∧ identifier (t.assemble.run n).2 = n + 4 ∧
    (∀ q, m.Mentions q ↔ n ≤ q ∧ q < n + 4) ∧
    (∀ q a, ¬ m.initial ∈ m.rules.destinations q a) ∧
    (∃ p, p ∈ m.accepts) ∧
    (∀ q, (∃ w, m.Path m.initial w q) ↔ n ≤ q ∧ q < n + 4) ∧
    ∀ q, (∃ w p, p ∈ m.accepts ∧ m.Path q w p) ↔ n ≤ q ∧ q < n + 4 := by
  intro t n m
  have hlt : n + t.stateCount < 2 ^ 32 := by decide
  obtain ⟨hdrawn, hcounter, hrest⟩ := assemble_fills t n (Nat.le_of_lt hlt)
  exact ⟨hlt, hdrawn, hcounter hlt, hrest⟩

end PatternAutomata.Tree
