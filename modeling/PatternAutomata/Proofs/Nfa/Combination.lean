/-
Languages through any number of combinators.

A combinator takes operands that share no state, on states handed out before, into whose initial states no rule leads. As
long as there are identifiers for its new states, it gives an automaton for the combined language of the same kind: on the
states of its operands and new ones (`Makes`). So the result can be an operand again. Where the identifiers start over, a
new state can be one of the operand (`star_overrun`).

A stock holds the automata at hand, each with how it was made. A call of a combinator takes its operands out of the stock
and puts the result there, since an operand that was used may not be used again. Whatever calls are made, in whatever
order, each automaton in the stock accepts what its making says (`Stock.Sound`).

- `makes_union`, `makes_concat`, `makes_star`, `makes_plus`: what one combinator makes.
- `Stock.Sound.call`, `Stock.Sound.reaches`: what one call keeps, and what any number of calls keeps.
- `combinators_homomorphic`: combinators on automata are operations on languages.
-/
import PatternAutomata.Proofs.Nfa.Minting

namespace PatternAutomata

open Computability

/-! ## One combinator -/

namespace Nfa

/-- The words that the automaton accepts. -/
def accepted (m : Nfa) : Language Char := {w | m.acceptsWord w = true}

theorem accepted_eq_language (m : Nfa) : m.accepted = m.language := by
  ext w
  exact m.acceptsWord_iff_mem_language w

/-- With `n` states handed out, the computation gives an automaton for the language. It is on the states of its operands
and on states handed out by the computation, and no rule leads into its initial state. -/
structure Makes (made : Minting Nfa) (n : Nat) (operands : List Nfa) (l : Language Char) : Prop where
  accepted : (made.run n).1.accepted = l
  minted : (made.run n).1.Minted 0 (made.run n).2
  le : n ≤ (made.run n).2
  states : ∀ q, (made.run n).1.Mentions q → n ≤ q ∨ ∃ m ∈ operands, m.Mentions q

variable {left right first second body rest : Nfa} {n : Nat}

theorem makes_emptyWord (hcount : n + 1 ≤ 2 ^ 32) : Makes Minting.emptyWord n [] 1 where
  accepted := by
    rw [Minting.run_emptyWord hcount, accepted_eq_language]
    exact language_emptyWord n
  minted := by
    rw [Minting.run_emptyWord hcount]
    exact (Minted.emptyWord n).mono (Nat.zero_le n) (Nat.le_refl _)
  le := Nat.le_succ n
  states q hq := by
    rw [Minting.run_emptyWord hcount] at hq
    exact Or.inl ((Minted.emptyWord n).bounds q hq).1

theorem makes_character (hcount : n + 2 ≤ 2 ^ 32) (c : Char) : Makes (Minting.character c) n [] {[c]} where
  accepted := by
    rw [Minting.run_character hcount, accepted_eq_language]
    exact language_character n (n + 1) c (Nat.ne_of_lt (Nat.lt_succ_self n))
  minted := by
    rw [Minting.run_character hcount]
    exact (Minted.character n c).mono (Nat.zero_le n) (Nat.le_refl _)
  le := Nat.le_add_right n 2
  states q hq := by
    rw [Minting.run_character hcount] at hq
    exact Or.inl ((Minted.character n c).bounds q hq).1

theorem makes_union (hl : left.Minted 0 n) (hr : right.Minted 0 n) (happart : left.Apart right)
    (hcount : n + 1 ≤ 2 ^ 32) : Makes (Minting.union left right) n [left, right] (left.accepted + right.accepted) where
  accepted := by
    rw [Minting.run_union hcount]
    simp only [accepted_eq_language]
    exact hl.language_union hr happart
  minted := by
    rw [Minting.run_union hcount]
    exact hl.union hr
  le := Nat.le_succ n
  states q hq := by
    rw [Minting.run_union hcount] at hq
    rcases (mentions_union n left right q).1 hq with rfl | h | h
    · exact Or.inl (Nat.le_refl q)
    · exact Or.inr ⟨left, List.mem_cons_self, h⟩
    · exact Or.inr ⟨right, List.mem_cons_of_mem left List.mem_cons_self, h⟩

theorem makes_concat (hf : first.Minted 0 n) (hs : second.Minted 0 n) (happart : first.Apart second) :
    Makes (pure (Nfa.concat first second)) n [first, second] (first.accepted * second.accepted) where
  accepted := by
    simp only [accepted_eq_language]
    exact language_concat first second happart
  minted := hf.concat hs happart
  le := Nat.le_refl n
  states q hq := by
    rcases mentions_of_mentions_concat first second q hq with h | h
    · exact Or.inr ⟨first, List.mem_cons_self, h⟩
    · exact Or.inr ⟨second, List.mem_cons_of_mem first List.mem_cons_self, h⟩

theorem makes_star (hb : body.Minted 0 n) (hcount : n + 2 ≤ 2 ^ 32) :
    Makes (Minting.star body) n [body] body.accepted∗ where
  accepted := by
    rw [Minting.run_star hcount]
    simp only [accepted_eq_language]
    exact hb.language_star
  minted := by
    rw [Minting.run_star hcount]
    exact hb.star
  le := Nat.le_add_right n 2
  states q hq := by
    rw [Minting.run_star hcount] at hq
    rcases (mentions_star n (n + 1) body q).1 hq with rfl | rfl | h
    · exact Or.inl (Nat.le_refl q)
    · exact Or.inl (Nat.le_succ n)
    · exact Or.inr ⟨body, List.mem_cons_self, h⟩

theorem makes_plus (hf : first.Minted 0 n) (hr : rest.Minted 0 n) (happart : first.Apart rest)
    (hcount : n + 2 ≤ 2 ^ 32) : Makes (Minting.plus first rest) n [first, rest] (first.accepted * rest.accepted∗) where
  accepted := by
    rw [Minting.run_plus hcount]
    simp only [accepted_eq_language]
    exact hf.language_plus hr happart
  minted := by
    rw [Minting.run_plus hcount]
    exact hf.plus hr happart
  le := Nat.le_add_right n 2
  states q hq := by
    rw [Minting.run_plus hcount] at hq
    rcases mentions_of_mentions_plus n (n + 1) first rest q hq with h | rfl | rfl | h
    · exact Or.inr ⟨first, List.mem_cons_self, h⟩
    · exact Or.inl (Nat.le_refl q)
    · exact Or.inl (Nat.le_succ n)
    · exact Or.inr ⟨rest, List.mem_cons_of_mem first List.mem_cons_self, h⟩

/-- What is made shares no state with an automaton on states handed out before that its operands share none with. -/
theorem Makes.apart {made : Minting Nfa} {operands : List Nfa} {l : Language Char} (h : Makes made n operands l) {m : Nfa}
    (hm : m.Minted 0 n) (hoperands : ∀ operand ∈ operands, operand.Apart m) : (made.run n).1.Apart m := by
  intro q hq hmq
  rcases h.states q hq with hle | ⟨operand, hmem, hmentions⟩
  · exact hm.not_mentions q hle hmq
  · exact hoperands operand hmem q hmentions hmq

end Nfa

/-! ## Any number of combinators -/

/-- How an automaton is made from given ones. -/
inductive Making where
  | given (m : Nfa)
  | emptyWord
  | character (c : Char)
  | union (left right : Making)
  | concat (first second : Making)
  | star (body : Making)
  | plus (first rest : Making)

/-- The language that a making says, from the words that the given automata accept. -/
def Making.language : Making → Language Char
  | given m => m.accepted
  | emptyWord => 1
  | character c => {[c]}
  | union left right => left.language + right.language
  | concat first second => first.language * second.language
  | star body => body.language∗
  | plus first rest => first.language * rest.language∗

/-- An automaton and how it was made. -/
structure Part where
  made : Making
  nfa : Nfa

/-- The automata at hand, and the number of states handed out. -/
structure Stock where
  minted : Nat
  parts : List Part

/-- A combinator with its operands: what it computes and how its result is made. -/
inductive Combines : List Part → Minting Nfa → Making → Prop where
  | emptyWord : Combines [] Minting.emptyWord .emptyWord
  | character (c : Char) : Combines [] (Minting.character c) (.character c)
  | union (left right : Part) :
    Combines [left, right] (Minting.union left.nfa right.nfa) (.union left.made right.made)
  | concat (first second : Part) :
    Combines [first, second] (pure (Nfa.concat first.nfa second.nfa)) (.concat first.made second.made)
  | star (body : Part) : Combines [body] (Minting.star body.nfa) (.star body.made)
  | plus (first rest : Part) :
    Combines [first, rest] (Minting.plus first.nfa rest.nfa) (.plus first.made rest.made)

namespace Stock

/-- One combinator is called: its operands, wherever they are in the stock, are taken out and the result is put in. -/
inductive Call : Stock → Stock → Prop where
  | mk {operands : List Part} {made : Minting Nfa} {how : Making} (combines : Combines operands made how) (n : Nat)
    {parts others : List Part} (taken : parts.Perm (operands ++ others)) :
    Call ⟨n, parts⟩ ⟨(made.run n).2, ⟨how, (made.run n).1⟩ :: others⟩

/-- States are never taken back. -/
theorem Call.minted_le {s s' : Stock} (h : Call s s') : s.minted ≤ s'.minted := by
  cases h with
  | mk combines n taken =>
    cases combines with
    | emptyWord | union => exact Nat.le_succ n
    | character | star | plus => exact Nat.le_add_right n 2
    | concat => exact Nat.le_refl n

/-- The stock before any call. -/
def ofGiven (n : Nat) (given : List Nfa) : Stock := ⟨n, given.map fun m => ⟨.given m, m⟩⟩

/-- Every automaton of the stock accepts what its making says and is on states handed out, with no rule into its initial
state. No two share a state. -/
structure Sound (s : Stock) : Prop where
  accepted : ∀ p ∈ s.parts, p.nfa.accepted = p.made.language
  minted : ∀ p ∈ s.parts, p.nfa.Minted 0 s.minted
  apart : s.parts.Pairwise fun p q => p.nfa.Apart q.nfa

theorem sound_ofGiven {n : Nat} {given : List Nfa} (hminted : ∀ m ∈ given, m.Minted 0 n)
    (happart : given.Pairwise Nfa.Apart) : (ofGiven n given).Sound where
  accepted p hp := by
    obtain ⟨m, -, rfl⟩ := List.mem_map.1 hp
    rfl
  minted p hp := by
    obtain ⟨m, hm, rfl⟩ := List.mem_map.1 hp
    exact hminted m hm
  apart := List.pairwise_map.2 happart

namespace Sound

theorem perm {n : Nat} {parts parts' : List Part} (h : (Stock.mk n parts).Sound) (hperm : parts.Perm parts') :
    (Stock.mk n parts').Sound where
  accepted p hp := h.accepted p (hperm.mem_iff.2 hp)
  minted p hp := h.minted p (hperm.mem_iff.2 hp)
  apart := (hperm.pairwise_iff fun hpq => Nfa.Apart.symm hpq).1 h.apart

/-- What two operands bring along. -/
theorem pair {n : Nat} {left right : Part} (h : (Stock.mk n [left, right]).Sound) :
    (left.nfa.accepted = left.made.language ∧ right.nfa.accepted = right.made.language) ∧
      left.nfa.Minted 0 n ∧ right.nfa.Minted 0 n ∧ left.nfa.Apart right.nfa := by
  have hl : left ∈ [left, right] := List.mem_cons_self
  have hr : right ∈ [left, right] := List.mem_cons_of_mem left List.mem_cons_self
  exact ⟨⟨h.accepted left hl, h.accepted right hr⟩, h.minted left hl, h.minted right hr,
    List.rel_of_pairwise_cons h.apart List.mem_cons_self⟩

/-- What a combinator makes of operands in a stock, as long as there are identifiers for what it draws. -/
theorem makes {n : Nat} {operands : List Part} {made : Minting Nfa} {how : Making}
    (h : (Stock.mk n operands).Sound) (hcombines : Combines operands made how) (hcount : (made.run n).2 ≤ 2 ^ 32) :
    Nfa.Makes made n (operands.map Part.nfa) how.language := by
  cases hcombines with
  | emptyWord => exact Nfa.makes_emptyWord hcount
  | character c => exact Nfa.makes_character hcount c
  | union left right =>
    obtain ⟨⟨hleft, hright⟩, hl, hr, happart⟩ := h.pair
    rw [Making.language, ← hleft, ← hright]
    exact Nfa.makes_union hl hr happart hcount
  | concat first second =>
    obtain ⟨⟨hfirst, hsecond⟩, hf, hs, happart⟩ := h.pair
    rw [Making.language, ← hfirst, ← hsecond]
    exact Nfa.makes_concat hf hs happart
  | star body =>
    rw [Making.language, ← h.accepted body List.mem_cons_self]
    exact Nfa.makes_star (h.minted body List.mem_cons_self) hcount
  | plus first rest =>
    obtain ⟨⟨hfirst, hrest⟩, hf, hr, happart⟩ := h.pair
    rw [Making.language, ← hfirst, ← hrest]
    exact Nfa.makes_plus hf hr happart hcount

/-- What is made of some parts of a stock goes with the others. -/
theorem put {n : Nat} {operands others : List Part} {made : Minting Nfa} {how : Making}
    (h : (Stock.mk n (operands ++ others)).Sound) (hmakes : Nfa.Makes made n (operands.map Part.nfa) how.language) :
    (Stock.mk (made.run n).2 (⟨how, (made.run n).1⟩ :: others)).Sound := by
  obtain ⟨-, hothers, hbetween⟩ := List.pairwise_append.1 h.apart
  have hold : ∀ p ∈ others, p ∈ operands ++ others := fun p hp => List.mem_append_right operands hp
  refine ⟨fun p hp => ?_, fun p hp => ?_, List.pairwise_cons.2 ⟨fun p hp => ?_, hothers⟩⟩
  · rcases List.mem_cons.1 hp with rfl | hp
    · exact hmakes.accepted
    · exact h.accepted p (hold p hp)
  · rcases List.mem_cons.1 hp with rfl | hp
    · exact hmakes.minted
    · exact (h.minted p (hold p hp)).mono (Nat.le_refl 0) hmakes.le
  · refine hmakes.apart (h.minted p (hold p hp)) fun operand hoperand => ?_
    obtain ⟨part, hpart, rfl⟩ := List.mem_map.1 hoperand
    exact hbetween part hpart p hp

theorem operands {n : Nat} {operands others : List Part} (h : (Stock.mk n (operands ++ others)).Sound) :
    (Stock.mk n operands).Sound where
  accepted p hp := h.accepted p (List.mem_append_left others hp)
  minted p hp := h.minted p (List.mem_append_left others hp)
  apart := (List.pairwise_append.1 h.apart).1

theorem call {s s' : Stock} (h : s.Sound) (hcall : Call s s') (hcount : s'.minted ≤ 2 ^ 32) : s'.Sound := by
  cases hcall with
  | mk combines n taken =>
    have hsound := h.perm taken
    exact hsound.put (hsound.operands.makes combines hcount)

theorem reaches {s s' : Stock} (h : s.Sound) (hreaches : Reaches Call s s') (hcount : s'.minted ≤ 2 ^ 32) :
    s'.Sound := by
  induction hreaches with
  | refl => exact h
  | tail _ hcall ih => exact (ih (hcall.minted_le.trans hcount)).call hcall hcount

end Sound

end Stock

/-- **Combinators are operations on languages.** On automata whose states were handed out and whose initial states no
rule leads into, apart from each other, union, sequence, star and plus give the union, the product, the closure and the
product with a closure of what the operands accept, as long as there are identifiers for the new states. Each result is
again on states handed out, with no rule into its initial state. So after any calls that leave no more states handed out
than there are identifiers, on any automata given at the start, all automata at hand accept what their making says. -/
theorem combinators_homomorphic (n : Nat) :
    (∀ left right : Nfa, left.Minted 0 n → right.Minted 0 n → left.Apart right → n + 1 ≤ 2 ^ 32 →
      Nfa.Makes (Minting.union left right) n [left, right] (left.accepted + right.accepted)) ∧
    (∀ first second : Nfa, first.Minted 0 n → second.Minted 0 n → first.Apart second →
      Nfa.Makes (pure (Nfa.concat first second)) n [first, second] (first.accepted * second.accepted)) ∧
    (∀ body : Nfa, body.Minted 0 n → n + 2 ≤ 2 ^ 32 →
      Nfa.Makes (Minting.star body) n [body] body.accepted∗) ∧
    (∀ first rest : Nfa, first.Minted 0 n → rest.Minted 0 n → first.Apart rest → n + 2 ≤ 2 ^ 32 →
      Nfa.Makes (Minting.plus first rest) n [first, rest] (first.accepted * rest.accepted∗)) ∧
    (∀ (given : List Nfa) (s : Stock), (∀ m ∈ given, m.Minted 0 n) → given.Pairwise Nfa.Apart →
      Reaches Stock.Call (Stock.ofGiven n given) s → s.minted ≤ 2 ^ 32 → s.Sound) := by
  refine ⟨fun _ _ hl hr happart hcount => Nfa.makes_union hl hr happart hcount,
    fun _ _ hf hs happart => Nfa.makes_concat hf hs happart, fun _ hb hcount => Nfa.makes_star hb hcount,
    fun _ _ hf hr happart hcount => Nfa.makes_plus hf hr happart hcount, ?_⟩
  intro given s hminted happart hreaches hcount
  exact (Stock.sound_ofGiven hminted happart).reaches hreaches hcount

/-- Two characters, every combinator on them, and the star of a choice between them. -/
theorem combinators_homomorphic_choice :
    let a := Nfa.character 0 1 'a'
    let b := Nfa.character 2 3 'b'
    Nfa.Makes (Minting.union a b) 4 [a, b] (a.accepted + b.accepted) ∧
      Nfa.Makes (pure (Nfa.concat a b)) 4 [a, b] (a.accepted * b.accepted) ∧
      Nfa.Makes (Minting.star a) 4 [a] a.accepted∗ ∧
      Nfa.Makes (Minting.plus a b) 4 [a, b] (a.accepted * b.accepted∗) ∧
      (Stock.mk 7 [⟨.star (.union (.given a) (.given b)), Nfa.star 5 6 (Nfa.union 4 a b)⟩]).Sound := by
  intro a b
  obtain ⟨ha, hb, happart⟩ := (Nfa.Minted.character 0 'a').both (Nfa.Minted.character 2 'b')
  obtain ⟨hunion, hconcat, hstar, hplus, hcalls⟩ := combinators_homomorphic 4
  have hgiven : ∀ m ∈ [a, b], m.Minted 0 4 := List.forall_mem_cons.2 ⟨ha, List.forall_mem_singleton.2 hb⟩
  have hchoice : Stock.Call (Stock.ofGiven 4 [a, b]) ⟨5, [⟨.union (.given a) (.given b), Nfa.union 4 a b⟩]⟩ :=
    .mk (.union _ _) 4 (.refl _)
  have hrounds : Stock.Call ⟨5, [⟨.union (.given a) (.given b), Nfa.union 4 a b⟩]⟩
      ⟨7, [⟨.star (.union (.given a) (.given b)), Nfa.star 5 6 (Nfa.union 4 a b)⟩]⟩ := .mk (.star _) 5 (.refl _)
  exact ⟨hunion a b ha hb happart (by decide), hconcat a b ha hb happart, hstar a ha (by decide),
    hplus a b ha hb happart (by decide),
    hcalls [a, b] _ hgiven (List.pairwise_pair.2 happart) ((Reaches.refl.tail hchoice).tail hrounds) (by decide)⟩

/-- With one identifier left, a star draws this and then the state 0 again. If its body has the state 0 in the middle of
`ab`, the star accepts there, in front of the `b`. -/
theorem star_overrun :
    let body := Nfa.concat (Nfa.character 2 3 'a') (Nfa.character 0 1 'b')
    let made := (Minting.star body).run (2 ^ 32 - 1)
    body.Minted 0 (2 ^ 32 - 1) ∧ made = (Nfa.star (2 ^ 32 - 1) 0 body, 2 ^ 32 + 1) ∧
      body.Mentions 0 ∧ ['a'] ∈ made.1.accepted ∧ ¬ ['a'] ∈ body.accepted∗ := by
  intro body made
  have hb : (Nfa.character 0 1 'b').Minted 0 2 := .character 0 'b'
  have ha : (Nfa.character 2 3 'a').Minted 2 4 := .character 2 'a'
  have happart : (Nfa.character 2 3 'a').Apart (Nfa.character 0 1 'b') := (hb.apart ha).symm
  have hbody : body.Minted 0 4 :=
    (ha.mono (Nat.zero_le 2) (Nat.le_refl 4)).concat (hb.mono (Nat.le_refl 0) (by decide)) happart
  have hzero : (0 : State) ∈ body.rules.destinations (3 : Nat) .epsilon :=
    (Nfa.mem_destinations_concat ..).2 (Or.inr (Or.inr ⟨by decide, rfl, rfl⟩))
  have hread : (3 : State) ∈ body.rules.destinations (2 : Nat) (.char 'a') :=
    (Nfa.mem_destinations_concat ..).2 (Or.inl ((Nfa.mem_destinations_character ..).2 ⟨rfl, rfl, rfl⟩))
  have hpath : (Nfa.star (2 ^ 32 - 1) 0 body).Path (2 ^ 32 - 1) ['a'] 0 :=
    .silent ((Nfa.mem_destinations_star ..).2 (Or.inr ⟨rfl, Or.inl rfl, Or.inr rfl⟩))
      (.read ((Nfa.mem_destinations_star ..).2 (Or.inl hread))
        (.silent ((Nfa.mem_destinations_star ..).2 (Or.inl hzero)) (.refl 0)))
  refine ⟨hbody.mono (Nat.le_refl 0) (by decide), rfl, body.mentions_of_destination hzero, ?_, fun h => ?_⟩
  · rw [show made.1 = Nfa.star (2 ^ 32 - 1) 0 body from rfl, Nfa.accepted_eq_language]
    exact ⟨0, (Nfa.mem_accepts_star ..).2 (Or.inr rfl), hpath⟩
  · -- the words of the body have two characters each
    rw [Nfa.accepted_eq_language, Nfa.language_concat _ _ happart, Nfa.language_character _ _ _ (by decide),
      Nfa.language_character _ _ _ (by decide)] at h
    obtain ⟨rounds, hrounds, hall⟩ := Language.mem_kstar.1 h
    cases rounds with
    | nil => cases hrounds
    | cons round rounds =>
      obtain ⟨u, rfl, v, rfl, rfl⟩ := Language.mem_mul.1 (hall round List.mem_cons_self)
      cases hrounds

end PatternAutomata
