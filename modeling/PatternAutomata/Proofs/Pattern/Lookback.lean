/-
Patterns whose sets outgrow the identifiers.

To tell whether a given letter before the end was an `a`, an automaton has to remember that many letters. `lookback k` is
the tree of `(a|b)+|(a|b)*a(a|b)(a|b)…c` with `k` pairs of brackets between the `a` and the `c`: whatever automaton
accepts its language, two different words of `k + 1` letters leave its simulation in different sets, so there are more
than `2 ^ (k + 1)` of these. The tree takes a few states for each letter only. With 31 of them the sets outgrow the
identifiers, and since every word that the compiled automaton gets through is one of the language, except the empty one,
the state 0 comes to accept.

- `mem_language_lookback_iff`: the language.
- `two_pow_lt_length_subsets`: the number of sets.
- `acceptsWord_nil_toDfa_lookback`: the compiled automaton accepts a word that is not in the language.
-/
import Mathlib.Data.Fintype.BigOperators
import PatternAutomata.Proofs.Dfa.InStep
import PatternAutomata.Proofs.Pattern.Compiled

namespace PatternAutomata.Tree

open Computability

/-! ## The tree -/

/-- One of the two letters. -/
def letter : Tree := .union (.literal 'a') (.literal 'b')

/-- So many letters and a `c`. -/
def lettersAndC : Nat → Tree
  | 0 => .literal 'c'
  | k + 1 => .concat letter (lettersAndC k)

/-- Either letters, or letters and a `c` where an `a` stands in front of the last `k` letters. -/
def lookback (k : Nat) : Tree :=
  .union (.plus letter) (.concat (.star letter) (.concat (.literal 'a') (lettersAndC k)))

theorem stateCount_lookback (k : Nat) : (lookback k).stateCount = 5 * k + 24 := by
  have hletters : (lettersAndC k).stateCount = 5 * k + 2 := by
    induction k with
    | zero => rfl
    | succ k ih =>
      show 5 + (lettersAndC k).stateCount = 5 * (k + 1) + 2
      omega
  show 1 + 12 + (7 + (2 + (lettersAndC k).stateCount)) = 5 * k + 24
  omega

/-! ## The language -/

/-- Nothing but the two letters. -/
def Letters (w : List Char) : Prop := ∀ c ∈ w, c = 'a' ∨ c = 'b'

theorem mem_language_letter_iff (w : List Char) : w ∈ letter.language ↔ w = ['a'] ∨ w = ['b'] := Iff.rfl

theorem mem_kstar_letter_iff (w : List Char) : w ∈ letter.language∗ ↔ Letters w := by
  rw [Language.mem_kstar]
  refine ⟨fun h c hc => ?_, fun h => ⟨w.map fun c => [c], ?_, ?_⟩⟩
  · obtain ⟨rounds, rfl, hrounds⟩ := h
    obtain ⟨round, hround, hc⟩ := List.mem_flatten.1 hc
    rcases (mem_language_letter_iff round).1 (hrounds round hround) with rfl | rfl
    · exact Or.inl (List.mem_singleton.1 hc)
    · exact Or.inr (List.mem_singleton.1 hc)
  · exact (List.flatMap_singleton' w).symm
  · intro round hround
    obtain ⟨c, hc, rfl⟩ := List.mem_map.1 hround
    exact (h c hc).imp (congrArg ([·])) (congrArg ([·]))

theorem mem_language_plus_letter_iff (w : List Char) : w ∈ (plus letter).language ↔ w ≠ [] ∧ Letters w := by
  rw [language, Language.mem_mul]
  simp only [mem_kstar_letter_iff, mem_language_letter_iff]
  refine ⟨fun h => ?_, fun h => ?_⟩
  · obtain ⟨u, rfl | rfl, v, hv, rfl⟩ := h
    · exact ⟨List.cons_ne_nil _ _, List.forall_mem_cons.2 ⟨Or.inl rfl, hv⟩⟩
    · exact ⟨List.cons_ne_nil _ _, List.forall_mem_cons.2 ⟨Or.inr rfl, hv⟩⟩
  · obtain ⟨hne, hletters⟩ := h
    obtain ⟨c, v, rfl⟩ := List.exists_cons_of_ne_nil hne
    obtain ⟨hc, hv⟩ := List.forall_mem_cons.1 hletters
    exact ⟨[c], hc.imp (congrArg ([·])) (congrArg ([·])), v, hv, rfl⟩

theorem mem_language_lettersAndC_iff (k : Nat) (w : List Char) :
    w ∈ (lettersAndC k).language ↔ ∃ v, Letters v ∧ v.length = k ∧ w = v ++ ['c'] := by
  induction k generalizing w with
  | zero =>
    refine ⟨fun h => ⟨[], fun c hc => absurd hc List.not_mem_nil, rfl, h⟩, fun h => ?_⟩
    obtain ⟨v, -, hlength, rfl⟩ := h
    rw [List.length_eq_zero_iff.1 hlength]
    exact rfl
  | succ k ih =>
    rw [lettersAndC, language, Language.mem_mul]
    simp only [ih, mem_language_letter_iff]
    refine ⟨fun h => ?_, fun h => ?_⟩
    · obtain ⟨u, rfl | rfl, w, ⟨v, hv, rfl, rfl⟩, rfl⟩ := h
      · exact ⟨'a' :: v, List.forall_mem_cons.2 ⟨Or.inl rfl, hv⟩, rfl, rfl⟩
      · exact ⟨'b' :: v, List.forall_mem_cons.2 ⟨Or.inr rfl, hv⟩, rfl, rfl⟩
    · obtain ⟨v, hletters, hlength, rfl⟩ := h
      obtain ⟨c, v, rfl⟩ := List.exists_cons_of_length_eq_add_one hlength
      obtain ⟨hc, hv⟩ := List.forall_mem_cons.1 hletters
      exact ⟨[c], hc.imp (congrArg ([·])) (congrArg ([·])), v ++ ['c'], ⟨v, hv, Nat.succ.inj hlength, rfl⟩, rfl⟩

/-- The words of letters, not empty; and those with a `c` behind, if the letter in front of the last `k` is an `a`. -/
theorem mem_language_lookback_iff (k : Nat) (w : List Char) :
    w ∈ (lookback k).language ↔ (w ≠ [] ∧ Letters w) ∨
      ∃ u v, Letters u ∧ Letters v ∧ v.length = k ∧ w = u ++ 'a' :: v ++ ['c'] := by
  rw [lookback, language, Language.mem_add, mem_language_plus_letter_iff]
  refine or_congr_right ?_
  rw [language, language, Language.mem_mul]
  simp only [language, Language.mem_mul, mem_kstar_letter_iff, mem_language_lettersAndC_iff]
  refine ⟨fun h => ?_, fun h => ?_⟩
  · obtain ⟨u, hu, _, ⟨_, rfl, _, ⟨v, hv, hlength, rfl⟩, rfl⟩, rfl⟩ := h
    exact ⟨u, v, hu, hv, hlength, by simp⟩
  · obtain ⟨u, v, hu, hv, hlength, rfl⟩ := h
    exact ⟨u, hu, 'a' :: v ++ ['c'], ⟨['a'], rfl, v ++ ['c'], ⟨v, hv, hlength, rfl⟩, rfl⟩, by simp⟩

theorem nil_not_mem_language_lookback (k : Nat) : [] ∉ (lookback k).language := by
  intro hmem
  rcases (mem_language_lookback_iff k []).1 hmem with ⟨hne, -⟩ | ⟨u, v, -, -, -, hw⟩
  · exact hne rfl
  · exact absurd hw.symm (by simp)

theorem not_letters_append_c (u : List Char) : ¬ Letters (u ++ ['c']) := fun h => by
  have hc := h 'c' (List.mem_append_right u List.mem_cons_self)
  exact absurd hc (by decide)

/-- Behind a `c`, the word is told by the letter in front of the last `k`. -/
theorem append_c_mem_language_lookback_iff {k i : Nat} {u : List Char} (hu : Letters u)
    (hlength : u.length = i + (k + 1)) : u ++ ['c'] ∈ (lookback k).language ↔ u[i]? = some 'a' := by
  rw [mem_language_lookback_iff]
  refine ⟨fun h => ?_, fun h => Or.inr ⟨u.take i, u.drop (i + 1), ?_, ?_, ?_, ?_⟩⟩
  · rcases h with ⟨-, hletters⟩ | ⟨x, y, -, -, hy, hw⟩
    · exact absurd hletters (not_letters_append_c u)
    · obtain rfl := List.append_cancel_right hw
      obtain rfl : x.length = i := by
        rw [List.length_append, List.length_cons, hy] at hlength
        omega
      rw [List.getElem?_append_right (Nat.le_refl _), Nat.sub_self]
      rfl
  · exact fun c hc => hu c (List.mem_of_mem_take hc)
  · exact fun c hc => hu c (List.mem_of_mem_drop hc)
  · rw [List.length_drop]
    omega
  · obtain ⟨hlt, hi⟩ := List.getElem?_eq_some_iff.1 h
    rw [← hi, List.getElem_cons_drop, List.take_append_drop]

/-- A beginning of a word of the language is one itself, unless it is empty. -/
theorem mem_language_lookback_of_append_mem {k : Nat} {u v : List Char} (h : u ++ v ∈ (lookback k).language)
    (hu : u ≠ []) : u ∈ (lookback k).language := by
  have hletters : Letters (u ++ v) → u ∈ (lookback k).language := fun hw =>
    (mem_language_lookback_iff k u).2 (Or.inl ⟨hu, fun c hc => hw c (List.mem_append_left v hc)⟩)
  rcases (mem_language_lookback_iff k _).1 h with ⟨-, hw⟩ | ⟨x, y, hx, hy, hlength, hw⟩
  · exact hletters hw
  rcases List.eq_nil_or_concat v with rfl | ⟨v, c, rfl⟩
  · rwa [List.append_nil] at h
  · -- without its last letter the word has none but the two
    rw [List.concat_eq_append, ← List.append_assoc] at hw
    obtain ⟨heq, -⟩ := List.append_inj' hw rfl
    refine (mem_language_lookback_iff k u).2 (Or.inl ⟨hu, fun d hd => ?_⟩)
    have hmem : d ∈ x ++ 'a' :: y := heq ▸ List.mem_append_left v hd
    rcases List.mem_append.1 hmem with hd | hd
    · exact hx d hd
    · exact (List.mem_cons.1 hd).elim Or.inl (hy d)

/-! ## The sets -/

/-- The word whose letters are `a` in the places given and `b` elsewhere. -/
def spelled {n : Nat} (f : Fin n → Bool) : List Char := List.ofFn fun i => if f i then 'a' else 'b'

theorem length_spelled {n : Nat} (f : Fin n → Bool) : (spelled f).length = n := List.length_ofFn

theorem letters_spelled {n : Nat} (f : Fin n → Bool) : Letters (spelled f) := fun c hc => by
  obtain ⟨i, rfl⟩ := List.mem_ofFn.1 hc
  split
  · exact Or.inl rfl
  · exact Or.inr rfl

theorem spelled_mem_language_lookback (k : Nat) {n : Nat} (f : Fin (n + 1) → Bool) :
    spelled f ∈ (lookback k).language :=
  (mem_language_lookback_iff k _).2 (Or.inl ⟨List.ne_nil_of_length_eq_add_one (length_spelled f), letters_spelled f⟩)

/-- With letters behind it that bring a place in front of the last `k`, and a `c`, a word tells what it has in that
place. -/
theorem spelled_append_mem_language_lookback_iff (k : Nat) (f : Fin (k + 1) → Bool) (i : Fin (k + 1)) :
    spelled f ++ (List.replicate i 'a' ++ ['c']) ∈ (lookback k).language ↔ f i = true := by
  have hletters : Letters (spelled f ++ List.replicate i 'a') := fun c hc =>
    (List.mem_append.1 hc).elim (letters_spelled f c) fun hc => Or.inl (List.eq_of_mem_replicate hc)
  have hlength : (spelled f ++ List.replicate i 'a').length = i + (k + 1) := by
    rw [List.length_append, length_spelled, List.length_replicate, Nat.add_comm]
  rw [← List.append_assoc, append_c_mem_language_lookback_iff hletters hlength,
    List.getElem?_append_left (Nat.lt_of_lt_of_eq i.2 (length_spelled f).symm), spelled, List.getElem?_ofFn, dif_pos i.2]
  cases f i <;> simp

variable {m : Nfa} {k : Nat}

/-- If the set after two words is the same, so is every answer from there on. -/
theorem acceptsWord_append_of_subsetAfter_eq {u u' : List Char} (h : m.subsetAfter u = m.subsetAfter u')
    (v : List Char) : m.acceptsWord (u ++ v) = m.acceptsWord (u' ++ v) := by
  have hfold : ∀ u, m.subsetAfter (u ++ v) = v.foldl m.withoutEpsilon.move (m.subsetAfter u) := fun u =>
    List.foldl_append
  rw [← Nfa.intersects_subsetAfter, ← Nfa.intersects_subsetAfter, hfold, hfold, h]

theorem subsetAfter_mem_subsets_of_acceptsWord {w : List Char} (h : m.acceptsWord w = true) :
    m.subsetAfter w ∈ m.withoutEpsilon.subsets := by
  rw [Nfa.acceptsWord_eq, StateSet.intersects_iff] at h
  obtain ⟨q, hq, -⟩ := h
  exact m.subsetAfter_mem_subsets w ((StateSet.isEmpty_eq_false_iff _).2 ⟨q, hq⟩)

/-- **Remembering.** An automaton for the language is in a set of its own after each word of `k + 1` letters, and in
another one at the start. -/
theorem two_pow_lt_length_subsets (hm : ∀ w, m.acceptsWord w = true ↔ w ∈ (lookback k).language) :
    2 ^ (k + 1) < m.withoutEpsilon.subsets.length := by
  have hinjective : Function.Injective fun f : Fin (k + 1) → Bool => m.subsetAfter (spelled f) := by
    intro f g heq
    funext i
    rw [Bool.eq_iff_iff, ← spelled_append_mem_language_lookback_iff, ← spelled_append_mem_language_lookback_iff, ← hm,
      ← hm, acceptsWord_append_of_subsetAfter_eq heq]
  let words : Finset StateSet := Finset.univ.image fun f : Fin (k + 1) → Bool => m.subsetAfter (spelled f)
  have hcard : words.card = 2 ^ (k + 1) := by
    rw [Finset.card_image_of_injective _ hinjective, Finset.card_univ, Fintype.card_fun, Fintype.card_bool,
      Fintype.card_fin]
  have hstart : m.subsetAfter [] ∉ words := fun h => by
    obtain ⟨f, -, heq⟩ := Finset.mem_image.1 h
    have hnil := acceptsWord_append_of_subsetAfter_eq heq []
    rw [List.append_nil, (hm _).2 (spelled_mem_language_lookback k f)] at hnil
    exact nil_not_mem_language_lookback k ((hm []).1 hnil.symm)
  have hsubset : insert (m.subsetAfter []) words ⊆ m.withoutEpsilon.subsets.toFinset := by
    intro s hs
    rw [List.mem_toFinset]
    rcases Finset.mem_insert.1 hs with rfl | hs
    · exact (m.withoutEpsilon.mem_subsets_iff _).2 .refl
    · obtain ⟨f, -, rfl⟩ := Finset.mem_image.1 hs
      exact subsetAfter_mem_subsets_of_acceptsWord ((hm _).2 (spelled_mem_language_lookback k f))
  calc 2 ^ (k + 1) < (insert (m.subsetAfter []) words).card := by
        rw [Finset.card_insert_of_notMem hstart, hcard]
        exact Nat.lt_succ_self _
    _ ≤ m.withoutEpsilon.subsets.toFinset.card := Finset.card_le_card hsubset
    _ ≤ m.withoutEpsilon.subsets.length := List.toFinset_card_le _

/-! ## More sets than identifiers -/

/-- Each set but the first accepts: some word leads on from it to acceptance, and what leads to it is a beginning of that
word. -/
theorem intersects_of_mem_subsets_lookback (hstates : (lookback k).stateCount ≤ 2 ^ 32) (s : StateSet)
    (hs : s ∈ (lookback k).toNfa.withoutEpsilon.subsets) (hother : s ≠ {(lookback k).toNfa.initial}) :
    s.intersects (lookback k).toNfa.directAccepts = true := by
  obtain ⟨u, rfl⟩ := (lookback k).toNfa.exists_subsetAfter s hs
  have hu : u ≠ [] := fun hnil => hother (congrArg _ hnil)
  obtain ⟨q, hq⟩ := (StateSet.isEmpty_eq_false_iff _).1 ((lookback k).toNfa.isEmpty_statesAfter_of_mem_subsets u hs)
  have hpath := ((lookback k).toNfa.mem_statesAfter_iff u q).1 hq
  obtain ⟨v, p, hp, hrest⟩ := (lookback k).productive_assemble 0 q (hpath.mentions (Nfa.mentions_initial _))
  have hword : (lookback k).toNfa.acceptsWord (u ++ v) = true :=
    (Nfa.acceptsWord_iff_mem_language ..).2 ⟨p, hp, hpath.append hrest⟩
  rw [Nfa.intersects_subsetAfter]
  rw [acceptsWord_toNfa _ hstates] at hword ⊢
  exact mem_language_lookback_of_append_mem hword hu

/-- **Forgetting.** From 31 letters on, as long as there are identifiers for the states, the compiled automaton accepts
the empty word, which is not in the language. -/
theorem acceptsWord_nil_toDfa_lookback (hk : 31 ≤ k) (hstates : (lookback k).stateCount ≤ 2 ^ 32) (minimize : Bool) :
    ((lookback k).toDfa minimize).acceptsWord [] = true ∧ [] ∉ (lookback k).language := by
  have hcount : 2 ^ 32 < (lookback k).toNfa.withoutEpsilon.subsets.length :=
    Nat.lt_of_le_of_lt (Nat.pow_le_pow_right (by decide) (Nat.succ_le_succ hk))
      (two_pow_lt_length_subsets ((lookback k).acceptsWord_toNfa hstates))
  refine ⟨?_, nil_not_mem_language_lookback k⟩
  rw [acceptsWord_toDfa_minimize]
  exact Nfa.acceptsWord_nil_toDfa _ hcount (intersects_of_mem_subsets_lookback hstates)

end PatternAutomata.Tree
