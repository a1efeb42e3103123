/-
How many states a pattern can take.

The body of a plus is assembled twice. Folding saves the copies where operators are stacked, across groups or within, so
a factor is doubled once at most, whatever operators stand after it. But a group with anything in it beside its
repetition is a factor again. So each group around a character can double its states once more, and nothing else can:
the states are at most as many as the lexemes, up to a constant factor, times two for each level of groups. There are
patterns whose states double with every group (`tower`).

The counter that states are drawn from has 32 bits, so it starts over after as many draws as it has values, and hands out
the same identifiers again (`identifiers`). A pattern whose groups nest 29 deep can take it there.

- `Subexpr.stateCount_tree_le`, `stateCount_le_of_parse`: the bound for a derivation and for a pattern.
- `exists_parse_tower`: for each depth a pattern, and how many states it takes.
- `toNat_identifiers`: these are the states that are drawn.
- `nodup_identifiers_iff`: for how many states identifiers of 32 bits are enough.
- `minted_lt_iff_of_parse`: for which patterns they are.
-/
import Mathlib.Data.List.Range
import Mathlib.Tactic.Linarith
import PatternAutomata.Proofs.Pattern.Counting
import PatternAutomata.Proofs.Pattern.Render

namespace PatternAutomata

open Grammar

/-! ## At most -/

namespace Tree

theorem minted_eq (t : Tree) : t.minted = t.stateCount := (t.run_assemble_snd 0).trans (Nat.zero_add _)

theorem stateCount_unrepeated_le (t : Tree) : t.unrepeated.stateCount ≤ t.stateCount := by
  cases t with
  | star body => exact Nat.le_add_left ..
  | plus body =>
    show body.stateCount ≤ 2 + 2 * body.stateCount
    omega
  | _ => exact Nat.le_refl _

/-- However many operators stand after a factor, it is doubled once at most. -/
theorem stateCount_repeated_le (t : Tree) {operators : List Postfix} (h : operators ≠ []) :
    (t.repeated operators).stateCount ≤ 2 + 2 * t.stateCount := by
  have hle := t.stateCount_unrepeated_le
  unfold repeated
  rw [if_neg h]
  split <;> simp only [stateCount] <;> omega

end Tree

namespace Grammar

/-- Parts in a row take the sum of what they take, and nest as deep as the deeper of them. -/
theorem add_le_mul_two_pow {m n u v a b : Nat} (hm : m ≤ u * 2 ^ a) (hn : n ≤ v * 2 ^ b) :
    m + n ≤ (u + v) * 2 ^ max a b := by
  have ha : 2 ^ a ≤ 2 ^ max a b := Nat.pow_le_pow_right (by decide) (Nat.le_max_left a b)
  have hb : 2 ^ b ≤ 2 ^ max a b := Nat.pow_le_pow_right (by decide) (Nat.le_max_right a b)
  calc m + n ≤ u * 2 ^ a + v * 2 ^ b := Nat.add_le_add hm hn
    _ ≤ u * 2 ^ max a b + v * 2 ^ max a b := Nat.add_le_add (Nat.mul_le_mul_left u ha) (Nat.mul_le_mul_left v hb)
    _ = (u + v) * 2 ^ max a b := (Nat.add_mul ..).symm

mutual

/-- **Growth.** The states of a derivation are at most twice its lexemes, and one, doubled for each level of groups and
once more for what is in no group. -/
theorem Subexpr.stateCount_tree_le : (d : Subexpr) →
    d.tree.stateCount ≤ (2 * d.lexemes.length + 1) * 2 ^ (d.depth + 1)
  | .seq s => s.stateCount_tree_le
  | .bar before s => by
    have hparts := add_le_mul_two_pow before.stateCount_tree_le s.stateCount_tree_le
    rw [Nat.add_max_add_right] at hparts
    have hpos : 1 ≤ 2 ^ (max before.depth s.depth + 1) := Nat.one_le_two_pow
    rw [Subexpr.tree, Tree.stateCount, Subexpr.lexemes, Subexpr.depth, List.length_append, List.length_cons]
    linarith

theorem Seq.stateCount_tree_le : (s : Seq) → s.tree.stateCount ≤ (2 * s.lexemes.length + 1) * 2 ^ (s.depth + 1)
  | .subseq s => s.stateCount_tree_le.trans (Nat.mul_le_mul_right _ (Nat.le_succ _))
  | .empty => by decide

theorem Subseq.stateCount_tree_le : (s : Subseq) → s.tree.stateCount ≤ 2 * s.lexemes.length * 2 ^ (s.depth + 1)
  | .cons r rest => by
    have hparts := add_le_mul_two_pow r.stateCount_tree_le rest.stateCount_tree_le
    rwa [Nat.add_max_add_right, ← Nat.mul_add, ← List.length_append] at hparts
  | .last r => r.stateCount_tree_le

theorem Repeat.stateCount_tree_le : (r : Repeat) → r.tree.stateCount ≤ 2 * r.lexemes.length * 2 ^ (r.depth + 1)
  | .mk f operators => by
    have hfactor := f.stateCount_tree_le
    have hpos : 1 ≤ 2 ^ f.depth := Nat.one_le_two_pow
    rw [Repeat.tree, Repeat.lexemes, Repeat.depth, List.length_append, List.length_map, Nat.pow_succ]
    by_cases hnil : operators = []
    · subst hnil
      rw [Tree.repeated, if_pos rfl, List.length_nil, Nat.add_zero]
      linarith
    · have hrepeated := f.tree.stateCount_repeated_le hnil
      -- one operator makes up for the two new states
      have hone : 1 ≤ operators.length * 2 ^ f.depth := Nat.mul_pos (List.length_pos_iff.2 hnil) hpos
      linarith

/-- A factor has operators in its groups only, so its outermost level is not doubled. -/
theorem Factor.stateCount_tree_le : (f : Factor) → f.tree.stateCount ≤ 2 * f.lexemes.length * 2 ^ f.depth
  | .group body => by
    have hbody := body.stateCount_tree_le
    refine hbody.trans (Nat.mul_le_mul_right _ ?_)
    rw [Factor.lexemes, List.length_cons, List.length_append]
    omega
  | .character _ => Nat.le_refl 2

end

end Grammar

/-- The bound for a pattern, in its tokens and in how deep its groups nest. -/
theorem stateCount_le_of_parse {limit : Nat} {pattern : String} {t : Tree} (h : parse limit pattern = .ok t) :
    ∃ ts, tokens pattern = .ok ts ∧ groupDepth 0 (ts.map Token.lexeme) ≤ limit ∧
      t.stateCount ≤ (2 * ts.length + 1) * 2 ^ (groupDepth 0 (ts.map Token.lexeme) + 1) := by
  obtain ⟨ts, hts, d, hlexemes, hdepth, rfl⟩ := exists_derivation_of_parse h
  refine ⟨ts, hts, ?_⟩
  rw [← hlexemes, Subexpr.groupDepth_lexemes, ← List.length_map Token.lexeme, ← hlexemes]
  exact ⟨hdepth, d.stateCount_tree_le⟩

/-! ## At least -/

namespace Grammar

/-- The derivations of `a+`, `(a+b)+`, `((a+b)+b)+` and so on. The `b` keeps each repetition apart from the one around
it. -/
def tower : Nat → Repeat
  | 0 => .mk (.character 'a') [.plus]
  | n + 1 => .mk (.group (.seq (.subseq (.cons (tower n) (.last (.mk (.character 'b') [])))))) [.plus]

theorem depth_tower (n : Nat) : (tower n).depth = n := by
  induction n with
  | zero => rfl
  | succ n ih => exact congrArg (· + 1) ((Nat.max_zero _).trans ih)

theorem length_lexemes_tower (n : Nat) : (tower n).lexemes.length = 4 * n + 2 := by
  induction n with
  | zero => rfl
  | succ n ih =>
    simp [tower, Repeat.lexemes, Factor.lexemes, Subexpr.lexemes, Seq.lexemes, Subseq.lexemes, ih]
    omega

/-- The states double with every group. -/
theorem minted_tree_tower (n : Nat) : (tower n).tree.minted + 6 = 12 * 2 ^ n := by
  rw [Tree.minted_eq]
  induction n with
  | zero => rfl
  | succ n ih =>
    have hstep : (tower (n + 1)).tree.stateCount = 2 + 2 * ((tower n).tree.stateCount + 2) := rfl
    rw [hstep, Nat.pow_succ]
    omega

end Grammar

/-- **Doubling.** For every depth there is a pattern of so many levels of groups, four tokens longer with each of them,
in whose tree the states double with each. It is read within every limit that its groups keep to. -/
theorem exists_parse_tower (n : Nat) : ∃ pattern ts t, tokens pattern = .ok ts ∧ ts.length = 4 * n + 2 ∧
    groupDepth 0 (ts.map Token.lexeme) = n ∧ (∀ limit u, parse limit pattern = .ok u ↔ n ≤ limit ∧ u = t) ∧
    t.minted + 6 = 12 * 2 ^ n := by
  let d : Subexpr := .seq (.subseq (.last (tower n)))
  have hdepth : d.depth = n := depth_tower n
  obtain ⟨ts, hts, hlexemes⟩ := d.tokens_written
  refine ⟨d.written, ts, d.tree, hts, ?_, ?_, fun limit u => ?_, minted_tree_tower n⟩
  · rw [← List.length_map Token.lexeme, hlexemes]
    exact length_lexemes_tower n
  · rw [hlexemes, Subexpr.groupDepth_lexemes, hdepth]
  · rw [d.parse_written_eq_ok_iff, hdepth]

/-! ## Identifiers -/

/-- What a counter of 32 bits hands out in so many draws, from where it stands. -/
def identifiers (next : UInt32) : Nat → List UInt32
  | 0 => []
  | n + 1 => next :: identifiers (next + 1) n

theorem identifiers_ofNat (m n : Nat) : identifiers (UInt32.ofNat m) n = (List.range' m n).map UInt32.ofNat := by
  induction n generalizing m with
  | zero => rfl
  | succ n ih =>
    have hnext : UInt32.ofNat m + 1 = UInt32.ofNat (m + 1) := by simp
    rw [identifiers, hnext, ih, List.range'_succ, List.map_cons]

/-- They are the states that are drawn. -/
theorem toNat_identifiers (m n : Nat) :
    (identifiers (UInt32.ofNat m) n).map UInt32.toNat = (List.range' m n).map identifier := by
  rw [identifiers_ofNat, List.map_map]
  exact List.map_congr_left fun k _ => UInt32.toNat_ofNat

/-- As long as there are new identifiers, none is handed out twice, and no longer than that. -/
theorem nodup_identifiers_iff (n : Nat) : (identifiers 0 n).Nodup ↔ n ≤ 2 ^ 32 := by
  have hzero : identifiers 0 n = (List.range' 0 n).map UInt32.ofNat := identifiers_ofNat 0 n
  rw [hzero, List.nodup_map_iff_inj_on List.nodup_range']
  refine ⟨fun hinj => ?_, fun hle i hi j hj heq => ?_⟩
  · by_contra hlt
    have hsame := hinj 0 (by simp; omega) (2 ^ 32) (by simp; omega) (by decide)
    omega
  · rw [List.mem_range'_1] at hi hj
    have htoNat := congrArg UInt32.toNat heq
    have hsize : UInt32.size = 2 ^ 32 := rfl
    rwa [UInt32.toNat_ofNat_of_lt' (by omega), UInt32.toNat_ofNat_of_lt' (by omega)] at htoNat

/-- **When the counter is enough.** A counter of 32 bits does not run over in assembling the tree of a pattern, and
hands out no identifier twice, if and only if the states of the tree, counted node by node, are fewer than its values.
This is so if twice its tokens, and one, doubled for each level of its groups and once more, are fewer. -/
theorem minted_lt_iff_of_parse {limit : Nat} {pattern : String} {t : Tree} (h : parse limit pattern = .ok t) :
    (t.minted < 2 ^ 32 ∧ (identifiers 0 t.minted).Nodup ↔ t.stateCount < 2 ^ 32) ∧
    ∃ ts, tokens pattern = .ok ts ∧ groupDepth 0 (ts.map Token.lexeme) ≤ limit ∧
      t.stateCount ≤ (2 * ts.length + 1) * 2 ^ (groupDepth 0 (ts.map Token.lexeme) + 1) := by
  refine ⟨?_, stateCount_le_of_parse h⟩
  rw [nodup_identifiers_iff, t.minted_eq]
  exact and_iff_left_of_imp Nat.le_of_lt

theorem minted_lt_iff_of_parse_two_groups :
    parse 2 "((a+b)+b)+" = .ok (tower 2).tree ∧
    ((tower 2).tree.minted < 2 ^ 32 ∧ (identifiers 0 (tower 2).tree.minted).Nodup ↔
      (tower 2).tree.stateCount < 2 ^ 32) ∧
    ∃ ts, tokens "((a+b)+b)+" = .ok ts ∧ groupDepth 0 (ts.map Token.lexeme) ≤ 2 ∧
      (tower 2).tree.stateCount ≤ (2 * ts.length + 1) * 2 ^ (groupDepth 0 (ts.map Token.lexeme) + 1) :=
  ⟨by decide, minted_lt_iff_of_parse (by decide)⟩

/-- A pattern of 118 characters that is read under the default limit, and the counter that starts over within it. -/
theorem not_nodup_identifiers :
    parse defaultNestLimit ("(((((((((((((((((((((((((((((a+" ++
      "b)+b)+b)+b)+b)+b)+b)+b)+b)+b)+b)+b)+b)+b)+b)+b)+b)+b)+b)+b)+b)+b)+b)+b)+b)+b)+b)+b)+b)+") =
        .ok (tower 29).tree ∧
    (tower 29).tree.minted = 6442450938 ∧ 2 ^ 32 ≤ (tower 29).tree.minted ∧
    ¬ (identifiers 0 (tower 29).tree.minted).Nodup := by
  have hminted : (tower 29).tree.minted = 6442450938 := by
    have h := minted_tree_tower 29
    omega
  rw [nodup_identifiers_iff, hminted]
  exact ⟨by decide +kernel, rfl, by decide, by decide⟩

end PatternAutomata
