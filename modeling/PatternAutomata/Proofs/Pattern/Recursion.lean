/-
How deep the trees of patterns are walked.

What is done along a spine is done in a loop, for writing a tree as for assembling it. So a whole spine costs one level of
recursion, over whatever hangs off it, and a repetition one level over its body. Alternatives nest to the left and
sequences to the right, which is just where the spines are, and operators that are stacked fold into one repetition.
That leaves three levels for each level of groups: its alternatives, their items and the repetition of an item. A group
may stand where it takes up the spine around it; then its operands hang off that spine, and nothing is added.

- `recursionDepth_union`, `recursionDepth_concat`: the depth of a spine in terms of what hangs off it.
- `Subexpr.recursionDepth_tree_le`: the bound for a derivation.
- `recursionDepth_le_of_parse`: the bound for a pattern.
- `exists_parse_steep`: for each depth of groups a pattern that reaches the bound.
-/
import PatternAutomata.Proofs.Pattern.Render

namespace PatternAutomata

open Grammar

namespace Tree

/-- How deep a walk through a tree recurses that takes each spine in a loop: one level for a leaf, and one more than what
hangs off a spine or is repeated. -/
def recursionDepth : Tree → Nat
  | empty => 1
  | literal _ => 1
  | union left right =>
    1 + ((left.unionSpine [right]).2.attach.map fun r => r.1.recursionDepth).foldr max
      (left.unionSpine [right]).1.recursionDepth
  | concat first second =>
    1 + ((second.concatSpine [first]).1.attach.map fun h => h.1.recursionDepth).foldr max
      (second.concatSpine [first]).2.recursionDepth
  | star body => 1 + body.recursionDepth
  | plus body => 1 + body.recursionDepth
termination_by t => t.size
decreasing_by
  · have := (left.size_unionSpine [right]).1
    simp only [size]; omega
  · exact size_lt_of_mem_unionSpine left right r.1 r.2
  · have := (second.size_concatSpine [first]).1
    simp only [size]; omega
  · exact size_lt_of_mem_concatSpine first second h.1 h.2
  · simp only [size]; omega
  · simp only [size]; omega

/-! ## What hangs off a spine -/

/-- The greatest depth of what hangs off the union spine of a tree. A tree that is no union hangs there itself. -/
def unionHeight : Tree → Nat
  | union left right => max right.recursionDepth left.unionHeight
  | t => t.recursionDepth

/-- The greatest depth of what hangs off the sequence spine of a tree. -/
def concatHeight : Tree → Nat
  | concat first second => max first.recursionDepth second.concatHeight
  | t => t.recursionDepth

theorem foldr_unionSpine (t : Tree) (rights : List Tree) :
    ((t.unionSpine rights).2.map recursionDepth).foldr max (t.unionSpine rights).1.recursionDepth =
      (rights.map recursionDepth).foldr max t.unionHeight := by
  induction t generalizing rights with
  | union left right ihl ihr =>
    rw [unionSpine, ihl, List.map_cons, List.foldr_cons, unionHeight]
    exact (List.foldr_hom (max right.recursionDepth) fun x y => Nat.max_left_comm x _ y).symm
  | _ => rfl

theorem foldr_concatSpine (t : Tree) (heads : List Tree) :
    ((t.concatSpine heads).1.map recursionDepth).foldr max (t.concatSpine heads).2.recursionDepth =
      (heads.map recursionDepth).foldr max t.concatHeight := by
  induction t generalizing heads with
  | concat first second ihf ihs =>
    rw [concatSpine, ihs, List.map_cons, List.foldr_cons, concatHeight]
    exact (List.foldr_hom (max first.recursionDepth) fun x y => Nat.max_left_comm x _ y).symm
  | _ => rfl

theorem recursionDepth_union (left right : Tree) :
    (union left right).recursionDepth = 1 + (union left right).unionHeight := by
  rw [recursionDepth, List.attach_map_val (f := recursionDepth), foldr_unionSpine]
  rfl

theorem recursionDepth_concat (first second : Tree) :
    (concat first second).recursionDepth = 1 + (concat first second).concatHeight := by
  rw [recursionDepth, List.attach_map_val, foldr_concatSpine]
  rfl

theorem unionHeight_le (t : Tree) : t.unionHeight ≤ t.recursionDepth := by
  cases t with
  | union left right => rw [recursionDepth_union]; exact Nat.le_add_left ..
  | _ => exact Nat.le_refl _

theorem concatHeight_le (t : Tree) : t.concatHeight ≤ t.recursionDepth := by
  cases t with
  | concat first second => rw [recursionDepth_concat]; exact Nat.le_add_left ..
  | _ => exact Nat.le_refl _

theorem recursionDepth_le_unionHeight (t : Tree) : t.recursionDepth ≤ t.unionHeight + 1 := by
  cases t with
  | union left right => rw [recursionDepth_union, Nat.add_comm]
  | _ => exact Nat.le_succ _

theorem recursionDepth_le_concatHeight (t : Tree) : t.recursionDepth ≤ t.concatHeight + 1 := by
  cases t with
  | concat first second => rw [recursionDepth_concat, Nat.add_comm]
  | _ => exact Nat.le_succ _

/-! ## Operators -/

theorem recursionDepth_unrepeated_le (t : Tree) : t.unrepeated.recursionDepth ≤ t.recursionDepth := by
  cases t with
  | star body => rw [recursionDepth]; exact Nat.le_add_left ..
  | plus body => rw [recursionDepth]; exact Nat.le_add_left ..
  | _ => exact Nat.le_refl _

/-- However many operators stand after a factor, they are one level. -/
theorem recursionDepth_repeated_le (t : Tree) (operators : List Postfix) :
    (t.repeated operators).recursionDepth ≤ t.recursionDepth + 1 := by
  have hle := t.recursionDepth_unrepeated_le
  unfold repeated
  split_ifs
  · exact Nat.le_succ _
  · rw [recursionDepth]; omega
  · rw [recursionDepth]; omega

end Tree

/-! ## Derivations -/

namespace Grammar

mutual

/-- **Depth.** Three levels for each level of groups, and four for a pattern without any. -/
theorem Subexpr.recursionDepth_tree_le (d : Subexpr) : d.tree.recursionDepth ≤ 3 * d.depth + 4 :=
  d.tree.recursionDepth_le_unionHeight.trans (Nat.succ_le_succ d.unionHeight_tree_le)

theorem Subexpr.unionHeight_tree_le : (d : Subexpr) → d.tree.unionHeight ≤ 3 * d.depth + 3
  | .seq s => s.tree.unionHeight_le.trans s.recursionDepth_tree_le
  | .bar before s => by
    have hbefore := before.unionHeight_tree_le
    have hs := s.recursionDepth_tree_le
    rw [Subexpr.tree, Tree.unionHeight, Subexpr.depth]
    omega

theorem Seq.recursionDepth_tree_le : (s : Seq) → s.tree.recursionDepth ≤ 3 * s.depth + 3
  | .subseq s => s.tree.recursionDepth_le_concatHeight.trans (Nat.succ_le_succ s.concatHeight_tree_le)
  | .empty => by rw [Seq.tree, Tree.recursionDepth]; omega

theorem Subseq.concatHeight_tree_le : (s : Subseq) → s.tree.concatHeight ≤ 3 * s.depth + 2
  | .cons r rest => by
    have hr := r.recursionDepth_tree_le
    have hrest := rest.concatHeight_tree_le
    rw [Subseq.tree, Tree.concatHeight, Subseq.depth]
    omega
  | .last r => r.tree.concatHeight_le.trans r.recursionDepth_tree_le

theorem Repeat.recursionDepth_tree_le : (r : Repeat) → r.tree.recursionDepth ≤ 3 * r.depth + 2
  | .mk f operators => (f.tree.recursionDepth_repeated_le operators).trans (Nat.succ_le_succ f.recursionDepth_tree_le)

theorem Factor.recursionDepth_tree_le : (f : Factor) → f.tree.recursionDepth ≤ 3 * f.depth + 1
  | .group body => body.recursionDepth_tree_le
  | .character c => by rw [Factor.tree, Tree.recursionDepth]; omega

end

end Grammar

/-- **Recursion is bounded by groups.** A walk through the tree of a pattern recurses at most three times as deep as its
groups nest, and four levels more, however long the pattern and its runs of operators are. -/
theorem recursionDepth_le_of_parse {limit : Nat} {pattern : String} {t : Tree} (h : parse limit pattern = .ok t) :
    ∃ ts, tokens pattern = .ok ts ∧ groupDepth 0 (ts.map Token.lexeme) ≤ limit ∧
      t.recursionDepth ≤ 3 * groupDepth 0 (ts.map Token.lexeme) + 4 := by
  obtain ⟨ts, hts, d, hlexemes, hdepth, rfl⟩ := exists_derivation_of_parse h
  refine ⟨ts, hts, ?_⟩
  rw [← hlexemes, Subexpr.groupDepth_lexemes]
  exact ⟨hdepth, d.recursionDepth_tree_le⟩

/-- A run of operators after a group that takes up the spine around it. -/
theorem recursionDepth_le_of_parse_run :
    let t : Tree := .union (.union (.literal 'a') (.literal 'b')) (.star (.concat (.literal 'c') (.literal 'd')))
    parse 1 "(a|b)|(cd)+*+" = .ok t ∧
    ∃ ts, tokens "(a|b)|(cd)+*+" = .ok ts ∧ groupDepth 0 (ts.map Token.lexeme) ≤ 1 ∧
      t.recursionDepth ≤ 3 * groupDepth 0 (ts.map Token.lexeme) + 4 :=
  ⟨by decide, recursionDepth_le_of_parse (by decide)⟩

/-! ## The bound is reached -/

namespace Grammar

/-- A repeated factor, an item after it, and an alternative after both: a level for each of the three. -/
def level (f : Factor) : Subexpr :=
  .bar (.seq (.subseq (.cons (.mk f [.star]) (.last (.mk (.character 'b') [])))))
    (.subseq (.last (.mk (.character 'c') [])))

theorem recursionDepth_tree_level (f : Factor) :
    (level f).tree.recursionDepth = f.tree.unrepeated.recursionDepth + 3 := by
  have htree : (level f).tree =
      .union (.concat (.star f.tree.unrepeated) (.literal 'b')) (.literal 'c') := rfl
  have hstar : (Tree.star f.tree.unrepeated).recursionDepth = 1 + f.tree.unrepeated.recursionDepth := by
    rw [Tree.recursionDepth]
  have hliteral : ∀ c, (Tree.literal c).recursionDepth = 1 := fun c => by rw [Tree.recursionDepth]
  simp only [htree, Tree.recursionDepth_union, Tree.unionHeight, Tree.recursionDepth_concat, Tree.concatHeight, hstar,
    hliteral]
  omega

/-- The derivations of `a*b|c`, `(a*b|c)*b|c` and so on. -/
def steep : Nat → Subexpr
  | 0 => level (.character 'a')
  | n + 1 => level (.group (steep n))

theorem depth_steep (n : Nat) : (steep n).depth = n := by
  induction n with
  | zero => rfl
  | succ n ih =>
    have hlevel : (steep (n + 1)).depth = max (max ((steep n).depth + 1) 0) 0 := rfl
    rw [hlevel, ih, Nat.max_zero, Nat.max_zero]

theorem recursionDepth_tree_steep (n : Nat) : (steep n).tree.recursionDepth = 3 * n + 4 := by
  induction n with
  | zero =>
    have hunrepeated : (Factor.character 'a').tree.unrepeated = .literal 'a' := rfl
    rw [steep, recursionDepth_tree_level, hunrepeated, Tree.recursionDepth]
  | succ n ih =>
    have hunrepeated : (steep n).tree.unrepeated = (steep n).tree := by cases n <;> rfl
    rw [steep, recursionDepth_tree_level, Factor.tree, hunrepeated, ih]
    omega

end Grammar

/-- **The bound is reached.** For every depth there is a pattern whose groups nest so deep, and a walk through its tree
recurses as deep as the bound says. -/
theorem exists_parse_steep (n : Nat) : ∃ pattern ts t, tokens pattern = .ok ts ∧
    groupDepth 0 (ts.map Token.lexeme) = n ∧ (∀ limit u, parse limit pattern = .ok u ↔ n ≤ limit ∧ u = t) ∧
    t.recursionDepth = 3 * n + 4 := by
  obtain ⟨ts, hts, hlexemes⟩ := (steep n).tokens_written
  refine ⟨(steep n).written, ts, (steep n).tree, hts, ?_, fun limit u => ?_, recursionDepth_tree_steep n⟩
  · rw [hlexemes, Subexpr.groupDepth_lexemes, depth_steep]
  · rw [(steep n).parse_written_eq_ok_iff, depth_steep]

end PatternAutomata
