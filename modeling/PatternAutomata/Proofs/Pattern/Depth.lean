/-
How deep groups nest in a pattern.

The depth of a list of lexemes is the most groups that are open at once, which takes a count of the open groups and
nothing else. In what has a derivation every group is closed again, so parts in a row nest as deep as the deeper of them,
and the depth of the whole is that of the derivation (`Subexpr.nests`).
-/
import PatternAutomata.Proofs.Pattern.Fault
import PatternAutomata.Proofs.Pattern.Grammar

namespace PatternAutomata

/-- The most groups that are open at once, where some are open already. -/
def groupDepth (depth : Nat) : List Lexeme → Nat
  | [] => depth
  | x :: rest => max depth (groupDepth (Descent.depthAfter depth x) rest)

theorem le_groupDepth (depth : Nat) (xs : List Lexeme) : depth ≤ groupDepth depth xs := by
  cases xs with
  | nil => exact Nat.le_refl depth
  | cons x rest => exact Nat.le_max_left ..

theorem groupDepth_append (depth : Nat) (xs ys : List Lexeme) :
    groupDepth depth (xs ++ ys) = max (groupDepth depth xs) (groupDepth (xs.foldl Descent.depthAfter depth) ys) := by
  induction xs generalizing depth with
  | nil => exact (Nat.max_eq_right (le_groupDepth depth ys)).symm
  | cons x xs ih => rw [List.cons_append, groupDepth, ih, groupDepth, Nat.max_assoc, List.foldl_cons]

/-- The lexemes close all groups that they open, and these nest so deep. -/
def Nests (xs : List Lexeme) (n : Nat) : Prop :=
  ∀ depth, xs.foldl Descent.depthAfter depth = depth ∧ groupDepth depth xs = depth + n

namespace Nests

variable {xs ys : List Lexeme} {m n : Nat}

theorem nil : Nests [] 0 := fun _ => ⟨rfl, rfl⟩

theorem single {x : Lexeme} (hx : ∀ depth, Descent.depthAfter depth x = depth) : Nests [x] 0 := by
  intro depth
  rw [List.foldl_cons, List.foldl_nil, groupDepth, groupDepth, hx, Nat.max_self]
  exact ⟨rfl, rfl⟩

theorem append (hxs : Nests xs m) (hys : Nests ys n) : Nests (xs ++ ys) (max m n) := by
  intro depth
  obtain ⟨hx, hxdepth⟩ := hxs depth
  obtain ⟨hy, hydepth⟩ := hys depth
  rw [List.foldl_append, groupDepth_append, hx, hy, hxdepth, hydepth]
  exact ⟨rfl, by omega⟩

theorem group (h : Nests xs n) : Nests (.leftParen :: (xs ++ [.rightParen])) (n + 1) := by
  intro depth
  obtain ⟨hx, hxdepth⟩ := h (depth + 1)
  rw [List.foldl_cons, List.foldl_append, groupDepth, groupDepth_append, Descent.depthAfter, hx, hxdepth]
  refine ⟨rfl, ?_⟩
  simp only [groupDepth, Descent.depthAfter, Nat.add_sub_cancel]
  omega

end Nests

/-! ## The depth of derivations -/

namespace Grammar

theorem nests_operators (operators : List Postfix) : Nests (operators.map Postfix.lexeme) 0 := by
  induction operators with
  | nil => exact Nests.nil
  | cons o operators ih =>
    have ho : Nests [o.lexeme] 0 := Nests.single fun depth => by cases o <;> rfl
    exact ho.append ih

mutual

/-- **Depth.** Groups nest as deep in the lexemes of a derivation as they do in the derivation. -/
theorem Subexpr.nests : (d : Subexpr) → Nests d.lexemes d.depth
  | .seq s => s.nests
  | .bar before s => by
    have hbar : Nests [.bar] 0 := Nests.single fun _ => rfl
    have h := before.nests.append (hbar.append s.nests)
    rwa [Nat.zero_max] at h

theorem Seq.nests : (s : Seq) → Nests s.lexemes s.depth
  | .subseq s => s.nests
  | .empty => Nests.nil

theorem Subseq.nests : (s : Subseq) → Nests s.lexemes s.depth
  | .cons r rest => r.nests.append rest.nests
  | .last r => r.nests

theorem Repeat.nests : (r : Repeat) → Nests r.lexemes r.depth
  | .mk f operators => by
    have h := f.nests.append (nests_operators operators)
    rwa [Nat.max_zero] at h

theorem Factor.nests : (f : Factor) → Nests f.lexemes f.depth
  | .group body => body.nests.group
  | .character _ => Nests.single fun _ => rfl

end

theorem Subexpr.groupDepth_lexemes (d : Subexpr) : groupDepth 0 d.lexemes = d.depth :=
  (d.nests 0).2.trans (Nat.zero_add _)

end Grammar

end PatternAutomata
