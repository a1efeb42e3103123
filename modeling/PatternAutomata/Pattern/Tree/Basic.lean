/-
The syntax trees of patterns.

A repetition directly under a repetition adds nothing, so trees are built with `repeatStar` and `repeatPlus`, which
absorb one that is already there.

Long patterns give trees that lean to one side: alternatives nest to the left and sequences to the right. `unionSpine`
and `concatSpine` take such a side apart in one walk, so that what is done along it can be done in a loop: a walk along
a spine leads to trees of smaller size only (`size_unionSpine`, `size_concatSpine`).
-/
namespace PatternAutomata

/-- The structure of a pattern. -/
inductive Tree where
  | empty
  | literal (c : Char)
  | union (left right : Tree)
  | concat (first second : Tree)
  | star (body : Tree)
  | plus (body : Tree)
  deriving DecidableEq, Repr, Inhabited

namespace Tree

/-- A tree repeated any number of times; a repetition of the tree itself is absorbed. -/
def repeatStar : Tree → Tree
  | star body => star body
  | plus body => star body
  | body => star body

/-- A tree repeated at least once; a tree that is a repetition already stays as it is. -/
def repeatPlus : Tree → Tree
  | star body => star body
  | plus body => plus body
  | body => plus body

/-- The number of nodes of a tree. -/
def size : Tree → Nat
  | empty => 1
  | literal _ => 1
  | union left right => left.size + right.size + 1
  | concat first second => first.size + second.size + 1
  | star body => body.size + 1
  | plus body => body.size + 1

/-! ## Spines -/

/-- Walks down the left side of a union: the tree at its end, and the right operands on top of those given, the one met
last in front. Read in order they stand from left to right. -/
def unionSpine : Tree → List Tree → Tree × List Tree
  | union left right, rights => left.unionSpine (right :: rights)
  | base, rights => (base, rights)

/-- Walks down the right side of a sequence: the heads on top of those given, the one met last in front, and the tree at
its end. -/
def concatSpine : Tree → List Tree → List Tree × Tree
  | concat first second, heads => second.concatSpine (first :: heads)
  | base, heads => (heads, base)

theorem size_unionSpine (t : Tree) (rights : List Tree) :
    (t.unionSpine rights).1.size ≤ t.size ∧ ∀ r ∈ (t.unionSpine rights).2, r ∈ rights ∨ r.size < t.size := by
  induction t generalizing rights with
  | union left right ihl ihr =>
    simp only [unionSpine, size]
    obtain ⟨hbase, hrights⟩ := ihl (right :: rights)
    refine ⟨by omega, fun r hr => ?_⟩
    rcases hrights r hr with h | h
    · rcases List.mem_cons.1 h with rfl | h
      · exact Or.inr (by omega)
      · exact Or.inl h
    · exact Or.inr (by omega)
  | _ => simp +contextual [unionSpine]

theorem size_concatSpine (t : Tree) (heads : List Tree) :
    (t.concatSpine heads).2.size ≤ t.size ∧ ∀ h ∈ (t.concatSpine heads).1, h ∈ heads ∨ h.size < t.size := by
  induction t generalizing heads with
  | concat first second ihf ihs =>
    simp only [concatSpine, size]
    obtain ⟨hbase, hheads⟩ := ihs (first :: heads)
    refine ⟨by omega, fun h hh => ?_⟩
    rcases hheads h hh with hm | hm
    · rcases List.mem_cons.1 hm with rfl | hm
      · exact Or.inr (by omega)
      · exact Or.inl hm
    · exact Or.inr (by omega)
  | _ => simp +contextual [concatSpine]

/-- What hangs off the spine of a union is smaller than the union. -/
theorem size_lt_of_mem_unionSpine (left right r : Tree) (h : r ∈ (left.unionSpine [right]).2) :
    r.size < (union left right).size := by
  rcases (left.size_unionSpine [right]).2 r h with h | h
  · obtain rfl := List.mem_singleton.1 h
    simp only [size]; omega
  · simp only [size]; omega

/-- What hangs off the spine of a sequence is smaller than the sequence. -/
theorem size_lt_of_mem_concatSpine (first second h : Tree) (hh : h ∈ (second.concatSpine [first]).1) :
    h.size < (concat first second).size := by
  rcases (second.size_concatSpine [first]).2 h hh with h | h
  · obtain rfl := List.mem_singleton.1 h
    simp only [size]; omega
  · simp only [size]; omega

end Tree

end PatternAutomata
