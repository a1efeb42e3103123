/-
The automaton of a tree.

Each node of a tree becomes a combinator of automata, with new states drawn from left to right. A union or a sequence is
assembled along its whole spine: the right operands of a union are joined one after another, and the heads of a sequence
are all assembled before they are joined, from the last to the first. The body of a plus is assembled twice, because the
compulsory pass and the repeated ones need states of their own. The result is what assembling node by node gives
(`assemble_union`, `assemble_concat`).
-/
import PatternAutomata.Nfa.Combinators
import PatternAutomata.Pattern.Tree.Basic

namespace PatternAutomata.Tree

/-- The automaton of a tree, on new states. -/
def assemble : Tree → Minting Nfa
  | empty => Minting.emptyWord
  | literal c => Minting.character c
  | union left right => do
    let base ← (left.unionSpine [right]).1.assemble
    (left.unionSpine [right]).2.attach.foldlM (fun joined r => do Minting.union joined (← r.1.assemble)) base
  | concat first second => do
    let heads ← (second.concatSpine [first]).1.attach.reverse.mapM fun h => h.1.assemble
    let base ← (second.concatSpine [first]).2.assemble
    return heads.foldr Nfa.concat base
  | star body => do Minting.star (← body.assemble)
  | plus body => do
    let first ← body.assemble
    let rest ← body.assemble
    Minting.plus first rest
termination_by t => t.size
decreasing_by
  · have := (left.size_unionSpine [right]).1
    simp only [size]; omega
  · exact size_lt_of_mem_unionSpine left right r.1 r.2
  · exact size_lt_of_mem_concatSpine first second h.1 h.2
  · have := (second.size_concatSpine [first]).1
    simp only [size]; omega
  · simp only [size]; omega
  · simp only [size]; omega

/-- How many states are drawn for the automaton of a tree. -/
def minted (t : Tree) : Nat := (t.assemble.run 0).2

/-- The automaton of a tree, on the states from 0 up. -/
def toNfa (t : Tree) : Nfa := (t.assemble.run 0).1

/-! ## Spines are assembled as their nodes would be -/

/-- Assembles a right operand and joins it to what stands before it. -/
def joinRight (joined : Nfa) (right : Tree) : Minting Nfa := do Minting.union joined (← right.assemble)

theorem assemble_union_spine (left right : Tree) :
    (union left right).assemble = (do
      let base ← (left.unionSpine [right]).1.assemble
      (left.unionSpine [right]).2.foldlM joinRight base) := by
  rw [assemble]
  congr 1
  funext base
  simp
  rfl

theorem assemble_unionSpine (t : Tree) (rights : List Tree) :
    (do let base ← (t.unionSpine rights).1.assemble
        (t.unionSpine rights).2.foldlM joinRight base) =
      (do let base ← t.assemble
          rights.foldlM joinRight base) := by
  induction t generalizing rights with
  | union left right ihl ihr =>
    rw [unionSpine, ihl, assemble_union_spine, ihl]
    simp
  | _ => rfl

/-- A union is assembled from its left operand, then its right one, whatever spine it is the top of. -/
theorem assemble_union (left right : Tree) :
    (union left right).assemble = (do Minting.union (← left.assemble) (← right.assemble)) := by
  rw [assemble_union_spine, assemble_unionSpine]
  simp [joinRight]

theorem assemble_concat_spine (first second : Tree) :
    (concat first second).assemble = (do
      let heads ← (second.concatSpine [first]).1.reverse.mapM assemble
      let base ← (second.concatSpine [first]).2.assemble
      return heads.foldr Nfa.concat base) := by
  rw [assemble]
  simp

theorem assemble_concatSpine (t : Tree) (heads : List Tree) :
    (do let made ← (t.concatSpine heads).1.reverse.mapM assemble
        let base ← (t.concatSpine heads).2.assemble
        return made.foldr Nfa.concat base) =
      (do let made ← heads.reverse.mapM assemble
          let base ← t.assemble
          return made.foldr Nfa.concat base : Minting Nfa) := by
  induction t generalizing heads with
  | concat first second ihf ihs =>
    rw [concatSpine, ihs, assemble_concat_spine, ihs]
    simp [List.mapM_append]
  | _ => rfl

/-- A sequence is assembled from its first part, then its second one, whatever spine it is the top of. -/
theorem assemble_concat (first second : Tree) :
    (concat first second).assemble = (do return Nfa.concat (← first.assemble) (← second.assemble)) := by
  rw [assemble_concat_spine, assemble_concatSpine]
  simp

end PatternAutomata.Tree
