/-
The grammar of patterns, and what its derivations stand for.

    expression -> subexpr EOF
    subexpr    -> seq ('|' seq)*
    seq        -> subseq | ε
    subseq     -> repeat subseq | repeat
    repeat     -> factor ('*' | '+')*
    factor     -> '(' subexpr ')' | CHARACTER

A derivation is data, with one type for each rule and one constructor for each way to apply it. It tells the lexemes it
derives, how deep its groups nest, its syntax tree and its language. The tree folds the operators after a factor into one
repetition and takes up a repetition that the factor is already; the language applies every operator as it is written,
one after another.

- `repeated_concat`: one operator more folds like a repetition of the tree so far.
- `language_repeated`: folding the operators of a run keeps the language that applying them gives.
- `Subexpr.language_tree`: the tree of a derivation has the language of the derivation.
-/
import Mathlib.Algebra.Order.Kleene
import PatternAutomata.Pattern.Token
import PatternAutomata.Proofs.Pattern.Language

namespace PatternAutomata

open Computability

/-! ## Operators -/

/-- What may stand after a factor. -/
inductive Postfix where
  | star
  | plus
  deriving DecidableEq, Repr

namespace Postfix

/-- How an operator is written. -/
def lexeme : Postfix → Lexeme
  | star => .star
  | plus => .plus

/-- What an operator makes of a language. -/
def apply : Postfix → Language Char → Language Char
  | star, l => l∗
  | plus, l => l * l∗

/-- What an operator makes of the tree before it. -/
def fold : Postfix → Tree → Tree
  | star => Tree.repeatStar
  | plus => Tree.repeatPlus

end Postfix

namespace Tree

/-- Whether a tree is a repetition that allows for none. -/
def isStar : Tree → Bool
  | star _ => true
  | _ => false

/-- A tree without the repetition that it is, if it is one. -/
def unrepeated : Tree → Tree
  | star body => body
  | plus body => body
  | body => body

/-- The tree of a factor with a run of operators after it. -/
def repeated (factor : Tree) (operators : List Postfix) : Tree :=
  if operators = [] then factor
  else if operators.all (· = .plus) && !factor.isStar then plus factor.unrepeated
  else star factor.unrepeated

/-- **Runs are folds.** The tree of a run of operators is the tree of the run without its last operator, repeated as
that operator says. -/
theorem repeated_concat (factor : Tree) (operators : List Postfix) (o : Postfix) :
    factor.repeated (operators ++ [o]) = o.fold (factor.repeated operators) := by
  unfold repeated
  rw [if_neg (List.append_ne_nil_of_right_ne_nil operators (List.cons_ne_nil o [])), List.all_append]
  by_cases hnil : operators = []
  · subst hnil
    cases o <;> cases factor <;> rfl
  · rw [if_neg hnil]
    cases o with
    | star =>
      -- a star makes a star of either repetition
      cases operators.all (· = .plus) && !factor.isStar <;> simp [Postfix.fold, repeatStar]
    | plus =>
      -- a plus leaves either repetition as it is
      cases operators.all (· = .plus) <;> cases factor.isStar <;> simp [Postfix.fold, repeatPlus]

/-! ### Languages of repetitions -/

/-- One or more words, any number of times, is any number of words. -/
theorem kstar_mul_kstar_self (l : Language Char) : (l * l∗)∗ = l∗ := by
  have hle : l * l∗ ≤ l∗ := mul_kstar_le_kstar
  have hge : l ≤ l * l∗ := le_mul_of_one_le_right' one_le_kstar
  apply le_antisymm
  · calc (l * l∗)∗ ≤ l∗∗ := kstar_mono hle
      _ = l∗ := kstar_idem l
  · exact kstar_mono hge

theorem language_repeatStar (t : Tree) : t.repeatStar.language = t.language∗ := by
  cases t with
  | star body => exact (kstar_idem body.language).symm
  | plus body => exact (kstar_mul_kstar_self body.language).symm
  | _ => rfl

theorem language_repeatPlus (t : Tree) : t.repeatPlus.language = t.language * t.language∗ := by
  cases t with
  | star body =>
    calc body.language∗ = body.language∗ * body.language∗ := (kstar_mul_kstar _).symm
      _ = body.language∗ * body.language∗∗ := by rw [kstar_idem]
  | plus body =>
    calc body.language * body.language∗ = body.language * (body.language∗ * body.language∗) := by rw [kstar_mul_kstar]
      _ = body.language * body.language∗ * (body.language * body.language∗)∗ := by
        rw [kstar_mul_kstar_self, mul_assoc]
  | _ => rfl

theorem language_fold (o : Postfix) (t : Tree) : (o.fold t).language = o.apply t.language := by
  cases o with
  | star => exact t.language_repeatStar
  | plus => exact t.language_repeatPlus

/-- Folding a run of operators keeps the language that applying them one after another gives. -/
theorem language_repeated (factor : Tree) (operators : List Postfix) :
    (factor.repeated operators).language = operators.foldl (fun l o => o.apply l) factor.language := by
  induction operators using List.reverseRecOn with
  | nil => rfl
  | append_singleton operators o ih =>
    rw [repeated_concat, language_fold, ih, List.foldl_append, List.foldl_cons, List.foldl_nil]

end Tree

/-! ## Derivations -/

namespace Grammar

mutual

/-- The derivations of `subexpr -> seq ('|' seq)*`. -/
inductive Subexpr where
  | seq (s : Seq)
  | bar (before : Subexpr) (s : Seq)

/-- The derivations of `seq -> subseq | ε`. -/
inductive Seq where
  | subseq (s : Subseq)
  | empty

/-- The derivations of `subseq -> repeat subseq | repeat`. -/
inductive Subseq where
  | cons (r : Repeat) (rest : Subseq)
  | last (r : Repeat)

/-- The derivations of `repeat -> factor ('*' | '+')*`. -/
inductive Repeat where
  | mk (f : Factor) (operators : List Postfix)

/-- The derivations of `factor -> '(' subexpr ')' | CHARACTER`. -/
inductive Factor where
  | group (body : Subexpr)
  | character (c : Char)

end

/-! ### Lexemes -/

mutual

/-- What is derived. -/
def Subexpr.lexemes : Subexpr → List Lexeme
  | .seq s => s.lexemes
  | .bar before s => before.lexemes ++ .bar :: s.lexemes

def Seq.lexemes : Seq → List Lexeme
  | .subseq s => s.lexemes
  | .empty => []

def Subseq.lexemes : Subseq → List Lexeme
  | .cons r rest => r.lexemes ++ rest.lexemes
  | .last r => r.lexemes

def Repeat.lexemes : Repeat → List Lexeme
  | .mk f operators => f.lexemes ++ operators.map Postfix.lexeme

def Factor.lexemes : Factor → List Lexeme
  | .group body => .leftParen :: (body.lexemes ++ [.rightParen])
  | .character c => [.character c]

end

/-! ### Depth -/

mutual

/-- How deep groups nest. -/
def Subexpr.depth : Subexpr → Nat
  | .seq s => s.depth
  | .bar before s => max before.depth s.depth

def Seq.depth : Seq → Nat
  | .subseq s => s.depth
  | .empty => 0

def Subseq.depth : Subseq → Nat
  | .cons r rest => max r.depth rest.depth
  | .last r => r.depth

def Repeat.depth : Repeat → Nat
  | .mk f _ => f.depth

def Factor.depth : Factor → Nat
  | .group body => body.depth + 1
  | .character _ => 0

end

/-! ### Trees -/

mutual

/-- The syntax tree of a derivation. -/
def Subexpr.tree : Subexpr → Tree
  | .seq s => s.tree
  | .bar before s => .union before.tree s.tree

def Seq.tree : Seq → Tree
  | .subseq s => s.tree
  | .empty => .empty

def Subseq.tree : Subseq → Tree
  | .cons r rest => .concat r.tree rest.tree
  | .last r => r.tree

def Repeat.tree : Repeat → Tree
  | .mk f operators => f.tree.repeated operators

def Factor.tree : Factor → Tree
  | .group body => body.tree
  | .character c => .literal c

end

/-! ### Languages -/

mutual

/-- The words that a derivation stands for, with every operator applied as it is written. -/
def Subexpr.language : Subexpr → Language Char
  | .seq s => s.language
  | .bar before s => before.language + s.language

def Seq.language : Seq → Language Char
  | .subseq s => s.language
  | .empty => 1

def Subseq.language : Subseq → Language Char
  | .cons r rest => r.language * rest.language
  | .last r => r.language

def Repeat.language : Repeat → Language Char
  | .mk f operators => operators.foldl (fun l o => o.apply l) f.language

def Factor.language : Factor → Language Char
  | .group body => body.language
  | .character c => {[c]}

end

mutual

/-- **Trees keep the language.** The tree of a derivation has the language of the derivation. -/
theorem Subexpr.language_tree : (d : Subexpr) → d.tree.language = d.language
  | .seq s => s.language_tree
  | .bar before s => by
    rw [Subexpr.tree, Tree.language, Subexpr.language, before.language_tree, s.language_tree]

theorem Seq.language_tree : (s : Seq) → s.tree.language = s.language
  | .subseq s => s.language_tree
  | .empty => rfl

theorem Subseq.language_tree : (s : Subseq) → s.tree.language = s.language
  | .cons r rest => by
    rw [Subseq.tree, Tree.language, Subseq.language, r.language_tree, rest.language_tree]
  | .last r => r.language_tree

theorem Repeat.language_tree : (r : Repeat) → r.tree.language = r.language
  | .mk f operators => by
    rw [Repeat.tree, Tree.language_repeated, Repeat.language, f.language_tree]

theorem Factor.language_tree : (f : Factor) → f.tree.language = f.language
  | .group body => body.language_tree
  | .character _ => rfl

end

end Grammar

end PatternAutomata
