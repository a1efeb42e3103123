/-
Trees written out as patterns, and the trees that patterns can have.

Any tree can be written out: every operand gets a group of its own, and every character a backslash. Reading that back
rebuilds the tree from below and folds a repetition directly under a repetition, which no pattern can keep apart. So the
trees of patterns are the trees in which there is none (`Reduced`).

- `Subexpr.reduced_tree`: the tree of a derivation is reduced.
- `tokens_render`, `tree_derivation`: what is written out has a derivation, and that has the normalized tree.
- `parse_render`: reading back normalizes, and the trees of patterns are the reduced ones.
-/
import PatternAutomata.Proofs.Pattern.Depth
import PatternAutomata.Proofs.Pattern.Parser
import PatternAutomata.Proofs.Pattern.Piece

namespace PatternAutomata

open Grammar

/-! ## Reduced trees -/

namespace Tree

/-- Whether a tree is a repetition. -/
def isRepetition : Tree → Bool
  | star _ => true
  | plus _ => true
  | _ => false

/-- No repetition is directly under a repetition. -/
def Reduced : Tree → Prop
  | empty => True
  | literal _ => True
  | union left right => left.Reduced ∧ right.Reduced
  | concat first second => first.Reduced ∧ second.Reduced
  | star body => body.isRepetition = false ∧ body.Reduced
  | plus body => body.isRepetition = false ∧ body.Reduced

/-- A reduced tree is no repetition any more once its repetition is taken away. -/
theorem Reduced.unrepeated {t : Tree} (h : t.Reduced) : t.unrepeated.isRepetition = false ∧ t.unrepeated.Reduced := by
  cases t with
  | star body => exact h
  | plus body => exact h
  | _ => exact ⟨rfl, h⟩

theorem Reduced.repeated {t : Tree} (h : t.Reduced) (operators : List Postfix) : (t.repeated operators).Reduced := by
  unfold Tree.repeated
  split
  · exact h
  · split
    · exact h.unrepeated
    · exact h.unrepeated

end Tree

namespace Grammar

mutual

/-- **Folding.** No operators leave a repetition directly under a repetition, across groups or within. -/
theorem Subexpr.reduced_tree : (d : Subexpr) → d.tree.Reduced
  | .seq s => s.reduced_tree
  | .bar before s => ⟨before.reduced_tree, s.reduced_tree⟩

theorem Seq.reduced_tree : (s : Seq) → s.tree.Reduced
  | .subseq s => s.reduced_tree
  | .empty => trivial

theorem Subseq.reduced_tree : (s : Subseq) → s.tree.Reduced
  | .cons r rest => ⟨r.reduced_tree, rest.reduced_tree⟩
  | .last r => r.reduced_tree

theorem Repeat.reduced_tree : (r : Repeat) → r.tree.Reduced
  | .mk f operators => f.reduced_tree.repeated operators

theorem Factor.reduced_tree : (f : Factor) → f.tree.Reduced
  | .group body => body.reduced_tree
  | .character _ => trivial

end

end Grammar

theorem reduced_of_parse {limit : Nat} {pattern : String} {t : Tree} (h : parse limit pattern = .ok t) : t.Reduced := by
  obtain ⟨-, -, d, -, -, rfl⟩ := exists_derivation_of_parse h
  exact d.reduced_tree

/-! ## Writing out -/

/-- How a lexeme is written. Every plain character is escaped. -/
def Lexeme.piece : Lexeme → Piece
  | character c => .escaped c
  | bar => .plain '|' (by decide)
  | star => .plain '*' (by decide)
  | plus => .plain '+' (by decide)
  | leftParen => .plain '(' (by decide)
  | rightParen => .plain ')' (by decide)

theorem Lexeme.lexeme_piece (x : Lexeme) : x.piece.lexeme = x := by
  cases x <;> rfl

namespace Grammar

/-- A derivation written out as a pattern. -/
def Subexpr.written (d : Subexpr) : String := String.ofList (Piece.written (d.lexemes.map Lexeme.piece))

theorem Subexpr.tokens_written (d : Subexpr) : ∃ ts, tokens d.written = .ok ts ∧ ts.map Token.lexeme = d.lexemes := by
  refine ⟨_, Piece.tokens_of_written String.toList_ofList, ?_⟩
  rw [Piece.map_lexeme_tokensOf, List.map_map]
  exact List.map_id'' Lexeme.lexeme_piece _

/-- A derivation that is written out is read back within every limit that its groups keep to, and no other. -/
theorem Subexpr.parse_written_eq_ok_iff (d : Subexpr) (limit : Nat) (t : Tree) :
    parse limit d.written = .ok t ↔ d.depth ≤ limit ∧ t = d.tree := by
  obtain ⟨ts, hts, hlexemes⟩ := d.tokens_written
  rw [parse, hts]
  refine (treeOfTokens_eq_ok_iff ..).trans ⟨?_, ?_⟩
  · rintro ⟨e, ⟨he, hdepth⟩, rfl⟩
    obtain rfl := Subexpr.lexemes_injective (he.trans hlexemes)
    exact ⟨hdepth, rfl⟩
  · rintro ⟨hdepth, rfl⟩
    exact ⟨d, ⟨hlexemes.symm, hdepth⟩, rfl⟩

end Grammar

namespace Tree

/-- A tree written out as a pattern, with a group for every operand. -/
def render : Tree → String
  | empty => "()"
  | literal c => String.ofList ['\\', c]
  | union left right => "(" ++ left.render ++ ")|(" ++ right.render ++ ")"
  | concat first second => "(" ++ first.render ++ ")(" ++ second.render ++ ")"
  | star body => "(" ++ body.render ++ ")*"
  | plus body => "(" ++ body.render ++ ")+"

/-- A tree with its repetitions rebuilt from below. -/
def normalize : Tree → Tree
  | empty => empty
  | literal c => literal c
  | union left right => union left.normalize right.normalize
  | concat first second => concat first.normalize second.normalize
  | star body => body.normalize.repeatStar
  | plus body => body.normalize.repeatPlus

/-- The derivation of what is written out. -/
def derivation : Tree → Subexpr
  | empty => .seq (.subseq (.last (.mk (.group (.seq .empty)) [])))
  | literal c => .seq (.subseq (.last (.mk (.character c) [])))
  | union left right =>
    .bar (.seq (.subseq (.last (.mk (.group left.derivation) [])))) (.subseq (.last (.mk (.group right.derivation) [])))
  | concat first second =>
    .seq (.subseq (.cons (.mk (.group first.derivation) []) (.last (.mk (.group second.derivation) []))))
  | star body => .seq (.subseq (.last (.mk (.group body.derivation) [.star])))
  | plus body => .seq (.subseq (.last (.mk (.group body.derivation) [.plus])))

theorem tree_derivation (t : Tree) : t.derivation.tree = t.normalize := by
  induction t with
  | empty => rfl
  | literal c => rfl
  | union left right ihl ihr => exact congrArg₂ union ihl ihr
  | concat first second ihf ihs => exact congrArg₂ concat ihf ihs
  | star body ih => exact (body.derivation.tree.repeated_concat [] .star).trans (congrArg repeatStar ih)
  | plus body ih => exact (body.derivation.tree.repeated_concat [] .plus).trans (congrArg repeatPlus ih)

theorem toList_render (t : Tree) : t.render.toList = Piece.written (t.derivation.lexemes.map Lexeme.piece) := by
  induction t with
  | empty => rfl
  | literal c => exact String.toList_ofList
  | _ =>
    -- operands are written by induction; what is left are the parentheses and operators around them
    simp [render, derivation, *, Piece.written, Piece.text, Lexeme.piece, Subexpr.lexemes, Seq.lexemes, Subseq.lexemes,
      Repeat.lexemes, Factor.lexemes, Postfix.lexeme]

theorem render_eq_written (t : Tree) : t.render = t.derivation.written :=
  String.toList_inj.1 (t.toList_render.trans String.toList_ofList.symm)

theorem tokens_render (t : Tree) : ∃ ts, tokens t.render = .ok ts ∧ ts.map Token.lexeme = t.derivation.lexemes :=
  t.render_eq_written ▸ t.derivation.tokens_written

/-! ## Normalizing -/

theorem reduced_normalize (t : Tree) : t.normalize.Reduced := t.tree_derivation ▸ t.derivation.reduced_tree

theorem repeatStar_eq_star {t : Tree} (h : t.isRepetition = false) : t.repeatStar = star t := by
  cases t with
  | star body => cases h
  | plus body => cases h
  | _ => rfl

theorem repeatPlus_eq_plus {t : Tree} (h : t.isRepetition = false) : t.repeatPlus = plus t := by
  cases t with
  | star body => cases h
  | plus body => cases h
  | _ => rfl

/-- Normalizing leaves a reduced tree as it is. -/
theorem Reduced.normalize_eq {t : Tree} (h : t.Reduced) : t.normalize = t := by
  induction t with
  | empty => rfl
  | literal c => rfl
  | union left right ihl ihr => exact congrArg₂ union (ihl h.1) (ihr h.2)
  | concat first second ihf ihs => exact congrArg₂ concat (ihf h.1) (ihs h.2)
  | star body ih => rw [normalize, ih h.2, repeatStar_eq_star h.1]
  | plus body ih => rw [normalize, ih h.2, repeatPlus_eq_plus h.1]

theorem reduced_iff (t : Tree) : t.Reduced ↔ t.normalize = t :=
  ⟨Reduced.normalize_eq, fun h => h ▸ t.reduced_normalize⟩

end Tree

/-- What is written out is read back normalized, within just those limits that its groups keep to. -/
theorem parse_render_eq_ok_iff (t : Tree) {ts : List Token} (hts : tokens t.render = .ok ts) (limit : Nat) (u : Tree) :
    parse limit t.render = .ok u ↔ groupDepth 0 (ts.map Token.lexeme) ≤ limit ∧ u = t.normalize := by
  obtain ⟨ts', hts', hlexemes⟩ := t.tokens_render
  obtain rfl := Except.ok.inj (hts.symm.trans hts')
  rw [t.render_eq_written, Subexpr.parse_written_eq_ok_iff, hlexemes, Subexpr.groupDepth_lexemes, t.tree_derivation]

/-- The group around a repetition does not keep it apart from the one after the group. -/
example : parse 2 (Tree.star (.plus (.literal '+'))).render = .ok (.star (.literal '+')) := by decide

end PatternAutomata
