/-
The parser finds the derivation of a pattern, and the tree it gives is the tree of that derivation.

The parser keeps the trees of what the scanner keeps, step by step: it reads a token where the scanner reads the lexeme,
and the operators that it folds into the last tree are those that the scanner adds to the last repeat. What the scanner
accepts is known, so the parser gives a tree for the lexemes of a derivation and for nothing else.

- `Open.tree_subexpr`: the parser keeps the tree of what has been read of a group.
- `read_nesting`, `foldlM_read_nesting`: a token, and a list of tokens, read beside their lexemes.
- `treeOfTokens_eq_ok_iff`: the tokens that have a tree within a limit, and which tree that is.
- `parse_derives`: parsing gives the trees of the derivations within the limit, and nothing else.
-/
import PatternAutomata.Pattern.Parser
import PatternAutomata.Proofs.Pattern.Scan

namespace PatternAutomata.Grammar

/-! ## What the parser keeps -/

/-- What the parser keeps of an open group. -/
def Open.group (o : Open) : OpenGroup := ⟨o.ended.map Subexpr.tree, o.items.map Repeat.tree⟩

/-- What the parser keeps at a place in a pattern. -/
def Scan.nesting (s : Scan) : Nesting := ⟨s.inner.group, s.outer.map Open.group⟩

theorem Open.tree_foldl (items : List Repeat) (s : Subseq) :
    (items.foldl (fun rest r => .cons r rest) s).tree =
      (items.map Repeat.tree).foldl (fun rest item => .concat item rest) s.tree := by
  induction items generalizing s with
  | nil => rfl
  | cons r items ih => exact ih (.cons r s)

theorem Open.tree_seqOf (items : List Repeat) : (seqOf items).tree = OpenGroup.sequenceOf (items.map Repeat.tree) := by
  cases items with
  | nil => rfl
  | cons last earlier => exact tree_foldl earlier (.last last)

theorem Open.tree_subexpr (o : Open) : o.subexpr.tree = o.group.tree := by
  obtain ⟨ended, items⟩ := o
  cases ended with
  | none => exact tree_seqOf items
  | some before => exact congrArg (Tree.union before.tree) (tree_seqOf items)

/-! ## Reading -/

namespace Scan

theorem repeatLast_nesting (s : Scan) (o : Postfix) (token : Token) :
    (s.nesting.repeatLast o.fold token).toOption = (s.repeatLast o).map nesting := by
  obtain ⟨⟨ended, items⟩, outer⟩ := s
  cases items with
  | nil => rfl
  | cons last earlier =>
    obtain ⟨f, operators⟩ := last
    have htree : (Repeat.mk f (operators ++ [o])).tree = o.fold (Repeat.mk f operators).tree :=
      f.tree.repeated_concat operators o
    exact congrArg (fun item => some (Nesting.mk ⟨ended.map Subexpr.tree, item :: earlier.map Repeat.tree⟩
      (outer.map Open.group))) htree.symm

/-- The parser reads a token where the scanner reads its lexeme, and keeps the trees of what the scanner keeps. -/
theorem read_nesting (limit : Nat) (s : Scan) (token : Token) :
    (s.nesting.read limit token).toOption = (s.next limit token.lexeme).map nesting := by
  obtain ⟨lexeme, offset⟩ := token
  cases lexeme with
  | character c => rfl
  | bar =>
    unfold next nesting
    dsimp only [Option.map_some, Nesting.read, OpenGroup.endAlternative]
    rw [← s.inner.tree_subexpr]
    rfl
  | star => exact s.repeatLast_nesting .star _
  | plus => exact s.repeatLast_nesting .plus _
  | leftParen =>
    have hdepth : s.nesting.depth = s.outer.length := List.length_map _
    unfold Nesting.read next
    dsimp only
    rw [hdepth]
    by_cases hlimit : limit ≤ s.outer.length
    · rw [if_pos hlimit, if_pos hlimit]
      rfl
    · rw [if_neg hlimit, if_neg hlimit]
      rfl
  | rightParen =>
    obtain ⟨inner, outer⟩ := s
    cases outer with
    | nil => rfl
    | cons o outer =>
      exact congrArg (fun item => some (Nesting.mk (o.group.push item) (outer.map Open.group))) inner.tree_subexpr.symm

theorem foldlM_read_nesting (limit : Nat) (s : Scan) (ts : List Token) :
    (ts.foldlM (Nesting.read limit) s.nesting).toOption = (s.readAll limit (ts.map Token.lexeme)).map nesting := by
  induction ts generalizing s with
  | nil => rfl
  | cons token ts ih =>
    have hstep := s.read_nesting limit token
    rw [List.foldlM_cons, List.map_cons, readAll_cons]
    cases hread : s.nesting.read limit token with
    | error e =>
      rw [hread] at hstep
      rw [Option.map_eq_none_iff.1 hstep.symm]
      rfl
    | ok n =>
      rw [hread] at hstep
      obtain ⟨s', hnext, rfl⟩ := Option.map_eq_some_iff.1 hstep.symm
      rw [hnext]
      exact ih s'

end Scan

/-- The parser gives a tree if and only if the scanner ends outside all groups with a derivation of that tree. -/
theorem treeOfTokens_eq_ok_iff_readAll (limit : Nat) (ts : List Token) (offset : Nat) (t : Tree) :
    treeOfTokens limit ts offset = .ok t ↔
      ∃ o : Open, Scan.start.readAll limit (ts.map Token.lexeme) = some ⟨o, []⟩ ∧ o.subexpr.tree = t := by
  have hrun := Scan.start.foldlM_read_nesting limit ts
  unfold treeOfTokens
  cases hread : ts.foldlM (Nesting.read limit) Scan.start.nesting with
  | error e =>
    rw [hread] at hrun
    rw [show Nesting.start = Scan.start.nesting from rfl, hread, Option.map_eq_none_iff.1 hrun.symm]
    refine ⟨?_, ?_⟩
    · intro h
      cases h
    · intro h
      obtain ⟨o, ho, -⟩ := h
      cases ho
  | ok n =>
    rw [hread] at hrun
    obtain ⟨s, hs, rfl⟩ := Option.map_eq_some_iff.1 hrun.symm
    rw [show Nesting.start = Scan.start.nesting from rfl, hread, hs]
    obtain ⟨inner, outer⟩ := s
    refine ⟨?_, ?_⟩
    · intro h
      cases outer with
      | nil => exact ⟨inner, rfl, inner.tree_subexpr.trans (Except.ok.inj h)⟩
      | cons around outer => cases h
    · intro h
      obtain ⟨o, ho, rfl⟩ := h
      cases ho
      exact congrArg Except.ok inner.tree_subexpr.symm

/-- A list of tokens gives the tree of its derivation, if it has one within the limit, and nothing else. -/
theorem treeOfTokens_eq_ok_iff (limit : Nat) (ts : List Token) (offset : Nat) (t : Tree) :
    treeOfTokens limit ts offset = .ok t ↔
      ∃ d : Subexpr, (d.lexemes = ts.map Token.lexeme ∧ d.depth ≤ limit) ∧ d.tree = t := by
  rw [treeOfTokens_eq_ok_iff_readAll]
  refine ⟨?_, ?_⟩
  · intro h
    obtain ⟨o, hrun, ht⟩ := h
    exact ⟨o.subexpr, (readAll_start_iff limit _ o.subexpr).1 ⟨o, hrun, rfl⟩, ht⟩
  · intro h
    obtain ⟨d, hd, ht⟩ := h
    obtain ⟨o, hrun, rfl⟩ := (readAll_start_iff limit _ d).2 hd
    exact ⟨o, hrun, ht⟩

end PatternAutomata.Grammar

namespace PatternAutomata

open Grammar

/-- A pattern that has a tree has a derivation of it within the limit. -/
theorem exists_derivation_of_parse {limit : Nat} {pattern : String} {t : Tree} (h : parse limit pattern = .ok t) :
    ∃ ts, tokens pattern = .ok ts ∧
      ∃ d : Subexpr, d.lexemes = ts.map Token.lexeme ∧ d.depth ≤ limit ∧ d.tree = t := by
  unfold parse at h
  cases htokens : tokens pattern with
  | error e =>
    rw [htokens] at h
    cases h
  | ok ts =>
    rw [htokens] at h
    obtain ⟨d, hd, ht⟩ := (treeOfTokens_eq_ok_iff ..).1 h
    exact ⟨ts, rfl, d, hd.1, hd.2, ht⟩

/-- **Parsing is derivation.** A pattern has the tree `t` within a limit if and only if it has tokens and `t` is the tree
of a derivation of their lexemes in which groups nest no deeper than that. No lexemes have two derivations, and the tree
of a derivation has the language that its operators give as they are written. -/
theorem parse_derives (limit : Nat) (pattern : String) (t : Tree) :
    (parse limit pattern = .ok t ↔
      ∃ ts, tokens pattern = .ok ts ∧
        ∃ d : Subexpr, d.lexemes = ts.map Token.lexeme ∧ d.depth ≤ limit ∧ d.tree = t) ∧
      Function.Injective Subexpr.lexemes ∧ ∀ d : Subexpr, d.tree.language = d.language := by
  refine ⟨?_, Subexpr.lexemes_injective, Subexpr.language_tree⟩
  unfold parse
  cases htokens : tokens pattern with
  | error e =>
    refine ⟨?_, ?_⟩
    · intro h
      cases h
    · intro h
      obtain ⟨ts, hts, -⟩ := h
      cases hts
  | ok ts =>
    have hread := treeOfTokens_eq_ok_iff limit ts pattern.utf8ByteSize t
    refine ⟨?_, ?_⟩
    · intro h
      obtain ⟨d, hd, ht⟩ := hread.1 h
      exact ⟨ts, rfl, d, hd.1, hd.2, ht⟩
    · intro h
      obtain ⟨ts', hts, d, hlexemes, hdepth, ht⟩ := h
      obtain rfl := Except.ok.inj hts
      exact hread.2 ⟨d, ⟨hlexemes, hdepth⟩, ht⟩

/-- Operators fold through a group into what stands in it. -/
example : parse 1 "(a+)*|" = .ok (.union (.star (.literal 'a')) .empty) := by decide

/-- Without a limit to spare, the group is refused where it opens. -/
example : parse 0 "(a+)*|" = .error (.nestLimitExceeded 0 0) := by decide

end PatternAutomata
