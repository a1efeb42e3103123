/-
A scanner that finds the derivation of a list of lexemes.

The scanner reads lexemes from left to right, as the parser reads tokens, and keeps derivations where the parser keeps
trees. So it loses nothing: what it keeps tells the lexemes read so far (`Reads`), and what it ends with derives them.
Conversely it reads the lexemes of a derivation and ends with that derivation, whatever is open around it, as long as the
groups are not too deep there. A list of lexemes leads to one end only, so it has at most one derivation.

- `Subexpr.readAll`: the scanner reads any derivation back.
- `Subexpr.lexemes_injective`: no two derivations derive the same lexemes.
- `Reads.next`, `Reads.readAll`: a step, and a run, leads to where all lexemes read have been derived.
- `readAll_start_iff`: the scanner accepts what has a derivation within the limit, and gives that derivation.
-/
import PatternAutomata.Proofs.Pattern.Grammar

namespace PatternAutomata.Grammar

/-! ## The scanner -/

/-- What has been read of a group that is still open. -/
structure Open where
  /-- the alternatives that a bar has ended -/
  ended : Option Subexpr
  /-- the alternative in progress, the last of it in front -/
  items : List Repeat

namespace Open

/-- A group of which nothing has been read. -/
def new : Open := ⟨none, []⟩

/-- Repeats in a row as a derivation, given with the last one in front. -/
def seqOf : List Repeat → Seq
  | [] => .empty
  | last :: earlier => .subseq (earlier.foldl (fun rest r => .cons r rest) (.last last))

/-- Everything read of the group as a derivation. -/
def subexpr (o : Open) : Subexpr :=
  match o.ended with
  | none => .seq (seqOf o.items)
  | some before => .bar before (seqOf o.items)

/-- Adds a repeat to the alternative in progress. -/
def push (o : Open) (r : Repeat) : Open := { o with items := r :: o.items }

end Open

/-- Everything that is open at a place in a pattern, as derivations: the innermost group, and the groups around it from
inside out. -/
structure Scan where
  inner : Open
  outer : List Open

namespace Scan

/-- The start of a pattern. -/
def start : Scan := ⟨.new, []⟩

/-- Adds a repeat to the innermost group. -/
def push (s : Scan) (r : Repeat) : Scan := { s with inner := s.inner.push r }

/-- Adds an operator to the last repeat, if there is one. -/
def repeatLast (s : Scan) (o : Postfix) : Option Scan :=
  match s.inner.items with
  | [] => none
  | .mk f operators :: earlier => some { s with inner := { s.inner with items := .mk f (operators ++ [o]) :: earlier } }

/-- Reads one lexeme, if it can stand there. -/
def next (limit : Nat) (s : Scan) : Lexeme → Option Scan
  | .character c => some (s.push (.mk (.character c) []))
  | .bar => some { s with inner := ⟨some s.inner.subexpr, []⟩ }
  | .star => s.repeatLast .star
  | .plus => s.repeatLast .plus
  | .leftParen => if limit ≤ s.outer.length then none else some ⟨.new, s.inner :: s.outer⟩
  | .rightParen =>
    match s.outer with
    | [] => none
    | around :: outer => some ⟨around.push (.mk (.group s.inner.subexpr) []), outer⟩

/-- Reads lexemes in a row. -/
def readAll (limit : Nat) (s : Scan) (lexemes : List Lexeme) : Option Scan := lexemes.foldlM (next limit) s

theorem readAll_append (limit : Nat) (s : Scan) (xs ys : List Lexeme) :
    s.readAll limit (xs ++ ys) = (s.readAll limit xs).bind (readAll limit · ys) :=
  List.foldlM_append

theorem readAll_cons (limit : Nat) (s : Scan) (x : Lexeme) (xs : List Lexeme) :
    s.readAll limit (x :: xs) = (s.next limit x).bind (readAll limit · xs) :=
  List.foldlM_cons

end Scan

/-! ## Scanning a derivation -/

/-- The repeats of a sequence on top of those given, the last one in front. -/
def Subseq.onto : Subseq → List Repeat → List Repeat
  | .cons r rest, items => rest.onto (r :: items)
  | .last r, items => r :: items

/-- The repeats of a sequence, the last one in front. -/
def Seq.items : Seq → List Repeat
  | .subseq s => s.onto []
  | .empty => []

/-- A derivation as a group that has been read and not been closed yet. -/
def Subexpr.opened : Subexpr → Open
  | .seq s => ⟨none, s.items⟩
  | .bar before s => ⟨some before, s.items⟩

theorem Subseq.seqOf_onto : (s : Subseq) → (items : List Repeat) →
    Open.seqOf (s.onto items) = .subseq (items.foldl (fun rest r => .cons r rest) s)
  | .cons r rest, items => rest.seqOf_onto (r :: items)
  | .last _, _ => rfl

theorem Seq.seqOf_items (s : Seq) : Open.seqOf s.items = s := by
  cases s with
  | subseq s => exact s.seqOf_onto []
  | empty => rfl

theorem Subexpr.subexpr_opened (d : Subexpr) : d.opened.subexpr = d := by
  cases d with
  | seq s => exact congrArg Subexpr.seq s.seqOf_items
  | bar before s => exact congrArg (Subexpr.bar before) s.seqOf_items

/-- Operators after a factor end up at the factor, in the order read. -/
theorem Scan.readAll_operators (limit : Nat) (s : Scan) (f : Factor) (before operators : List Postfix) :
    (s.push (.mk f before)).readAll limit (operators.map Postfix.lexeme) = some (s.push (.mk f (before ++ operators))) := by
  induction operators generalizing before with
  | nil => rw [List.append_nil]; rfl
  | cons o operators ih =>
    have hnext : (s.push (.mk f before)).next limit o.lexeme = some (s.push (.mk f (before ++ [o]))) := by
      cases o <;> rfl
    rw [List.map_cons, readAll_cons, hnext, Option.bind_some, ih, List.append_assoc, List.singleton_append]

mutual

/-- **Derivations are read back.** The lexemes of a derivation, read as a group of their own, give that derivation, if
the groups in it are not too deep where it stands. -/
theorem Subexpr.readAll (limit : Nat) (outer : List Open) :
    (d : Subexpr) → outer.length + d.depth ≤ limit → Scan.readAll limit ⟨.new, outer⟩ d.lexemes = some ⟨d.opened, outer⟩
  | .seq s, hdepth => s.readAll limit none outer hdepth
  | .bar before s, hdepth => by
    rw [Subexpr.depth] at hdepth
    have hbefore : outer.length + before.depth ≤ limit := by omega
    have hs : outer.length + s.depth ≤ limit := by omega
    have hbar : (Scan.mk before.opened outer).next limit .bar = some ⟨⟨some before, []⟩, outer⟩ := by
      rw [Scan.next, before.subexpr_opened]
    rw [Subexpr.lexemes, Scan.readAll_append, before.readAll limit outer hbefore, Option.bind_some, Scan.readAll_cons,
      hbar, Option.bind_some, s.readAll limit (some before) outer hs]
    rfl

theorem Seq.readAll (limit : Nat) (ended : Option Subexpr) (outer : List Open) :
    (s : Seq) → outer.length + s.depth ≤ limit →
      Scan.readAll limit ⟨⟨ended, []⟩, outer⟩ s.lexemes = some ⟨⟨ended, s.items⟩, outer⟩
  | .subseq s, hdepth => s.readAll limit ended [] outer hdepth
  | .empty, _ => rfl

theorem Subseq.readAll (limit : Nat) (ended : Option Subexpr) (items : List Repeat) (outer : List Open) :
    (s : Subseq) → outer.length + s.depth ≤ limit →
      Scan.readAll limit ⟨⟨ended, items⟩, outer⟩ s.lexemes = some ⟨⟨ended, s.onto items⟩, outer⟩
  | .cons r rest, hdepth => by
    rw [Subseq.depth] at hdepth
    have hr : outer.length + r.depth ≤ limit := by omega
    have hrest : outer.length + rest.depth ≤ limit := by omega
    rw [Subseq.lexemes, Scan.readAll_append, r.readAll limit ⟨⟨ended, items⟩, outer⟩ hr, Option.bind_some]
    exact rest.readAll limit ended (r :: items) outer hrest
  | .last r, hdepth => r.readAll limit ⟨⟨ended, items⟩, outer⟩ hdepth

theorem Repeat.readAll (limit : Nat) (s : Scan) :
    (r : Repeat) → s.outer.length + r.depth ≤ limit → s.readAll limit r.lexemes = some (s.push r)
  | .mk f operators, hdepth => by
    rw [Repeat.lexemes, Scan.readAll_append, f.readAll limit s hdepth, Option.bind_some, Scan.readAll_operators,
      List.nil_append]

theorem Factor.readAll (limit : Nat) (s : Scan) :
    (f : Factor) → s.outer.length + f.depth ≤ limit → s.readAll limit f.lexemes = some (s.push (.mk f []))
  | .group body, hdepth => by
    rw [Factor.depth] at hdepth
    have hbody : (s.inner :: s.outer).length + body.depth ≤ limit := by rw [List.length_cons]; omega
    have hopen : s.next limit .leftParen = some ⟨.new, s.inner :: s.outer⟩ := by
      rw [Scan.next, if_neg (by omega)]
    have hclose : (Scan.mk body.opened (s.inner :: s.outer)).next limit .rightParen =
        some (s.push (.mk (.group body) [])) := by
      rw [Scan.next, body.subexpr_opened]
      rfl
    rw [Factor.lexemes, Scan.readAll_cons, hopen, Option.bind_some, Scan.readAll_append,
      body.readAll limit (s.inner :: s.outer) hbody, Option.bind_some, Scan.readAll_cons, hclose]
    rfl
  | .character _, _ => rfl

end

/-- **Derivations are unique.** A list of lexemes has at most one derivation. -/
theorem Subexpr.lexemes_injective : Function.Injective Subexpr.lexemes := by
  intro d e h
  have hd := d.readAll (max d.depth e.depth) [] (by rw [List.length_nil]; omega)
  have he := e.readAll (max d.depth e.depth) [] (by rw [List.length_nil]; omega)
  -- one scan ends with both
  rw [h, he] at hd
  have hopened : e.opened = d.opened := (Scan.mk.inj (Option.some.inj hd)).1
  calc d = d.opened.subexpr := d.subexpr_opened.symm
    _ = e.opened.subexpr := by rw [hopened]
    _ = e := e.subexpr_opened

/-! ## What a scan has read -/

namespace Open

theorem lexemes_foldl (items : List Repeat) (s : Subseq) :
    (items.foldl (fun rest r => .cons r rest) s).lexemes = (seqOf items).lexemes ++ s.lexemes := by
  induction items generalizing s with
  | nil => rfl
  | cons r items ih =>
    rw [List.foldl_cons, ih, seqOf, Seq.lexemes, ih, Subseq.lexemes, Subseq.lexemes, List.append_assoc]

theorem depth_foldl (items : List Repeat) (s : Subseq) :
    (items.foldl (fun rest r => .cons r rest) s).depth = max (seqOf items).depth s.depth := by
  induction items generalizing s with
  | nil => exact (Nat.zero_max _).symm
  | cons r items ih =>
    rw [List.foldl_cons, ih, seqOf, Seq.depth, ih, Subseq.depth, Subseq.depth, Nat.max_assoc]

theorem lexemes_push (o : Open) (r : Repeat) : (o.push r).subexpr.lexemes = o.subexpr.lexemes ++ r.lexemes := by
  have hitems : (seqOf (r :: o.items)).lexemes = (seqOf o.items).lexemes ++ r.lexemes := lexemes_foldl o.items (.last r)
  obtain ⟨ended, items⟩ := o
  cases ended with
  | none => exact hitems
  | some before =>
    calc before.lexemes ++ .bar :: (seqOf (r :: items)).lexemes
        = before.lexemes ++ .bar :: ((seqOf items).lexemes ++ r.lexemes) := by rw [hitems]
      _ = before.lexemes ++ .bar :: (seqOf items).lexemes ++ r.lexemes := by rw [List.append_assoc, List.cons_append]

theorem depth_push (o : Open) (r : Repeat) : (o.push r).subexpr.depth = max o.subexpr.depth r.depth := by
  have hitems : (seqOf (r :: o.items)).depth = max (seqOf o.items).depth r.depth := depth_foldl o.items (.last r)
  obtain ⟨ended, items⟩ := o
  cases ended with
  | none => exact hitems
  | some before =>
    calc max before.depth (seqOf (r :: items)).depth
        = max before.depth (max (seqOf items).depth r.depth) := by rw [hitems]
      _ = max (max before.depth (seqOf items).depth) r.depth := (Nat.max_assoc ..).symm

end Open

namespace Scan

/-- The lexemes that have been read before the innermost group. -/
def around : List Open → List Lexeme
  | [] => []
  | o :: outer => around outer ++ o.subexpr.lexemes ++ [.leftParen]

/-- No group is too deep, and none in what has been read of a group is. -/
def Fits (limit : Nat) : List Open → Prop
  | [] => True
  | o :: outer => outer.length + o.subexpr.depth ≤ limit ∧ Fits limit outer

/-- The scan stands where the lexemes `xs` have been read, with all groups within the limit. -/
structure Reads (limit : Nat) (xs : List Lexeme) (s : Scan) : Prop where
  lexemes : around s.outer ++ s.inner.subexpr.lexemes = xs
  fits : Fits limit (s.inner :: s.outer)

namespace Reads

variable {limit : Nat} {xs : List Lexeme} {s s' : Scan}

theorem start (limit : Nat) : Reads limit [] start where
  lexemes := rfl
  fits := ⟨Nat.zero_le limit, trivial⟩

theorem push (h : Reads limit xs s) (r : Repeat) (hr : s.outer.length + r.depth ≤ limit) :
    Reads limit (xs ++ r.lexemes) (s.push r) where
  lexemes := by
    rw [← h.lexemes, List.append_assoc, ← Open.lexemes_push]
    rfl
  fits := by
    obtain ⟨hinner, houter⟩ := h.fits
    refine ⟨?_, houter⟩
    have hdepth : (s.push r).inner.subexpr.depth = max s.inner.subexpr.depth r.depth := s.inner.depth_push r
    have hlength : (s.push r).outer.length = s.outer.length := rfl
    omega

/-- A scan that ends in a repeat has read what came before it. -/
theorem of_push {r : Repeat} (h : Reads limit xs (s.push r)) :
    ∃ ys, Reads limit ys s ∧ xs = ys ++ r.lexemes ∧ s.outer.length + r.depth ≤ limit := by
  obtain ⟨hinner, houter⟩ := h.fits
  have hdepth : (s.push r).inner.subexpr.depth = max s.inner.subexpr.depth r.depth := s.inner.depth_push r
  have hlength : (s.push r).outer.length = s.outer.length := rfl
  refine ⟨_, ⟨rfl, by omega, houter⟩, ?_, by omega⟩
  rw [← h.lexemes, List.append_assoc, ← Open.lexemes_push]
  rfl

theorem repeatLast (h : Reads limit xs s) (o : Postfix) (hstep : s.repeatLast o = some s') :
    Reads limit (xs ++ [o.lexeme]) s' := by
  obtain ⟨⟨ended, items⟩, outer⟩ := s
  cases items with
  | nil => cases hstep
  | cons last earlier =>
    obtain ⟨f, operators⟩ := last
    obtain rfl := Option.some.inj hstep
    -- the last repeat is taken off and put back with one operator more
    obtain ⟨ys, hys, rfl, hdepth⟩ := of_push (s := ⟨⟨ended, earlier⟩, outer⟩) h
    have hlexemes : (Repeat.mk f (operators ++ [o])).lexemes = (Repeat.mk f operators).lexemes ++ [o.lexeme] := by
      rw [Repeat.lexemes, Repeat.lexemes, List.map_append, List.append_assoc]
      rfl
    rw [List.append_assoc, ← hlexemes]
    exact hys.push (.mk f (operators ++ [o])) hdepth

/-- **Steps.** Reading one more lexeme leads to where it has been read too. -/
theorem next (h : Reads limit xs s) (x : Lexeme) (hstep : s.next limit x = some s') :
    Reads limit (xs ++ [x]) s' := by
  cases x with
  | character c =>
    obtain rfl := Option.some.inj hstep
    exact h.push (.mk (.character c) []) (Nat.le_of_add_right_le h.fits.1)
  | bar =>
    obtain rfl := Option.some.inj hstep
    refine ⟨?_, ?_, h.fits.2⟩
    · rw [← h.lexemes, List.append_assoc]
      rfl
    · have hdepth : (Subexpr.bar s.inner.subexpr .empty).depth = s.inner.subexpr.depth := Nat.max_zero _
      exact hdepth ▸ h.fits.1
  | star => exact h.repeatLast .star hstep
  | plus => exact h.repeatLast .plus hstep
  | leftParen =>
    unfold Scan.next at hstep
    by_cases hlimit : limit ≤ s.outer.length
    · rw [if_pos hlimit] at hstep
      cases hstep
    · rw [if_neg hlimit] at hstep
      obtain rfl := Option.some.inj hstep
      refine ⟨?_, Nat.lt_of_not_le hlimit, h.fits⟩
      calc around s.outer ++ s.inner.subexpr.lexemes ++ [.leftParen] ++ []
          = around s.outer ++ s.inner.subexpr.lexemes ++ [.leftParen] := List.append_nil _
        _ = xs ++ [.leftParen] := by rw [h.lexemes]
  | rightParen =>
    obtain ⟨inner, outer⟩ := s
    cases outer with
    | nil => cases hstep
    | cons o outer =>
      obtain rfl := Option.some.inj hstep
      -- what was read before the group, and then the group
      have haround : Reads limit (around outer ++ o.subexpr.lexemes) ⟨o, outer⟩ := ⟨rfl, h.fits.2⟩
      have hdepth : outer.length + (Repeat.mk (.group inner.subexpr) []).depth ≤ limit := by
        have hinner : outer.length + 1 + inner.subexpr.depth ≤ limit := h.fits.1
        rw [Repeat.depth, Factor.depth]
        omega
      have hlexemes : around outer ++ o.subexpr.lexemes ++ (Repeat.mk (.group inner.subexpr) []).lexemes =
          xs ++ [.rightParen] := by
        rw [← h.lexemes, Repeat.lexemes, Factor.lexemes, around]
        simp only [List.map_nil, List.append_nil, List.append_assoc, List.cons_append, List.nil_append]
      exact hlexemes ▸ haround.push (.mk (.group inner.subexpr) []) hdepth

/-- **Runs.** Reading more lexemes leads to where they have been read too. -/
theorem readAll (h : Reads limit xs s) (ys : List Lexeme) (hrun : s.readAll limit ys = some s') :
    Reads limit (xs ++ ys) s' := by
  induction ys generalizing xs s with
  | nil =>
    obtain rfl := Option.some.inj hrun
    rwa [List.append_nil]
  | cons y ys ih =>
    rw [readAll_cons] at hrun
    obtain ⟨mid, hmid, hrest⟩ := Option.bind_eq_some_iff.1 hrun
    rw [← List.singleton_append, ← List.append_assoc]
    exact ih (h.next y hmid) hrest

end Reads

end Scan

/-- **The scanner accepts the grammar.** A scan within a limit ends outside all groups with a derivation if and only if
that derives the lexemes read and keeps within the limit. -/
theorem readAll_start_iff (limit : Nat) (xs : List Lexeme) (d : Subexpr) :
    (∃ o : Open, Scan.start.readAll limit xs = some ⟨o, []⟩ ∧ o.subexpr = d) ↔ d.lexemes = xs ∧ d.depth ≤ limit := by
  refine ⟨?_, ?_⟩
  · intro h
    obtain ⟨o, hrun, rfl⟩ := h
    have hreads := (Scan.Reads.start limit).readAll xs hrun
    exact ⟨hreads.lexemes, by simpa using hreads.fits.1⟩
  · intro h
    obtain ⟨rfl, hdepth⟩ := h
    exact ⟨d.opened, d.readAll limit [] (by rwa [List.length_nil, Nat.zero_add]), d.subexpr_opened⟩

end PatternAutomata.Grammar
