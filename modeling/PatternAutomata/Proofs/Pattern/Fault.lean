/-
Where the reading of a pattern ends in an error.

To find the error of a pattern it takes neither a tree nor a stack. Two things are kept from token to token: how many
groups are open, and which lexeme was read last. A group may not open where as many as the limit are open, nor close
where none is; an operator needs something to repeat, which is missing at the start and right after an opening
parenthesis or a bar; and no group may be open at the end. The first of these faults is the error.

- `Tracks.read`, `Tracks.resume`: a step of the scan, and a run, ends in an error just where there is a fault.
- `descend_outcome`: the descent fails with the first fault, and succeeds if there is none.
-/
import PatternAutomata.Proofs.Pattern.Descent
import PatternAutomata.Proofs.Pattern.Piece

namespace PatternAutomata

namespace Descent

/-! ## Faults -/

/-- Whether nothing has been read yet of the alternative in progress, told by the lexeme read last. -/
def startsAlternative : Option Lexeme → Bool
  | none => true
  | some .leftParen => true
  | some .bar => true
  | some _ => false

/-- What should stand in place of a token that cannot stand there, with `depth` groups open. -/
def closerAt (depth : Nat) : TokenKind := if depth = 0 then .endOfPattern else .rightParen

/-- What is wrong with a token that is met with `depth` groups open, if anything is. -/
def faultAt (limit depth : Nat) (previous : Option Lexeme) (token : Token) : Option PatternError :=
  match token.lexeme with
  | .character _ => none
  | .bar => none
  | .star | .plus =>
    if startsAlternative previous then some (.unexpectedToken (closerAt depth) token.lexeme.kind token.offset) else none
  | .leftParen => if depth = limit then some (.nestLimitExceeded limit token.offset) else none
  | .rightParen => if depth = 0 then some (.unexpectedToken .endOfPattern .rightParen token.offset) else none

/-- How many groups are open after a lexeme. -/
def depthAfter (depth : Nat) : Lexeme → Nat
  | .leftParen => depth + 1
  | .rightParen => depth - 1
  | _ => depth

/-- The first fault of the tokens that are left. They end at the byte offset `ending`. -/
def firstFault (limit ending depth : Nat) (previous : Option Lexeme) : List Token → Option PatternError
  | [] => if 0 < depth then some (.unexpectedToken .rightParen .endOfPattern ending) else none
  | token :: rest =>
    (faultAt limit depth previous token).or
      (firstFault limit ending (depthAfter depth token.lexeme) (some token.lexeme) rest)

/-- A result is the error of a fault if there is one, and something good otherwise. -/
def Reports {α : Type} (fault : Option PatternError) (result : Except PatternError α) (good : α → Prop) : Prop :=
  match fault with
  | some e => result = .error e
  | none => ∃ a, result = .ok a ∧ good a

namespace Reports

variable {α : Type} {fault : Option PatternError} {result : Except PatternError α} {good : α → Prop}

theorem error_iff (h : Reports fault result good) {e : PatternError} : result = .error e ↔ fault = some e := by
  cases fault with
  | some e' =>
    obtain rfl : result = .error e' := h
    rw [Except.error.injEq, Option.some.injEq]
  | none =>
    obtain ⟨a, rfl, -⟩ := h
    exact iff_of_false nofun nofun

theorem ok_iff (h : Reports fault result good) : (∃ a, result = .ok a) ↔ fault = none := by
  cases fault with
  | some e =>
    obtain rfl : result = .error e := h
    exact iff_of_false nofun nofun
  | none =>
    obtain ⟨a, rfl, -⟩ := h
    exact iff_of_true ⟨a, rfl⟩ rfl

end Reports

/-! ## The scan meets the first fault -/

/-- The scan has `depth` groups open, at most as many as the limit, and an item to repeat unless the lexeme read last
starts an alternative. -/
structure Tracks (limit depth : Nat) (previous : Option Lexeme) (n : Nesting) : Prop where
  depth_eq : n.outer.length = depth
  le_limit : depth ≤ limit
  items_iff : n.inner.items = [] ↔ startsAlternative previous = true

theorem tracks_start (limit : Nat) : Tracks limit 0 none .start where
  depth_eq := rfl
  le_limit := Nat.zero_le limit
  items_iff := iff_of_true rfl rfl

namespace Tracks

variable {limit depth : Nat} {previous : Option Lexeme} {n : Nesting}

theorem closer_eq (h : Tracks limit depth previous n) : n.closer = closerAt depth := by
  obtain ⟨inner, outer⟩ := n
  obtain rfl := h.depth_eq
  cases outer <;> rfl

/-- An operator can be read where there is an item to repeat. -/
theorem repeatLast (h : Tracks limit depth previous n) (how : Tree → Tree) (token : Token) (x : Lexeme)
    (hx : startsAlternative (some x) = false) :
    Reports
      (if startsAlternative previous then some (.unexpectedToken (closerAt depth) token.lexeme.kind token.offset)
        else none)
      (n.repeatLast how token) (Tracks limit depth (some x)) := by
  rw [← h.closer_eq]
  obtain ⟨⟨ended, items⟩, outer⟩ := n
  cases items with
  | nil =>
    rw [if_pos (h.items_iff.1 rfl)]
    rfl
  | cons last earlier =>
    have hprevious : ¬startsAlternative previous = true := fun hp => List.cons_ne_nil _ _ (h.items_iff.2 hp)
    rw [if_neg hprevious]
    exact ⟨_, rfl, h.depth_eq, h.le_limit, iff_of_false (List.cons_ne_nil _ _) (Bool.eq_false_iff.1 hx)⟩

/-- **Steps.** A token ends the scan if it is a fault, and is kept track of otherwise. -/
theorem read (h : Tracks limit depth previous n) (token : Token) :
    Reports (faultAt limit depth previous token) (n.read limit token)
      (Tracks limit (depthAfter depth token.lexeme) (some token.lexeme)) := by
  obtain ⟨lexeme, offset⟩ := token
  cases lexeme with
  | character c => exact ⟨_, rfl, h.depth_eq, h.le_limit, iff_of_false (List.cons_ne_nil _ _) nofun⟩
  | bar => exact ⟨_, rfl, h.depth_eq, h.le_limit, iff_of_true rfl rfl⟩
  | star => exact h.repeatLast .repeatStar ⟨.star, offset⟩ .star rfl
  | plus => exact h.repeatLast .repeatPlus ⟨.plus, offset⟩ .plus rfl
  | leftParen =>
    have hdepth : n.depth = depth := h.depth_eq
    by_cases hlimit : depth = limit
    · have hfault : faultAt limit depth previous ⟨.leftParen, offset⟩ = some (.nestLimitExceeded limit offset) :=
        if_pos hlimit
      have hread : n.read limit ⟨.leftParen, offset⟩ = .error (.nestLimitExceeded limit offset) :=
        if_pos (Nat.le_of_eq (hdepth.trans hlimit).symm)
      rw [hfault]
      exact hread
    · have hlt : depth < limit := Nat.lt_of_le_of_ne h.le_limit hlimit
      have hfault : faultAt limit depth previous ⟨.leftParen, offset⟩ = none := if_neg hlimit
      have hread : n.read limit ⟨.leftParen, offset⟩ = .ok ⟨.new, n.inner :: n.outer⟩ :=
        if_neg (Nat.not_le.2 (hdepth ▸ hlt))
      rw [hfault]
      exact ⟨_, hread, congrArg Nat.succ h.depth_eq, hlt, iff_of_true rfl rfl⟩
  | rightParen =>
    obtain ⟨inner, outer⟩ := n
    obtain rfl := h.depth_eq
    cases outer with
    | nil => rfl
    | cons around outer =>
      exact ⟨_, rfl, rfl, Nat.le_of_succ_le h.le_limit, iff_of_false (List.cons_ne_nil _ _) nofun⟩

/-- **Runs.** The scan ends with the first fault of the tokens that are left. -/
theorem resume (h : Tracks limit depth previous n) (ending : Nat) (ts : List Token) :
    Reports (firstFault limit ending depth previous ts) (Descent.resume limit ending n ts) fun _ => True := by
  induction ts generalizing depth previous n with
  | nil =>
    obtain ⟨inner, outer⟩ := n
    obtain rfl := h.depth_eq
    cases outer with
    | nil => exact ⟨_, rfl, trivial⟩
    | cons around outer => rfl
  | cons token rest ih =>
    have hread := h.read token
    rw [firstFault]
    cases hfault : faultAt limit depth previous token with
    | some e =>
      rw [hfault] at hread
      exact resume_cons_error hread rest
    | none =>
      rw [hfault] at hread
      obtain ⟨n', hn', htracks⟩ := hread
      rw [Option.none_or, resume_cons hn']
      exact ih htracks

end Tracks

/-! ## What is expected in place of a fault -/

theorem faultAt_ne (limit depth : Nat) (previous : Option Lexeme) (token : Token) (found : TokenKind) (offset : Nat) :
    faultAt limit depth previous token ≠ some (.unexpectedToken .character found offset) := by
  unfold faultAt closerAt
  grind

/-- A character is never what should stand in place of a fault. -/
theorem firstFault_ne (limit ending : Nat) (found : TokenKind) (offset : Nat) (ts : List Token) (depth : Nat)
    (previous : Option Lexeme) :
    firstFault limit ending depth previous ts ≠ some (.unexpectedToken .character found offset) := by
  induction ts generalizing depth previous with
  | nil =>
    unfold firstFault
    grind
  | cons token rest ih =>
    intro h
    rw [firstFault, Option.or_eq_some_iff] at h
    obtain h | ⟨-, h⟩ := h
    · exact faultAt_ne _ _ _ _ _ _ h
    · exact ih _ _ h

end Descent

/-! ## The outcome -/

open Descent

/-- What cannot be read as tokens is reported at its last byte, which is a backslash without a character after it. -/
theorem exists_trailingEscape {offset : Nat} {cs : List Char} {e : PatternError} (h : tokensFrom offset cs = .error e) :
    ∃ last, e = .trailingEscape last ∧ last + 1 = offset + String.utf8Len cs := by
  obtain ⟨pieces, rfl | rfl⟩ := Piece.exists_written cs
  · rw [Piece.tokensFrom_written] at h
    cases h
  · rw [Piece.tokensFrom_written_concat] at h
    have hbackslash : String.utf8Len ['\\'] = 1 := rfl
    refine ⟨_, (Except.error.inj h).symm, ?_⟩
    rw [String.utf8Len_append, hbackslash, Nat.add_assoc]

/-- **Outcome.** A pattern that cannot be read as tokens is refused for the escape that is its last byte. Any other is
refused for the first fault of its tokens and for nothing else, and has a tree if they have none. A character is never
what is expected. The scan has the same outcome. -/
theorem descend_outcome (limit : Nat) (pattern : String) :
    (∀ e, tokens pattern = .error e →
      descend limit pattern = .error e ∧ ∃ last, e = .trailingEscape last ∧ last + 1 = pattern.utf8ByteSize) ∧
    (∀ ts, tokens pattern = .ok ts →
      (∀ e, descend limit pattern = .error e ↔ firstFault limit pattern.utf8ByteSize 0 none ts = some e) ∧
      ((∃ t, descend limit pattern = .ok t) ↔ firstFault limit pattern.utf8ByteSize 0 none ts = none)) ∧
    (∀ found offset, descend limit pattern ≠ .error (.unexpectedToken .character found offset)) ∧
    descend limit pattern = parse limit pattern := by
  have hlexes : ∀ {ts}, tokens pattern = .ok ts →
      Reports (firstFault limit pattern.utf8ByteSize 0 none ts) (descend limit pattern) fun _ => True := by
    intro ts hts
    have hresume := (tracks_start limit).resume pattern.utf8ByteSize ts
    rw [descend_eq_parse, parse, hts]
    exact hresume
  refine ⟨?_, ?_, ?_, descend_eq_parse limit pattern⟩
  · intro e he
    refine ⟨?_, ?_⟩
    · rw [descend, he]
      rfl
    · obtain ⟨last, hlast, hend⟩ := exists_trailingEscape he
      refine ⟨last, hlast, hend.trans ?_⟩
      rw [Nat.zero_add, ← String.utf8ByteSize_ofList, String.ofList_toList]
  · intro ts hts
    exact ⟨fun e => (hlexes hts).error_iff, (hlexes hts).ok_iff⟩
  · intro found offset h
    cases htokens : tokens pattern with
    | error e =>
      obtain ⟨last, rfl, -⟩ := exists_trailingEscape htokens
      rw [descend, htokens] at h
      cases h
    | ok ts => exact firstFault_ne limit pattern.utf8ByteSize found offset ts 0 none ((hlexes htokens).error_iff.1 h)

/-- The operator without anything to repeat comes before the end at which the group is still open. -/
example : parse 250 "(a|*b" = .error (.unexpectedToken .rightParen .star 3) := by rfl

end PatternAutomata
