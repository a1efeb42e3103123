/-
The pieces of a pattern.

A pattern that can be read as tokens is a row of pieces, one for each token: a character that is no backslash, or a
backslash with whatever character comes after it. The row can be told from the pattern, so nothing is lost. Any text is
such a row or a row with one backslash more, which has nothing to escape. Which of the two it is shows at its end: a row
of pieces ends in an even number of backslashes, because they come in pairs there, wherever the other pieces stand.

- `written_injective`, `exists_written`: pieces can be told from what is written, and what else there is.
- `tokensFrom_written_append`: pieces are read one by one, whatever comes after them.
- `even_length_rtakeWhile`: how a row of pieces ends.
- `tokens_lossless`: when there are tokens and which ones, and the error if there are none.
-/
import Mathlib.Algebra.Ring.Parity
import Mathlib.Data.List.DropRight
import Mathlib.Data.String.Basic
import PatternAutomata.Pattern.Token

namespace PatternAutomata

/-- What the operators are written with, and that all other characters are plain. -/
def TokenKind.ofChar : Char → TokenKind
  | '|' => bar
  | '*' => star
  | '+' => plus
  | '(' => leftParen
  | ')' => rightParen
  | _ => character

theorem Lexeme.char_ofChar (c : Char) : (Lexeme.ofChar c).char = c := by
  unfold ofChar
  grind [char]

theorem Lexeme.kind_ofChar (c : Char) : (Lexeme.ofChar c).kind = TokenKind.ofChar c := by
  unfold ofChar TokenKind.ofChar
  grind [kind]

/-- A part of a pattern that makes up one token. -/
inductive Piece where
  /-- a character that is not escaped -/
  | plain (c : Char) (hc : c ≠ '\\')
  /-- a backslash and the character after it -/
  | escaped (c : Char)

namespace Piece

/-- The character that a piece is about. -/
def char : Piece → Char
  | plain c _ => c
  | escaped c => c

/-- The kind of token that a piece makes up. -/
def kind : Piece → TokenKind
  | plain c _ => .ofChar c
  | escaped _ => .character

/-- What a piece says. -/
def lexeme : Piece → Lexeme
  | plain c _ => .ofChar c
  | escaped c => .character c

/-- How a piece is written. -/
def text : Piece → List Char
  | plain c _ => [c]
  | escaped c => ['\\', c]

/-- How pieces in a row are written. -/
def written (pieces : List Piece) : List Char := pieces.flatMap text

theorem char_lexeme (p : Piece) : p.lexeme.char = p.char := by
  cases p with
  | plain c _ => exact Lexeme.char_ofChar c
  | escaped c => rfl

theorem kind_lexeme (p : Piece) : p.lexeme.kind = p.kind := by
  cases p with
  | plain c _ => exact Lexeme.kind_ofChar c
  | escaped c => rfl

/-! ## What is written tells the pieces -/

theorem written_cons (p : Piece) (pieces : List Piece) : written (p :: pieces) = p.text ++ written pieces :=
  List.flatMap_cons

theorem written_concat (pieces : List Piece) (p : Piece) : written (pieces ++ [p]) = written pieces ++ p.text := by
  rw [written, List.flatMap_append, List.flatMap_singleton]
  rfl

/-- No two rows of pieces are written the same. -/
theorem written_injective : Function.Injective written := by
  intro pieces others h
  induction pieces generalizing others with
  | nil =>
    cases others with
    | nil => rfl
    | cons q others => cases q <;> cases h
  | cons p pieces ih =>
    cases others with
    | nil => cases p <;> cases h
    | cons q others =>
      rw [written_cons, written_cons] at h
      -- the first character tells an escape, and how far the first piece goes
      cases p with
      | plain c hc =>
        cases q with
        | plain d hd =>
          obtain ⟨rfl, hrest⟩ := List.cons.inj h
          rw [ih hrest]
        | escaped d => exact absurd (List.cons.inj h).1 hc
      | escaped c =>
        cases q with
        | plain d hd => exact absurd (List.cons.inj h).1.symm hd
        | escaped d =>
          obtain ⟨rfl, hrest⟩ := List.cons.inj (List.cons.inj h).2
          rw [ih hrest]

/-- Any text is pieces in a row, or pieces in a row and one backslash more. -/
theorem exists_written (cs : List Char) : ∃ pieces, cs = written pieces ∨ cs = written pieces ++ ['\\'] := by
  fun_induction tokensFrom 0 cs with
  | case1 => exact ⟨[], Or.inl rfl⟩
  | case2 => exact ⟨[], Or.inr rfl⟩
  | case3 _ c rest ih =>
    obtain ⟨pieces, h⟩ := ih
    refine ⟨escaped c :: pieces, h.imp ?_ ?_⟩
    · exact congrArg ('\\' :: c :: ·)
    · exact congrArg ('\\' :: c :: ·)
  | case4 _ c rest hlast hescape ih =>
    have hc : c ≠ '\\' := by
      rintro rfl
      cases rest with
      | nil => exact hlast rfl rfl
      | cons d rest => exact hescape d rest rfl rfl
    obtain ⟨pieces, h⟩ := ih
    refine ⟨plain c hc :: pieces, h.imp ?_ ?_⟩
    · exact congrArg (c :: ·)
    · exact congrArg (c :: ·)

/-! ## The tokens of pieces -/

/-- The tokens that pieces in a row make up, the first of which starts at a byte offset. -/
def tokensOf (offset : Nat) : List Piece → List Token
  | [] => []
  | p :: rest => ⟨p.lexeme, offset⟩ :: tokensOf (offset + String.utf8Len p.text) rest

theorem map_lexeme_tokensOf (offset : Nat) (pieces : List Piece) :
    (tokensOf offset pieces).map Token.lexeme = pieces.map lexeme := by
  induction pieces generalizing offset with
  | nil => rfl
  | cons p pieces ih => exact congrArg (p.lexeme :: ·) (ih _)

/-- A token is at the byte offset at which its piece starts. -/
theorem map_tokensOf (offset : Nat) (pieces : List Piece) :
    (tokensOf offset pieces).map (fun token => (token.lexeme.char, token.offset, token.lexeme.kind)) =
      pieces.mapIdx fun i p => (p.char, offset + String.utf8Len (written (pieces.take i)), p.kind) := by
  induction pieces generalizing offset with
  | nil => rfl
  | cons p pieces ih =>
    rw [tokensOf, List.map_cons, ih, List.mapIdx_cons, char_lexeme, kind_lexeme]
    simp only [List.take_zero, List.take_succ_cons, written_cons, String.utf8Len_append, Nat.add_assoc]
    rfl

theorem tokensFrom_text_append (p : Piece) (offset : Nat) (rest : List Char) :
    tokensFrom offset (p.text ++ rest) =
      (tokensFrom (offset + String.utf8Len p.text) rest).map (⟨p.lexeme, offset⟩ :: ·) := by
  cases p with
  | plain c hc =>
    have hone : String.utf8Len (plain c hc).text = c.utf8Size := Nat.zero_add _
    rw [hone, text, List.singleton_append, tokensFrom]
    · rfl
    · exact fun h => absurd h hc
    · exact fun _ _ h => absurd h hc
  | escaped c =>
    have htwo : offset + '\\'.utf8Size + c.utf8Size = offset + String.utf8Len (escaped c).text := by
      show _ = offset + (0 + c.utf8Size + '\\'.utf8Size)
      omega
    rw [← htwo, text, List.cons_append, List.singleton_append, tokensFrom]
    rfl

/-- Pieces are read one by one, and the rest of the text after them. -/
theorem tokensFrom_written_append (pieces : List Piece) (offset : Nat) (rest : List Char) :
    tokensFrom offset (written pieces ++ rest) =
      (tokensFrom (offset + String.utf8Len (written pieces)) rest).map (tokensOf offset pieces ++ ·) := by
  induction pieces generalizing offset with
  | nil =>
    show tokensFrom offset rest = (tokensFrom offset rest).map id
    cases tokensFrom offset rest <;> rfl
  | cons p pieces ih =>
    rw [written_cons, List.append_assoc, tokensFrom_text_append, ih, String.utf8Len_append, Nat.add_assoc]
    cases tokensFrom (offset + (String.utf8Len p.text + String.utf8Len (written pieces))) rest <;> rfl

theorem tokensFrom_written (pieces : List Piece) (offset : Nat) :
    tokensFrom offset (written pieces) = .ok (tokensOf offset pieces) := by
  have h := tokensFrom_written_append pieces offset []
  rw [List.append_nil, tokensFrom] at h
  exact h.trans (congrArg Except.ok (List.append_nil _))

theorem tokensFrom_written_concat (pieces : List Piece) (offset : Nat) :
    tokensFrom offset (written pieces ++ ['\\']) =
      .error (.trailingEscape (offset + String.utf8Len (written pieces))) :=
  tokensFrom_written_append pieces offset ['\\']

theorem tokens_of_written {pattern : String} {pieces : List Piece} (h : pattern.toList = written pieces) :
    tokens pattern = .ok (tokensOf 0 pieces) := by
  rw [tokens, h, tokensFrom_written]

theorem tokens_of_written_concat {pattern : String} {pieces : List Piece}
    (h : pattern.toList = written pieces ++ ['\\']) :
    tokens pattern = .error (.trailingEscape (String.utf8Len (written pieces))) := by
  rw [tokens, h, tokensFrom_written_concat, Nat.zero_add]

/-! ## How pieces end -/

/-- A row of pieces ends in an even number of backslashes. -/
theorem even_length_rtakeWhile (pieces : List Piece) : Even ((written pieces).rtakeWhile (· = '\\')).length := by
  induction pieces using List.reverseRecOn with
  | nil => exact Even.zero
  | append_singleton pieces p ih =>
    rw [written_concat]
    cases p with
    | plain c hc =>
      rw [text, List.rtakeWhile_concat, if_neg (by simpa using hc)]
      exact Even.zero
    | escaped c =>
      have hsplit : written pieces ++ (escaped c).text = written pieces ++ ['\\'] ++ [c] := by
        rw [List.append_assoc]
        rfl
      rw [hsplit, List.rtakeWhile_concat]
      by_cases hc : c = '\\'
      · -- an escaped backslash makes two more
        rw [if_pos (by simpa using hc), List.rtakeWhile_concat, if_pos (by simp), List.length_append,
          List.length_append]
        exact ih.add_one.add_one
      · rw [if_neg (by simpa using hc)]
        exact Even.zero

/-- One backslash more makes their number odd. -/
theorem odd_length_rtakeWhile (pieces : List Piece) :
    Odd ((written pieces ++ ['\\']).rtakeWhile (· = '\\')).length := by
  rw [List.rtakeWhile_concat, if_pos (by simp), List.length_append]
  exact (even_length_rtakeWhile pieces).add_one

end Piece

/-- **Nothing is lost.** A pattern has no tokens if and only if it ends in an odd number of backslashes, and the error
is at the last of them, which is the last character. Any pieces in a row have one token each, in order: with the
character of the piece, at the byte offset at which the piece starts, and of the kind that the piece says. A pattern
that has tokens is written in just one way as a row of pieces. -/
theorem tokens_lossless :
    (∀ pattern e, tokens pattern = .error e ↔
      Odd (pattern.toList.rtakeWhile (· = '\\')).length ∧
        e = .trailingEscape (String.utf8Len pattern.toList.dropLast)) ∧
    (∀ pieces, (tokens (String.ofList (Piece.written pieces))).map
        (List.map fun token => (token.lexeme.char, token.offset, token.lexeme.kind)) =
      .ok (pieces.mapIdx fun i p => (p.char, String.utf8Len (Piece.written (pieces.take i)), p.kind))) ∧
    ∀ pattern, (∃ ts, tokens pattern = .ok ts) ↔ ∃! pieces, Piece.written pieces = pattern.toList := by
  refine ⟨fun pattern e => ?_, fun pieces => ?_, fun pattern => ⟨?_, ?_⟩⟩
  · obtain ⟨pieces, h | h⟩ := Piece.exists_written pattern.toList
    · rw [Piece.tokens_of_written h, h]
      exact iff_of_false nofun fun hodd => Nat.not_odd_iff_even.2 (Piece.even_length_rtakeWhile pieces) hodd.1
    · rw [Piece.tokens_of_written_concat h, h, List.dropLast_concat, Except.error.injEq, eq_comm]
      exact (and_iff_right (Piece.odd_length_rtakeWhile pieces)).symm
  · rw [Piece.tokens_of_written String.toList_ofList]
    have hmap := Piece.map_tokensOf 0 pieces
    simp only [Nat.zero_add] at hmap
    exact congrArg Except.ok hmap
  · rintro ⟨ts, hts⟩
    obtain ⟨pieces, h | h⟩ := Piece.exists_written pattern.toList
    · exact ⟨pieces, h.symm, fun others hothers => Piece.written_injective (hothers.trans h)⟩
    · rw [Piece.tokens_of_written_concat h] at hts
      cases hts
  · rintro ⟨pieces, h, -⟩
    exact ⟨_, Piece.tokens_of_written h.symm⟩

/-- Of three backslashes the last one has nothing to escape. The letter before them takes two bytes. -/
example : tokens "é\\\\\\" = .error (.trailingEscape 4) := by rfl

end PatternAutomata
