/-
Reading quoted characters back.

A character that stands for itself in a literal is no backslash, and what follows a backslash tells which character is
meant: a letter of its own, a code point in braces, or the character that follows. So a character can be read off any
text that begins with its escape, and no escape is the beginning of another.

- `readHex_hexDigits`: the code point is told by its digits.
- `readChar_escapeChar_append`: a character is read back, whatever follows it.
- `quoteChar_append_inj`: literals are told by their text, whatever follows them.
-/
import Mathlib.Data.List.Basic
import PatternAutomata.Text.Quoted

namespace PatternAutomata.Text

/-! ## Hexadecimal digits -/

/-- What a hexadecimal digit counts. -/
def hexValue (x : Char) : Nat := if x.isDigit then x.toNat - '0'.toNat else x.toNat - 'a'.toNat + 10

/-- The number that hexadecimal digits stand for. -/
def readHex (digits : List Char) : Nat := digits.foldl (fun n x => 16 * n + hexValue x) 0

theorem hexValue_digitChar : ∀ d < 16, hexValue d.digitChar = d := by decide

theorem digitChar_ne_brace : ∀ d < 16, d.digitChar ≠ '\x7d' := by decide

theorem readHex_toDigits (n : Nat) : readHex (Nat.toDigits 16 n) = n := by
  induction n using Nat.base_induction 16 (by decide) with
  | single d hd =>
    rw [Nat.toDigits_of_lt_base hd, readHex, List.foldl_cons, List.foldl_nil, hexValue_digitChar d hd, Nat.mul_zero,
      Nat.zero_add]
  | digit m d hd hm ih =>
    rw [← Nat.toDigits_append_toDigits (by decide) hm hd, Nat.toDigits_of_lt_base hd, readHex, List.foldl_append,
      ← readHex, ih, List.foldl_cons, List.foldl_nil, hexValue_digitChar d hd]

theorem readHex_hexDigits (c : Char) : readHex (hexDigits c) = c.toNat := readHex_toDigits c.toNat

theorem brace_not_mem_toDigits (n : Nat) : '\x7d' ∉ Nat.toDigits 16 n := by
  induction n using Nat.base_induction 16 (by decide) with
  | single d hd =>
    rw [Nat.toDigits_of_lt_base hd, List.mem_singleton]
    exact (digitChar_ne_brace d hd).symm
  | digit m d hd hm ih =>
    rw [← Nat.toDigits_append_toDigits (by decide) hm hd, Nat.toDigits_of_lt_base hd, List.mem_append,
      List.mem_singleton]
    exact fun h => h.elim ih (digitChar_ne_brace d hd).symm

/-! ## Characters -/

/-- What a backslash makes of the character after it. Four letters stand for controls, and nothing else is changed. -/
def unescape (x : Char) : Char :=
  if x = '0' then '\x00' else if x = 't' then '\t' else if x = 'n' then '\n' else if x = 'r' then '\r' else x

/-- The character that a text begins with the escape of, and what follows the escape. -/
def readChar : List Char → Option (Char × List Char)
  | [] => none
  | '\\' :: 'u' :: '\x7b' :: rest =>
    some (Char.ofNat (readHex (rest.takeWhile (· ≠ '\x7d'))), (rest.dropWhile (· ≠ '\x7d')).tail)
  | '\\' :: x :: rest => some (unescape x, rest)
  | x :: rest => some (x, rest)

/-- A code point in braces ends at the closing brace. -/
theorem readChar_codePoint (c : Char) (rest : List Char) :
    readChar ('\\' :: 'u' :: '\x7b' :: (hexDigits c ++ '\x7d' :: rest)) = some (c, rest) := by
  have hdigits : ∀ x ∈ hexDigits c, (decide (x ≠ '\x7d')) = true := by
    intro x hx
    refine decide_eq_true ?_
    rintro rfl
    exact brace_not_mem_toDigits c.toNat hx
  have htake : (hexDigits c ++ '\x7d' :: rest).takeWhile (· ≠ '\x7d') = hexDigits c := by
    rw [List.takeWhile_append_of_pos hdigits, List.takeWhile_cons_of_neg (by decide), List.append_nil]
  have hdrop : (hexDigits c ++ '\x7d' :: rest).dropWhile (· ≠ '\x7d') = '\x7d' :: rest := by
    rw [List.dropWhile_append_of_pos hdigits, List.dropWhile_cons_of_neg (by decide)]
  rw [readChar, htake, hdrop, readHex_hexDigits, Char.ofNat_toNat, List.tail_cons]

/-- Whatever follows the escape of a character, the character can be read off it. -/
theorem readChar_escapeChar_append (c : Char) (rest : List Char) :
    readChar (escapeChar '\'' c ++ rest) = some (c, rest) := by
  unfold escapeChar
  split_ifs with hnull htab hfeed hreturn hmark hpoint
  · rw [hnull]; rfl
  · rw [htab]; rfl
  · rw [hfeed]; rfl
  · rw [hreturn]; rfl
  · rw [Bool.or_eq_true, decide_eq_true_iff, decide_eq_true_iff] at hmark
    rcases hmark with rfl | rfl <;> rfl
  · simpa using readChar_codePoint c rest
  · rw [Bool.or_eq_true, decide_eq_true_iff, decide_eq_true_iff, not_or] at hmark
    rw [List.singleton_append]
    simp [readChar, hmark.1]

/-- Whatever follows a literal, its character can be read off it. -/
theorem quoteChar_append_inj {c d : Char} {s t : List Char}
    (h : (quoteChar c).toList ++ s = (quoteChar d).toList ++ t) : c = d ∧ s = t := by
  have hbody : escapeChar '\'' c ++ ('\'' :: s) = escapeChar '\'' d ++ ('\'' :: t) := by simpa [quoteChar] using h
  have hread : some (c, '\'' :: s) = some (d, '\'' :: t) := by
    rw [← readChar_escapeChar_append, hbody, readChar_escapeChar_append]
  obtain ⟨hchar, hrest⟩ := Prod.mk.inj (Option.some.inj hread)
  exact ⟨hchar, List.tail_eq_of_cons_eq hrest⟩

end PatternAutomata.Text
