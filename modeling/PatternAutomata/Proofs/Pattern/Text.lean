/-
What the written form of a tree tells.

Writing along spines comes to the same as writing node by node (`textEach`). Node by node, a tree begins with the name of
its constructor and ends where its last operand ends, so that it can be told from any text that it begins (`Told`). It
does not matter that a literal may hold a parenthesis, a comma or a quotation mark: what is in a literal is read by the
escapes, and no end of an operand is looked for there.

- `text_eq_textEach`: spines are written as their nodes would be.
- `told`: every tree is told by its text, whatever follows it.
- `text_tells`: both, and that trees with the same text are equal.
-/
import PatternAutomata.Pattern.Tree.Text
import PatternAutomata.Proofs.Text.Quoted

namespace PatternAutomata.Tree

/-- The written form of a tree by plain recursion. -/
def textEach : Tree → String
  | empty => "Empty"
  | literal c => "Literal(" ++ Text.quoteChar c ++ ")"
  | union left right => "Union(" ++ left.textEach ++ ", " ++ right.textEach ++ ")"
  | concat first second => "Concat(" ++ first.textEach ++ ", " ++ second.textEach ++ ")"
  | star body => "Star(" ++ body.textEach ++ ")"
  | plus body => "Plus(" ++ body.textEach ++ ")"

theorem text_eq_textEach (t : Tree) : t.text = t.textEach := by
  induction t with
  | empty => rw [text, textEach]
  | literal c => rw [text, textEach]
  | union left right ihl ihr => rw [text_union, textEach, ihl, ihr]
  | concat first second ihf ihs => rw [text_concat, textEach, ihf, ihs]
  | star body ih => rw [text, textEach, ih]
  | plus body ih => rw [text, textEach, ih]

/-! ## Trees told by their text -/

/-- No other tree begins with the text of the tree, and no other text follows it. -/
def Told (t : Tree) : Prop :=
  ∀ (u : Tree) (r s : List Char), t.textEach.toList ++ r = u.textEach.toList ++ s → t = u ∧ r = s

/-- The last operand of a tree. -/
theorem Told.closed {t u : Tree} {r s : List Char} (ht : t.Told)
    (h : t.textEach.toList ++ ')' :: r = u.textEach.toList ++ ')' :: s) : t = u ∧ r = s := by
  obtain ⟨htree, hrest⟩ := ht u _ _ h
  exact ⟨htree, List.tail_eq_of_cons_eq hrest⟩

/-- Two operands of a tree: what follows the first one is the second one. -/
theorem Told.pair {t t' u u' : Tree} {r s : List Char} (ht : t.Told) (ht' : t'.Told)
    (h : t.textEach.toList ++ ',' :: ' ' :: (t'.textEach.toList ++ ')' :: r) =
      u.textEach.toList ++ ',' :: ' ' :: (u'.textEach.toList ++ ')' :: s)) : t = u ∧ t' = u' ∧ r = s := by
  obtain ⟨htree, hrest⟩ := ht u _ _ h
  exact ⟨htree, ht'.closed (List.tail_eq_of_cons_eq (List.tail_eq_of_cons_eq hrest))⟩

theorem told (t : Tree) : t.Told := by
  -- constructors have names that begin with different letters, so only the operands are left to be told apart
  induction t with
  | empty =>
    intro u r s h
    cases u with
    | empty => exact ⟨rfl, List.append_cancel_left h⟩
    | _ => simp [textEach] at h
  | literal c =>
    intro u r s h
    cases u with
    | literal d =>
      obtain ⟨rfl, hrest⟩ := Text.quoteChar_append_inj (s := ')' :: r) (t := ')' :: s) (by simpa [textEach] using h)
      exact ⟨rfl, List.tail_eq_of_cons_eq hrest⟩
    | _ => simp [textEach] at h
  | union left right ihl ihr =>
    intro u r s h
    cases u with
    | union left' right' =>
      obtain ⟨rfl, rfl, hrest⟩ := ihl.pair ihr (by simpa [textEach] using h)
      exact ⟨rfl, hrest⟩
    | _ => simp [textEach] at h
  | concat first second ihf ihs =>
    intro u r s h
    cases u with
    | concat first' second' =>
      obtain ⟨rfl, rfl, hrest⟩ := ihf.pair ihs (by simpa [textEach] using h)
      exact ⟨rfl, hrest⟩
    | _ => simp [textEach] at h
  | star body ih =>
    intro u r s h
    cases u with
    | star body' =>
      obtain ⟨rfl, hrest⟩ := ih.closed (by simpa [textEach] using h)
      exact ⟨rfl, hrest⟩
    | _ => simp [textEach] at h
  | plus body ih =>
    intro u r s h
    cases u with
    | plus body' =>
      obtain ⟨rfl, hrest⟩ := ih.closed (by simpa [textEach] using h)
      exact ⟨rfl, hrest⟩
    | _ => simp [textEach] at h

/-- **Texts tell trees.** Writing a tree along its spines gives the text that plain recursion gives, and trees with the
same text are equal, whatever characters their literals hold. -/
theorem text_tells (t : Tree) : t.text = t.textEach ∧ ∀ u : Tree, t.text = u.text ↔ t = u := by
  refine ⟨t.text_eq_textEach, fun u => ⟨fun h => ?_, fun h => h ▸ rfl⟩⟩
  rw [t.text_eq_textEach, u.text_eq_textEach] at h
  exact (t.told u [] [] (by rw [h])).1

/-- A literal may hold what ends an operand and what begins one. -/
example : (concat (literal ')') (union (literal '\'') (literal ','))).text =
    "Concat(Literal(')'), Union(Literal('\\''), Literal(',')))" := by
  rw [text_eq_textEach]
  decide +kernel

end PatternAutomata.Tree
