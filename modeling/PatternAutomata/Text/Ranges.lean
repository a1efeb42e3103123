/-
Sets of code points written as ascending lists of inclusive ranges.

A look-up stops at the first range that starts after the code point, which is right because the ranges ascend and are
apart (`inRanges_iff`). The tables written in this way hold the character properties of Unicode 17.0.
-/
namespace PatternAutomata.Text

/-- Whether a number lies in one of the inclusive ranges of an ascending list. -/
def inRanges : List (Nat × Nat) → Nat → Bool
  | [], _ => false
  | (first, last) :: rest, n => first ≤ n && (n ≤ last || inRanges rest n)

/-- Whether no range is empty and each ends before the next one starts. -/
def ascending : List (Nat × Nat) → Bool
  | [] => true
  | [(first, last)] => first ≤ last
  | (first, last) :: next :: rest => first ≤ last && last < next.1 && ascending (next :: rest)

/-- In an ascending list no range starts before the first one. -/
theorem le_of_ascending (first last : Nat) (rest : List (Nat × Nat)) (h : ascending ((first, last) :: rest) = true)
    (r : Nat × Nat) (hr : r ∈ rest) : first ≤ r.1 := by
  induction rest generalizing first last with
  | nil => simp at hr
  | cons s rest ih =>
    simp only [ascending, Bool.and_eq_true, decide_eq_true_eq] at h
    rcases List.mem_cons.1 hr with rfl | hr
    · omega
    · have := ih s.1 s.2 h.2 hr
      omega

/-- The look-up in an ascending list finds every range. -/
theorem inRanges_iff (ranges : List (Nat × Nat)) (h : ascending ranges = true) (n : Nat) :
    inRanges ranges n = true ↔ ∃ r ∈ ranges, r.1 ≤ n ∧ n ≤ r.2 := by
  induction ranges with
  | nil => simp [inRanges]
  | cons s rest ih =>
    have hrest : ascending rest = true := by
      cases rest with
      | nil => rfl
      | cons t rest => simp only [ascending, Bool.and_eq_true] at h; exact h.2
    simp only [inRanges, Bool.and_eq_true, Bool.or_eq_true, decide_eq_true_eq, ih hrest, List.mem_cons]
    refine ⟨?_, ?_⟩
    · intro h
      rcases h with ⟨h1, h2 | ⟨r, hr, hn⟩⟩
      · exact ⟨s, Or.inl rfl, h1, h2⟩
      · exact ⟨r, Or.inr hr, hn⟩
    · intro h
      rcases h with ⟨r, rfl | hr, hn⟩
      · exact ⟨hn.1, Or.inl hn.2⟩
      · have := le_of_ascending s.1 s.2 rest h r hr
        exact ⟨by omega, Or.inr ⟨r, hr, hn⟩⟩

end PatternAutomata.Text
