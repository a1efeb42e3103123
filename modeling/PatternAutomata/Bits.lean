/-
Numbers as sets of places: a place is in the set if the bit there is set.

`placesOnto` lists the places of a number. It splits the number into halves until single bits are left and passes over
every half that is zero, so there is a short way to each set bit.

- `mem_placesOnto`: the places listed are those of the set bits.
- `sorted_placesOnto`: they are listed in ascending order.
-/
namespace PatternAutomata.Bits

/-- The lengths of the halves when `1 <<< height` places are split until single ones are left. -/
def halves : Nat → List Nat
  | 0 => []
  | height + 1 => 1 <<< height :: halves height

/-- The places of the set bits of a number, each moved up by `base`, in front of `rest`. The places are split into
halves of the given lengths. -/
def placesOnto : List Nat → Nat → Nat → List Nat → List Nat
  | [], base, bits, rest => if bits % 2 = 1 then base :: rest else rest
  | half :: shorter, base, bits, rest =>
    let high := bits >>> half
    if high = 0 then placesOnto shorter base bits rest
    else
      let low := bits ^^^ (high <<< half)
      let rest := placesOnto shorter (base + half) high rest
      if low = 0 then rest else placesOnto shorter base low rest

theorem one_shiftLeft_pos (height : Nat) : 0 < 1 <<< height := by
  rw [Nat.one_shiftLeft]
  exact Nat.two_pow_pos height

theorem one_shiftLeft_succ (height : Nat) : 1 <<< (height + 1) = 1 <<< height + 1 <<< height := by
  rw [Nat.shiftLeft_succ, Nat.two_mul]

theorem testBit_one_shiftLeft (place i : Nat) : (1 <<< place).testBit i = decide (place = i) := by
  rw [Nat.one_shiftLeft, Nat.testBit_two_pow]

/-- What is left of a number without its high bits are the bits at lower places. -/
theorem testBit_low (bits half i : Nat) :
    (bits ^^^ ((bits >>> half) <<< half)).testBit i = (decide (i < half) && bits.testBit i) := by
  rw [Nat.testBit_xor, Nat.testBit_shiftLeft, Nat.testBit_shiftRight]
  by_cases h : half ≤ i
  · simp [h, Nat.not_lt.2 h, Nat.add_sub_cancel' h]
  · simp [h, Nat.not_le.1 h]

/-- The two halves of a number are listed one after the other. -/
theorem placesOnto_cons (half : Nat) (shorter : List Nat) (base bits : Nat) (rest : List Nat) :
    placesOnto (half :: shorter) base bits rest =
      placesOnto shorter base (bits ^^^ ((bits >>> half) <<< half))
        (placesOnto shorter (base + half) (bits >>> half) rest) := by
  have hzero : ∀ lengths base rest, placesOnto lengths base 0 rest = rest := by
    intro lengths
    induction lengths with
    | nil => intro base rest; rfl
    | cons half shorter ih => intro base rest; rw [placesOnto]; simp only [Nat.zero_shiftRight, if_true, ih]
  rw [placesOnto]
  dsimp only
  split
  · rename_i h0
    rw [h0, hzero, Nat.zero_shiftLeft, Nat.xor_zero]
  · split
    · rename_i hlow
      rw [hlow, hzero]
    · rfl

/-- The places listed are those of the set bits. -/
theorem mem_placesOnto (height base bits : Nat) (rest : List Nat) (x : Nat) :
    x ∈ placesOnto (halves height) base bits rest ↔
      (base ≤ x ∧ x < base + 1 <<< height ∧ bits.testBit (x - base) = true) ∨ x ∈ rest := by
  induction height generalizing base bits rest with
  | zero =>
    rw [halves, placesOnto, Nat.shiftLeft_zero]
    by_cases h : bits % 2 = 1
    · rw [if_pos h, List.mem_cons]
      refine ⟨?_, ?_⟩
      · intro h
        rcases h with rfl | hx
        · exact Or.inl ⟨by omega, by omega, by rw [Nat.sub_self, Nat.testBit_zero, decide_eq_true h]⟩
        · exact Or.inr hx
      · intro h
        rcases h with ⟨h1, h2, -⟩ | hx
        · exact Or.inl (by omega)
        · exact Or.inr hx
    · rw [if_neg h]
      refine ⟨Or.inr, fun hx => hx.resolve_left ?_⟩
      intro h
      obtain ⟨h1, h2, h3⟩ := h
      rw [show x - base = 0 by omega, Nat.testBit_zero] at h3
      exact h (of_decide_eq_true h3)
  | succ height ih =>
    rw [halves, placesOnto_cons, one_shiftLeft_succ]
    simp only [ih, testBit_low, Nat.testBit_shiftRight, Bool.and_eq_true, decide_eq_true_eq]
    refine ⟨?_, ?_⟩
    · intro h
      rcases h with ⟨h1, h2, h3, h4⟩ | ⟨h1, h2, h3⟩ | hx
      · exact Or.inl ⟨h1, by omega, h4⟩
      · rw [show 1 <<< height + (x - (base + 1 <<< height)) = x - base by omega] at h3
        exact Or.inl ⟨by omega, by omega, h3⟩
      · exact Or.inr hx
    · intro h
      rcases h with ⟨h1, h2, h3⟩ | hx
      · by_cases hlow : x < base + 1 <<< height
        · exact Or.inl ⟨h1, hlow, by omega, h3⟩
        · refine Or.inr (Or.inl ⟨by omega, by omega, ?_⟩)
          rwa [show 1 <<< height + (x - (base + 1 <<< height)) = x - base by omega]
      · exact Or.inr (Or.inr hx)

/-- The places are listed in ascending order. -/
theorem sorted_placesOnto (height base bits : Nat) (rest : List Nat) (hrest : rest.Pairwise (· < ·))
    (habove : ∀ x ∈ rest, base + 1 <<< height ≤ x) :
    (placesOnto (halves height) base bits rest).Pairwise (· < ·) := by
  induction height generalizing base bits rest with
  | zero =>
    rw [halves, placesOnto]
    split
    · exact List.pairwise_cons.2 ⟨fun x hx => by have := habove x hx; omega, hrest⟩
    · exact hrest
  | succ height ih =>
    rw [one_shiftLeft_succ] at habove
    rw [halves, placesOnto_cons]
    refine ih base _ _ (ih _ _ _ hrest fun x hx => ?_) fun x hx => ?_
    · have := habove x hx
      omega
    · rcases (mem_placesOnto ..).1 hx with ⟨h, -, -⟩ | hx
      · exact h
      · have := habove x hx
        have := one_shiftLeft_pos height
        omega

end PatternAutomata.Bits
