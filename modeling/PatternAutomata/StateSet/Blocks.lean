/-
Sets of numbers as lists of blocks.

A block holds the members of one stretch of `Block.width` consecutive numbers, each as a bit. A list of blocks is
canonical if the stretches ascend and no block is empty, so equal sets are equal lists (`eq_of_has`). `bitsAt` is the
view of a list: the bits of a stretch, zero if the list has no block for it. Every operation on two sets works on their
bits, stretch by stretch, and is an instance of `combine`; `has_combine` says what its members are.
-/
import PatternAutomata.Bits

namespace PatternAutomata

/-- The members of a set in the stretch of `Block.width` numbers from `index * Block.width` on. -/
structure Block where
  index : Nat
  bits : Nat
  deriving DecidableEq

/-- The numbers that a block spans are halved this often until single ones are left. -/
def Block.height : Nat := 10

/-- How many numbers a block spans. -/
def Block.width : Nat := 1 <<< Block.height

/-- The lengths of the halves. -/
def Block.halves : List Nat := Bits.halves Block.height

namespace Blocks

theorem width_pos : 0 < Block.width := by decide

/-- The stretches ascend from `low` on, and each block has a member and none outside its stretch. -/
def Canonical : Nat → List Block → Prop
  | _, [] => True
  | low, b :: rest => low ≤ b.index ∧ b.bits ≠ 0 ∧ b.bits < 1 <<< Block.width ∧ Canonical (b.index + 1) rest

/-- The bits of one stretch. -/
def bitsAt (i : Nat) : List Block → Nat
  | [] => 0
  | b :: rest => if b.index = i then b.bits else bitsAt i rest

/-- Whether a number is a member. -/
def has (blocks : List Block) (x : Nat) : Bool := (bitsAt (x / Block.width) blocks).testBit (x % Block.width)

/-- The set with one member. -/
def single (x : Nat) : List Block := [⟨x / Block.width, 1 <<< (x % Block.width)⟩]

/-- A block in front of others, left out if it would be empty. -/
def keep (index bits : Nat) (rest : List Block) : List Block := if bits = 0 then rest else ⟨index, bits⟩ :: rest

/-- What is left of one list where the other has ended: all of it or nothing. -/
def side (kept : Bool) (blocks : List Block) : List Block := if kept then blocks else []

/-- A block that only one list has in front of others, or only the others. -/
def sideBlock (kept : Bool) (b : Block) (rest : List Block) : List Block := if kept then b :: rest else rest

/-- Combines a block and the blocks after it with a list; `next` combines the blocks after it with a list. -/
@[specialize] def combineHead (f : Nat → Nat → Nat) (g : Bool → Bool → Bool) (a : Block) (s : List Block)
    (next : List Block → List Block) : List Block → List Block
  | [] => side (g true false) (a :: s)
  | b :: t =>
    if b.index < a.index then sideBlock (g false true) b (combineHead f g a s next t)
    else if a.index < b.index then sideBlock (g true false) a (next (b :: t))
    else keep a.index (f a.bits b.bits) (next t)

/-- Combines the bits of two lists stretch by stretch. The operation `f` on numbers does to each bit what `g` says, so
`g` tells whether a block that only one list has is kept. -/
@[specialize] def combine (f : Nat → Nat → Nat) (g : Bool → Bool → Bool) : List Block → List Block → List Block
  | [], t => side (g false true) t
  | a :: s, t => combineHead f g a s (combine f g s) t

/-- The members in ascending order. -/
def members (blocks : List Block) : List Nat :=
  blocks.foldr (fun b rest => Bits.placesOnto Block.halves (b.index * Block.width) b.bits rest) []

/-! ## Canonical lists -/

theorem Canonical.of_le {low high : Nat} {blocks : List Block} (h : Canonical high blocks) (hle : low ≤ high) :
    Canonical low blocks := by
  cases blocks with
  | nil => trivial
  | cons b rest => exact ⟨Nat.le_trans hle h.1, h.2⟩

theorem bitsAt_of_lt {low : Nat} {blocks : List Block} (h : Canonical low blocks) (i : Nat) (hi : i < low) :
    bitsAt i blocks = 0 := by
  induction blocks generalizing low with
  | nil => rfl
  | cons b rest ih =>
    obtain ⟨h1, -, -, h4⟩ := h
    rw [bitsAt, if_neg (by omega)]
    exact ih h4 (by omega)

theorem bitsAt_lt {low : Nat} {blocks : List Block} (h : Canonical low blocks) (i : Nat) :
    bitsAt i blocks < 1 <<< Block.width := by
  induction blocks generalizing low with
  | nil => exact Bits.one_shiftLeft_pos _
  | cons b rest ih =>
    rw [bitsAt]
    split
    · exact h.2.2.1
    · exact ih h.2.2.2

/-- Canonical lists with the same bits are equal. -/
theorem eq_of_bitsAt {low : Nat} {s t : List Block} (hs : Canonical low s) (ht : Canonical low t)
    (h : ∀ i, bitsAt i s = bitsAt i t) : s = t := by
  induction s generalizing t low with
  | nil =>
    cases t with
    | nil => rfl
    | cons b t => exact absurd (by simpa [bitsAt] using (h b.index).symm) ht.2.1
  | cons a s ih =>
    obtain ⟨-, ha, -, hs'⟩ := hs
    cases t with
    | nil => exact absurd (by simpa [bitsAt] using h a.index) ha
    | cons b t =>
      obtain ⟨-, hb, -, ht'⟩ := ht
      have hindex : a.index = b.index := by
        rcases Nat.lt_trichotomy a.index b.index with hlt | heq | hlt
        · have := h a.index
          rw [bitsAt, if_pos rfl, bitsAt, if_neg (by omega), bitsAt_of_lt ht' _ (by omega)] at this
          exact absurd this ha
        · exact heq
        · have := h b.index
          rw [bitsAt, if_neg (by omega), bitsAt_of_lt hs' _ (by omega), bitsAt, if_pos rfl] at this
          exact absurd this.symm hb
      have hbits : a.bits = b.bits := by simpa [bitsAt, hindex] using h a.index
      have htail : s = t := by
        refine ih hs' (hindex ▸ ht') fun i => ?_
        have := h i
        by_cases hi : a.index = i
        · rw [bitsAt_of_lt hs' i (by omega), bitsAt_of_lt ht' i (by omega)]
        · rwa [bitsAt, if_neg hi, bitsAt, if_neg (hindex ▸ hi)] at this
      rw [htail, show a = b from Block.mk.injEq .. ▸ ⟨hindex, hbits⟩]

/-- Canonical lists with the same members are equal. -/
theorem eq_of_has {low : Nat} {s t : List Block} (hs : Canonical low s) (ht : Canonical low t)
    (h : ∀ x, has s x = has t x) : s = t := by
  refine eq_of_bitsAt hs ht fun i => Nat.eq_of_testBit_eq fun place => ?_
  by_cases hplace : place < Block.width
  · have := h (Block.width * i + place)
    rwa [has, has, Nat.mul_add_div width_pos, Nat.div_eq_of_lt hplace, Nat.add_zero, Nat.mul_add_mod,
      Nat.mod_eq_of_lt hplace] at this
  · have hpow : 1 <<< Block.width ≤ 2 ^ place := by
      rw [Nat.one_shiftLeft]
      exact Nat.pow_le_pow_right (by decide) (Nat.le_of_not_lt hplace)
    rw [Nat.testBit_lt_two_pow (Nat.lt_of_lt_of_le (bitsAt_lt hs i) hpow),
      Nat.testBit_lt_two_pow (Nat.lt_of_lt_of_le (bitsAt_lt ht i) hpow)]

/-! ## Members of the operations -/

theorem canonical_single (x : Nat) : Canonical 0 (single x) := by
  refine ⟨Nat.zero_le _, ?_, ?_, trivial⟩ <;> simp only [Nat.one_shiftLeft]
  · exact Nat.ne_of_gt (Nat.two_pow_pos _)
  · exact Nat.pow_lt_pow_right (by decide) (Nat.mod_lt _ width_pos)

theorem has_single (x y : Nat) : has (single x) y = decide (x = y) := by
  rw [has, single, bitsAt, bitsAt]
  split
  · rename_i h
    rw [Bits.testBit_one_shiftLeft, decide_eq_decide]
    refine ⟨?_, ?_⟩
    · intro hmod
      rw [← Nat.div_add_mod x Block.width, ← Nat.div_add_mod y Block.width, hmod]
      exact congrArg (fun i => Block.width * i + y % Block.width) h
    · exact fun hxy => hxy ▸ rfl
  · rename_i h
    rw [Nat.zero_testBit, eq_comm, decide_eq_false_iff_not]
    exact fun hxy => h (hxy ▸ rfl)

theorem bitsAt_keep {index : Nat} (bits : Nat) {rest : List Block} (h : Canonical (index + 1) rest) (i : Nat) :
    bitsAt i (keep index bits rest) = if index = i then bits else bitsAt i rest := by
  rw [keep]
  split
  · split
    · rw [bitsAt_of_lt h i (by omega)]
      exact Eq.symm ‹_›
    · rfl
  · rfl

theorem canonical_keep {low index bits : Nat} {rest : List Block} (hlow : low ≤ index) (hbits : bits < 1 <<< Block.width)
    (h : Canonical (index + 1) rest) : Canonical low (keep index bits rest) := by
  rw [keep]
  split
  · exact h.of_le (by omega)
  · exact ⟨hlow, ‹_›, hbits, h⟩

/-- An operation on numbers that works bit by bit and sets no bit that neither number has. -/
structure Bitwise (f : Nat → Nat → Nat) (g : Bool → Bool → Bool) : Prop where
  testBit : ∀ x y i, (f x y).testBit i = g (x.testBit i) (y.testBit i)
  false_false : g false false = false

variable {f : Nat → Nat → Nat} {g : Bool → Bool → Bool}

theorem Bitwise.lt_one_shiftLeft (h : Bitwise f g) {x y width : Nat} (hx : x < 1 <<< width) (hy : y < 1 <<< width) :
    f x y < 1 <<< width := by
  rw [Nat.one_shiftLeft] at hx hy ⊢
  apply Nat.lt_pow_two_of_testBit
  intro i hi
  have hpow : 2 ^ width ≤ 2 ^ i := Nat.pow_le_pow_right (by decide) hi
  rw [h.testBit, Nat.testBit_lt_two_pow (Nat.lt_of_lt_of_le hx hpow),
    Nat.testBit_lt_two_pow (Nat.lt_of_lt_of_le hy hpow), h.false_false]

theorem Bitwise.zero_right (h : Bitwise f g) (x : Nat) : f x 0 = if g true false then x else 0 := by
  apply Nat.eq_of_testBit_eq
  intro i
  have := h.false_false
  rw [h.testBit, Nat.zero_testBit]
  split <;> cases hx : x.testBit i <;> simp_all

theorem Bitwise.zero_left (h : Bitwise f g) (y : Nat) : f 0 y = if g false true then y else 0 := by
  apply Nat.eq_of_testBit_eq
  intro i
  have := h.false_false
  rw [h.testBit, Nat.zero_testBit]
  split <;> cases hy : y.testBit i <;> simp_all

theorem canonical_side {low : Nat} {blocks : List Block} (kept : Bool) (h : Canonical low blocks) :
    Canonical low (side kept blocks) ∧ ∀ i, bitsAt i (side kept blocks) = if kept then bitsAt i blocks else 0 := by
  cases kept
  · exact ⟨trivial, fun _ => rfl⟩
  · exact ⟨h, fun _ => rfl⟩

theorem canonical_sideBlock {low : Nat} {b : Block} {rest : List Block} (kept : Bool) (hlow : low ≤ b.index)
    (hne : b.bits ≠ 0) (hbits : b.bits < 1 <<< Block.width) (h : Canonical (b.index + 1) rest) :
    Canonical low (sideBlock kept b rest) ∧
      ∀ i, bitsAt i (sideBlock kept b rest) = if b.index = i then (if kept then b.bits else 0) else bitsAt i rest := by
  cases kept
  · refine ⟨h.of_le (by omega), fun i => ?_⟩
    show bitsAt i rest = _
    split
    · exact bitsAt_of_lt h i (by omega)
    · rfl
  · exact ⟨⟨hlow, hne, hbits, h⟩, fun _ => rfl⟩

theorem canonical_combineHead (h : Bitwise f g) {low : Nat} {a : Block} {s t : List Block}
    {next : List Block → List Block} (ha : Canonical low (a :: s)) (ht : Canonical low t)
    (hnext : ∀ t, Canonical (a.index + 1) t →
      Canonical (a.index + 1) (next t) ∧ ∀ i, bitsAt i (next t) = f (bitsAt i s) (bitsAt i t)) :
    Canonical low (combineHead f g a s next t) ∧
      ∀ i, bitsAt i (combineHead f g a s next t) = f (bitsAt i (a :: s)) (bitsAt i t) := by
  induction t generalizing low with
  | nil =>
    obtain ⟨h1, h2⟩ := canonical_side (g true false) ha
    exact ⟨h1, fun i => (h2 i).trans (h.zero_right _).symm⟩
  | cons b t ih =>
    obtain ⟨ha1, ha2, ha3, ha4⟩ := ha
    obtain ⟨hb1, hb2, hb3, hb4⟩ := ht
    rw [combineHead]
    split
    · rename_i hlt
      obtain ⟨ih1, ih2⟩ := ih ⟨hlt, ha2, ha3, ha4⟩ hb4
      obtain ⟨h1, h2⟩ := canonical_sideBlock (g false true) hb1 hb2 hb3 ih1
      refine ⟨h1, fun i => ?_⟩
      rw [h2, ih2, bitsAt.eq_def i (b :: t)]
      dsimp only
      by_cases hi : b.index = i
      · rw [if_pos hi, if_pos hi, ← h.zero_left, bitsAt, if_neg (by omega), bitsAt_of_lt ha4 i (by omega)]
      · rw [if_neg hi, if_neg hi]
    · split
      · rename_i hlt
        obtain ⟨hn1, hn2⟩ := hnext (b :: t) ⟨hlt, hb2, hb3, hb4⟩
        obtain ⟨h1, h2⟩ := canonical_sideBlock (g true false) ha1 ha2 ha3 hn1
        refine ⟨h1, fun i => ?_⟩
        rw [h2, hn2, bitsAt.eq_def i (a :: s)]
        dsimp only
        by_cases hi : a.index = i
        · rw [if_pos hi, if_pos hi, ← h.zero_right, bitsAt, if_neg (by omega), bitsAt_of_lt hb4 i (by omega)]
        · rw [if_neg hi, if_neg hi]
      · have heq : a.index = b.index := by omega
        obtain ⟨h1, h2⟩ := hnext t (heq ▸ hb4)
        refine ⟨canonical_keep ha1 (h.lt_one_shiftLeft ha3 hb3) h1, fun i => ?_⟩
        rw [bitsAt_keep _ h1, h2, bitsAt, bitsAt, heq]
        split <;> rfl

theorem canonical_combine (h : Bitwise f g) {low : Nat} {s t : List Block} (hs : Canonical low s)
    (ht : Canonical low t) :
    Canonical low (combine f g s t) ∧ ∀ i, bitsAt i (combine f g s t) = f (bitsAt i s) (bitsAt i t) := by
  induction s generalizing low t with
  | nil =>
    obtain ⟨h1, h2⟩ := canonical_side (g false true) ht
    exact ⟨h1, fun i => (h2 i).trans (h.zero_left _).symm⟩
  | cons a s ih => exact canonical_combineHead h hs ht fun t ht => ih hs.2.2.2 ht

/-- A number is a member of a combination as the operation says. -/
theorem has_combine (h : Bitwise f g) {low : Nat} {s t : List Block} (hs : Canonical low s) (ht : Canonical low t)
    (x : Nat) : has (combine f g s t) x = g (has s x) (has t x) := by
  rw [has, (canonical_combine h hs ht).2, h.testBit, has, has]

/-! ## The list of members -/

theorem mem_members {low : Nat} {blocks : List Block} (h : Canonical low blocks) (x : Nat) :
    x ∈ members blocks ↔ has blocks x = true := by
  induction blocks generalizing low with
  | nil => simp [members, has, bitsAt]
  | cons b rest ih =>
    obtain ⟨-, -, -, h4⟩ := h
    have hwidth := width_pos
    rw [members, List.foldr_cons, Block.halves, Bits.mem_placesOnto, ← Block.halves, ← Block.width, ← members, ih h4,
      has, has, bitsAt]
    by_cases hx : b.index = x / Block.width
    · have hbase : b.index * Block.width + x % Block.width = x := by
        rw [hx, Nat.mul_comm, Nat.div_add_mod]
      have hmod := Nat.mod_lt x hwidth
      rw [if_pos hx, show x - b.index * Block.width = x % Block.width by omega, bitsAt_of_lt h4 _ (by omega),
        Nat.zero_testBit]
      refine ⟨?_, ?_⟩
      · intro h
        rcases h with ⟨-, -, h⟩ | h
        · exact h
        · cases h
      · exact fun h => Or.inl ⟨by omega, by omega, h⟩
    · rw [if_neg hx]
      refine ⟨fun h => h.resolve_left ?_, Or.inr⟩
      intro h
      obtain ⟨h1, h2, -⟩ := h
      exact hx (Nat.div_eq_of_lt_le h1 (by rwa [Nat.succ_mul])).symm

theorem le_of_mem_members {low : Nat} {blocks : List Block} (h : Canonical low blocks) (x : Nat)
    (hx : x ∈ members blocks) : low * Block.width ≤ x := by
  rw [mem_members h] at hx
  refine Nat.le_of_not_lt fun hlt => ?_
  rw [has, bitsAt_of_lt h _ ((Nat.div_lt_iff_lt_mul width_pos).2 hlt), Nat.zero_testBit] at hx
  cases hx

theorem sorted_members {low : Nat} {blocks : List Block} (h : Canonical low blocks) :
    (members blocks).Pairwise (· < ·) := by
  induction blocks generalizing low with
  | nil => exact List.Pairwise.nil
  | cons b rest ih =>
    obtain ⟨-, -, -, h4⟩ := h
    rw [members, List.foldr_cons, ← members]
    refine Bits.sorted_placesOnto _ _ _ _ (ih h4) fun x hx => ?_
    have hlow := le_of_mem_members h4 x hx
    rwa [Nat.succ_mul] at hlow

end Blocks

end PatternAutomata
