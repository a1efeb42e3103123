/-
Sets of states as rows of bits.

A set of states can be kept as a row of bits that grows when a state beyond its end is inserted. How long the row is
depends on the room it was made with and on all that was ever inserted, and no operation may show it: bits beyond the
end count as unset (`bit`), and two rows are compared by their members and not by their bits.

- `insert_spec`, `bit_remove`, `bit_union`: what the operations do to a bit, wherever the rows end.
- `members_insert`, `members_remove`, `members_union`, `members_extend`: what they do to the set of the members.
-/
import Mathlib.Data.Finset.Card
import Mathlib.Data.Finset.Range
import Mathlib.Data.List.GetD
import PatternAutomata.State

namespace PatternAutomata

/-- A set of states as a row of bits, one for each state below some number. -/
structure GrowableSet where
  bits : List Bool
  deriving DecidableEq, Repr

namespace GrowableSet

/-- The bit of a state, which is unset beyond the end. -/
def bit (s : GrowableSet) (q : State) : Bool := s.bits.getD q false

/-- A row without members that has room for the states below a number. -/
def withCapacity (n : Nat) : GrowableSet := ⟨List.replicate n false⟩

/-- The set without members, in a row without bits. -/
def new : GrowableSet := withCapacity 0

/-- A row with room for the states below a number, if it is not longer already. -/
def grow (s : GrowableSet) (n : Nat) : GrowableSet := ⟨s.bits ++ List.replicate (n - s.bits.length) false⟩

/-- Sets a bit within the row, and tells what it was. -/
def put (s : GrowableSet) (q : State) : Bool × GrowableSet := (s.bit q, ⟨s.bits.set q true⟩)

/-- Inserts a state, and tells whether it was absent. -/
def insert (s : GrowableSet) (q : State) : Bool × GrowableSet :=
  let (was, t) := (if s.bits.length ≤ q then s.grow (q + 1) else s).put q
  (!was, t)

/-- Whether a state is a member. -/
def contains (s : GrowableSet) (q : State) : Bool := decide (q < s.bits.length) && s.bit q

/-- The set without a state. -/
def remove (s : GrowableSet) (q : State) : GrowableSet :=
  if q < s.bits.length then ⟨s.bits.set q false⟩ else s

/-- Whether no bit is set. -/
def isEmpty (s : GrowableSet) : Bool := s.bits.all (!·)

/-- How many bits are set. -/
def size (s : GrowableSet) : Nat := s.bits.count true

/-- The states whose bits are set, in ascending order. -/
def toList (s : GrowableSet) : List State := (List.range s.bits.length).filter s.bit

/-- Adds all members of a set, in a row that is as long as the longer of the two. -/
def union (s t : GrowableSet) : GrowableSet :=
  let grown := if s.bits.length < t.bits.length then s.grow t.bits.length else s
  ⟨grown.bits.mapIdx fun q b => b || t.bit q⟩

/-- Whether some state is in both sets. -/
def intersects (s t : GrowableSet) : Bool := s.toList.any t.bit

/-- The set with one member. -/
def singleton (q : State) : GrowableSet := ((withCapacity (q + 1)).insert q).2

/-- Inserts states one after another. -/
def extend (s : GrowableSet) (states : List State) : GrowableSet := states.foldl (fun s q => (s.insert q).2) s

/-- The set of the states in a list. -/
def ofList (states : List State) : GrowableSet := new.extend states

/-- The members of a set, as a mathematical set: the states whose bits are set. -/
def members (s : GrowableSet) : Finset State := (Finset.range s.bits.length).filter fun q => s.bit q = true

/-! ## Bits -/

variable {s t : GrowableSet} {q p : State}

theorem bit_eq_false (h : s.bits.length ≤ q) : s.bit q = false := List.getD_eq_default _ _ h

theorem lt_length_of_bit (h : s.bit q = true) : q < s.bits.length := by
  by_contra hle
  rw [bit_eq_false (Nat.le_of_not_lt hle)] at h
  cases h

theorem contains_eq_bit (s : GrowableSet) (q : State) : s.contains q = s.bit q := by
  rw [contains]
  by_cases h : q < s.bits.length
  · rw [decide_eq_true h, Bool.true_and]
  · rw [decide_eq_false h, Bool.false_and, bit_eq_false (Nat.le_of_not_lt h)]

theorem bit_replicate (n : Nat) (q : State) : bit ⟨List.replicate n false⟩ q = false := by
  rw [bit, List.getD_eq_getElem?_getD, List.getElem?_getD_replicate_default_eq]

theorem length_grow (s : GrowableSet) (n : Nat) : n ≤ (s.grow n).bits.length := by
  rw [grow, List.length_append, List.length_replicate]
  omega

/-- Growing sets no bit and leaves none out. -/
@[simp] theorem bit_grow (s : GrowableSet) (n : Nat) (q : State) : (s.grow n).bit q = s.bit q := by
  by_cases h : q < s.bits.length
  · exact List.getD_append _ _ _ _ h
  · have hle := Nat.le_of_not_lt h
    rw [bit_eq_false hle]
    exact (List.getD_append_right _ _ _ _ hle).trans (bit_replicate _ _)

/-- What a row holds after a bit within it is set or unset. -/
theorem bit_set (hq : q < s.bits.length) (b : Bool) (p : State) :
    bit ⟨s.bits.set q b⟩ p = if q = p then b else s.bit p := by
  simp only [bit, List.getD_eq_getElem?_getD, List.getElem?_set]
  by_cases h : q = p
  · rw [if_pos h, if_pos h, if_pos hq, Option.getD_some]
  · rw [if_neg h, if_neg h]

/-- The bits of a row are those of the states below its length. -/
theorem bits_eq_map (s : GrowableSet) : s.bits = (List.range s.bits.length).map s.bit := by
  refine List.ext_getElem (by rw [List.length_map, List.length_range]) fun q hq hq' => ?_
  rw [List.getElem_map, List.getElem_range, bit, List.getD_eq_getElem _ _ hq]

/-! ## What the operations do to a bit -/

/-- A row that is grown where it is too short is long enough, and has the bits it had before. -/
theorem exists_grown (s : GrowableSet) (n : Nat) {short : Prop} [Decidable short] (h : ¬ short → n ≤ s.bits.length) :
    ∃ u : GrowableSet, (if short then s.grow n else s) = u ∧ n ≤ u.bits.length ∧ ∀ p, u.bit p = s.bit p := by
  refine ⟨_, rfl, ?_, fun p => ?_⟩
  · split
    · exact length_grow s n
    · exact h ‹_›
  · split
    · exact bit_grow s n p
    · rfl

/-- Inserting a state sets its bit and no other, and tells whether it was unset. -/
theorem insert_spec (s : GrowableSet) (q : State) :
    (s.insert q).1 = !s.bit q ∧ ∀ p, (s.insert q).2.bit p = if q = p then true else s.bit p := by
  obtain ⟨u, hu, hq, hbit⟩ := s.exists_grown (q + 1) Nat.lt_of_not_le
  rw [insert, hu, put]
  refine ⟨congrArg (!·) (hbit q), fun p => ?_⟩
  rw [bit_set hq, hbit]

/-- Removing a state unsets its bit and no other, also if the row has no such bit. -/
theorem bit_remove (s : GrowableSet) (q p : State) : (s.remove q).bit p = if q = p then false else s.bit p := by
  rw [remove]
  split
  · exact bit_set ‹_› false p
  · by_cases h : q = p
    · rw [if_pos h, bit_eq_false (h ▸ Nat.le_of_not_lt ‹_›)]
    · rw [if_neg h]

/-- A union has the bits of both rows, whichever is the longer one. -/
theorem bit_union (s t : GrowableSet) (p : State) : (s.union t).bit p = (s.bit p || t.bit p) := by
  obtain ⟨u, hu, hle, hbit⟩ := s.exists_grown t.bits.length Nat.le_of_not_lt
  rw [union, hu, ← hbit]
  by_cases hp : p < u.bits.length
  · have hp' : p < (u.bits.mapIdx fun q b => b || t.bit q).length := by rwa [List.length_mapIdx]
    rw [bit, bit, List.getD_eq_getElem _ _ hp', List.getElem_mapIdx, List.getD_eq_getElem _ _ hp]
  · have hge := Nat.le_of_not_lt hp
    rw [bit_eq_false hge, bit_eq_false (hle.trans hge)]
    exact bit_eq_false (by rwa [List.length_mapIdx])

/-! ## Members -/

@[simp] theorem mem_members : q ∈ s.members ↔ s.bit q = true := by
  rw [members, Finset.mem_filter, Finset.mem_range]
  exact and_iff_right_of_imp lt_length_of_bit

@[simp] theorem mem_toList : q ∈ s.toList ↔ q ∈ s.members := by
  rw [toList, List.mem_filter, List.mem_range, mem_members]
  exact and_iff_right_of_imp lt_length_of_bit

theorem sorted_toList (s : GrowableSet) : s.toList.Pairwise (· < ·) := List.pairwise_lt_range.filter _

theorem members_withCapacity (n : Nat) : (withCapacity n).members = ∅ :=
  Finset.eq_empty_of_forall_notMem fun q hq => by
    rw [mem_members, withCapacity, bit_replicate] at hq
    cases hq

theorem members_insert (s : GrowableSet) (q : State) : (s.insert q).2.members = Insert.insert q s.members := by
  ext p
  rw [mem_members, (insert_spec s q).2, Finset.mem_insert, mem_members, eq_comm (a := p)]
  split <;> simp_all

theorem members_singleton (q : State) : (singleton q).members = {q} := by
  rw [singleton, members_insert, members_withCapacity, insert_empty_eq]

theorem members_remove (s : GrowableSet) (q : State) : (s.remove q).members = s.members.erase q := by
  ext p
  rw [mem_members, bit_remove, Finset.mem_erase, mem_members, ne_comm]
  split <;> simp_all

theorem members_union (s t : GrowableSet) : (s.union t).members = s.members ∪ t.members := by
  ext p
  rw [mem_members, bit_union, Bool.or_eq_true, Finset.mem_union, mem_members, mem_members]

theorem members_extend (s : GrowableSet) (states : List State) :
    (s.extend states).members = s.members ∪ states.toFinset := by
  unfold extend
  induction states generalizing s with
  | nil => rw [List.foldl_nil, List.toFinset_nil, Finset.union_empty]
  | cons q states ih =>
    rw [List.foldl_cons, ih, members_insert, List.toFinset_cons, Finset.insert_union, Finset.union_insert]

theorem contains_iff : s.contains q = true ↔ q ∈ s.members := by
  rw [contains_eq_bit, mem_members]

theorem isEmpty_iff : s.isEmpty = true ↔ s.members = ∅ := by
  rw [isEmpty, List.all_eq_true, bits_eq_map, List.forall_mem_map, Finset.eq_empty_iff_forall_notMem]
  refine ⟨fun h q hq => ?_, fun h q _ => ?_⟩
  · have hbit := mem_members.1 hq
    have hunset := h q (List.mem_range.2 (lt_length_of_bit hbit))
    rw [hbit] at hunset
    cases hunset
  · cases hbit : s.bit q with
    | false => rfl
    | true => exact absurd (mem_members.2 hbit) (h q)

theorem intersects_iff : s.intersects t = true ↔ (s.members ∩ t.members).Nonempty := by
  rw [intersects, List.any_eq_true]
  simp only [mem_toList, mem_members, Finset.Nonempty, Finset.mem_inter]

/-- There are as many set bits as states in the list of members. -/
theorem length_toList (s : GrowableSet) : s.toList.length = s.size := by
  rw [size, toList, ← List.countP_eq_length_filter]
  conv_rhs => rw [bits_eq_map, List.count, List.countP_map]
  exact List.countP_congr fun q _ => by simp

end GrowableSet

end PatternAutomata
