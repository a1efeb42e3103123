/-
Finite sets of states.

A set is a canonical list of blocks, so two sets with the same members are equal whatever was done to build them
(`StateSet.ext`), and its list of members is strictly ascending (`sorted_toList`). Membership is the view of a set: each
operation comes with the lemma that says what its members are, and nothing outside this module looks at the blocks.
-/
import PatternAutomata.State
import PatternAutomata.StateSet.Blocks

namespace PatternAutomata

/-- A finite set of states; equal sets are those with equal members. -/
structure StateSet where
  blocks : List Block
  canonical : Blocks.Canonical 0 blocks
  deriving DecidableEq

namespace StateSet

/-- Whether a state is a member. -/
def contains (s : StateSet) (q : State) : Bool := Blocks.has s.blocks q

instance : Membership State StateSet := ⟨fun s q => s.contains q = true⟩

instance (q : State) (s : StateSet) : Decidable (q ∈ s) := inferInstanceAs (Decidable (s.contains q = true))

instance : EmptyCollection StateSet := ⟨⟨[], trivial⟩⟩

instance : Singleton State StateSet := ⟨fun q => ⟨Blocks.single q, Blocks.canonical_single q⟩⟩

/-- The set without any member. -/
def isEmpty (s : StateSet) : Bool := s.blocks.isEmpty

/-- The members in ascending order. -/
def toList (s : StateSet) : List State := Blocks.members s.blocks

/-- How many members there are. -/
def size (s : StateSet) : Nat := s.toList.length

/-! ## Operations on the bits -/

/-- The set of the states at which an operation on the bits of two sets sets a bit. -/
@[inline] def bitwise (f : Nat → Nat → Nat) {g : Bool → Bool → Bool} (h : Blocks.Bitwise f g) (s t : StateSet) :
    StateSet :=
  ⟨Blocks.combine f g s.blocks t.blocks, (Blocks.canonical_combine h s.canonical t.canonical).1⟩

theorem bitwise_or : Blocks.Bitwise (· ||| ·) (· || ·) := ⟨fun x y i => Nat.testBit_or x y i, rfl⟩

theorem bitwise_and : Blocks.Bitwise (· &&& ·) (· && ·) := ⟨fun x y i => Nat.testBit_and x y i, rfl⟩

theorem bitwise_diff : Blocks.Bitwise (fun x y => x ^^^ (x &&& y)) (fun a b => a && !b) where
  testBit x y i := by rw [Nat.testBit_xor, Nat.testBit_and]; cases x.testBit i <;> cases y.testBit i <;> rfl
  false_false := rfl

instance : Union StateSet := ⟨bitwise _ bitwise_or⟩

instance : Inter StateSet := ⟨bitwise _ bitwise_and⟩

instance : SDiff StateSet := ⟨bitwise _ bitwise_diff⟩

/-- The set with one more member. -/
def insert (s : StateSet) (q : State) : StateSet := s ∪ {q}

/-- The set without a state. -/
def erase (s : StateSet) (q : State) : StateSet := s \ {q}

/-- Whether some state is in both sets. -/
def intersects (s t : StateSet) : Bool := !(s ∩ t).isEmpty

/-! ## Operations on the members -/

/-- The set of the states in a list; repeats and order do not matter. -/
def ofList (states : List State) : StateSet := states.foldr (fun q s => s.insert q) ∅

/-- The members that pass a test. -/
def filter (s : StateSet) (test : State → Bool) : StateSet := ofList (s.toList.filter test)

/-- The union of the sets `family q` over the members `q` of `s`. -/
def biUnion (s : StateSet) (family : State → StateSet) : StateSet :=
  s.toList.foldr (fun q union => family q ∪ union) ∅

/-- All sets whose members are among the listed states. -/
def subsetsOf : List State → List StateSet
  | [] => [∅]
  | q :: rest => subsetsOf rest ++ (subsetsOf rest).map (·.insert q)

/-- The written form of a set: its members in ascending order. -/
def text (s : StateSet) : String := "\x7b" ++ ", ".intercalate (s.toList.map State.name) ++ "\x7d"

/-- Only the members are hashed, so equal sets have equal hashes. -/
instance : Hashable StateSet where
  hash s := hash s.toList

instance : Ord Block where
  compare := compareLex (compareOn Block.index) (compareOn Block.bits)

instance : Std.TransOrd Block :=
  inferInstanceAs (Std.TransCmp (compareLex (compareOn Block.index) (compareOn Block.bits)))

instance : Std.LawfulEqOrd Block where
  compare_self :=
    (inferInstance : Std.ReflCmp (compareLex (compareOn Block.index) (compareOn Block.bits))).compare_self
  eq_of_compare {a b} h := by
    obtain ⟨h1, h2⟩ := Ordering.then_eq_eq.1 (show (compare a.index b.index).then (compare a.bits b.bits) = .eq from h)
    have h1 := Std.LawfulEqOrd.eq_of_compare h1
    have h2 := Std.LawfulEqOrd.eq_of_compare h2
    cases a
    cases b
    simp_all

/-- Sets are ordered by their blocks; the order serves to find them in maps. -/
instance : Ord StateSet where
  compare := compareOn blocks

instance : Std.TransOrd StateSet := inferInstanceAs (Std.TransCmp (compareOn blocks))

/-! ## Members -/

variable {s t : StateSet} {p q : State}

theorem contains_iff : s.contains q = true ↔ q ∈ s := Iff.rfl

/-- Sets with the same members are equal. -/
theorem ext (h : ∀ q, q ∈ s ↔ q ∈ t) : s = t := by
  have heq : s.blocks = t.blocks :=
    Blocks.eq_of_has s.canonical t.canonical fun q => Bool.eq_iff_iff.2 (h q)
  cases s
  cases t
  exact mk.injEq .. ▸ heq

instance : Std.LawfulEqOrd StateSet where
  compare_self := (inferInstance : Std.ReflCmp (compareOn blocks)).compare_self
  eq_of_compare {s t} h := by
    have heq : s.blocks = t.blocks := Std.LawfulEqOrd.eq_of_compare (α := List Block) h
    cases s
    cases t
    exact mk.injEq .. ▸ heq

@[simp] theorem not_mem_empty (q : State) : ¬ q ∈ (∅ : StateSet) := by
  simp [← contains_iff, contains, EmptyCollection.emptyCollection, Blocks.has, Blocks.bitsAt]

@[simp] theorem mem_singleton : p ∈ ({q} : StateSet) ↔ p = q := by
  rw [← contains_iff, contains, show ({q} : StateSet).blocks = Blocks.single q from rfl, Blocks.has_single,
    decide_eq_true_iff, eq_comm]

theorem contains_bitwise {f : Nat → Nat → Nat} {g : Bool → Bool → Bool} (h : Blocks.Bitwise f g) (s t : StateSet)
    (q : State) : (bitwise f h s t).contains q = g (s.contains q) (t.contains q) :=
  Blocks.has_combine h s.canonical t.canonical q

@[simp] theorem mem_union : q ∈ s ∪ t ↔ q ∈ s ∨ q ∈ t := by
  rw [← contains_iff, show (s ∪ t).contains q = _ from contains_bitwise bitwise_or s t q, Bool.or_eq_true]
  rfl

@[simp] theorem mem_inter : q ∈ s ∩ t ↔ q ∈ s ∧ q ∈ t := by
  rw [← contains_iff, show (s ∩ t).contains q = _ from contains_bitwise bitwise_and s t q, Bool.and_eq_true]
  rfl

@[simp] theorem mem_sdiff : q ∈ s \ t ↔ q ∈ s ∧ ¬ q ∈ t := by
  rw [← contains_iff, show (s \ t).contains q = _ from contains_bitwise bitwise_diff s t q, Bool.and_eq_true,
    Bool.not_eq_true', ← Bool.not_eq_true]
  rfl

@[simp] theorem mem_insert : p ∈ s.insert q ↔ p = q ∨ p ∈ s := by
  rw [insert, mem_union, mem_singleton, or_comm]

@[simp] theorem mem_erase : p ∈ s.erase q ↔ p ≠ q ∧ p ∈ s := by
  rw [erase, mem_sdiff, mem_singleton, and_comm]

@[simp] theorem mem_toList : q ∈ s.toList ↔ q ∈ s := Blocks.mem_members s.canonical q

theorem sorted_toList (s : StateSet) : s.toList.Pairwise (· < ·) := Blocks.sorted_members s.canonical

theorem nodup_toList (s : StateSet) : s.toList.Nodup := s.sorted_toList.imp Nat.ne_of_lt

@[simp] theorem mem_ofList (q : State) (states : List State) : q ∈ ofList states ↔ q ∈ states := by
  rw [ofList]
  induction states with
  | nil => simp
  | cons a states ih => rw [List.foldr_cons, mem_insert, ih, List.mem_cons]

@[simp] theorem mem_filter (q : State) (s : StateSet) (test : State → Bool) :
    q ∈ s.filter test ↔ q ∈ s ∧ test q = true := by
  rw [filter, mem_ofList, List.mem_filter, mem_toList]

@[simp] theorem mem_biUnion (p : State) (s : StateSet) (family : State → StateSet) :
    p ∈ s.biUnion family ↔ ∃ q, q ∈ s ∧ p ∈ family q := by
  have key : ∀ l : List State, p ∈ l.foldr (fun q union => family q ∪ union) (∅ : StateSet) ↔
      ∃ q, q ∈ l ∧ p ∈ family q := by
    intro l
    induction l with
    | nil => simp
    | cons a l ih => simp [ih]
  rw [biUnion, key]
  simp only [mem_toList]

theorem isEmpty_iff (s : StateSet) : s.isEmpty = true ↔ ∀ q, ¬ q ∈ s := by
  refine ⟨?_, ?_⟩
  · intro h
    rw [isEmpty, List.isEmpty_iff] at h
    rw [show s = ∅ by cases s; exact mk.injEq .. ▸ h]
    exact not_mem_empty
  · intro h
    rw [show s = ∅ from ext fun q => iff_of_false (h q) (not_mem_empty q)]
    rfl

theorem isEmpty_eq_false_iff (s : StateSet) : s.isEmpty = false ↔ ∃ q, q ∈ s := by
  rw [← Bool.not_eq_true, isEmpty_iff, Classical.not_forall]
  simp only [Classical.not_not]

theorem size_eq_zero_iff (s : StateSet) : s.size = 0 ↔ ∀ q, ¬ q ∈ s := by
  rw [size, List.length_eq_zero_iff, List.eq_nil_iff_forall_not_mem]
  simp only [mem_toList]

theorem intersects_iff (s t : StateSet) : s.intersects t = true ↔ ∃ q, q ∈ s ∧ q ∈ t := by
  rw [intersects, Bool.not_eq_true', isEmpty_eq_false_iff]
  simp only [mem_inter]

theorem intersects_eq_false_of_isEmpty (s t : StateSet) (h : s.isEmpty = true) : s.intersects t = false := by
  rw [← Bool.not_eq_true, intersects_iff]
  intro h
  obtain ⟨q, hq, -⟩ := h
  exact (isEmpty_iff s).1 h q hq

theorem size_le_size (s t : StateSet) (hsub : ∀ p, p ∈ s → p ∈ t) : s.size ≤ t.size :=
  s.nodup_toList.length_le_of_subset fun p hp => mem_toList.2 (hsub p (mem_toList.1 hp))

/-- A state that is no member counts once when it is inserted. -/
theorem size_insert (s : StateSet) (q : State) (hnot : ¬ q ∈ s) : (s.insert q).size = s.size + 1 := by
  have hnodup : (q :: s.toList).Nodup := List.nodup_cons.2 ⟨fun h => hnot (mem_toList.1 h), s.nodup_toList⟩
  have hperm : (s.insert q).toList.Perm (q :: s.toList) :=
    (List.perm_ext_iff_of_nodup (nodup_toList _) hnodup).2 fun p => by
      rw [mem_toList, mem_insert, List.mem_cons, mem_toList]
  exact hperm.length_eq

/-- A set inside another that has one more member is smaller. -/
theorem size_lt_size (s t : StateSet) (q : State) (hsub : ∀ p, p ∈ s → p ∈ t) (hq : q ∈ t) (hnot : ¬ q ∈ s) :
    s.size < t.size := by
  have hle : (s.insert q).size ≤ t.size := size_le_size _ t fun p hp => by
    rcases mem_insert.1 hp with rfl | hp
    · exact hq
    · exact hsub p hp
  rwa [size_insert s q hnot] at hle

/-- A set is among the subsets of a list as soon as the list holds its members. -/
theorem mem_subsetsOf (s : StateSet) (states : List State) (h : ∀ q, q ∈ s → q ∈ states) :
    s ∈ subsetsOf states := by
  induction states generalizing s with
  | nil =>
    rw [show s = ∅ from ext fun q => iff_of_false (fun hq => List.not_mem_nil (h q hq)) (not_mem_empty q)]
    exact List.mem_singleton.2 rfl
  | cons a rest ih =>
    rw [subsetsOf, List.mem_append, List.mem_map]
    by_cases ha : a ∈ s
    · refine Or.inr ⟨s.erase a, ih _ fun q hq => ?_, ext fun q => ?_⟩
      · rw [mem_erase] at hq
        exact (List.mem_cons.1 (h q hq.2)).resolve_left hq.1
      · rw [mem_insert, mem_erase]
        by_cases hq : q = a
        · simp [hq, ha]
        · simp [hq]
    · refine Or.inl (ih s fun q hq => (List.mem_cons.1 (h q hq)).resolve_left ?_)
      rintro rfl
      exact ha hq

end StateSet

end PatternAutomata
