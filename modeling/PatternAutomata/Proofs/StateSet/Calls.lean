/-
Any calls on any number of sets of states.

The sets at hand are numbered from 0. A call makes a new set or changes one of them, and what it does is told by the
operations of the kind of set (`SetOperations`). The same calls can be made on mathematical sets (`mathematical`), where
there is no room and no history. A kind of set is faithful if each operation does to the members what it does to a
mathematical set, and each question is answered by the members (`Faithful`).

- `Faithful.map_members_run`: the members of the sets that any calls lead to are the mathematical sets they lead to.
- `Faithful.map_toList_run`: two faithful kinds list the same members after the same calls.
- `GrowableSet.faithful`, `StateSet.faithful`: rows of bits, however long, and canonical blocks are faithful.
- `members_of_calls`: so both are sets of states, whatever calls they come from.
-/
import Mathlib.Data.Finset.Sort
import PatternAutomata.StateSet.Basic
import PatternAutomata.Proofs.StateSet.Growable

namespace PatternAutomata

/-- What makes and changes the sets of a kind. `insert` also answers whether the state was absent. -/
structure SetOperations (σ : Type) where
  new : σ
  withCapacity : Nat → σ
  singleton : State → σ
  ofList : List State → σ
  insert : σ → State → Bool × σ
  remove : σ → State → σ
  extend : σ → List State → σ
  union : σ → σ → σ

/-- What can be asked about the sets of a kind. -/
structure SetQueries (σ : Type) where
  contains : σ → State → Bool
  isEmpty : σ → Bool
  size : σ → Nat
  toList : σ → List State
  intersects : σ → σ → Bool
  equal : σ → σ → Bool
  /-- the states that a hasher is given, one after another -/
  hashed : σ → List State

/-- A call on numbered sets: the first four and `clone` make a new set, the others change the set of the first
number. -/
inductive SetCall where
  | new
  | withCapacity (n : Nat)
  | singleton (q : State)
  | ofList (states : List State)
  | clone (i : Nat)
  | insert (i : Nat) (q : State)
  | remove (i : Nat) (q : State)
  | extend (i : Nat) (states : List State)
  | union (i j : Nat)
  deriving DecidableEq, Repr

namespace SetOperations

variable {σ : Type}

/-- The sets after a call. A call on a set that does not exist does nothing. -/
def after (ops : SetOperations σ) (sets : List σ) : SetCall → List σ
  | .new => sets ++ [ops.new]
  | .withCapacity n => sets ++ [ops.withCapacity n]
  | .singleton q => sets ++ [ops.singleton q]
  | .ofList states => sets ++ [ops.ofList states]
  | .clone i => sets ++ sets[i]?.toList
  | .insert i q => sets.modify i fun s => (ops.insert s q).2
  | .remove i q => sets.modify i (ops.remove · q)
  | .extend i states => sets.modify i (ops.extend · states)
  | .union i j => match sets[j]? with
    | none => sets
    | some t => sets.modify i (ops.union · t)

/-- The sets after any calls, when there are none at the start. -/
def run (ops : SetOperations σ) (calls : List SetCall) : List σ := calls.foldl ops.after []

/-- The operations on mathematical sets. -/
def mathematical : SetOperations (Finset State) where
  new := ∅
  withCapacity _ := ∅
  singleton q := {q}
  ofList states := states.toFinset
  insert s q := (decide (q ∉ s), Insert.insert q s)
  remove s q := s.erase q
  extend s states := s ∪ states.toFinset
  union s t := s ∪ t

/-- A kind of set behaves as the mathematical sets of the members. -/
structure Faithful (ops : SetOperations σ) (queries : SetQueries σ) (members : σ → Finset State) : Prop where
  new : members ops.new = ∅
  withCapacity : ∀ n, members (ops.withCapacity n) = ∅
  singleton : ∀ q, members (ops.singleton q) = {q}
  ofList : ∀ states, members (ops.ofList states) = states.toFinset
  insert : ∀ s q, members (ops.insert s q).2 = Insert.insert q (members s)
  absent : ∀ s q, (ops.insert s q).1 = true ↔ q ∉ members s
  remove : ∀ s q, members (ops.remove s q) = (members s).erase q
  extend : ∀ s states, members (ops.extend s states) = members s ∪ states.toFinset
  union : ∀ s t, members (ops.union s t) = members s ∪ members t
  contains : ∀ s q, queries.contains s q = true ↔ q ∈ members s
  isEmpty : ∀ s, queries.isEmpty s = true ↔ members s = ∅
  size : ∀ s, queries.size s = (members s).card
  ascending : ∀ s, (queries.toList s).Pairwise (· < ·)
  mem_toList : ∀ s q, q ∈ queries.toList s ↔ q ∈ members s
  intersects : ∀ s t, queries.intersects s t = true ↔ (members s ∩ members t).Nonempty
  equal : ∀ s t, queries.equal s t = true ↔ members s = members t
  hashed : ∀ s t, queries.hashed s = queries.hashed t ↔ members s = members t

/-! ## Runs of calls -/

theorem map_modify {τ : Type} (g : σ → τ) (f : σ → σ) (f' : τ → τ) (h : ∀ s, g (f s) = f' (g s)) (sets : List σ)
    (i : Nat) : (sets.modify i f).map g = (sets.map g).modify i f' := by
  refine List.ext_getElem? fun k => ?_
  rw [List.getElem?_map, List.getElem?_modify, List.getElem?_modify, List.getElem?_map]
  cases sets[k]? with
  | none => rfl
  | some s => by_cases hk : i = k <;> simp [hk, h]

variable {ops : SetOperations σ} {queries : SetQueries σ} {members : σ → Finset State}

namespace Faithful

/-- What one call does to the members is what it does to mathematical sets. -/
theorem map_members_after (h : Faithful ops queries members) (sets : List σ) (call : SetCall) :
    (ops.after sets call).map members = mathematical.after (sets.map members) call := by
  cases call with
  | new => rw [after, List.map_append, List.map_singleton, h.new, after, mathematical]
  | withCapacity n => rw [after, List.map_append, List.map_singleton, h.withCapacity, after, mathematical]
  | singleton q => rw [after, List.map_append, List.map_singleton, h.singleton, after, mathematical]
  | ofList states => rw [after, List.map_append, List.map_singleton, h.ofList, after, mathematical]
  | clone i => rw [after, after, List.map_append, List.getElem?_map, Option.toList_map]
  | insert i q => exact map_modify members _ _ (h.insert · q) sets i
  | remove i q => exact map_modify members _ _ (h.remove · q) sets i
  | extend i states => exact map_modify members _ _ (h.extend · states) sets i
  | union i j =>
    rw [after, after, List.getElem?_map]
    cases sets[j]? with
    | none => rfl
    | some t => exact map_modify members _ _ (h.union · t) sets i

/-- The members of the sets that any calls lead to are the mathematical sets that the calls lead to. -/
theorem map_members_run (h : Faithful ops queries members) (calls : List SetCall) :
    (ops.run calls).map members = mathematical.run calls := by
  suffices hfrom : ∀ sets,
      (calls.foldl ops.after sets).map members = calls.foldl mathematical.after (sets.map members) from hfrom []
  induction calls with
  | nil => exact fun _ => rfl
  | cons call calls ih =>
    intro sets
    rw [List.foldl_cons, ih, h.map_members_after, List.foldl_cons]

theorem toList_eq_sort (h : Faithful ops queries members) (s : σ) :
    queries.toList s = (members s).sort (· ≤ ·) :=
  List.Pairwise.eq_of_mem_iff (h.ascending s) (Finset.sortedLT_sort _).pairwise fun q => by
    rw [h.mem_toList, Finset.mem_sort]

/-- Two faithful kinds list the same members after the same calls. -/
theorem map_toList_run {τ : Type} {ops' : SetOperations τ} {queries' : SetQueries τ} {members' : τ → Finset State}
    (h : Faithful ops queries members) (h' : Faithful ops' queries' members') (calls : List SetCall) :
    (ops.run calls).map queries.toList = (ops'.run calls).map queries'.toList := by
  have hsort : queries.toList = (Finset.sort · (· ≤ ·)) ∘ members := funext h.toList_eq_sort
  have hsort' : queries'.toList = (Finset.sort · (· ≤ ·)) ∘ members' := funext h'.toList_eq_sort
  rw [hsort, hsort', ← List.map_map, ← List.map_map, h.map_members_run, h'.map_members_run]

end Faithful

end SetOperations

open SetOperations

/-! ## Rows of bits -/

namespace GrowableSet

def operations : SetOperations GrowableSet := ⟨new, withCapacity, singleton, ofList, insert, remove, extend, union⟩

/-- Sets are compared by their members, and it is the members that are hashed. -/
def queries : SetQueries GrowableSet where
  contains := contains
  isEmpty := isEmpty
  size := size
  toList := toList
  intersects := intersects
  equal s t := s.toList == t.toList
  hashed := toList

theorem size_eq_card (s : GrowableSet) : s.size = s.members.card := by
  have hmembers : s.members = s.toList.toFinset := by
    ext q
    rw [List.mem_toFinset, mem_toList]
  rw [hmembers, List.toFinset_card_of_nodup (s.sorted_toList.imp Nat.ne_of_lt), length_toList]

theorem toList_eq_iff (s t : GrowableSet) : s.toList = t.toList ↔ s.members = t.members := by
  refine ⟨fun h => ?_, fun h => ?_⟩
  · ext q
    rw [← mem_toList, h, mem_toList]
  · exact List.Pairwise.eq_of_mem_iff s.sorted_toList t.sorted_toList fun q => by rw [mem_toList, mem_toList, h]

theorem faithful : Faithful operations queries members where
  new := members_withCapacity 0
  withCapacity := members_withCapacity
  singleton := members_singleton
  ofList states := by
    have hextend := members_extend new states
    rwa [new, members_withCapacity, Finset.empty_union] at hextend
  insert := members_insert
  absent s q := by rw [operations, (insert_spec s q).1, Bool.not_eq_true', mem_members, Bool.not_eq_true]
  remove := members_remove
  extend := members_extend
  union := members_union
  contains _ _ := contains_iff
  isEmpty _ := isEmpty_iff
  size := size_eq_card
  ascending := sorted_toList
  mem_toList _ _ := mem_toList
  intersects _ _ := intersects_iff
  equal s t := beq_iff_eq.trans (toList_eq_iff s t)
  hashed := toList_eq_iff

end GrowableSet

/-! ## Canonical blocks -/

namespace StateSet

/-- The members, as a mathematical set. -/
def members (s : StateSet) : Finset State := s.toList.toFinset

/-- A set has room for every state, so it makes no difference how much of it is asked for. -/
def operations : SetOperations StateSet where
  new := ∅
  withCapacity _ := ∅
  singleton q := {q}
  ofList := ofList
  insert s q := (!s.contains q, s.insert q)
  remove := erase
  extend s states := s ∪ ofList states
  union s t := s ∪ t

def queries : SetQueries StateSet where
  contains := contains
  isEmpty := isEmpty
  size := size
  toList := toList
  intersects := intersects
  equal s t := s == t
  hashed := toList

example (s : StateSet) : hash s = hash (queries.hashed s) := rfl

theorem mem_members {s : StateSet} {q : State} : q ∈ s.members ↔ q ∈ s := by
  rw [members, List.mem_toFinset, mem_toList]

theorem members_eq_iff {s t : StateSet} : s.members = t.members ↔ s = t := by
  refine ⟨fun h => ext fun q => ?_, congrArg _⟩
  rw [← mem_members, h, mem_members]

theorem toList_eq_iff {s t : StateSet} : s.toList = t.toList ↔ s = t := by
  refine ⟨fun h => ext fun q => ?_, congrArg _⟩
  rw [← mem_toList, h, mem_toList]

theorem members_eq_empty_iff {s : StateSet} : s.members = ∅ ↔ s.isEmpty = true := by
  rw [Finset.eq_empty_iff_forall_notMem, isEmpty_iff]
  simp only [mem_members]

theorem members_eq_iff_forall {s : StateSet} {f : Finset State} : s.members = f ↔ ∀ q, q ∈ s ↔ q ∈ f := by
  rw [Finset.ext_iff]
  simp only [mem_members]

theorem faithful : Faithful operations queries members where
  new := members_eq_iff_forall.2 fun q => by simp [operations]
  withCapacity _ := members_eq_iff_forall.2 fun q => by simp [operations]
  singleton p := members_eq_iff_forall.2 fun q => by simp [operations]
  ofList states := members_eq_iff_forall.2 fun q => by simp [operations]
  insert s p := members_eq_iff_forall.2 fun q => by simp [operations, mem_members]
  absent s q := by rw [operations, Bool.not_eq_true', ← Bool.not_eq_true, contains_iff, mem_members]
  remove s p := members_eq_iff_forall.2 fun q => by simp [operations, mem_members]
  extend s states := members_eq_iff_forall.2 fun q => by simp [operations, mem_members]
  union s t := members_eq_iff_forall.2 fun q => by simp [operations, mem_members]
  contains _ _ := mem_members.symm
  isEmpty _ := members_eq_empty_iff.symm
  size s := (List.toFinset_card_of_nodup s.nodup_toList).symm
  ascending := sorted_toList
  mem_toList _ _ := mem_toList.trans mem_members.symm
  intersects s t := by
    refine (intersects_iff s t).trans (exists_congr fun q => ?_)
    rw [Finset.mem_inter, mem_members, mem_members]
  equal _ _ := beq_iff_eq.trans members_eq_iff.symm
  hashed _ _ := toList_eq_iff.trans members_eq_iff.symm

/-- The sets that calls lead to as canonical blocks list the members that the rows of bits list. -/
theorem map_toList_run_eq (calls : List SetCall) :
    (operations.run calls).map toList = (GrowableSet.operations.run calls).map GrowableSet.toList :=
  faithful.map_toList_run GrowableSet.faithful calls

end StateSet

/-- Whatever calls are made on any number of sets, in rows of bits that grow as in canonical blocks, the members of each
set are the mathematical set that the calls lead to, and all that can be asked about sets is answered by the members. -/
theorem members_of_calls :
    (∀ calls, (StateSet.operations.run calls).map StateSet.members = mathematical.run calls) ∧
      Faithful StateSet.operations StateSet.queries StateSet.members ∧
      (∀ calls, (GrowableSet.operations.run calls).map GrowableSet.members = mathematical.run calls) ∧
      Faithful GrowableSet.operations GrowableSet.queries GrowableSet.members :=
  ⟨StateSet.faithful.map_members_run, StateSet.faithful, GrowableSet.faithful.map_members_run, GrowableSet.faithful⟩

end PatternAutomata
