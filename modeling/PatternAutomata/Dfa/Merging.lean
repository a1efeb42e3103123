/-
Merging states that behave alike.

The signature of a state is whether it accepts, and its row. In one pass every state is merged into the least state
with its signature; passes are repeated, because a merge can make further rows equal, until one finds nothing to merge.
States that are alike only through each other, such as two states that lead to one another, keep different rows and are
never merged, so the result need not be the least automaton.

`Dfa.reduce` gives the automaton together with the account of the run: every merge in the order in which it was found,
and the number of passes that merged something. It ends because the states of a pass are among those before it, and the
states merged away are not among them (`size_states_mergePass_lt`).
-/
import PatternAutomata.Tabulation
import PatternAutomata.Dfa.Basic

namespace PatternAutomata.Dfa

/-- What a state shows: whether it accepts, and where each character leads from it. -/
structure Signature where
  accepting : Bool
  row : List (Char × State)
  deriving DecidableEq

/-- The signature of a state. -/
def signature (d : Dfa) (q : State) : Signature := ⟨d.isAccepting q, d.rules.row q⟩

/-- The least state with a signature. -/
def leastWith (d : Dfa) (s : Signature) : Option State := d.states.toList.find? fun q => d.signature q = s

namespace Signature

instance : Ord (Char × State) := ⟨pairOrder⟩

instance : Std.TransOrd (Char × State) := inferInstanceAs (Std.TransCmp pairOrder)

instance : Std.LawfulEqOrd (Char × State) := inferInstanceAs (Std.LawfulEqCmp pairOrder)

/-- Signatures are ordered by acceptance and then by row; the order serves to find them in maps. -/
instance : Ord Signature where
  compare := compareLex (compareOn accepting) (compareOn row)

instance : Std.TransOrd Signature :=
  inferInstanceAs (Std.TransCmp (compareLex (compareOn accepting) (compareOn row)))

instance : Std.LawfulEqOrd Signature where
  compare_self := (inferInstance : Std.ReflCmp (compareLex (compareOn accepting) (compareOn row))).compare_self
  eq_of_compare {s t} h := by
    obtain ⟨h1, h2⟩ := Ordering.then_eq_eq.1
      (show (compare s.accepting t.accepting).then (compare s.row t.row) = .eq from h)
    have h1 := Std.LawfulEqOrd.eq_of_compare h1
    have h2 := Std.LawfulEqOrd.eq_of_compare h2
    cases s
    cases t
    exact mk.injEq .. ▸ ⟨h1, h2⟩

end Signature

/-- The signature of a state, its row looked up among all rows. -/
def signatureIn (d : Dfa) (rows : Std.ExtTreeMap State (List (Char × State))) (q : State) : Signature :=
  ⟨d.isAccepting q, rows[q]?.getD []⟩

/-- The least state with each signature, for states in ascending order with their signatures. -/
def survivors (signed : List (State × Signature)) : Std.ExtTreeMap Signature State :=
  signed.foldr (fun (q, s) found => found.insert s q) ∅

/-- The states that one pass merges away, each with the least state that has its signature. -/
def merging (d : Dfa) : Merging :=
  let rows := d.rules.rows
  let signed := d.states.toList.map fun q => (q, d.signatureIn rows q)
  let survivors := survivors signed
  signed.foldr (fun (q, s) merging => match survivors[s]? with
    | some p => if p = q then merging else merging.insert q p
    | none => merging) ∅

/-- The automaton after the states of a merge have disappeared. -/
def merge (d : Dfa) (into : Merging) : Dfa where
  initial := into.redirect d.initial
  accepts := d.accepts.filter fun q => !into.contains q
  rules := d.rules.mergeStates into

/-- One pass. -/
def mergePass (d : Dfa) : Dfa := d.merge d.merging

/-! ## What is merged -/

theorem signatureIn_rows (d : Dfa) (q : State) : d.signatureIn d.rules.rows q = d.signature q := by
  rw [signatureIn, Rules.getD_getElem?_rows, signature]

/-- The states with their signatures, without the rows they are taken from. -/
theorem signed_eq (d : Dfa) (states : List State) :
    (states.map fun q => (q, d.signatureIn d.rules.rows q)) = states.map fun q => (q, d.signature q) :=
  List.map_congr_left fun q _ => by rw [signatureIn_rows]

theorem getElem?_survivors (d : Dfa) (s : Signature) :
    (survivors (d.states.toList.map fun q => (q, d.signature q)))[s]? = d.leastWith s := by
  rw [survivors, leastWith]
  induction d.states.toList with
  | nil => simp
  | cons q rest ih =>
    rw [List.map_cons, List.foldr_cons, Std.ExtTreeMap.getElem?_insert, ih, List.find?_cons]
    by_cases h : d.signature q = s <;> simp [h]

/-- A state is merged into the least state with its signature, unless it is that state. -/
theorem getElem?_merging (d : Dfa) (q : State) :
    d.merging[q]? = if q ∈ d.states then (d.leastWith (d.signature q)).filter fun p => p ≠ q else none := by
  have fold : ∀ states : List State, ((states.map fun q => (q, d.signature q)).foldr (fun (q, s) merging =>
      match d.leastWith s with
      | some p => if p = q then merging else merging.insert q p
      | none => merging) (∅ : Merging))[q]? =
        if q ∈ states then (d.leastWith (d.signature q)).filter fun p => p ≠ q else none := by
    intro states
    induction states with
    | nil => simp
    | cons a rest ih =>
      rw [List.map_cons, List.foldr_cons]
      by_cases ha : a = q
      · subst ha
        rw [if_pos List.mem_cons_self]
        cases hleast : d.leastWith (d.signature a) with
        | none => simp [ih, hleast]
        | some p => by_cases hp : p = a <;> simp [ih, hleast, hp, Option.filter]
      · have hmem : q ∈ a :: rest ↔ q ∈ rest := by simp [Ne.symm ha]
        simp only [hmem, ← ih]
        cases d.leastWith (d.signature a) with
        | none => rfl
        | some p => by_cases hp : p = a <;> simp [hp, ha, Std.ExtTreeMap.getElem?_insert]
  rw [merging, signed_eq]
  simp only [getElem?_survivors, fold, StateSet.mem_toList]

/-! ## Every pass that merges leaves fewer states -/

theorem leastWith_eq_some (d : Dfa) (s : Signature) (p : State) (h : d.leastWith s = some p) :
    p ∈ d.states ∧ d.signature p = s :=
  ⟨StateSet.mem_toList.1 (List.mem_of_find?_eq_some h), by simpa using List.find?_some h⟩

/-- The state that stands for a merged state has its signature, and is a state that does not disappear. -/
theorem survivor_of_getElem?_merging (d : Dfa) (q p : State) (h : d.merging[q]? = some p) :
    p ∈ d.states ∧ d.signature p = d.signature q ∧ d.merging[p]? = none := by
  rw [getElem?_merging] at h
  split at h
  case isFalse => simp at h
  case isTrue hq =>
    obtain ⟨hleast, -⟩ := Option.filter_eq_some_iff.1 h
    obtain ⟨hmem, hsig⟩ := d.leastWith_eq_some _ p hleast
    refine ⟨hmem, hsig, ?_⟩
    rw [getElem?_merging, if_pos hmem, hsig, hleast]
    simp

theorem redirect_merging (d : Dfa) (q : State) (hq : q ∈ d.states) :
    d.merging.redirect q ∈ d.states ∧ ¬ d.merging.redirect q ∈ d.merging := by
  cases h : d.merging[q]? with
  | none =>
    simp only [Merging.redirect, h, Option.getD_none]
    exact ⟨hq, fun hm => by simp [Std.ExtTreeMap.mem_iff_isSome_getElem?, h] at hm⟩
  | some p =>
    obtain ⟨hp, -, hn⟩ := d.survivor_of_getElem?_merging q p h
    simp only [Merging.redirect, h, Option.getD_some]
    exact ⟨hp, fun hm => by simp [Std.ExtTreeMap.mem_iff_isSome_getElem?, hn] at hm⟩

/-- The states after a pass are states before it that did not disappear. -/
theorem mem_states_mergePass (d : Dfa) (q : State) (hq : q ∈ d.mergePass.states) :
    q ∈ d.states ∧ ¬ q ∈ d.merging := by
  rcases (mem_states _ _).1 hq with rfl | ⟨key, hkey⟩
  · exact d.redirect_merging _ ((d.mem_states _).2 (Or.inl rfl))
  · simp only [mergePass, merge, Rules.getElem?_mergeStates] at hkey
    split at hkey
    · simp at hkey
    · obtain ⟨p, hp, rfl⟩ := Option.map_eq_some_iff.1 hkey
      exact d.redirect_merging _ ((d.mem_states _).2 (Or.inr ⟨key, hp⟩))

theorem size_states_mergePass_lt (d : Dfa) (h : ¬ d.merging.size = 0) :
    d.mergePass.states.size < d.states.size := by
  have : ¬ ∀ q, ¬ q ∈ d.merging := by
    rw [← Std.ExtTreeMap.eq_empty_iff_forall_not_mem]
    exact fun hempty => h (by rw [hempty]; rfl)
  obtain ⟨q, hq⟩ := Classical.not_forall.1 this
  have hq := Classical.not_not.1 hq
  have hstate : q ∈ d.states := by
    rw [Std.ExtTreeMap.mem_iff_isSome_getElem?, getElem?_merging] at hq
    grind
  exact StateSet.size_lt_size _ _ q (fun p hp => (d.mem_states_mergePass p hp).1) hstate
    fun hp => (d.mem_states_mergePass q hp).2 hq

/-! ## Repeated passes -/

/-- The account of a run: the automaton it ends with, the merges in the order in which they were found, each as the
state that disappears and the one that stands for it, and the number of passes that merged something. -/
structure Reduction where
  result : Dfa
  merges : List (State × State)
  passes : Nat
  deriving DecidableEq

/-- Passes repeated until one finds nothing to merge. -/
def reduce (d : Dfa) : Reduction :=
  let merging := d.merging
  if _ : merging.size = 0 then ⟨d, [], 0⟩
  else
    let later := (d.merge merging).reduce
    ⟨later.result, merging.toList ++ later.merges, later.passes + 1⟩
termination_by d.states.size
decreasing_by exact d.size_states_mergePass_lt ‹_›

/-- The automaton with no two states left that show the same signature. -/
def minimize (d : Dfa) : Dfa := d.reduce.result

end PatternAutomata.Dfa
