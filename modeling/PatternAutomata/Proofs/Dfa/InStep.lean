/-
The subset automaton in step with the simulation, and out of step.

As long as each discovered set has an identifier of its own, the subset automaton reads every word in step with the
simulation (`toDfa_in_step`). With more sets it does not: the set whose place comes behind the last identifier shares the
state 0 with the set that the reading starts from, and makes it accept (`acceptsWord_nil_toDfa`).

It takes few states to come to so many sets. An automaton that collects the characters it reads is in a different set for
each selection of them (`length_subsets_collector`), so 32 characters are enough to put it out of step.
-/
import Mathlib.Data.Finset.Powerset
import PatternAutomata.Proofs.Nfa.Direct

namespace PatternAutomata.Nfa

/-! ## More sets than identifiers -/

/-- If every set but the first accepts and there are more of them than identifiers, the state 0 accepts. -/
theorem acceptsWord_nil_toDfa (m : Nfa) (hcount : 2 ^ 32 < m.withoutEpsilon.subsets.length)
    (haccepts : ∀ s ∈ m.withoutEpsilon.subsets, s ≠ {m.initial} → s.intersects m.directAccepts = true) :
    m.toDfa.acceptsWord [] = true := by
  have hplace : m.withoutEpsilon.subsets[2 ^ 32]? = some m.withoutEpsilon.subsets[2 ^ 32] :=
    List.getElem?_eq_getElem hcount
  have hother : m.withoutEpsilon.subsets[2 ^ 32] ≠ {m.initial} := by
    intro heq
    rw [heq] at hplace
    have hzero := (List.getElem?_inj hcount m.withoutEpsilon.nodup_subsets).1
      (hplace.trans m.withoutEpsilon.getElem?_subsets_zero.symm)
    exact absurd hzero (by decide)
  have hmem : 2 ^ 32 ∈ m.withoutEpsilon.byPlace.accepts :=
    (m.withoutEpsilon.mem_accepts_byPlace _).2 ⟨_, hplace, haccepts _ (List.mem_of_getElem? hplace) hother⟩
  rw [toDfa_eq_determinize]
  show StateSet.contains (.ofList (m.withoutEpsilon.byPlace.accepts.toList.map identifier)) 0 = true
  rw [StateSet.contains_iff, StateSet.mem_ofList]
  exact List.mem_map.2 ⟨2 ^ 32, StateSet.mem_toList.2 hmem, rfl⟩

/-! ## An automaton that collects characters -/

/-- Where the collector goes: the first character leads from the state 0 to the state 1, which every character leaves
where it is and adds the state of its code to, and codes stay. -/
def collected (first : Char) (q : State) : Symbol → Option StateSet
  | .char c =>
    if q = 0 then if c = first then some {1} else none
    else if q = 1 then some (.ofList [1, c.toNat])
    else some {q}
  | .epsilon => none

/-- The automaton that collects the characters it reads, behind the first one. -/
def collector (first : Char) (others : List Char) : Nfa where
  initial := 0
  accepts := {1}
  rules :=
    tabulate ((0 :: 1 :: (first :: others).map Char.toNat).flatMap fun q => (first :: others).map fun c => (q, .char c))
      fun (q, a) => collected first q a

section Collector

variable {first : Char} {others : List Char}

theorem getElem?_rules_collector_eq_some_iff (q : State) (a : Symbol) (s : StateSet) :
    (collector first others).rules[(q, a)]? = some s ↔
      ((q = 0 ∨ q = 1 ∨ ∃ d ∈ first :: others, d.toNat = q) ∧ ∃ c ∈ first :: others, Symbol.char c = a) ∧
        collected first q a = some s := by
  have hrule : (collector first others).rules[(q, a)]? = _ :=
    getElem?_tabulate ((0 :: 1 :: (first :: others).map Char.toNat).flatMap fun q =>
      (first :: others).map fun c => (q, Symbol.char c)) (fun key => collected first key.1 key.2) (q, a)
  rw [hrule, Option.ite_none_right_eq_some]
  refine and_congr_left fun _ => ?_
  simp only [List.mem_flatMap, List.mem_map, Prod.mk.injEq]
  grind

/-- The codes differ from the states 0 and 1, so each state has the rules that were meant for it. -/
theorem mem_destinations_collector (hcodes : ∀ c ∈ first :: others, 1 < c.toNat) (q : State) (c : Char) (p : State) :
    p ∈ (collector first others).rules.destinations q (.char c) ↔ c ∈ first :: others ∧
      (q = 0 ∧ c = first ∧ p = 1 ∨ q = 1 ∧ (p = 1 ∨ p = c.toNat) ∨ (∃ d ∈ first :: others, d.toNat = q) ∧ p = q) := by
  have hsome : p ∈ (collector first others).rules.destinations q (.char c) ↔
      ∃ s, (collector first others).rules[(q, Symbol.char c)]? = some s ∧ p ∈ s := by
    rw [Rules.destinations]
    cases (collector first others).rules[(q, Symbol.char c)]? <;> simp
  have hne : ∀ d ∈ first :: others, d.toNat ≠ 0 ∧ d.toNat ≠ 1 := fun d hd => by
    have := hcodes d hd
    omega
  rw [hsome]
  simp only [getElem?_rules_collector_eq_some_iff, collected, Symbol.char.injEq, exists_eq_right]
  rcases Nat.lt_trichotomy q 1 with hq | rfl | hq
  · grind [StateSet.mem_singleton]
  · grind [StateSet.mem_ofList]
  · grind [StateSet.mem_singleton]

theorem exists_mem_of_collected {q : State} {a : Symbol} {s : StateSet} (h : collected first q a = some s) :
    ∃ p, p ∈ s := by
  cases a with
  | epsilon => cases h
  | char c =>
    rw [collected] at h
    split_ifs at h
    · exact ⟨1, Option.some.inj h ▸ StateSet.mem_singleton.2 rfl⟩
    · exact ⟨1, Option.some.inj h ▸ (StateSet.mem_ofList ..).2 List.mem_cons_self⟩
    · exact ⟨q, Option.some.inj h ▸ StateSet.mem_singleton.2 rfl⟩

theorem direct_collector : (collector first others).Direct where
  hasEpsilon := by
    rw [Rules.hasEpsilon_eq_false_iff]
    intro q
    cases hrule : (collector first others).rules[(q, Symbol.epsilon)]? with
    | none => rfl
    | some s => cases ((getElem?_rules_collector_eq_some_iff q .epsilon s).1 hrule).2
  nonempty key hkey := by
    obtain ⟨q, a⟩ := key
    obtain ⟨-, hcollected⟩ := (getElem?_rules_collector_eq_some_iff q a ∅).1 hkey
    obtain ⟨p, hp⟩ := exists_mem_of_collected hcollected
    exact StateSet.not_mem_empty p hp

/-- The set of the codes of some characters, with the state 1. -/
def codes (collected : List Char) : StateSet := .ofList (1 :: collected.map Char.toNat)

theorem mem_codes_iff (collected : List Char) (q : State) :
    q ∈ codes collected ↔ q = 1 ∨ ∃ d ∈ collected, d.toNat = q := by
  rw [codes, StateSet.mem_ofList, List.mem_cons, List.mem_map]

theorem move_initial_collector (hcodes : ∀ c ∈ first :: others, 1 < c.toNat) (c : Char) :
    (collector first others).move {0} c = if c = first then codes [] else ∅ := by
  refine StateSet.ext fun p => ?_
  rw [mem_move_iff]
  simp only [StateSet.mem_singleton, exists_eq_left, mem_destinations_collector hcodes]
  grind [mem_codes_iff, StateSet.not_mem_empty]

/-- A character is collected. -/
theorem move_codes (hcodes : ∀ c ∈ first :: others, 1 < c.toNat) {collected : List Char}
    (hcollected : ∀ c ∈ collected, c ∈ first :: others) (c : Char) :
    (collector first others).move (codes collected) c =
      if c ∈ first :: others then codes (c :: collected) else ∅ := by
  refine StateSet.ext fun p => ?_
  rw [mem_move_iff]
  simp only [mem_destinations_collector hcodes, mem_codes_iff]
  by_cases hc : c ∈ first :: others
  · rw [if_pos hc, mem_codes_iff]
    refine ⟨by grind, fun h => ?_⟩
    rcases h with rfl | ⟨d, hd, rfl⟩
    · exact ⟨1, Or.inl rfl, hc, Or.inr (Or.inl ⟨rfl, Or.inl rfl⟩)⟩
    · rcases List.mem_cons.1 hd with rfl | hd
      · exact ⟨1, Or.inl rfl, hc, Or.inr (Or.inl ⟨rfl, Or.inr rfl⟩)⟩
      · exact ⟨d.toNat, Or.inr ⟨d, hd, rfl⟩, hc, Or.inr (Or.inr ⟨⟨d, hcollected d hd, rfl⟩, rfl⟩)⟩
  · grind [StateSet.not_mem_empty]

/-- The sets that are met are the first one and those of codes. -/
theorem mem_subsets_collector_iff (hcodes : ∀ c ∈ first :: others, 1 < c.toNat) (s : StateSet) :
    s ∈ (collector first others).subsets ↔
      s = {0} ∨ ∃ collected, (∀ c ∈ collected, c ∈ first :: others) ∧ codes collected = s := by
  have hmem : ∀ collected, (codes collected).isEmpty = false := fun collected =>
    (StateSet.isEmpty_eq_false_iff _).2 ⟨1, (mem_codes_iff ..).2 (Or.inl rfl)⟩
  rw [mem_subsets_iff]
  refine ⟨fun h => ?_, fun h => ?_⟩
  · induction h with
    | refl => exact Or.inl rfl
    | tail _ hstep ih =>
      obtain ⟨hne, c, rfl⟩ := hstep
      right
      rcases ih with rfl | ⟨collected, hcollected, rfl⟩
      · rw [move_initial_collector hcodes] at hne ⊢
        split at hne
        · exact ⟨[], fun c hc => absurd hc List.not_mem_nil, (if_pos ‹_›).symm⟩
        · cases hne
      · rw [move_codes hcodes hcollected] at hne ⊢
        split at hne
        · exact ⟨c :: collected, List.forall_mem_cons.2 ⟨‹_›, hcollected⟩, (if_pos ‹_›).symm⟩
        · cases hne
  · rcases h with rfl | ⟨collected, hcollected, rfl⟩
    · exact .refl
    · induction collected with
      | nil => exact Reaches.refl.tail ⟨hmem [], first, (move_initial_collector hcodes first).trans (if_pos rfl)⟩
      | cons c collected ih =>
        obtain ⟨hc, hrest⟩ := List.forall_mem_cons.1 hcollected
        exact (ih hrest).tail ⟨hmem _, c, (move_codes hcodes hrest c).trans (if_pos hc)⟩

theorem singleton_zero_ne_codes (collected : List Char) : ({0} : StateSet) ≠ codes collected := fun h => by
  have hone : (1 : Nat) ∈ ({0} : StateSet) := h ▸ (mem_codes_iff collected 1).2 (Or.inl rfl)
  cases StateSet.mem_singleton.1 hone

theorem mem_of_codes_eq (hcodes : ∀ c ∈ first :: others, 1 < c.toNat) {collected collected' : List Char}
    (hcollected : ∀ c ∈ collected, c ∈ first :: others) (heq : codes collected = codes collected') {c : Char}
    (hc : c ∈ collected) : c ∈ collected' := by
  have hmem : c.toNat ∈ codes collected' := heq ▸ (mem_codes_iff ..).2 (Or.inr ⟨c, hc, rfl⟩)
  rcases (mem_codes_iff ..).1 hmem with hone | ⟨d, hd, hcode⟩
  · exact absurd hone (Nat.ne_of_gt (hcodes c (hcollected c hc)))
  · exact Char.toNat_inj.1 hcode ▸ hd

/-- **Collecting.** There is a set for each selection of the characters, and the first one. -/
theorem length_subsets_collector (hcodes : ∀ c ∈ first :: others, 1 < c.toNat) (hnodup : (first :: others).Nodup) :
    (collector first others).subsets.length = 2 ^ (first :: others).length + 1 := by
  let selections := (first :: others).toFinset.powerset
  have hselection : ∀ T ∈ selections, ∀ c ∈ T.toList, c ∈ first :: others := fun T hT c hc =>
    List.mem_toFinset.1 (Finset.mem_powerset.1 hT (Finset.mem_toList.1 hc))
  have hsets : (collector first others).subsets.toFinset = insert {0} (selections.image fun T => codes T.toList) := by
    ext s
    rw [List.mem_toFinset, mem_subsets_collector_iff hcodes, Finset.mem_insert, Finset.mem_image]
    refine or_congr_right ⟨fun h => ?_, fun h => ?_⟩
    · obtain ⟨collected, hcollected, rfl⟩ := h
      refine ⟨collected.toFinset, Finset.mem_powerset.2 fun c hc => ?_, StateSet.ext fun q => ?_⟩
      · exact List.mem_toFinset.2 (hcollected c (List.mem_toFinset.1 hc))
      · simp only [mem_codes_iff, Finset.mem_toList, List.mem_toFinset]
    · obtain ⟨T, hT, rfl⟩ := h
      exact ⟨T.toList, hselection T hT, rfl⟩
  have hinjective : Set.InjOn (fun T : Finset Char => codes T.toList) selections := by
    intro T hT T' hT' heq
    ext c
    rw [← Finset.mem_toList, ← Finset.mem_toList]
    exact ⟨mem_of_codes_eq hcodes (hselection T hT) heq, mem_of_codes_eq hcodes (hselection T' hT') heq.symm⟩
  have hfirst : ({0} : StateSet) ∉ selections.image fun T => codes T.toList := by
    intro hmem
    obtain ⟨T, -, heq⟩ := Finset.mem_image.1 hmem
    exact singleton_zero_ne_codes _ heq.symm
  rw [← List.toFinset_card_of_nodup (collector first others).nodup_subsets, hsets, Finset.card_insert_of_notMem hfirst,
    Finset.card_image_of_injOn hinjective, Finset.card_powerset, List.toFinset_card_of_nodup hnodup]

/-- The codes of small letters and of digits are no numbers of other states. -/
theorem one_lt_toNat_of_mem_letters : ∀ c ∈ 'a' :: "bcdefghijklmnopqrstuvwxyz012345".toList, 1 < c.toNat := by
  have hall : ('a' :: "bcdefghijklmnopqrstuvwxyz012345".toList).all (1 < ·.toNat) = true := by decide +kernel
  exact fun c hc => of_decide_eq_true (List.all_eq_true.1 hall c hc)

end Collector

/-- **In step.** As long as each set has an identifier, the subset automaton gives the answers of the simulation, stops
in front of a character exactly where the simulation is left without states, and is in the same state after two words
exactly if the simulation is in the same states after them. -/
theorem toDfa_in_step (m : Nfa) (hcount : m.withoutEpsilon.subsets.length ≤ 2 ^ 32) :
    (∀ w, (m.toDfa.cursor.matchWord w).1 = m.acceptsWord w) ∧
    (∀ u c rest, (m.toDfa.read m.toDfa.initial (u ++ c :: rest)).unread = c :: rest ↔
      (m.statesAfter u).isEmpty = false ∧ (m.statesAfter (u ++ [c])).isEmpty = true) ∧
    ∀ u v, u ≠ [] → v ≠ [] → (m.toDfa.read m.toDfa.initial u).unread = [] →
      (m.toDfa.read m.toDfa.initial v).unread = [] →
      ((m.toDfa.read m.toDfa.initial u).state = (m.toDfa.read m.toDfa.initial v).state ↔
        m.statesAfter u = m.statesAfter v) := by
  refine ⟨m.acceptsWord_toDfa hcount, m.unread_toDfa_iff hcount, fun u v hu hv hreadu hreadv => ?_⟩
  have hplaceu := m.subsets_state_toDfa hcount u hreadu
  have hplacev := m.subsets_state_toDfa hcount v hreadv
  rw [subsetAfter, m.foldl_move_withoutEpsilon u hu] at hplaceu
  rw [subsetAfter, m.foldl_move_withoutEpsilon v hv] at hplacev
  refine ⟨?_, ?_⟩
  · intro heq
    rw [heq, hplacev] at hplaceu
    exact (Option.some.inj hplaceu).symm
  · intro heq
    rw [heq, ← hplacev] at hplaceu
    have hlt := (List.getElem?_eq_some_iff.1 (hplaceu.trans hplacev)).1
    exact (List.getElem?_inj hlt m.withoutEpsilon.nodup_subsets).1 hplaceu

/-- An automaton that loops on `a` ends in the same state after one `a` and after two. -/
theorem toDfa_in_step_loop :
    let m : Nfa := ⟨(0 : Nat), .ofList [0], (∅ : Nfa.Rules).add (0 : Nat) (.char 'a') (0 : Nat)⟩
    m.withoutEpsilon.subsets.length ≤ 2 ^ 32 ∧ (['a'] ≠ [] ∧ (m.toDfa.read m.toDfa.initial ['a']).unread = []) ∧
      (['a', 'a'] ≠ [] ∧ (m.toDfa.read m.toDfa.initial ['a', 'a']).unread = []) ∧
      ((m.toDfa.read m.toDfa.initial ['a']).state = (m.toDfa.read m.toDfa.initial ['a', 'a']).state ↔
        m.statesAfter ['a'] = m.statesAfter ['a', 'a']) := by
  intro m
  have hcount : m.withoutEpsilon.subsets.length ≤ 2 ^ 32 := m.withoutEpsilon.length_subsets_le.trans (by decide +kernel)
  have hstep : m.initial ∈ m.rules.destinations m.initial (.char 'a') :=
    (Rules.mem_destinations_add ..).2 (Or.inr ⟨rfl, rfl, rfl⟩)
  have hinitial : m.initial ∈ m.accepts := by decide +kernel
  have hone : m.acceptsWord ['a'] = true :=
    (m.acceptsWord_iff_mem_language _).2 ⟨m.initial, hinitial, .read hstep (.refl _)⟩
  have htwo : m.acceptsWord ['a', 'a'] = true :=
    (m.acceptsWord_iff_mem_language _).2 ⟨m.initial, hinitial, .read hstep (.read hstep (.refl _))⟩
  have hreadone := m.unread_toDfa_of_acceptsWord hcount ['a'] hone
  have hreadtwo := m.unread_toDfa_of_acceptsWord hcount ['a', 'a'] htwo
  exact ⟨hcount, ⟨by decide, hreadone⟩, ⟨by decide, hreadtwo⟩,
    (toDfa_in_step m hcount).2.2 ['a'] ['a', 'a'] (by decide) (by decide) hreadone hreadtwo⟩

/-- The collector of 32 characters is out of step: the simulation does not accept the empty word, but the subset
automaton does. -/
theorem toDfa_out_of_step :
    let m := collector 'a' "bcdefghijklmnopqrstuvwxyz012345".toList
    m.withoutEpsilon.subsets.length = 2 ^ 32 + 1 ∧ m.acceptsWord [] = false ∧
      (m.toDfa.cursor.matchWord []).1 = true ∧ ¬ ∀ w, (m.toDfa.cursor.matchWord w).1 = m.acceptsWord w := by
  intro m
  have hcodes := one_lt_toNat_of_mem_letters
  have hdirect : m.withoutEpsilon = m := withoutEpsilon_eq_self direct_collector
  have hcount : m.withoutEpsilon.subsets.length = 2 ^ 32 + 1 := by
    rw [hdirect]
    exact length_subsets_collector hcodes (by decide +kernel)
  have haccepts : m.directAccepts = {1} := congrArg Nfa.accepts hdirect
  have hsimulation : m.acceptsWord [] = false := by
    rw [← intersects_subsetAfter, haccepts]
    show ({0} : StateSet).intersects {1} = false
    decide
  have haccepted : m.toDfa.acceptsWord [] = true := by
    refine m.acceptsWord_nil_toDfa (by rw [hcount]; decide) fun s hs hother => ?_
    rw [hdirect] at hs
    obtain ⟨collected, -, rfl⟩ := ((mem_subsets_collector_iff hcodes s).1 hs).resolve_left hother
    rw [haccepts]
    exact (StateSet.intersects_iff ..).2 ⟨1, (mem_codes_iff ..).2 (Or.inl rfl), StateSet.mem_singleton.2 rfl⟩
  exact ⟨hcount, hsimulation, haccepted, fun h =>
    Bool.false_ne_true (hsimulation.symm.trans ((h []).symm.trans haccepted))⟩

end PatternAutomata.Nfa
