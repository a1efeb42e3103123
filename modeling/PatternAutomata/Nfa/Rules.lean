/-
The rules of a nondeterministic automaton.

A rule map takes a key, which is a state and a symbol, to the set of states that the symbol may lead to. A key may be
present with no destination: it leads nowhere, but it counts as a key and its state and character are mentioned by the
map. Maps with the same keys and the same destinations at each key are equal, in whatever order they were built.
-/
import Std.Data.ExtTreeSet
import PatternAutomata.StateSet.Basic
import PatternAutomata.Symbol

namespace PatternAutomata

/-- For each key, the states that its symbol may lead to from its state. -/
abbrev Nfa.Rules := Std.ExtTreeMap (State × Symbol) StateSet pairOrder

namespace Nfa.Rules

/-- Where a symbol may lead from a state: nowhere if there is no such key. -/
def destinations (rules : Rules) (q : State) (a : Symbol) : StateSet := rules[(q, a)]?.getD ∅

/-- Adds destinations at a key; the key is present afterwards even if there are none. -/
def addAll (rules : Rules) (q : State) (a : Symbol) (states : StateSet) : Rules :=
  rules.insert (q, a) (rules.destinations q a ∪ states)

/-- Adds one destination at a key. -/
def add (rules : Rules) (q : State) (a : Symbol) (p : State) : Rules := rules.addAll q a {p}

/-- Adds the same symbol and destination to every state of a set. -/
def addFrom (rules : Rules) (sources : StateSet) (a : Symbol) (p : State) : Rules :=
  sources.toList.foldl (fun rules q => rules.add q a p) rules

/-- Adds everything in the second map to the first: the keys of both, each with the destinations that either map gives
it. -/
def merge (left right : Rules) : Rules :=
  right.toList.foldl (fun rules ((q, a), states) => rules.addAll q a states) left

/-- Every single arrow, by source, symbol and destination. -/
def transitions (rules : Rules) : List (State × Symbol × State) :=
  rules.toList.flatMap fun ((q, a), states) => states.toList.map fun p => (q, a, p)

/-- Every state that is a source or a destination. -/
def states (rules : Rules) : StateSet :=
  rules.toList.foldr (fun ((q, _), states) all => states ∪ all.insert q) ∅

/-- The characters of the keys, ascending. -/
def alphabet (rules : Rules) : List Char :=
  (Std.ExtTreeSet.ofList (rules.keys.filterMap fun (_, a) => a.char?)).toList

/-- Whether some key reads nothing. -/
def hasEpsilon (rules : Rules) : Bool := rules.keys.any fun (_, a) => a.isEpsilon

/-- One line for each key, in the order of the keys. -/
def text (rules : Rules) : String :=
  "\n".intercalate (rules.toList.map fun ((q, a), states) =>
    State.name q ++ "\t--['" ++ a.text ++ "']-->\t" ++ StateSet.text states)

/-! ## What the operations do to a look-up -/

theorem getElem?_addAll (rules : Rules) (q : State) (a : Symbol) (states : StateSet) (key : State × Symbol) :
    (rules.addAll q a states)[key]? =
      if (q, a) = key then some (rules.destinations q a ∪ states) else rules[key]? := by
  by_cases h : (q, a) = key
  · subst h; simp [addAll]
  · simp [addAll, Std.ExtTreeMap.getElem?_insert, h]

theorem destinations_addAll_of_ne (rules : Rules) (q : State) (a : Symbol) (states : StateSet) (key : State × Symbol)
    (h : ¬ (q, a) = key) : (rules.addAll q a states).destinations key.1 key.2 = rules.destinations key.1 key.2 := by
  simp [destinations, getElem?_addAll, h]

theorem getElem?_merge (left right : Rules) (key : State × Symbol) :
    (left.merge right)[key]? =
      match right[key]? with
      | some states => some (left.destinations key.1 key.2 ∪ states)
      | none => left[key]? := by
  have fold : ∀ (entries : List ((State × Symbol) × StateSet)) (rules : Rules),
      (entries.Pairwise fun x y => ¬ x.1 = y.1) →
      (∀ states, (key, states) ∈ entries →
        (entries.foldl (fun rules ((q, a), states) => rules.addAll q a states) rules)[key]? =
          some (rules.destinations key.1 key.2 ∪ states)) ∧
      ((∀ states, (key, states) ∉ entries) →
        (entries.foldl (fun rules ((q, a), states) => rules.addAll q a states) rules)[key]? = rules[key]?) := by
    intro entries
    induction entries with
    | nil => simp
    | cons entry entries ih =>
      intro rules hpair
      obtain ⟨⟨q, a⟩, first⟩ := entry
      obtain ⟨hhead, htail⟩ := List.pairwise_cons.1 hpair
      obtain ⟨ih1, ih2⟩ := ih (rules.addAll q a first) htail
      rw [List.foldl_cons]
      by_cases hkey : (q, a) = key
      · have habsent : ∀ states, (key, states) ∉ entries := fun states hs => hhead _ hs hkey
        refine ⟨fun states hs => ?_, fun hno => absurd (hkey ▸ List.mem_cons_self) (hno first)⟩
        rcases List.mem_cons.1 hs with h | h
        · rw [ih2 habsent, getElem?_addAll, if_pos hkey]
          cases h
          rfl
        · exact absurd h (habsent states)
      · refine ⟨fun states hs => ?_, fun hno => ?_⟩
        · rcases List.mem_cons.1 hs with h | h
          · exact absurd (congrArg Prod.fst h).symm hkey
          · rw [ih1 states h, destinations_addAll_of_ne _ _ _ _ _ hkey]
        · rw [ih2 fun states hs => hno states (List.mem_cons_of_mem _ hs), getElem?_addAll, if_neg hkey]
  have hpair : right.toList.Pairwise fun x y => ¬ x.1 = y.1 :=
    Std.ExtTreeMap.distinct_keys_toList.imp fun {x y} h heq => h (by rw [heq]; exact Std.ReflCmp.compare_self)
  obtain ⟨hsome, hnone⟩ := fold right.toList left hpair
  rw [merge]
  cases h : right[key]? with
  | some states => exact hsome states (Std.ExtTreeMap.mem_toList_iff_getElem?_eq_some.2 h)
  | none => exact hnone fun states hs => by simp [Std.ExtTreeMap.mem_toList_iff_getElem?_eq_some.1 hs] at h

theorem mem_states (rules : Rules) (x : State) :
    x ∈ rules.states ↔ ∃ (key : State × Symbol) (states : StateSet),
      rules[key]? = some states ∧ (x = key.1 ∨ x ∈ states) := by
  have fold : ∀ entries : List ((State × Symbol) × StateSet),
      x ∈ entries.foldr (fun ((q, _), states) all => states ∪ all.insert q) (∅ : StateSet) ↔
        ∃ entry ∈ entries, x = entry.1.1 ∨ x ∈ entry.2 := by
    intro entries
    induction entries with
    | nil => simp
    | cons entry entries ih =>
      simp only [List.foldr_cons, StateSet.mem_union, StateSet.mem_insert, ih, List.mem_cons, exists_eq_or_imp]
      grind
  rw [Rules.states, fold]
  simp only [Std.ExtTreeMap.mem_toList_iff_getElem?_eq_some, Prod.exists]

/-! ## What the operations do to the destinations and to the states -/

theorem not_mem_destinations_empty (q : State) (a : Symbol) (p : State) : ¬ p ∈ (∅ : Rules).destinations q a := by
  simp [destinations]

theorem not_mem_states_empty (x : State) : ¬ x ∈ (∅ : Rules).states := by
  rw [mem_states]
  intro h
  obtain ⟨key, states, hkey, -⟩ := h
  simp at hkey

theorem mem_destinations_addAll (rules : Rules) (q : State) (a : Symbol) (states : StateSet) (r : State) (b : Symbol)
    (p : State) :
    p ∈ (rules.addAll q a states).destinations r b ↔ p ∈ rules.destinations r b ∨ (r = q ∧ b = a ∧ p ∈ states) := by
  rw [destinations, getElem?_addAll]
  by_cases h : (q, a) = (r, b)
  · obtain ⟨rfl, rfl⟩ := Prod.mk.inj h
    simp
  · have hne : ¬ (r = q ∧ b = a) := fun ⟨h1, h2⟩ => h (by rw [h1, h2])
    rw [if_neg h, ← destinations.eq_def]
    exact ⟨Or.inl, fun hp => hp.resolve_right fun ⟨h1, h2, _⟩ => hne ⟨h1, h2⟩⟩

theorem mem_destinations_add (rules : Rules) (q : State) (a : Symbol) (t r : State) (b : Symbol) (p : State) :
    p ∈ (rules.add q a t).destinations r b ↔ p ∈ rules.destinations r b ∨ (r = q ∧ b = a ∧ p = t) := by
  rw [add, mem_destinations_addAll, StateSet.mem_singleton]

theorem mem_destinations_addFrom (rules : Rules) (sources : StateSet) (a : Symbol) (t r : State) (b : Symbol)
    (p : State) :
    p ∈ (rules.addFrom sources a t).destinations r b ↔
      p ∈ rules.destinations r b ∨ (r ∈ sources ∧ b = a ∧ p = t) := by
  have fold : ∀ (l : List State) (rules : Rules),
      p ∈ destinations (l.foldl (fun rules q => Rules.add rules q a t) rules) r b ↔
        p ∈ rules.destinations r b ∨ (r ∈ l ∧ b = a ∧ p = t) := by
    intro l
    induction l with
    | nil => simp
    | cons q l ih =>
      intro rules
      rw [List.foldl_cons, ih, mem_destinations_add, List.mem_cons]
      grind
  rw [addFrom, fold, StateSet.mem_toList]

theorem mem_destinations_merge (left right : Rules) (r : State) (b : Symbol) (p : State) :
    p ∈ (left.merge right).destinations r b ↔ p ∈ left.destinations r b ∨ p ∈ right.destinations r b := by
  rw [destinations, getElem?_merge, destinations.eq_def right]
  cases right[(r, b)]? with
  | some states => rw [Option.getD_some, Option.getD_some, StateSet.mem_union]
  | none => simp [destinations]

theorem mem_states_addAll (rules : Rules) (q : State) (a : Symbol) (states : StateSet) (x : State) :
    x ∈ (rules.addAll q a states).states ↔ x ∈ rules.states ∨ x = q ∨ x ∈ states := by
  simp only [mem_states, getElem?_addAll]
  refine ⟨?_, ?_⟩
  · intro h
    obtain ⟨key, found, hfound, hx⟩ := h
    split at hfound
    · rename_i hkey
      obtain rfl := Option.some.inj hfound
      subst hkey
      rcases hx with rfl | hx
      · exact Or.inr (Or.inl rfl)
      · rcases StateSet.mem_union.1 hx with hx | hx
        · cases hold : rules[(q, a)]? with
          | none => simp [destinations, hold] at hx
          | some old => exact Or.inl ⟨(q, a), old, hold, Or.inr (by simpa [destinations, hold] using hx)⟩
        · exact Or.inr (Or.inr hx)
    · exact Or.inl ⟨key, found, hfound, hx⟩
  · intro h
    rcases h with ⟨key, found, hfound, hx⟩ | hx
    · by_cases hkey : (q, a) = key
      · subst hkey
        refine ⟨(q, a), _, if_pos rfl, hx.imp_right fun hx => StateSet.mem_union.2 (Or.inl ?_)⟩
        simpa [destinations, hfound] using hx
      · exact ⟨key, found, by rw [if_neg hkey, hfound], hx⟩
    · exact ⟨(q, a), _, if_pos rfl, hx.imp_right fun hx => StateSet.mem_union.2 (Or.inr hx)⟩

theorem mem_states_add (rules : Rules) (q : State) (a : Symbol) (t x : State) :
    x ∈ (rules.add q a t).states ↔ x ∈ rules.states ∨ x = q ∨ x = t := by
  rw [add, mem_states_addAll, StateSet.mem_singleton]

theorem mem_states_addFrom (rules : Rules) (sources : StateSet) (a : Symbol) (t x : State) :
    x ∈ (rules.addFrom sources a t).states ↔ x ∈ rules.states ∨ ∃ q, q ∈ sources ∧ (x = q ∨ x = t) := by
  have fold : ∀ (l : List State) (rules : Rules),
      x ∈ states (l.foldl (fun rules q => Rules.add rules q a t) rules) ↔
        x ∈ rules.states ∨ ∃ q ∈ l, x = q ∨ x = t := by
    intro l
    induction l with
    | nil => simp
    | cons q l ih =>
      intro rules
      rw [List.foldl_cons, ih, mem_states_add]
      simp only [List.mem_cons, exists_eq_or_imp, or_assoc]
  rw [addFrom, fold]
  simp only [StateSet.mem_toList]

theorem mem_states_merge (left right : Rules) (x : State) :
    x ∈ (left.merge right).states ↔ x ∈ left.states ∨ x ∈ right.states := by
  have fold : ∀ (entries : List ((State × Symbol) × StateSet)) (rules : Rules),
      x ∈ states (entries.foldl (fun rules ((q, a), found) => Rules.addAll rules q a found) rules) ↔
        x ∈ rules.states ∨ ∃ entry ∈ entries, x = entry.1.1 ∨ x ∈ entry.2 := by
    intro entries
    induction entries with
    | nil => simp
    | cons entry entries ih =>
      intro rules
      rw [List.foldl_cons, ih, mem_states_addAll]
      simp only [List.mem_cons, exists_eq_or_imp, or_assoc]
  rw [merge, fold, mem_states right]
  simp only [Std.ExtTreeMap.mem_toList_iff_getElem?_eq_some, Prod.exists]

theorem mem_states_of_destination (rules : Rules) (q : State) (a : Symbol) (p : State)
    (h : p ∈ rules.destinations q a) : p ∈ rules.states := by
  cases hr : rules[(q, a)]? with
  | none => simp [destinations, hr] at h
  | some states => exact (rules.mem_states p).2 ⟨(q, a), states, hr, Or.inr (by simpa [destinations, hr] using h)⟩

theorem mem_states_of_source (rules : Rules) (q : State) (a : Symbol) (p : State)
    (h : p ∈ rules.destinations q a) : q ∈ rules.states := by
  cases hr : rules[(q, a)]? with
  | none => simp [destinations, hr] at h
  | some states => exact (rules.mem_states q).2 ⟨(q, a), states, hr, Or.inl rfl⟩

end Nfa.Rules

end PatternAutomata
