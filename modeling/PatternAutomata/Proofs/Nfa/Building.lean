/-
Rule maps by the calls that build them.

A rule map is built by calls that add destinations at a key, and by merging maps that other calls build (`Building`).
All that counts of the calls is which keys they touch and what they give to each key (`Building.Touches`,
`Building.Gives`): their order, their grouping into merged maps and their repetition leave no trace, and neither does
the order in which a merge goes through the map that it takes in (`Building.Yields`).

- `Rules.eq_iff`: a map is told by its keys and by where they lead.
- `Rules.merge_comm`, `Rules.merge_assoc`, `Rules.merge_self`: merging is like the union of sets.
- `Building.rules_eq_addEach`: a building gives what its calls give one after another.
- `Building.rules_eq_iff`: when two buildings give the same map.
- `Building.yields_iff`: each building gives one map, whatever the order in merges.
-/
import Mathlib.Tactic.Tauto
import PatternAutomata.Nfa.Rules

namespace PatternAutomata.Nfa

/-! ## Entries one after another -/

namespace Rules

/-- A key with destinations. -/
abbrev Entry := (State × Symbol) × StateSet

/-- Adds the destinations of each entry at its key. -/
def addEach (rules : Rules) (entries : List Entry) : Rules :=
  entries.foldl (fun rules ((q, a), states) => rules.addAll q a states) rules

variable {rules others : Rules}

theorem merge_eq_addEach (left right : Rules) : left.merge right = left.addEach right.toList := rfl

theorem mem_addAll (rules : Rules) (q : State) (a : Symbol) (states : StateSet) (key : State × Symbol) :
    key ∈ rules.addAll q a states ↔ key = (q, a) ∨ key ∈ rules := by
  rw [addAll, Std.ExtTreeMap.mem_insert, Std.LawfulEqCmp.compare_eq_iff_eq, eq_comm]

/-- The keys are the old ones and those of the entries. -/
theorem mem_addEach (rules : Rules) (entries : List Entry) (key : State × Symbol) :
    key ∈ rules.addEach entries ↔ key ∈ rules ∨ ∃ states, (key, states) ∈ entries := by
  unfold addEach
  induction entries generalizing rules with
  | nil => simp
  | cons entry entries ih =>
    obtain ⟨⟨q, a⟩, states⟩ := entry
    simp only [List.foldl_cons, ih, mem_addAll, List.mem_cons, Prod.mk.injEq, exists_or, exists_and_left,
      exists_eq, and_true]
    tauto

/-- A key leads where it led before, and where its entries lead. -/
theorem mem_destinations_addEach (rules : Rules) (entries : List Entry) (q : State) (a : Symbol) (p : State) :
    p ∈ (rules.addEach entries).destinations q a ↔
      p ∈ rules.destinations q a ∨ ∃ states, ((q, a), states) ∈ entries ∧ p ∈ states := by
  unfold addEach
  induction entries generalizing rules with
  | nil => simp
  | cons entry entries ih =>
    obtain ⟨⟨r, b⟩, states⟩ := entry
    simp only [List.foldl_cons, ih, mem_destinations_addAll, List.mem_cons, Prod.mk.injEq, or_and_right, exists_or,
      and_assoc, exists_and_left, exists_eq_left, or_assoc]

/-- A map is told by its keys and by where they lead. -/
theorem eq_iff : rules = others ↔
    (∀ key, key ∈ rules ↔ key ∈ others) ∧ ∀ q a p, p ∈ rules.destinations q a ↔ p ∈ others.destinations q a := by
  refine ⟨fun h => h ▸ ⟨fun _ => Iff.rfl, fun _ _ _ => Iff.rfl⟩, ?_⟩
  rintro ⟨hkeys, hdest⟩
  refine Std.ExtTreeMap.ext_getElem? fun key => ?_
  have hget : rules[key]?.getD ∅ = others[key]?.getD ∅ := StateSet.ext (hdest key.1 key.2)
  have hkey := hkeys key
  rw [Std.ExtTreeMap.mem_iff_isSome_getElem?, Std.ExtTreeMap.mem_iff_isSome_getElem?] at hkey
  cases hr : rules[key]? <;> cases ho : others[key]? <;> simp_all

/-- Entries that come in another order, or more than once, make no difference. -/
theorem addEach_congr (rules : Rules) {entries entries' : List Entry}
    (h : ∀ entry, entry ∈ entries ↔ entry ∈ entries') : rules.addEach entries = rules.addEach entries' := by
  rw [eq_iff]
  simp only [mem_addEach, mem_destinations_addEach, h, implies_true, and_self]

theorem exists_mem_toList_iff (rules : Rules) (key : State × Symbol) :
    (∃ states, (key, states) ∈ rules.toList) ↔ key ∈ rules := by
  simp only [Std.ExtTreeMap.mem_toList_iff_getElem?_eq_some, Std.ExtTreeMap.mem_iff_isSome_getElem?,
    Option.isSome_iff_exists]

/-! ## Merging -/

theorem mem_merge (left right : Rules) (key : State × Symbol) :
    key ∈ left.merge right ↔ key ∈ left ∨ key ∈ right := by
  rw [merge_eq_addEach, mem_addEach, exists_mem_toList_iff]

theorem merge_comm (left right : Rules) : left.merge right = right.merge left := by
  rw [eq_iff]
  simp only [mem_merge, mem_destinations_merge, or_comm, implies_true, and_self]

theorem merge_assoc (first second third : Rules) :
    (first.merge second).merge third = first.merge (second.merge third) := by
  rw [eq_iff]
  simp only [mem_merge, mem_destinations_merge, or_assoc, implies_true, and_self]

theorem merge_self (rules : Rules) : rules.merge rules = rules := by
  rw [eq_iff]
  simp only [mem_merge, mem_destinations_merge, or_self, implies_true, and_self]

/-- Adding the entries of a map one after another is merging it. -/
theorem merge_addEach_empty (rules : Rules) (entries : List Entry) :
    rules.merge ((∅ : Rules).addEach entries) = rules.addEach entries := by
  rw [eq_iff]
  simp only [mem_merge, mem_destinations_merge, mem_addEach, mem_destinations_addEach, Std.ExtTreeMap.not_mem_empty,
    not_mem_destinations_empty, false_or, implies_true, and_self]

end Rules

open Rules (Entry)

/-! ## Buildings -/

/-- A rule map in the making: what is done to the empty map, where a merge takes in a map that is built on its own. -/
inductive Building where
  | empty
  | add (b : Building) (q : State) (a : Symbol) (p : State)
  | addAll (b : Building) (q : State) (a : Symbol) (states : StateSet)
  | merge (left right : Building)

namespace Building

/-- The map that is built. -/
def rules : Building → Rules
  | empty => ∅
  | add b q a p => b.rules.add q a p
  | addAll b q a states => b.rules.addAll q a states
  | merge left right => left.rules.merge right.rules

/-- The calls, with what each gives to its key; those that build a map that is merged count as well. -/
def calls : Building → List Entry
  | empty => []
  | add b q a p => b.calls ++ [((q, a), {p})]
  | addAll b q a states => b.calls ++ [((q, a), states)]
  | merge left right => left.calls ++ right.calls

/-- Some call is about the key. -/
def Touches (b : Building) (key : State × Symbol) : Prop := ∃ states, (key, states) ∈ b.calls

/-- The state is in the union of what the calls give to the key. -/
def Gives (b : Building) (key : State × Symbol) (p : State) : Prop := ∃ states, (key, states) ∈ b.calls ∧ p ∈ states

/-- The buildings touch the same keys and give the same to each. -/
def Alike (b c : Building) : Prop :=
  (∀ key, b.Touches key ↔ c.Touches key) ∧ ∀ key p, b.Gives key p ↔ c.Gives key p

/-- The map may be built: each merge may go through the map that it takes in in any order. -/
inductive Yields : Building → Rules → Prop
  | empty : Yields empty ∅
  | add {b : Building} {rules : Rules} (h : Yields b rules) (q : State) (a : Symbol) (p : State) :
    Yields (add b q a p) (rules.add q a p)
  | addAll {b : Building} {rules : Rules} (h : Yields b rules) (q : State) (a : Symbol) (states : StateSet) :
    Yields (addAll b q a states) (rules.addAll q a states)
  | merge {b c : Building} {left right : Rules} {entries : List Entry} (hl : Yields b left) (hr : Yields c right)
    (horder : entries.Perm right.toList) : Yields (merge b c) (left.addEach entries)

variable {b c : Building}

/-- A building gives what its calls give one after another. -/
theorem rules_eq_addEach (b : Building) : b.rules = (∅ : Rules).addEach b.calls := by
  induction b with
  | empty => rfl
  | add b q a p ih => rw [rules, ih, calls, Rules.addEach, Rules.addEach, List.foldl_append]; rfl
  | addAll b q a states ih => rw [rules, ih, calls, Rules.addEach, Rules.addEach, List.foldl_append]; rfl
  | merge left right ihl ihr =>
    rw [rules, ihl, ihr, Rules.merge_addEach_empty, calls, Rules.addEach, Rules.addEach, Rules.addEach,
      List.foldl_append]

theorem mem_rules_iff (b : Building) (key : State × Symbol) : key ∈ b.rules ↔ b.Touches key := by
  rw [rules_eq_addEach, Rules.mem_addEach, Touches, or_iff_right Std.ExtTreeMap.not_mem_empty]

theorem mem_destinations_rules_iff (b : Building) (q : State) (a : Symbol) (p : State) :
    p ∈ b.rules.destinations q a ↔ b.Gives (q, a) p := by
  rw [rules_eq_addEach, Rules.mem_destinations_addEach, Gives, or_iff_right (Rules.not_mem_destinations_empty q a p)]

/-- A key that was touched with empty sets only is there and leads nowhere. -/
theorem getElem?_rules_eq_some_empty_iff (b : Building) (key : State × Symbol) :
    b.rules[key]? = some ∅ ↔ b.Touches key ∧ ∀ p, ¬ b.Gives key p := by
  obtain ⟨q, a⟩ := key
  simp only [← mem_rules_iff, ← mem_destinations_rules_iff, Rules.destinations, Std.ExtTreeMap.mem_iff_isSome_getElem?]
  cases b.rules[(q, a)]? with
  | none => simp
  | some states =>
    simp only [Option.some.injEq, Option.isSome_some, Option.getD_some, true_and]
    refine ⟨fun h => h ▸ StateSet.not_mem_empty, fun h => StateSet.ext fun p => ?_⟩
    exact iff_of_false (h p) (StateSet.not_mem_empty p)

/-- Two buildings give the same map if they are alike, and only then. -/
theorem rules_eq_iff : b.rules = c.rules ↔ b.Alike c := by
  simp only [Rules.eq_iff, mem_rules_iff, mem_destinations_rules_iff, Alike, Prod.forall]

/-- The same calls in any order, in any grouping and any number of times are alike. -/
theorem Alike.of_calls (h : ∀ call, call ∈ b.calls ↔ call ∈ c.calls) : b.Alike c := by
  simp only [Alike, Touches, Gives, h, implies_true, and_self]

/-- The order in which merges go through maps makes no difference. -/
theorem yields_iff {rules : Rules} : b.Yields rules ↔ rules = b.rules := by
  refine ⟨fun h => ?_, ?_⟩
  · induction h with
    | empty => rfl
    | add _ q a p ih => rw [ih, Building.rules]
    | addAll _ q a states ih => rw [ih, Building.rules]
    | merge _ _ horder ihl ihr =>
      rw [ihl, Rules.addEach_congr _ fun _ => horder.mem_iff, ihr, ← Rules.merge_eq_addEach, Building.rules]
  · rintro rfl
    induction b with
    | empty => exact .empty
    | add b q a p ih => exact ih.add q a p
    | addAll b q a states ih => exact ih.addAll q a states
    | merge left right ihl ihr => exact .merge ihl ihr (List.Perm.refl _)

end Building

end PatternAutomata.Nfa
