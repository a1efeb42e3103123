/-
What becomes of a rule map in whatever order it is gone through.

Printing sorts the entries of a rule map and drawing sorts its arrows, so it does not matter in which order they are
listed (`mergeSort_entries`, `mergeSort_arrows`). Elimination goes through the states in any order and adds what each of
them leads to (`addEach_eliminated`). What it leaves depends on where the keys of the old map lead and not on which keys
lead nowhere, and so does the subset automaton (`withoutEpsilon_congr`, `toDfa_congr`).

- `rules_told_by_calls`: how a map was built can be told neither from the map nor from the automata over it.
-/
import Mathlib.Data.List.Pairwise
import PatternAutomata.Dfa.Direct
import PatternAutomata.Proofs.Dot
import PatternAutomata.Proofs.Nfa.Direct
import PatternAutomata.Proofs.Nfa.Building
import PatternAutomata.Proofs.Dfa.Numbering

namespace PatternAutomata

/-! ## Sorting -/

/-- What is ascending is what any order of the same items is sorted to. -/
theorem mergeSort_eq_of_perm {α : Type} {order : α → α → Ordering} [Std.TransCmp order] {sorted items : List α}
    (hsorted : sorted.Pairwise fun x y => order x y = .lt) (hperm : items.Perm sorted) :
    items.mergeSort (fun x y => (order x y).isLE) = sorted := by
  -- items of equal rank are the same item, since the sorted list has none twice
  have hsame : ∀ x ∈ sorted, ∀ y ∈ sorted, order x y = .eq → x = y := by
    have hsymm : Std.Symm fun x y => order x y = .eq → x = y :=
      ⟨fun _ _ h heq => (h (Std.OrientedCmp.eq_symm heq)).symm⟩
    exact List.Pairwise.forall_of_forall (fun _ _ _ => rfl) (hsorted.imp fun hlt heq => by rw [hlt] at heq; cases heq)
  have hmem : ∀ {x}, x ∈ items.mergeSort (fun x y => (order x y).isLE) → x ∈ sorted := fun hx =>
    hperm.mem_iff.1 ((List.mergeSort_perm items _).mem_iff.1 hx)
  refine List.Perm.eq_of_pairwise (fun x y hx hy hxy hyx => ?_)
    (List.pairwise_mergeSort (fun x y z => Std.TransCmp.isLE_trans) (fun x y => ?_) items)
    (hsorted.imp fun hlt => by rw [hlt]; rfl) ((List.mergeSort_perm items _).trans hperm)
  · exact hsame x (hmem hx) y hy (Std.OrientedCmp.isLE_antisymm hxy hyx)
  · have hswap : order y x = (order x y).swap := Std.OrientedCmp.eq_swap
    rw [hswap]
    cases order x y <;> rfl

namespace Nfa

open Rules (Entry)

instance : Std.TransCmp fun x y : Entry => pairOrder x.1 y.1 where
  eq_swap := Std.OrientedCmp.eq_swap
  isLE_trans := Std.TransCmp.isLE_trans

/-- The entries of a map are told by their keys, so sorting them by key undoes any order. -/
theorem Rules.mergeSort_entries (rules : Rules) {entries : List Entry} (h : entries.Perm rules.toList) :
    entries.mergeSort (fun x y => (pairOrder x.1 y.1).isLE) = rules.toList :=
  mergeSort_eq_of_perm Std.ExtTreeMap.ordered_keys_toList h

/-- Arrows are ordered by source, symbol and destination. -/
def arrowOrder (x y : State × Symbol × State) : Ordering :=
  (compare x.1 y.1).then ((compare x.2.1 y.2.1).then (compare x.2.2 y.2.2))

instance : Std.TransCmp arrowOrder :=
  inferInstanceAs (Std.TransCmp (compareLex (compareOn Prod.fst)
    (compareLex (compareOn fun x : State × Symbol × State => x.2.1)
      (compareOn fun x : State × Symbol × State => x.2.2))))

theorem Rules.ascending_transitions (rules : Rules) :
    rules.transitions.Pairwise fun x y => arrowOrder x y = .lt := by
  rw [transitions, List.pairwise_flatMap]
  refine ⟨?_, Std.ExtTreeMap.ordered_keys_toList.imp ?_⟩
  · rintro ⟨⟨q, a⟩, states⟩ -
    refine List.pairwise_map.2 (states.sorted_toList.imp fun {p r} hlt => ?_)
    simp only [arrowOrder, Std.ReflCmp.compare_self, Ordering.eq_then]
    exact Nat.compare_eq_lt.2 hlt
  · rintro ⟨⟨q, a⟩, states⟩ ⟨⟨r, b⟩, others⟩ hlt x hx y hy
    obtain ⟨p, -, rfl⟩ := List.mem_map.1 hx
    obtain ⟨t, -, rfl⟩ := List.mem_map.1 hy
    rw [arrowOrder, ← Ordering.then_assoc, show (compare q r).then (compare a b) = .lt from hlt]
    rfl

theorem Rules.mergeSort_arrows (rules : Rules) {arrows : List (State × Symbol × State)}
    (h : arrows.Perm rules.transitions) :
    arrows.mergeSort (fun x y => (arrowOrder x y).isLE) = rules.transitions :=
  mergeSort_eq_of_perm rules.ascending_transitions h

/-! ## Elimination -/

variable {m n : Nfa} {q p : State} {c : Char}

theorem Leads.mem_states (h : m.Leads q c p) : q ∈ m.states := by
  obtain ⟨r, t, hr, ht, -⟩ := h
  rcases m.eq_or_mem_states_of_reaches hr with rfl | hq
  · exact m.mem_states_of_source _ _ t ht
  · exact hq

theorem Leads.mem_alphabet (h : m.Leads q c p) : c ∈ m.alphabet := by
  obtain ⟨r, t, -, ht, -⟩ := h
  refine m.mem_alphabet_of_isEmpty_move {r} c ((StateSet.isEmpty_eq_false_iff _).2 ⟨t, ?_⟩)
  exact (m.mem_move_iff _ c t).2 ⟨r, StateSet.mem_singleton.2 rfl, ht⟩

/-- The keys that elimination leaves are those by which a state leads anywhere. -/
theorem mem_withoutEpsilon_iff (m : Nfa) (q : State) (a : Symbol) :
    (q, a) ∈ m.withoutEpsilon.rules ↔ ∃ c, a = .char c ∧ ∃ p, m.Leads q c p := by
  cases a with
  | epsilon =>
    refine iff_of_false (fun hmem => ?_) (by simp)
    rw [Std.ExtTreeMap.mem_iff_isSome_getElem?, withoutEpsilon, getElem?_directRules_epsilon] at hmem
    cases hmem
  | char c =>
    refine (m.mem_directRules_iff q c).trans ?_
    simp only [Symbol.char.injEq, exists_eq_left']
    refine and_iff_right_of_imp ?_
    rintro ⟨p, hp⟩
    exact hp.mem_states

/-- Each of them leads to all that its state leads to. -/
theorem mem_destinations_withoutEpsilon_iff_exists (m : Nfa) (q : State) (a : Symbol) (p : State) :
    p ∈ m.withoutEpsilon.rules.destinations q a ↔ ∃ c, a = .char c ∧ m.Leads q c p := by
  cases a with
  | epsilon =>
    refine iff_of_false (fun hmem => StateSet.not_mem_empty p ?_) (by simp)
    rwa [Rules.destinations, withoutEpsilon, getElem?_directRules_epsilon] at hmem
  | char c =>
    rw [mem_destinations_withoutEpsilon_iff]
    simp only [Symbol.char.injEq, exists_eq_left']

/-- What elimination adds for a state: for each character of the alphabet, all that the state leads to by it, if it
leads anywhere. -/
def eliminated (m : Nfa) (q : State) : List Entry :=
  m.alphabet.filterMap fun c =>
    let reached := m.step (m.closure q) c
    if reached.isEmpty then none else some ((q, .char c), reached)

theorem mem_eliminated_iff (m : Nfa) (q r : State) (a : Symbol) (states : StateSet) :
    ((r, a), states) ∈ m.eliminated q ↔
      r = q ∧ ∃ c, a = .char c ∧ (∃ p, m.Leads q c p) ∧ states = m.step (m.closure q) c := by
  simp only [eliminated, List.mem_filterMap, Option.ite_none_left_eq_some, Option.some.injEq, Prod.mk.injEq,
    Bool.not_eq_true, StateSet.isEmpty_eq_false_iff, mem_step_closure_iff]
  refine ⟨?_, ?_⟩
  · rintro ⟨c, -, hleads, ⟨rfl, rfl⟩, rfl⟩
    exact ⟨rfl, c, rfl, hleads, rfl⟩
  · rintro ⟨rfl, c, rfl, ⟨p, hp⟩, rfl⟩
    exact ⟨c, hp.mem_alphabet, ⟨p, hp⟩, ⟨rfl, rfl⟩, rfl⟩

theorem mem_flatMap_eliminated_iff (m : Nfa) {states : List State} (h : states.Perm m.states.toList) (q : State)
    (a : Symbol) (reached : StateSet) : ((q, a), reached) ∈ states.flatMap m.eliminated ↔
      ∃ c, a = .char c ∧ (∃ p, m.Leads q c p) ∧ reached = m.step (m.closure q) c := by
  simp only [List.mem_flatMap, mem_eliminated_iff, h.mem_iff, StateSet.mem_toList]
  refine ⟨?_, ?_⟩
  · rintro ⟨r, -, rfl, hc⟩
    exact hc
  · rintro ⟨c, rfl, ⟨p, hp⟩, rfl⟩
    exact ⟨q, hp.mem_states, rfl, c, rfl, ⟨p, hp⟩, rfl⟩

/-- Elimination may go through the states in any order. -/
theorem addEach_eliminated (m : Nfa) {states : List State} (h : states.Perm m.states.toList) :
    (∅ : Rules).addEach (states.flatMap m.eliminated) = m.withoutEpsilon.rules := by
  rw [Rules.eq_iff]
  refine ⟨fun key => ?_, fun q a p => ?_⟩
  · rw [Rules.mem_addEach, or_iff_right Std.ExtTreeMap.not_mem_empty, mem_withoutEpsilon_iff]
    simp only [m.mem_flatMap_eliminated_iff h]
    refine ⟨?_, ?_⟩
    · rintro ⟨_, c, ha, hleads, -⟩
      exact ⟨c, ha, hleads⟩
    · rintro ⟨c, ha, hleads⟩
      exact ⟨_, c, ha, hleads, rfl⟩
  · rw [Rules.mem_destinations_addEach, or_iff_right (Rules.not_mem_destinations_empty q a p),
      mem_destinations_withoutEpsilon_iff_exists]
    simp only [m.mem_flatMap_eliminated_iff h]
    refine ⟨?_, ?_⟩
    · rintro ⟨_, ⟨c, ha, -, rfl⟩, hp⟩
      exact ⟨c, ha, (m.mem_step_closure_iff q c p).1 hp⟩
    · rintro ⟨c, ha, hp⟩
      exact ⟨_, ⟨c, ha, ⟨p, hp⟩, rfl⟩, (m.mem_step_closure_iff q c p).2 hp⟩

/-! ## Automata whose keys lead to the same states -/

section SameDestinations

variable (hinitial : m.initial = n.initial) (haccepts : m.accepts = n.accepts)
  (hrules : ∀ q a p, p ∈ m.rules.destinations q a ↔ p ∈ n.rules.destinations q a)
include hinitial haccepts hrules

/-- Elimination sees where keys lead, and not which keys lead nowhere. -/
theorem withoutEpsilon_congr : m.withoutEpsilon = n.withoutEpsilon := by
  have hsilent : m.Silent = n.Silent := funext fun q => funext fun p => propext (hrules q .epsilon p)
  have hleads : m.Leads = n.Leads := by
    funext q c p
    simp only [Leads, hsilent, hrules]
  have hdirectAccepts : m.directAccepts = n.directAccepts := StateSet.ext fun q => by
    rw [mem_directAccepts, mem_directAccepts, hinitial, haccepts, hsilent]
  have hdirectRules : m.directRules = n.directRules := by
    change m.withoutEpsilon.rules = n.withoutEpsilon.rules
    rw [Rules.eq_iff]
    simp only [Prod.forall, mem_withoutEpsilon_iff, mem_destinations_withoutEpsilon_iff_exists, hleads, implies_true,
      and_self]
  rw [withoutEpsilon, withoutEpsilon, hinitial, hdirectAccepts, hdirectRules]

theorem toDfa_congr : m.toDfa = n.toDfa := by
  rw [toDfa_eq_determinize, toDfa_eq_determinize, withoutEpsilon_congr hinitial haccepts hrules]

end SameDestinations

/-! ## Automata over maps that calls build -/

/-- **Rule maps told by their calls.** A map has the keys that its calls touch, each with the union of what they give
to it, so a key that got empty sets only is there and leads nowhere. Two maps are equal if and only if their calls touch
the same keys and give the same to each; then they look alike, and so do the automata over them. For the subset
automaton it is enough that they give the same. Calls that come in another order, are grouped into other maps, or come
more than once are the same calls; and neither merging, nor elimination, nor printing or drawing shows the order in which
it goes through a map. -/
theorem rules_told_by_calls :
    (∀ (b : Building) (q : State) (a : Symbol), ((q, a) ∈ b.rules ↔ b.Touches (q, a)) ∧
      (∀ p, p ∈ b.rules.destinations q a ↔ b.Gives (q, a) p) ∧
      (b.rules[(q, a)]? = some ∅ ↔ b.Touches (q, a) ∧ ∀ p, ¬ b.Gives (q, a) p)) ∧
    (∀ b c : Building, b.rules = c.rules ↔ b.Alike c) ∧
    (∀ b c : Building, (∀ call, call ∈ b.calls ↔ call ∈ c.calls) → b.Alike c) ∧
    (∀ b c : Building, b.Alike c → b.rules.size = c.rules.size ∧
      (∀ key : State × Symbol, b.rules[key]? = c.rules[key]?) ∧ (b.rules == c.rules) = true ∧ b.rules.text = c.rules.text ∧
      ∀ initial accepts, Nfa.toDfa ⟨initial, accepts, b.rules⟩ = Nfa.toDfa ⟨initial, accepts, c.rules⟩ ∧
        Nfa.dot ⟨initial, accepts, b.rules⟩ = Nfa.dot ⟨initial, accepts, c.rules⟩) ∧
    (∀ b c : Building, (∀ key p, b.Gives key p ↔ c.Gives key p) → ∀ initial accepts,
      Nfa.toDfa ⟨initial, accepts, b.rules⟩ = Nfa.toDfa ⟨initial, accepts, c.rules⟩) ∧
    (∀ first second third : Rules, first.merge second = second.merge first ∧
      (first.merge second).merge third = first.merge (second.merge third) ∧ first.merge first = first) ∧
    (∀ (b : Building) (rules : Rules), b.Yields rules ↔ rules = b.rules) ∧
    (∀ (m : Nfa) (states : List State), states.Perm m.states.toList →
      (∅ : Rules).addEach (states.flatMap m.eliminated) = m.withoutEpsilon.rules) ∧
    (∀ (rules : Rules) (entries : List Entry), entries.Perm rules.toList →
      entries.mergeSort (fun x y => (pairOrder x.1 y.1).isLE) = rules.toList) ∧
    ∀ (rules : Rules) (arrows : List (State × Symbol × State)), arrows.Perm rules.transitions →
      arrows.mergeSort (fun x y => (arrowOrder x y).isLE) = rules.transitions := by
  refine ⟨fun b q a => ?_, fun b c => Building.rules_eq_iff, fun b c => Building.Alike.of_calls, fun b c h => ?_,
    fun b c h initial accepts => ?_, fun first second third => ?_, fun b rules => Building.yields_iff,
    fun m states => m.addEach_eliminated, fun rules entries => rules.mergeSort_entries,
    fun rules arrows => rules.mergeSort_arrows⟩
  · exact ⟨b.mem_rules_iff _, b.mem_destinations_rules_iff q a, b.getElem?_rules_eq_some_empty_iff _⟩
  · rw [Building.rules_eq_iff.2 h]
    exact ⟨rfl, fun _ => rfl, beq_self_eq_true _, rfl, fun _ _ => ⟨rfl, rfl⟩⟩
  · refine toDfa_congr rfl rfl fun q a p => ?_
    rw [Building.mem_destinations_rules_iff, Building.mem_destinations_rules_iff, h]
  · exact ⟨first.merge_comm second, first.merge_assoc second third, first.merge_self⟩

/-- A rule and a key without destination: first built apart and merged, then one after another with the rule twice. The
rule alone gives another map, over which automata have the same subset automaton. -/
theorem rules_told_by_calls_merged :
    let apart : Building := .merge (.add .empty 0 (.char 'a') 1) (.addAll .empty 1 .epsilon ∅)
    let inTurn : Building := .add (.addAll (.add .empty 0 (.char 'a') 1) 1 .epsilon ∅) 0 (.char 'a') 1
    let alone : Building := .add .empty 0 (.char 'a') 1
    let m : Nfa := ⟨0, {1}, inTurn.rules⟩
    apart.Alike inTurn ∧ apart.rules.text = inTurn.rules.text ∧ inTurn.rules[(1, Symbol.epsilon)]? = some ∅ ∧
      alone.rules ≠ inTurn.rules ∧ Nfa.toDfa ⟨0, {1}, alone.rules⟩ = m.toDfa ∧
      (∅ : Rules).addEach (m.states.toList.reverse.flatMap m.eliminated) = m.withoutEpsilon.rules ∧
      m.rules.toList.reverse.mergeSort (fun x y => (pairOrder x.1 y.1).isLE) = m.rules.toList ∧
      m.rules.transitions.reverse.mergeSort (fun x y => (arrowOrder x y).isLE) = m.rules.transitions := by
  intro apart inTurn alone m
  obtain ⟨hholds, heq, hcalls, hlook, hgives, -, -, helim, hentries, harrows⟩ := rules_told_by_calls
  have halike : apart.Alike inTurn := hcalls apart inTurn fun call => by
    simp only [apart, inTurn, Building.calls, List.nil_append, List.mem_append, List.mem_singleton]
    tauto
  have hsame : ∀ key p, alone.Gives key p ↔ inTurn.Gives key p := fun key p => by
    simp [alone, inTurn, Building.Gives, Building.calls, or_and_right, exists_or]
  have hempty : inTurn.rules[(1, Symbol.epsilon)]? = some ∅ :=
    (hholds inTurn 1 .epsilon).2.2.2 ⟨⟨∅, by simp [inTurn, Building.calls]⟩, fun p => by
      simp [inTurn, Building.Gives, Building.calls]⟩
  have hdiffer : alone.rules ≠ inTurn.rules := fun h => by
    obtain ⟨states, hcall⟩ := ((heq alone inTurn).1 h).1 (1, .epsilon) |>.2 ⟨∅, by simp [inTurn, Building.calls]⟩
    simp [alone, Building.calls] at hcall
  exact ⟨halike, (hlook apart inTurn halike).2.2.2.1, hempty, hdiffer, hgives alone inTurn hsame 0 _,
    helim m _ (List.reverse_perm _), hentries m.rules _ (List.reverse_perm _), harrows m.rules _ (List.reverse_perm _)⟩

end Nfa

end PatternAutomata
