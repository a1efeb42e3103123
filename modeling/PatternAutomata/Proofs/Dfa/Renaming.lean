/-
The subset automaton of an automaton with renamed states.

Renaming the states of an automaton permutes every set of states, and with it the order of the members of the sets and of
the keys of the rules. The subset automaton shows nothing of that: a set is known by the identifier of its place in the
order of discovery, and that order follows the characters alone. Each set of the renamed automaton is the image of a set
of the automaton, the moves between the sets correspond (`move_withoutEpsilon_rename`), and so the sets are discovered in
the same order (`subsets_rename`).

- `destinations_rename`, `closure_rename`, `step_rename`: how rules, closures and steps are renamed.
- `toDfa_rename`: the subset automaton does not depend on the names of the states.
-/
import PatternAutomata.Proofs.Dfa.Subsets
import PatternAutomata.Proofs.Nfa.Combinators

namespace PatternAutomata

/-! ## Images of sets -/

namespace StateSet

/-- The set of the images of the members. -/
def image (s : StateSet) (f : State → State) : StateSet := ofList (s.toList.map f)

theorem mem_image {s : StateSet} {f : State → State} {p : State} : p ∈ s.image f ↔ ∃ q, q ∈ s ∧ f q = p := by
  rw [image, mem_ofList, List.mem_map]
  simp only [mem_toList]

theorem image_singleton (q : State) (f : State → State) : ({q} : StateSet).image f = {f q} := by
  apply ext
  intro p
  rw [mem_image, mem_singleton]
  simp only [mem_singleton, exists_eq_left]
  exact eq_comm

theorem isEmpty_image (s : StateSet) (f : State → State) : (s.image f).isEmpty = s.isEmpty := by
  rw [Bool.eq_iff_iff, isEmpty_iff, isEmpty_iff]
  simp only [mem_image, not_exists, not_and]
  exact ⟨fun h q hq => h (f q) q hq rfl, fun h _ q hq => absurd hq (h q)⟩

/-- A union over images, each of them the image of a union over members. -/
theorem biUnion_image {s : StateSet} {f : State → State} {family family' : State → StateSet}
    (h : ∀ q, q ∈ s → family' (f q) = (family q).image f) : (s.image f).biUnion family' = (s.biUnion family).image f := by
  apply ext
  intro p'
  simp only [mem_biUnion, mem_image]
  refine ⟨?_, ?_⟩
  · intro hp'
    obtain ⟨_, ⟨q, hq, rfl⟩, hp'⟩ := hp'
    obtain ⟨p, hp, hfp⟩ := mem_image.1 (h q hq ▸ hp')
    exact ⟨p, ⟨q, hq, hp⟩, hfp⟩
  · intro hp'
    obtain ⟨p, ⟨q, hq, hp⟩, hfp⟩ := hp'
    exact ⟨f q, ⟨q, hq, rfl⟩, h q hq ▸ mem_image.2 ⟨p, hp, hfp⟩⟩

end StateSet

/-- Looking for an image among images finds the place of the item, if no other item has the same image. -/
theorem idxOf?_map {α β : Type} [DecidableEq α] [DecidableEq β] (f : α → β) (items : List α) (x : α)
    (h : ∀ y ∈ items, f y = f x → y = x) : (items.map f).idxOf? (f x) = items.idxOf? x := by
  induction items with
  | nil => rfl
  | cons y items ih =>
    have hhead : (f y == f x) = (y == x) := by
      rw [Bool.eq_iff_iff, beq_iff_eq, beq_iff_eq]
      exact ⟨h y List.mem_cons_self, congrArg f⟩
    rw [List.map_cons, List.idxOf?_cons, List.idxOf?_cons, hhead, ih fun z hz => h z (List.mem_cons_of_mem y hz)]

namespace Nfa

/-! ## Renaming -/

/-- The rules with the sources and destinations renamed. -/
def Rules.rename (rules : Rules) (f : State → State) : Rules :=
  rules.toList.foldr (fun ((q, a), states) renamed => Rules.addAll renamed (f q) a (states.image f)) ∅

/-- The automaton with the initial state, the accepting states and the rules renamed. -/
def rename (m : Nfa) (f : State → State) : Nfa := ⟨f m.initial, m.accepts.image f, m.rules.rename f⟩

theorem Rules.mem_destinations_rename (rules : Rules) (f : State → State) (q' : State) (a : Symbol) (p' : State) :
    p' ∈ (rules.rename f).destinations q' a ↔ ∃ q p, f q = q' ∧ f p = p' ∧ p ∈ rules.destinations q a := by
  have fold : ∀ entries : List ((State × Symbol) × StateSet),
      p' ∈ Rules.destinations (entries.foldr
          (fun ((q, a), states) renamed => Rules.addAll renamed (f q) a (states.image f)) (∅ : Rules)) q' a ↔
        ∃ q states, ((q, a), states) ∈ entries ∧ f q = q' ∧ ∃ p, p ∈ states ∧ f p = p' := by
    intro entries
    induction entries with
    | nil => simp [Rules.destinations]
    | cons entry entries ih =>
      obtain ⟨⟨r, b⟩, states⟩ := entry
      rw [List.foldr_cons, Rules.mem_destinations_addAll, ih, StateSet.mem_image]
      simp only [List.mem_cons, Prod.mk.injEq]
      grind
  rw [rename, fold]
  simp only [Std.ExtTreeMap.mem_toList_iff_getElem?_eq_some, Rules.destinations]
  refine ⟨?_, ?_⟩
  · intro h
    obtain ⟨q, states, hrule, hq, p, hp, hfp⟩ := h
    exact ⟨q, p, hq, hfp, by rw [hrule]; exact hp⟩
  · intro h
    obtain ⟨q, p, hq, hfp, hp⟩ := h
    cases hrule : rules[(q, a)]? with
    | none => rw [hrule] at hp; exact absurd hp (StateSet.not_mem_empty p)
    | some states => rw [hrule] at hp; exact ⟨q, states, hrule, hq, p, hp, hfp⟩

/-! ## Rules, closures and steps -/

theorem destinations_withoutEpsilon (m : Nfa) (q : State) (c : Char) :
    m.withoutEpsilon.rules.destinations q (.char c) = m.step (m.closure q) c :=
  StateSet.ext fun p => m.mem_destinations_withoutEpsilon q c p

/-- Every member of the set is a state of the automaton. -/
def Mentioned (m : Nfa) (s : StateSet) : Prop := ∀ q, q ∈ s → m.Mentions q

theorem mentions_of_reaches (m : Nfa) {q p : State} (hq : m.Mentions q) (h : Reaches m.Silent q p) : m.Mentions p := by
  induction h with
  | refl => exact hq
  | tail _ hstep _ => exact m.mentions_of_destination hstep

theorem mentioned_closure (m : Nfa) {q : State} (hq : m.Mentions q) : m.Mentioned (m.closure q) :=
  fun p hp => m.mentions_of_reaches hq ((m.mem_closure_iff q p).1 hp)

theorem mentioned_move (m : Nfa) (s : StateSet) (c : Char) : m.Mentioned (m.move s c) := by
  intro p hp
  obtain ⟨q, -, hq⟩ := (m.mem_move_iff s c p).1 hp
  exact m.mentions_of_destination hq

theorem mentioned_step (m : Nfa) (s : StateSet) (c : Char) : m.Mentioned (m.step s c) := by
  intro p hp
  obtain ⟨q, hq, hqp⟩ := (m.mem_closureOf_iff _ p).1 hp
  exact m.mentions_of_reaches (m.mentioned_move s c q hq) hqp

theorem mentioned_move_withoutEpsilon (m : Nfa) (s : StateSet) (c : Char) : m.Mentioned (m.withoutEpsilon.move s c) := by
  intro p hp
  obtain ⟨q, -, hq⟩ := (mem_move_iff _ s c p).1 hp
  exact m.mentioned_step _ c p ((m.mem_destinations_withoutEpsilon q c p).1 hq)

theorem mentioned_of_mem_subsets (m : Nfa) {s : StateSet} (hs : s ∈ m.withoutEpsilon.subsets) : m.Mentioned s := by
  cases (m.withoutEpsilon.mem_subsets_iff s).1 hs with
  | refl => exact fun q hq => StateSet.mem_singleton.1 hq ▸ m.mentions_initial
  | tail _ harrow =>
    obtain ⟨-, c, rfl⟩ := harrow
    exact m.mentioned_move_withoutEpsilon _ c

theorem mentioned_directAccepts (m : Nfa) : m.Mentioned m.directAccepts := by
  intro q hq
  rcases (m.mem_directAccepts q).1 hq with hq | hq
  · exact m.mentions_of_accepts hq
  · exact hq.1 ▸ m.mentions_initial

theorem Row.map_snd_toList_mapStates (row : Row) (g : StateSet → StateSet) :
    (row.mapStates g).toList.map Prod.snd = (row.toList.map Prod.snd).map g := by
  rw [mapStates, Std.ExtTreeMap.toList_map, List.map_map, List.map_map]
  rfl

section Injective

variable {m : Nfa} {f : State → State} (hf : Set.InjOn f {q | m.Mentions q})
include hf

theorem image_injective {s t : StateSet} (hs : m.Mentioned s) (ht : m.Mentioned t) (h : s.image f = t.image f) :
    s = t := by
  have hsub : ∀ {s t : StateSet}, m.Mentioned s → m.Mentioned t → s.image f = t.image f → ∀ q, q ∈ s → q ∈ t := by
    intro s t hs ht h q hq
    have himage : f q ∈ t.image f := h ▸ StateSet.mem_image.2 ⟨q, hq, rfl⟩
    obtain ⟨p, hp, heq⟩ := StateSet.mem_image.1 himage
    exact hf (ht p hp) (hs q hq) heq ▸ hp
  exact StateSet.ext fun q => ⟨hsub hs ht h q, hsub ht hs h.symm q⟩

theorem intersects_image {s t : StateSet} (hs : m.Mentioned s) (ht : m.Mentioned t) :
    (s.image f).intersects (t.image f) = s.intersects t := by
  rw [Bool.eq_iff_iff, StateSet.intersects_iff, StateSet.intersects_iff]
  simp only [StateSet.mem_image]
  refine ⟨?_, ?_⟩
  · intro h
    obtain ⟨_, ⟨q, hq, rfl⟩, p, hp, heq⟩ := h
    exact ⟨q, hq, hf (ht p hp) (hs q hq) heq ▸ hp⟩
  · intro h
    obtain ⟨q, hqs, hqt⟩ := h
    exact ⟨f q, ⟨q, hqs, rfl⟩, q, hqt, rfl⟩

theorem destinations_rename {q : State} (hq : m.Mentions q) (a : Symbol) :
    (m.rename f).rules.destinations (f q) a = (m.rules.destinations q a).image f := by
  apply StateSet.ext
  intro p'
  rw [show (m.rename f).rules = m.rules.rename f from rfl, Rules.mem_destinations_rename, StateSet.mem_image]
  refine ⟨?_, ?_⟩
  · intro h
    obtain ⟨r, p, hr, hfp, hp⟩ := h
    obtain rfl := hf (m.mentions_of_source hp) hq hr
    exact ⟨p, hp, hfp⟩
  · intro h
    obtain ⟨p, hp, hfp⟩ := h
    exact ⟨q, p, rfl, hfp, hp⟩

theorem silent_rename {q : State} (hq : m.Mentions q) (p' : State) :
    (m.rename f).Silent (f q) p' ↔ ∃ p, m.Silent q p ∧ f p = p' := by
  rw [Silent, destinations_rename hf hq, StateSet.mem_image]
  rfl

theorem reaches_rename {q : State} (hq : m.Mentions q) (p' : State) :
    Reaches (m.rename f).Silent (f q) p' ↔ ∃ p, Reaches m.Silent q p ∧ f p = p' := by
  refine ⟨?_, ?_⟩
  · intro h
    induction h with
    | refl => exact ⟨q, .refl, rfl⟩
    | tail _ hstep ih =>
      obtain ⟨r, hr, rfl⟩ := ih
      obtain ⟨p, hp, hfp⟩ := (silent_rename hf (m.mentions_of_reaches hq hr) _).1 hstep
      exact ⟨p, hr.tail hp, hfp⟩
  · intro h
    obtain ⟨p, hp, rfl⟩ := h
    induction hp with
    | refl => exact .refl
    | @tail r p hr hstep ih =>
      exact ih.tail ((silent_rename hf (m.mentions_of_reaches hq hr) _).2 ⟨p, hstep, rfl⟩)

theorem closure_rename {q : State} (hq : m.Mentions q) : (m.rename f).closure (f q) = (m.closure q).image f := by
  apply StateSet.ext
  intro p'
  rw [mem_closure_iff, reaches_rename hf hq, StateSet.mem_image]
  simp only [mem_closure_iff]

theorem closureOf_rename {s : StateSet} (hs : m.Mentioned s) :
    (m.rename f).closureOf (s.image f) = (m.closureOf s).image f := by
  rw [closureOf_eq_biUnion, closureOf_eq_biUnion]
  exact StateSet.biUnion_image fun q hq => closure_rename hf (hs q hq)

theorem step_rename {s : StateSet} (hs : m.Mentioned s) (c : Char) :
    (m.rename f).step (s.image f) c = (m.step s c).image f := by
  have hmove : (m.rename f).move (s.image f) c = (m.move s c).image f :=
    StateSet.biUnion_image fun q hq => destinations_rename hf (hs q hq) (.char c)
  rw [step, step, hmove, closureOf_rename hf (m.mentioned_move s c)]

/-! ## The automaton without epsilon rules -/

theorem move_withoutEpsilon_rename {s : StateSet} (hs : m.Mentioned s) (c : Char) :
    (m.rename f).withoutEpsilon.move (s.image f) c = (m.withoutEpsilon.move s c).image f := by
  refine StateSet.biUnion_image fun q hq => ?_
  rw [destinations_withoutEpsilon, destinations_withoutEpsilon, closure_rename hf (hs q hq),
    step_rename hf (m.mentioned_closure (hs q hq))]

theorem directAccepts_rename : (m.rename f).directAccepts = m.directAccepts.image f := by
  have hintersects : ((m.rename f).closure (m.rename f).initial).intersects (m.rename f).accepts =
      (m.closure m.initial).intersects m.accepts := by
    rw [show (m.rename f).initial = f m.initial from rfl, closure_rename hf m.mentions_initial]
    exact intersects_image hf (m.mentioned_closure m.mentions_initial) fun q hq => m.mentions_of_accepts hq
  unfold directAccepts
  rw [hintersects]
  split
  · apply StateSet.ext
    intro p
    simp only [StateSet.mem_insert, StateSet.mem_image]
    grind [rename, StateSet.mem_image]
  · rfl

/-! ## The order of discovery -/

/-- The sets of the renamed automaton are images, with the same characters between them. -/
theorem renames_subsetGraph :
    (subsetGraph m.withoutEpsilon.rules.rows).Renames (subsetGraph (m.rename f).withoutEpsilon.rules.rows) m.Mentioned
      (fun s => s.image f) (fun row => row.mapStates fun s => s.image f) where
  keep s next _ harrow := by
    obtain ⟨-, c, rfl⟩ := (arrow_subsetGraph_iff _ s next).1 harrow
    exact m.mentioned_move_withoutEpsilon s c
  injective s t hs ht h := image_injective hf hs ht h
  expand s hs := by
    refine Std.ExtTreeMap.ext_getElem? fun c => ?_
    show (moves (m.rename f).withoutEpsilon.rules.rows (s.image f))[c]? =
      (Row.mapStates (moves m.withoutEpsilon.rules.rows s) fun s => s.image f)[c]?
    rw [getElem?_moves, Row.mapStates, Std.ExtTreeMap.getElem?_map, getElem?_moves, move_withoutEpsilon_rename hf hs,
      StateSet.isEmpty_image]
    split <;> rfl
  heads s _ := Row.map_snd_toList_mapStates _ _

theorem subsets_rename : (m.rename f).withoutEpsilon.subsets = m.withoutEpsilon.subsets.map fun s => s.image f := by
  have hstart : ∀ s ∈ [({m.initial} : StateSet)], m.Mentioned s := by
    intro s hs q hq
    rw [List.mem_singleton.1 hs, StateSet.mem_singleton] at hq
    exact hq ▸ m.mentions_initial
  have hdiscover := (renames_subsetGraph hf).discover [{m.initial}] hstart
  rw [List.map_singleton, StateSet.image_singleton] at hdiscover
  show ((subsetGraph (m.rename f).withoutEpsilon.rules.rows).discover [{f m.initial}]).map Prod.fst = _
  rw [hdiscover, List.map_map]
  show _ = List.map _ (List.map _ _)
  rw [List.map_map]
  rfl

theorem accepts_byPlace_rename :
    (m.rename f).withoutEpsilon.byPlace.accepts = m.withoutEpsilon.byPlace.accepts := by
  apply StateSet.ext
  intro k
  rw [mem_accepts_byPlace, mem_accepts_byPlace, subsets_rename hf, List.getElem?_map]
  cases hk : m.withoutEpsilon.subsets[k]? with
  | none => simp only [Option.map_none, reduceCtorEq, false_and, exists_false]
  | some s =>
    have hs := m.mentioned_of_mem_subsets (List.mem_of_getElem? hk)
    have hintersects : (s.image f).intersects (m.rename f).directAccepts = s.intersects m.directAccepts := by
      rw [directAccepts_rename hf, intersects_image hf hs m.mentioned_directAccepts]
    simp only [Option.map_some, Option.some.injEq, exists_eq_left']
    exact iff_of_eq (congrArg (· = true) hintersects)

theorem idxOf?_subsets_rename {s : StateSet} (hs : m.Mentioned s) :
    (m.rename f).withoutEpsilon.subsets.idxOf? (s.image f) = m.withoutEpsilon.subsets.idxOf? s := by
  rw [subsets_rename hf]
  exact idxOf?_map _ _ _ fun t ht heq => image_injective hf (m.mentioned_of_mem_subsets ht) hs heq

theorem rules_byPlace_rename :
    (m.rename f).withoutEpsilon.byPlace.rules = m.withoutEpsilon.byPlace.rules := by
  apply Std.ExtTreeMap.ext_getElem?
  intro key
  obtain ⟨k, c⟩ := key
  have hplace : (m.rename f).withoutEpsilon.subsets[k]? = m.withoutEpsilon.subsets[k]?.map fun s => s.image f := by
    rw [subsets_rename hf, List.getElem?_map]
  rw [getElem?_byPlace, getElem?_byPlace, hplace]
  cases hk : m.withoutEpsilon.subsets[k]? with
  | none => rw [Option.map_none, Option.bind_none, Option.bind_none]
  | some s =>
    have hs := m.mentioned_of_mem_subsets (List.mem_of_getElem? hk)
    rw [Option.map_some, Option.bind_some, Option.bind_some, move_withoutEpsilon_rename hf hs, StateSet.isEmpty_image,
      idxOf?_subsets_rename hf (m.mentioned_move_withoutEpsilon s c)]

end Injective

/-- **The names of the states do not matter.** Automata of the same shape have the same subset automaton: the same
numbers of states, accepting states and rules. -/
theorem toDfa_rename (m : Nfa) (f : State → State) (hf : Set.InjOn f {q | m.Mentions q}) :
    (m.rename f).toDfa = m.toDfa := by
  have hplaces : (m.rename f).withoutEpsilon.byPlace = m.withoutEpsilon.byPlace :=
    Dfa.mk.injEq .. ▸ ⟨rfl, accepts_byPlace_rename hf, rules_byPlace_rename hf⟩
  rw [toDfa_eq_determinize, toDfa_eq_determinize, determinize_eq_identified, hplaces, determinize_eq_identified]

/-- The star of a character, with its four states in the opposite order. -/
theorem toDfa_rename_star :
    let m := Nfa.star 2 3 (Nfa.character 0 1 'a')
    let f : State → State := fun q => 3 - q
    Set.InjOn f {q | m.Mentions q} ∧ (m.rename f).initial = 1 ∧ (m.rename f).toDfa = m.toDfa := by
  intro m f
  have hle : ∀ q, m.Mentions q → q ≤ 3 := by
    intro q hq
    rcases (mentions_star 2 3 _ q).1 hq with rfl | rfl | hq
    · decide
    · decide
    · rcases (mentions_character 0 1 'a' q).1 hq with rfl | rfl <;> decide
  have hopposite : ∀ q p : Nat, q ≤ 3 → p ≤ 3 → 3 - q = 3 - p → q = p := by omega
  have hf : Set.InjOn f {q | m.Mentions q} := fun q hq p hp heq => hopposite q p (hle q hq) (hle p hp) heq
  exact ⟨hf, rfl, toDfa_rename m f hf⟩

end Nfa

end PatternAutomata
