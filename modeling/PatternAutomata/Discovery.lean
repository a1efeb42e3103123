/-
Discovery of the nodes of a finite graph.

`Graph.discover` starts from a list of nodes and goes on layer by layer: the arrows out of each node of a layer are
followed in order, and the nodes met for the first time make up the next layer. The answer lists every node once, in the
order in which the nodes were first met, which is the order of a queue, and with each node what its expansion was, so
that nothing is expanded twice. With sets of states for nodes it gives the sets that the subset automaton is made of,
whose states are numbered by the places in this list.

- `mem_discover_iff`: what is discovered is what can be reached from the start.
- `nodup_discover`: nothing is listed twice.
- `Renames.discover`: a graph with renamed nodes is discovered in the same order.
- `discover_congr`: graphs that agree on what is reached discover the same.
-/
import Std.Data.ExtTreeSet
import PatternAutomata.Reachability

namespace PatternAutomata

/-- A graph given by the expansion of each node, off which the heads of its arrows are read; all of them are in one
finite list. The list is given on demand: it bounds the discovery, and running the discovery never asks for it. -/
structure Graph (α β : Type) where
  expand : α → β
  heads : β → List α
  targets : Unit → List α
  heads_mem : ∀ a b, b ∈ heads (expand a) → b ∈ targets ()

namespace Graph

variable {α β : Type}

/-- There is an arrow from the first node to the second. -/
def Arrow (g : Graph α β) (a b : α) : Prop := b ∈ g.heads (g.expand a)

/-- The nodes of a layer with their expansions. -/
def expandAll (g : Graph α β) (layer : List α) : List (α × β) := layer.map fun a => (a, g.expand a)

theorem mem_heads_expandAll (g : Graph α β) (layer : List α) (x : α) :
    x ∈ (g.expandAll layer).flatMap (fun node => g.heads node.2) ↔ ∃ a ∈ layer, g.Arrow a x := by
  rw [expandAll, List.flatMap_map, List.mem_flatMap]
  rfl

theorem mem_expanded (g : Graph α β) (done : List (α × β)) (layer : List α) (x : α) :
    x ∈ ((g.expandAll layer).reverse ++ done).map Prod.fst ↔ x ∈ layer ∨ x ∈ done.map Prod.fst := by
  rw [List.map_append, List.mem_append, List.map_reverse, List.mem_reverse, expandAll, List.map_map,
    show (Prod.fst ∘ fun a => (a, g.expand a)) = id from rfl, List.map_id]

section Renaming

variable {α' β' : Type}

/-- The second graph has the arrows of the first one between renamed nodes, as far as the nodes with a property go, and
arrows keep the property. -/
structure Renames (g : Graph α β) (h : Graph α' β') (property : α → Prop) (node : α → α') (expansion : β → β') :
    Prop where
  keep : ∀ x y, property x → g.Arrow x y → property y
  injective : ∀ x y, property x → property y → node x = node y → x = y
  expand : ∀ x, property x → h.expand (node x) = expansion (g.expand x)
  heads : ∀ x, property x → h.heads (expansion (g.expand x)) = (g.heads (g.expand x)).map node

variable {g : Graph α β} {h : Graph α' β'} {property : α → Prop} {node : α → α'} {expansion : β → β'}

theorem Renames.expandAll (hrenames : g.Renames h property node expansion) (layer : List α)
    (hlayer : ∀ x ∈ layer, property x) :
    h.expandAll (layer.map node) = (g.expandAll layer).map (Prod.map node expansion) := by
  rw [Graph.expandAll, Graph.expandAll, List.map_map, List.map_map]
  refine List.map_congr_left fun x hx => ?_
  exact congrArg (Prod.mk (node x)) (hrenames.expand x (hlayer x hx))

theorem Renames.heads_expandAll (hrenames : g.Renames h property node expansion) (layer : List α)
    (hlayer : ∀ x ∈ layer, property x) :
    (h.expandAll (layer.map node)).flatMap (fun entry => h.heads entry.2) =
      ((g.expandAll layer).flatMap fun entry => g.heads entry.2).map node := by
  rw [hrenames.expandAll layer hlayer, List.flatMap_map, List.map_flatMap, Graph.expandAll, List.flatMap_map,
    List.flatMap_map, List.flatMap_def, List.flatMap_def]
  refine congrArg List.flatten (List.map_congr_left fun x hx => ?_)
  exact hrenames.heads x (hlayer x hx)

end Renaming

variable [Ord α] [Std.TransOrd α]

/-- Looks at nodes in order: one that was not met joins the met ones and goes in front of `fresh`. -/
def meet (met : Std.ExtTreeSet α) (fresh : List α) : List α → Std.ExtTreeSet α × List α
  | [] => (met, fresh)
  | x :: rest => bif met.contains x then meet met fresh rest else meet (met.insert x) (x :: fresh) rest

/-- How many targets are not met. -/
def remaining (g : Graph α β) (met : Std.ExtTreeSet α) : Nat := ((g.targets ()).filter (· ∉ met)).length

/-- Follows the arrows out of a layer that was expanded: what is met then, and the nodes met for the first time, the
last one in front. -/
def advance (g : Graph α β) (met : Std.ExtTreeSet α) (expanded : List (α × β)) : Std.ExtTreeSet α × List α :=
  meet met [] (expanded.flatMap fun node => g.heads node.2)

section Meeting

variable [Std.LawfulEqOrd α]

theorem mem_meet_met (met : Std.ExtTreeSet α) (fresh nodes : List α) (x : α) :
    x ∈ (meet met fresh nodes).1 ↔ x ∈ met ∨ x ∈ nodes := by
  fun_induction meet met fresh nodes with
  | case1 => simp
  | case2 met fresh y rest hy ih =>
    rw [ih, List.mem_cons]
    grind
  | case3 met fresh y rest hy ih =>
    simp only [ih, Std.ExtTreeSet.mem_insert, Std.LawfulEqOrd.compare_eq_iff_eq, List.mem_cons]
    grind

theorem mem_meet_fresh (met : Std.ExtTreeSet α) (fresh nodes : List α) (x : α) :
    x ∈ (meet met fresh nodes).2 ↔ x ∈ fresh ∨ (x ∈ nodes ∧ ¬ x ∈ met) := by
  fun_induction meet met fresh nodes with
  | case1 => simp
  | case2 met fresh y rest hy ih =>
    rw [ih, List.mem_cons]
    grind
  | case3 met fresh y rest hy ih =>
    simp only [ih, Std.ExtTreeSet.mem_insert, Std.LawfulEqOrd.compare_eq_iff_eq, List.mem_cons]
    grind

theorem nodup_meet_fresh (met : Std.ExtTreeSet α) (fresh nodes : List α) (hfresh : fresh.Nodup)
    (hmet : ∀ x ∈ fresh, x ∈ met) : (meet met fresh nodes).2.Nodup := by
  fun_induction meet met fresh nodes with
  | case1 => exact hfresh
  | case2 met fresh y rest hy ih => exact ih hfresh hmet
  | case3 met fresh y rest hy ih =>
    refine ih (List.nodup_cons.2 ⟨fun h => Bool.false_ne_true (hy.symm.trans (hmet y h)), hfresh⟩) fun x hx => ?_
    rw [Std.ExtTreeSet.mem_insert, Std.LawfulEqOrd.compare_eq_iff_eq]
    rcases List.mem_cons.1 hx with rfl | hx
    · exact Or.inl rfl
    · exact Or.inr (hmet x hx)

theorem mem_advance_met (g : Graph α β) (met : Std.ExtTreeSet α) (layer : List α) (x : α) :
    x ∈ (g.advance met (g.expandAll layer)).1 ↔ x ∈ met ∨ ∃ a ∈ layer, g.Arrow a x := by
  rw [advance, mem_meet_met, mem_heads_expandAll]

theorem mem_advance_fresh (g : Graph α β) (met : Std.ExtTreeSet α) (layer : List α) (x : α) :
    x ∈ (g.advance met (g.expandAll layer)).2 ↔ (∃ a ∈ layer, g.Arrow a x) ∧ ¬ x ∈ met := by
  rw [advance, mem_meet_fresh, mem_heads_expandAll, or_iff_right List.not_mem_nil]

/-- Fewer targets remain after a layer with new nodes. -/
theorem remaining_advance_lt (g : Graph α β) (met : Std.ExtTreeSet α) (layer : List α)
    (h : ¬ (g.advance met (g.expandAll layer)).2.length = 0) :
    g.remaining (g.advance met (g.expandAll layer)).1 < g.remaining met := by
  obtain ⟨x, hx⟩ := List.exists_mem_of_ne_nil _ fun h0 => h (List.length_eq_zero_iff.2 h0)
  obtain ⟨⟨a, ha, hax⟩, hxm⟩ := (mem_advance_fresh ..).1 hx
  have hx1 := (mem_advance_met g met layer x).2 (Or.inr ⟨a, ha, hax⟩)
  have hsub : (g.targets ()).filter (fun y => decide (¬ y ∈ (g.advance met (g.expandAll layer)).1)) =
      ((g.targets ()).filter fun y => decide (¬ y ∈ met)).filter fun y =>
        decide (¬ y ∈ (g.advance met (g.expandAll layer)).1) := by
    rw [List.filter_filter]
    apply List.filter_congr
    intro y _
    by_cases hy : y ∈ met
    · simp [hy, (mem_advance_met g met layer y).2 (Or.inl hy)]
    · simp [hy]
  unfold remaining
  rw [hsub]
  exact List.length_filter_lt_length_iff_exists.2 ⟨x, by simp [g.heads_mem a x hax, hxm], by simp [hx1]⟩

end Meeting

/-- The discovery proper: `done` lists the nodes expanded so far, the last one in front, `layer` those to be expanded
next, and `met` holds them all. -/
def explore [Std.LawfulEqOrd α] (g : Graph α β) (met : Std.ExtTreeSet α) (done : List (α × β)) (layer : List α) :
    List (α × β) :=
  let expanded := g.expandAll layer
  let next := g.advance met expanded
  let done := expanded.reverse ++ done
  if _ : next.2.length = 0 then done.reverse else g.explore next.1 done next.2.reverse
termination_by g.remaining met
decreasing_by exact g.remaining_advance_lt met layer ‹_›

/-- Every node that can be reached from the start, once each, in order of discovery, with its expansion. -/
def discover [Std.LawfulEqOrd α] (g : Graph α β) (start : List α) : List (α × β) :=
  let first := meet ∅ [] start
  g.explore first.1 [] first.2.reverse

/-! ## What is discovered -/

variable [Std.LawfulEqOrd α]

/-- With each node comes its expansion. -/
theorem explore_expansion (g : Graph α β) (met : Std.ExtTreeSet α) (done : List (α × β)) (layer : List α)
    (h : ∀ node ∈ done, node.2 = g.expand node.1) : ∀ node ∈ g.explore met done layer, node.2 = g.expand node.1 := by
  have hexpanded : ∀ (layer : List α) (done : List (α × β)), (∀ node ∈ done, node.2 = g.expand node.1) →
      ∀ node ∈ (g.expandAll layer).reverse ++ done, node.2 = g.expand node.1 := by
    intro layer done h node hnode
    rcases List.mem_append.1 hnode with hnode | hnode
    · obtain ⟨a, -, rfl⟩ := List.mem_map.1 (List.mem_reverse.1 hnode)
      rfl
    · exact h node hnode
  fun_induction explore g met done layer with
  | case1 met done layer => exact fun node hnode => hexpanded layer done h node (List.mem_reverse.1 hnode)
  | case2 met done layer expanded next done' _ ih => exact ih (hexpanded layer done h)

theorem subset_explore (g : Graph α β) (met : Std.ExtTreeSet α) (done : List (α × β)) (layer : List α) (x : α)
    (hx : x ∈ layer ∨ x ∈ done.map Prod.fst) : x ∈ (g.explore met done layer).map Prod.fst := by
  fun_induction explore g met done layer with
  | case1 met done layer =>
    rw [List.map_reverse, List.mem_reverse]
    exact (g.mem_expanded ..).2 hx
  | case2 met done layer expanded next done' _ ih => exact ih (Or.inr ((g.mem_expanded ..).2 hx))

theorem explore_closed (g : Graph α β) (met : Std.ExtTreeSet α) (done : List (α × β)) (layer : List α)
    (hmet : ∀ x, x ∈ met → x ∈ layer ∨ x ∈ done.map Prod.fst)
    (hdone : ∀ x ∈ done.map Prod.fst, ∀ y, g.Arrow x y → y ∈ layer ∨ y ∈ done.map Prod.fst) :
    ∀ x ∈ (g.explore met done layer).map Prod.fst, ∀ y, g.Arrow x y → y ∈ (g.explore met done layer).map Prod.fst := by
  fun_induction explore g met done layer with
  | case1 met done layer expanded next done' h =>
    intro x hx y hxy
    rw [List.map_reverse, List.mem_reverse] at hx ⊢
    refine (g.mem_expanded ..).2 ?_
    rcases (g.mem_expanded ..).1 hx with hl | hd
    · have hy : ¬ y ∈ next.2 := by rw [List.length_eq_zero_iff.1 h]; exact List.not_mem_nil
      rw [mem_advance_fresh] at hy
      exact hmet y (Classical.not_not.1 fun hm => hy ⟨⟨x, hl, hxy⟩, hm⟩)
    · exact hdone x hd y hxy
  | case2 met done layer expanded next done' h ih =>
    have hnew : ∀ y, (y ∈ met ∨ ∃ x ∈ layer, g.Arrow x y) → y ∈ next.2.reverse ∨ y ∈ done'.map Prod.fst := by
      intro y hy
      by_cases hm : y ∈ met
      · exact Or.inr ((g.mem_expanded ..).2 (hmet y hm))
      · exact Or.inl (List.mem_reverse.2 ((mem_advance_fresh ..).2 ⟨hy.resolve_left hm, hm⟩))
    apply ih
    · exact fun x hx => hnew x ((mem_advance_met ..).1 hx)
    · intro x hx y hxy
      rcases (g.mem_expanded ..).1 hx with hl | hd
      · exact hnew y (Or.inr ⟨x, hl, hxy⟩)
      · exact Or.inr ((g.mem_expanded ..).2 (hdone x hd y hxy))

theorem reaches_of_mem_explore (g : Graph α β) (start : List α) (met : Std.ExtTreeSet α) (done : List (α × β))
    (layer : List α) (h : ∀ x, x ∈ layer ∨ x ∈ done.map Prod.fst → ∃ s ∈ start, Reaches g.Arrow s x) :
    ∀ x ∈ (g.explore met done layer).map Prod.fst, ∃ s ∈ start, Reaches g.Arrow s x := by
  fun_induction explore g met done layer with
  | case1 met done layer =>
    intro x hx
    rw [List.map_reverse, List.mem_reverse] at hx
    exact h x ((g.mem_expanded ..).1 hx)
  | case2 met done layer expanded next done' _ ih =>
    apply ih
    intro x h
    rcases h with hx | hx
    · obtain ⟨⟨a, ha, hax⟩, -⟩ := (mem_advance_fresh ..).1 (List.mem_reverse.1 hx)
      obtain ⟨s, hs, hr⟩ := h a (Or.inl ha)
      exact ⟨s, hs, hr.tail hax⟩
    · exact h x ((g.mem_expanded ..).1 hx)

theorem nodup_explore (g : Graph α β) (met : Std.ExtTreeSet α) (done : List (α × β)) (layer : List α)
    (hmet : ∀ x, x ∈ layer ∨ x ∈ done.map Prod.fst → x ∈ met) (h : (layer ++ done.map Prod.fst).Nodup) :
    ((g.explore met done layer).map Prod.fst).Nodup := by
  have hexpanded : ∀ (layer : List α) (done : List (α × β)), (layer ++ done.map Prod.fst).Nodup →
      (((g.expandAll layer).reverse ++ done).map Prod.fst).Nodup := by
    intro layer done h
    rw [List.map_append, List.map_reverse, expandAll, List.map_map,
      show (Prod.fst ∘ fun a => (a, g.expand a)) = id from rfl, List.map_id]
    exact (((List.reverse_perm layer).append_right _).nodup_iff).2 h
  fun_induction explore g met done layer with
  | case1 met done layer =>
    rw [List.map_reverse, (List.reverse_perm _).nodup_iff]
    exact hexpanded layer done h
  | case2 met done layer expanded next done' _ ih =>
    apply ih
    · intro x hx
      rw [mem_advance_met]
      rcases hx with hx | hx
      · exact Or.inr ((mem_advance_fresh ..).1 (List.mem_reverse.1 hx)).1
      · exact Or.inl (hmet x ((g.mem_expanded ..).1 hx))
    · refine List.nodup_append.2 ⟨?_, hexpanded layer done h, ?_⟩
      · exact (List.reverse_perm _).nodup_iff.2 (nodup_meet_fresh _ _ _ List.nodup_nil (by simp))
      · rintro x hx y hy rfl
        exact ((mem_advance_fresh ..).1 (List.mem_reverse.1 hx)).2 (hmet x ((g.mem_expanded ..).1 hy))

theorem mem_meet_start (start : List α) (x : α) :
    (x ∈ (meet ∅ [] start).1 ↔ x ∈ start) ∧ (x ∈ (meet ∅ [] start).2.reverse ↔ x ∈ start) := by
  rw [List.mem_reverse, mem_meet_met, mem_meet_fresh]
  simp

/-- What is discovered is what can be reached from the start. -/
theorem mem_discover_iff (g : Graph α β) (start : List α) (x : α) :
    x ∈ (g.discover start).map Prod.fst ↔ ∃ s ∈ start, Reaches g.Arrow s x := by
  have hstart := mem_meet_start start
  refine ⟨?_, ?_⟩
  · refine g.reaches_of_mem_explore start _ _ _ ?_ x
    intro x h
    rcases h with hx | hx
    · exact ⟨x, (hstart x).2.1 hx, .refl⟩
    · exact absurd hx List.not_mem_nil
  · intro h
    obtain ⟨s, hs, hr⟩ := h
    induction hr with
    | refl => exact g.subset_explore _ _ _ s (Or.inl ((hstart s).2.2 hs))
    | tail _ hy ih =>
      refine g.explore_closed _ _ _ (fun x hx => Or.inl ((hstart x).2.2 ((hstart x).1.1 hx))) ?_ _ ih _ hy
      exact fun x hx => absurd hx List.not_mem_nil

/-- Nothing is discovered twice. -/
theorem nodup_discover (g : Graph α β) (start : List α) : ((g.discover start).map Prod.fst).Nodup := by
  have hstart := mem_meet_start start
  refine g.nodup_explore _ _ _ ?_ ?_
  · intro x h
    rcases h with hx | hx
    · exact (hstart x).1.2 ((hstart x).2.1 hx)
    · exact absurd hx List.not_mem_nil
  · rw [List.map_nil, List.append_nil]
    exact (List.reverse_perm _).nodup_iff.2 (nodup_meet_fresh _ _ _ List.nodup_nil (by simp))

/-- With each discovered node comes its expansion. -/
theorem discover_expansion (g : Graph α β) (start : List α) :
    ∀ node ∈ g.discover start, node.2 = g.expand node.1 :=
  g.explore_expansion _ _ _ fun _ h => absurd h List.not_mem_nil

theorem prefix_explore (g : Graph α β) (met : Std.ExtTreeSet α) (done : List (α × β)) (layer : List α) :
    done.reverse ++ g.expandAll layer <+: g.explore met done layer := by
  fun_induction explore g met done layer with
  | case1 met done layer expanded next done' _ =>
    have hdone : (expanded.reverse ++ done).reverse = done.reverse ++ expanded := by
      rw [List.reverse_append, List.reverse_reverse]
    exact hdone ▸ List.prefix_rfl
  | case2 met done layer expanded next done' _ ih =>
    rw [List.reverse_append, List.reverse_reverse] at ih
    exact (List.prefix_append _ _).trans ih

/-- The node that the discovery starts from comes first. -/
theorem getElem?_discover_zero (g : Graph α β) (a : α) : (g.discover [a])[0]? = some (a, g.expand a) := by
  obtain ⟨later, hlater⟩ := g.prefix_explore (meet ∅ [] [a]).1 [] (meet ∅ [] [a]).2.reverse
  have hfirst : (meet (∅ : Std.ExtTreeSet α) [] [a]).2.reverse = [a] := by simp [meet]
  rw [hfirst] at hlater
  rw [discover, hfirst, ← hlater]
  rfl

/-! ## Renamed graphs -/

section Renaming

variable {α' β' : Type} {g : Graph α β} {h : Graph α' β'} {property : α → Prop} {node : α → α'} {expansion : β → β'}
  [Ord α'] [Std.TransOrd α'] [Std.LawfulEqOrd α']

/-- The renamed nodes that are met are those that correspond. -/
def Corresponds (property : α → Prop) (node : α → α') (met : Std.ExtTreeSet α) (met' : Std.ExtTreeSet α') : Prop :=
  ∀ x, property x → (node x ∈ met' ↔ x ∈ met)

theorem Corresponds.meet {met : Std.ExtTreeSet α} {met' : Std.ExtTreeSet α'}
    (hmet : Corresponds property node met met') (hinj : ∀ x y, property x → property y → node x = node y → x = y)
    (fresh nodes : List α) (hnodes : ∀ x ∈ nodes, property x) :
    Corresponds property node (meet met fresh nodes).1 (meet met' (fresh.map node) (nodes.map node)).1 ∧
      (meet met' (fresh.map node) (nodes.map node)).2 = (meet met fresh nodes).2.map node := by
  refine ⟨fun x hx => ?_, ?_⟩
  · have hnode : node x ∈ nodes.map node ↔ x ∈ nodes := by
      refine ⟨fun h => ?_, List.mem_map_of_mem⟩
      obtain ⟨y, hy, heq⟩ := List.mem_map.1 h
      exact hinj y x (hnodes y hy) hx heq ▸ hy
    rw [mem_meet_met, mem_meet_met, hmet x hx, hnode]
  · induction nodes generalizing met met' fresh with
    | nil => rfl
    | cons y rest ih =>
      have hy := hnodes y List.mem_cons_self
      have hrest : ∀ x ∈ rest, property x := fun x hx => hnodes x (List.mem_cons_of_mem y hx)
      have hcontains : met'.contains (node y) = met.contains y := Bool.eq_iff_iff.2 (hmet y hy)
      rw [List.map_cons, Graph.meet, Graph.meet, hcontains]
      cases met.contains y with
      | true => exact ih hmet fresh hrest
      | false =>
        refine ih (fun x hx => ?_) (y :: fresh) hrest
        simp only [Std.ExtTreeSet.mem_insert, Std.LawfulEqOrd.compare_eq_iff_eq, hmet x hx]
        exact or_congr_left ⟨hinj y x hy hx, congrArg node⟩

theorem Renames.advance (hrenames : g.Renames h property node expansion) {met : Std.ExtTreeSet α}
    {met' : Std.ExtTreeSet α'} (hmet : Corresponds property node met met') (layer : List α)
    (hlayer : ∀ x ∈ layer, property x) :
    Corresponds property node (g.advance met (g.expandAll layer)).1 (h.advance met' (h.expandAll (layer.map node))).1 ∧
      (h.advance met' (h.expandAll (layer.map node))).2 = (g.advance met (g.expandAll layer)).2.map node := by
  rw [Graph.advance, Graph.advance, hrenames.heads_expandAll layer hlayer]
  refine hmet.meet hrenames.injective [] _ fun y hy => ?_
  obtain ⟨x, hx, hxy⟩ := (g.mem_heads_expandAll layer y).1 hy
  exact hrenames.keep x y (hlayer x hx) hxy

theorem Renames.explore (hrenames : g.Renames h property node expansion) (met : Std.ExtTreeSet α)
    (met' : Std.ExtTreeSet α') (hmet : Corresponds property node met met') (done : List (α × β)) (layer : List α)
    (hlayer : ∀ x ∈ layer, property x) :
    h.explore met' (done.map (Prod.map node expansion)) (layer.map node) =
      (g.explore met done layer).map (Prod.map node expansion) := by
  have hdone : ∀ (layer : List α) (done : List (α × β)), (∀ x ∈ layer, property x) →
      (h.expandAll (layer.map node)).reverse ++ done.map (Prod.map node expansion) =
        ((g.expandAll layer).reverse ++ done).map (Prod.map node expansion) := by
    intro layer done hlayer
    rw [hrenames.expandAll layer hlayer, List.map_append, List.map_reverse]
  fun_induction Graph.explore g met done layer generalizing met' with
  | case1 met done layer expanded next done' hend =>
    have hend' : (h.advance met' (h.expandAll (layer.map node))).2.length = 0 := by
      rw [(hrenames.advance hmet layer hlayer).2, List.length_map]
      exact hend
    rw [Graph.explore, dif_pos hend', hdone layer done hlayer, List.map_reverse]
  | case2 met done layer expanded next done' hend ih =>
    obtain ⟨hmet', hfresh⟩ := hrenames.advance hmet layer hlayer
    have hend' : ¬ (h.advance met' (h.expandAll (layer.map node))).2.length = 0 := by
      rw [hfresh, List.length_map]
      exact hend
    rw [Graph.explore, dif_neg hend', hdone layer done hlayer, hfresh, ← List.map_reverse]
    refine ih _ hmet' fun y hy => ?_
    obtain ⟨⟨x, hx, hxy⟩, -⟩ := (mem_advance_fresh ..).1 (List.mem_reverse.1 hy)
    exact hrenames.keep x y (hlayer x hx) hxy

/-- A renamed graph is discovered in the same order. -/
theorem Renames.discover (hrenames : g.Renames h property node expansion) (start : List α)
    (hstart : ∀ x ∈ start, property x) :
    h.discover (start.map node) = (g.discover start).map (Prod.map node expansion) := by
  have hnone : Corresponds property node (∅ : Std.ExtTreeSet α) (∅ : Std.ExtTreeSet α') :=
    fun x _ => iff_of_false Std.ExtTreeSet.not_mem_empty Std.ExtTreeSet.not_mem_empty
  obtain ⟨hmet, hfresh⟩ := hnone.meet hrenames.injective [] start hstart
  rw [List.map_nil] at hmet hfresh
  rw [Graph.discover, Graph.discover, hfresh, ← List.map_reverse]
  exact hrenames.explore _ _ hmet [] _ fun x hx => hstart x ((mem_meet_start start x).2.1 hx)

end Renaming

/-- Graphs that agree on all nodes with a property that arrows keep discover the same. -/
theorem discover_congr (g h : Graph α β) (property : α → Prop) (start : List α) (hstart : ∀ x ∈ start, property x)
    (hkeep : ∀ x y, property x → g.Arrow x y → property y) (hheads : g.heads = h.heads)
    (hexpand : ∀ x, property x → g.expand x = h.expand x) : g.discover start = h.discover start := by
  have hrenames : g.Renames h property id id :=
    ⟨hkeep, fun _ _ _ _ heq => heq, fun x hx => (hexpand x hx).symm, fun x _ => by rw [List.map_id, hheads]; rfl⟩
  have hdiscover := hrenames.discover start hstart
  rw [List.map_id, Prod.map_id, List.map_id] at hdiscover
  exact hdiscover.symm

end Graph

end PatternAutomata
