/-
The order of discovery.

The nodes of a graph are discovered in the order of a queue. That is told without layers: what is discovered is the list of
everything that is met, the start first and then the heads of the arrows out of one discovered node after the other, with
each node kept where it was met first (`eraseDups_discover`). A node is therefore met from the nodes before it
(`isPrefix_eraseDups_take`), and as long as nodes are left, those that are done have met one that is not
(`lt_length_eraseDups_take`).
-/
import PatternAutomata.Discovery

namespace PatternAutomata.Graph

variable {α β : Type}

/-- Everything that is met on the way, as often as it is met: the start, then the heads of the arrows out of the nodes. -/
def encounters (g : Graph α β) (start nodes : List α) : List α := start ++ nodes.flatMap fun a => g.heads (g.expand a)

theorem encounters_append (g : Graph α β) (start nodes later : List α) :
    g.encounters start (nodes ++ later) =
      g.encounters start nodes ++ later.flatMap fun a => g.heads (g.expand a) := by
  rw [encounters, encounters, List.flatMap_append, List.append_assoc]

/-! ## Keeping the first of equal items -/

section

variable [DecidableEq α]

theorem eraseDups_concat (l : List α) (x : α) :
    (l ++ [x]).eraseDups = if x ∈ l then l.eraseDups else l.eraseDups ++ [x] := by
  rw [List.eraseDups_append, List.cons_removeAll, List.nil_removeAll]
  by_cases h : x ∈ l
  · simp [h]
  · simp [h, List.eraseDups_cons]

theorem isPrefix_eraseDups (l rest : List α) : l.eraseDups <+: (l ++ rest).eraseDups := by
  rw [List.eraseDups_append]
  exact List.prefix_append ..

end

variable [DecidableEq α] [Ord α] [Std.TransOrd α] [Std.LawfulEqOrd α]

/-- What is met first goes behind what was met before. -/
theorem eraseDups_meet (met : Std.ExtTreeSet α) (fresh nodes seen before : List α) (hmet : ∀ x, x ∈ met ↔ x ∈ seen)
    (hseen : seen.eraseDups = before ++ fresh.reverse) :
    (seen ++ nodes).eraseDups = before ++ (meet met fresh nodes).2.reverse := by
  fun_induction meet met fresh nodes generalizing seen with
  | case1 met fresh => rw [List.append_nil, hseen]
  | case2 met fresh y rest hy ih =>
    have hmem : y ∈ seen := (hmet y).1 hy
    have hsame : ∀ x, x ∈ met ↔ x ∈ seen ++ [y] := by
      intro x
      rw [hmet, List.mem_append, List.mem_singleton]
      exact ⟨Or.inl, fun h => h.elim id fun h => h ▸ hmem⟩
    have hkept : (seen ++ [y]).eraseDups = before ++ fresh.reverse := by
      rw [eraseDups_concat, if_pos hmem, hseen]
    simpa using ih (seen ++ [y]) hsame hkept
  | case3 met fresh y rest hy ih =>
    have hnot : ¬ y ∈ seen := fun h => Bool.false_ne_true (hy.symm.trans ((hmet y).2 h))
    have hmore : ∀ x, x ∈ met.insert y ↔ x ∈ seen ++ [y] := by
      intro x
      rw [Std.ExtTreeSet.mem_insert, Std.LawfulEqOrd.compare_eq_iff_eq, hmet, List.mem_append, List.mem_singleton,
        or_comm, eq_comm]
    have hadded : (seen ++ [y]).eraseDups = before ++ (y :: fresh).reverse := by
      rw [eraseDups_concat, if_neg hnot, hseen, List.reverse_cons, List.append_assoc]
    simpa using ih (seen ++ [y]) hmore hadded

/-! ## The order of a whole discovery -/

theorem eraseDups_explore (g : Graph α β) (start : List α) (met : Std.ExtTreeSet α) (done : List (α × β))
    (layer : List α) (hmet : ∀ x, x ∈ met ↔ x ∈ g.encounters start (done.reverse.map Prod.fst))
    (hseen : (g.encounters start (done.reverse.map Prod.fst)).eraseDups = done.reverse.map Prod.fst ++ layer) :
    (g.encounters start ((g.explore met done layer).map Prod.fst)).eraseDups =
      (g.explore met done layer).map Prod.fst := by
  -- the layer is behind what is done, and what it leads to is behind the layer
  have hdone : ∀ (done : List (α × β)) (layer : List α),
      ((g.expandAll layer).reverse ++ done).reverse.map Prod.fst = done.reverse.map Prod.fst ++ layer := by
    intro done layer
    simp [expandAll, Function.comp_def]
  have hheads : ∀ layer : List α, (g.expandAll layer).flatMap (fun node => g.heads node.2) =
      layer.flatMap fun a => g.heads (g.expand a) := fun layer => List.flatMap_map ..
  have hnext : ∀ (met : Std.ExtTreeSet α) (done : List (α × β)) (layer : List α),
      (∀ x, x ∈ met ↔ x ∈ g.encounters start (done.reverse.map Prod.fst)) →
      (g.encounters start (done.reverse.map Prod.fst)).eraseDups = done.reverse.map Prod.fst ++ layer →
      (g.encounters start (((g.expandAll layer).reverse ++ done).reverse.map Prod.fst)).eraseDups =
        ((g.expandAll layer).reverse ++ done).reverse.map Prod.fst ++
          (g.advance met (g.expandAll layer)).2.reverse := by
    intro met done layer hmet hseen
    rw [hdone, encounters_append, advance, hheads]
    exact eraseDups_meet met [] _ _ _ hmet (by rw [hseen, List.reverse_nil, List.append_nil])
  fun_induction explore g met done layer with
  | case1 met done layer expanded next done' hend =>
    rw [hnext met done layer hmet hseen, List.length_eq_zero_iff.1 hend, List.reverse_nil, List.append_nil]
  | case2 met done layer expanded next done' hend ih =>
    refine ih (fun x => ?_) (hnext met done layer hmet hseen)
    rw [hdone, encounters_append, List.mem_append, mem_advance_met, hmet, List.mem_flatMap]
    rfl

variable (g : Graph α β) (start : List α)

/-- What is discovered is everything that is met, in the order in which it was met first. -/
theorem eraseDups_discover :
    (g.encounters start ((g.discover start).map Prod.fst)).eraseDups = (g.discover start).map Prod.fst := by
  have hfirst := eraseDups_meet (∅ : Std.ExtTreeSet α) [] start [] [] (by simp) rfl
  refine g.eraseDups_explore start _ [] _ (fun x => ?_) ?_
  · rw [(mem_meet_start start x).1]
    simp [encounters]
  · simpa [encounters] using hfirst

/-- What the first nodes meet comes first. -/
theorem isPrefix_eraseDups_take (k : Nat) :
    (g.encounters start (((g.discover start).map Prod.fst).take k)).eraseDups <+: (g.discover start).map Prod.fst := by
  have hbegin : ∀ nodes : List α,
      (g.encounters start (nodes.take k)).eraseDups <+: (g.encounters start nodes).eraseDups := by
    intro nodes
    have hsplit := g.encounters_append start (nodes.take k) (nodes.drop k)
    rw [List.take_append_drop] at hsplit
    rw [hsplit]
    exact isPrefix_eraseDups ..
  have hall := hbegin ((g.discover start).map Prod.fst)
  rwa [g.eraseDups_discover start] at hall

/-- As long as nodes are left, those that are done have met one that is not: else nothing more could be reached. -/
theorem lt_length_eraseDups_take (k : Nat) (hk : k < (g.discover start).length) :
    k < (g.encounters start (((g.discover start).map Prod.fst).take k)).eraseDups.length := by
  apply Classical.byContradiction
  intro hnot
  have hbegin := List.prefix_take_iff.2 ⟨g.isPrefix_eraseDups_take start k, Nat.le_of_not_lt hnot⟩
  have hmet : ∀ x, x ∈ g.encounters start (((g.discover start).map Prod.fst).take k) →
      x ∈ ((g.discover start).map Prod.fst).take k := fun x hx => hbegin.mem (List.mem_eraseDups.2 hx)
  have hreached : ∀ x, x ∈ (g.discover start).map Prod.fst → x ∈ ((g.discover start).map Prod.fst).take k := by
    intro x hx
    obtain ⟨s, hs, hr⟩ := (g.mem_discover_iff start x).1 hx
    induction hr with
    | refl => exact hmet s (List.mem_append_left _ hs)
    | tail hr hstep ih =>
      have hbefore := ih ((g.mem_discover_iff start _).2 ⟨s, hs, hr⟩)
      exact hmet _ (List.mem_append_right _ (List.mem_flatMap.2 ⟨_, hbefore, hstep⟩))
  have hlen := (g.nodup_discover start).length_le_of_subset hreached
  rw [List.length_take, List.length_map] at hlen
  omega

end PatternAutomata.Graph
