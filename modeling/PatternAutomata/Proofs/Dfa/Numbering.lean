/-
The numbers of the states of the subset automaton.

Up to the number of identifiers, the states of the subset automaton are the places of its sets (`byPlace`). The rules
between places are told as a list of moves: from one place after the other, by one character after the other (`log`).
The sets that such a list leads to, each where it is met first, are the sets that are known by then; those of the whole
list are the states, in the order of their numbers (`met_log_length`). So a state is numbered by the first move that leads
to it: that move comes from a state with a smaller number, and it comes before the first move that leads to the next state
(`exists_isLeast_into`).
-/
import Mathlib.Data.Char
import Mathlib.Data.List.Induction
import Mathlib.Data.List.Nodup
import Mathlib.Data.Prod.Lex
import Mathlib.Order.Bounds.Defs
import PatternAutomata.Proofs.Dfa.Trim
import PatternAutomata.Proofs.Discovery

namespace PatternAutomata

/-- The sources and characters of the rules that lead to a state, in lexicographic order. -/
def Dfa.into (d : Dfa) (p : State) : Set (State ×ₗ Char) := {key | d.transition? (ofLex key).1 (ofLex key).2 = some p}

namespace Nfa

/-! ## The alphabet -/

theorem sorted_alphabet (m : Nfa) : m.alphabet.Pairwise fun a b => compare a b = .lt := by
  rw [alphabet, Rules.alphabet]
  exact Std.ExtTreeSet.ordered_toList

/-- Only characters of the alphabet lead anywhere. -/
theorem mem_alphabet_of_isEmpty_move (m : Nfa) (s : StateSet) (c : Char) (h : (m.move s c).isEmpty = false) :
    c ∈ m.alphabet := by
  obtain ⟨p, hp⟩ := (StateSet.isEmpty_eq_false_iff _).1 h
  obtain ⟨q, -, hrule⟩ := (m.mem_move_iff s c p).1 hp
  have hkey : (q, Symbol.char c) ∈ m.rules := by
    refine Classical.byContradiction fun hno => StateSet.not_mem_empty p ?_
    rwa [Rules.destinations, Std.ExtTreeMap.getElem?_eq_none hno] at hrule
  rw [alphabet, Rules.alphabet, Std.ExtTreeSet.mem_toList, Std.ExtTreeSet.mem_ofList, List.contains_iff_mem,
    List.mem_filterMap]
  exact ⟨(q, .char c), Std.ExtTreeMap.mem_keys.2 hkey, rfl⟩

/-! ## The moves, one after the other -/

/-- A character leads from a state of the subset automaton to a set. -/
structure Move where
  key : State × Char
  target : StateSet

/-- Where characters lead from the set at a place, as far as they lead anywhere. -/
def movesFrom (m : Nfa) (k : State) (s : StateSet) (characters : List Char) : List Move :=
  characters.filterMap fun c => if (m.move s c).isEmpty then none else some ⟨(k, c), m.move s c⟩

/-- The moves from the first places, each by all characters. -/
def log (m : Nfa) (places : Nat) : List Move :=
  (m.subsets.zipIdx.take places).flatMap fun (s, k) => m.movesFrom k s m.alphabet

theorem mem_movesFrom (m : Nfa) (k : State) (s : StateSet) (characters : List Char) (move : Move) :
    move ∈ m.movesFrom k s characters ↔
      ∃ c ∈ characters, (m.move s c).isEmpty = false ∧ move = ⟨(k, c), m.move s c⟩ := by
  rw [movesFrom, List.mem_filterMap]
  refine exists_congr fun c => and_congr_right fun _ => ?_
  cases (m.move s c).isEmpty <;> simp [eq_comm]

theorem movesFrom_append (m : Nfa) (k : State) (s : StateSet) (characters later : List Char) :
    m.movesFrom k s (characters ++ later) = m.movesFrom k s characters ++ m.movesFrom k s later :=
  List.filterMap_append

theorem mem_log (m : Nfa) (places : Nat) (move : Move) :
    move ∈ m.log places ↔
      ∃ k s c, k < places ∧ m.subsets[k]? = some s ∧ (m.move s c).isEmpty = false ∧ move = ⟨(k, c), m.move s c⟩ := by
  have hentry : ∀ s k, (s, k) ∈ m.subsets.zipIdx.take places ↔ k < places ∧ m.subsets[k]? = some s := by
    intro s k
    simp only [List.mem_take_iff_getElem, List.getElem_zipIdx, Prod.mk.injEq, List.length_zipIdx, Nat.zero_add,
      List.getElem?_eq_some_iff]
    grind
  simp only [log, List.mem_flatMap, mem_movesFrom, Prod.exists, hentry]
  refine ⟨?_, ?_⟩
  · rintro ⟨s, k, ⟨hlt, hk⟩, c, -, hc, rfl⟩
    exact ⟨k, s, c, hlt, hk, hc, rfl⟩
  · rintro ⟨k, s, c, hlt, hk, hc, rfl⟩
    exact ⟨s, k, ⟨hlt, hk⟩, c, m.mem_alphabet_of_isEmpty_move s c hc, hc, rfl⟩

theorem log_succ (m : Nfa) (k : State) (s : StateSet) (hk : m.subsets[k]? = some s) :
    m.log (k + 1) = m.log k ++ m.movesFrom k s m.alphabet := by
  have hentry : m.subsets.zipIdx[k]? = some (s, k) := by
    rw [List.getElem?_zipIdx, hk, Option.map_some, Nat.zero_add]
  rw [log, List.take_add_one, hentry, List.flatMap_append]
  simp [log]

theorem sorted_movesFrom (m : Nfa) (k : State) (s : StateSet) :
    (m.movesFrom k s m.alphabet).Pairwise fun x y => compare x.key.2 y.key.2 = .lt := by
  rw [movesFrom, List.pairwise_filterMap]
  refine m.sorted_alphabet.imp fun {a b} hlt x hx y hy => ?_
  obtain ⟨-, rfl⟩ : (m.move s a).isEmpty = false ∧ ⟨(k, a), m.move s a⟩ = x := by simpa using hx
  obtain ⟨-, rfl⟩ : (m.move s b).isEmpty = false ∧ ⟨(k, b), m.move s b⟩ = y := by simpa using hy
  exact hlt

/-- The targets of the moves from a set are read off its joined rows. -/
theorem map_target_movesFrom (m : Nfa) (k : State) (s : StateSet) :
    (m.movesFrom k s m.alphabet).map Move.target = (moves m.rules.rows s).toList.map Prod.snd := by
  have hrow : (moves m.rules.rows s).toList =
      (m.movesFrom k s m.alphabet).map fun move => (move.key.2, move.target) := by
    refine eq_of_ascending Std.ExtTreeMap.ordered_keys_toList (List.pairwise_map.2 (m.sorted_movesFrom k s)) ?_
    rintro ⟨c, next⟩
    simp only [Std.ExtTreeMap.mem_toList_iff_getElem?_eq_some, getElem?_moves, Option.ite_none_left_eq_some,
      Bool.not_eq_true, Option.some.injEq, List.mem_map, mem_movesFrom]
    refine ⟨?_, ?_⟩
    · rintro ⟨hne, rfl⟩
      exact ⟨⟨(k, c), m.move s c⟩, ⟨c, m.mem_alphabet_of_isEmpty_move s c hne, hne, rfl⟩, rfl⟩
    · rintro ⟨move, ⟨d, -, hne, rfl⟩, heq⟩
      obtain ⟨rfl, rfl⟩ := Prod.mk.inj heq
      exact ⟨hne, rfl⟩
  rw [hrow, List.map_map]
  rfl

/-! ## What moves meet -/

/-- The sets that moves lead to, each where it is met first, behind the set that the discovery starts with. -/
def met (m : Nfa) (moves : List Move) : List StateSet := ({m.initial} :: moves.map Move.target).eraseDups

theorem met_concat (m : Nfa) (moves : List Move) (move : Move) :
    m.met (moves ++ [move]) =
      if move.target ∈ m.met moves then m.met moves else m.met moves ++ [move.target] := by
  simp only [met, List.map_append, List.map_singleton, ← List.cons_append, Graph.eraseDups_concat, List.mem_eraseDups]

theorem mem_met_of_mem (m : Nfa) {moves : List Move} {move : Move} (h : move ∈ moves) : move.target ∈ m.met moves :=
  List.mem_eraseDups.2 (List.mem_cons_of_mem _ (List.mem_map_of_mem h))

theorem isPrefix_met (m : Nfa) (moves later : List Move) : m.met moves <+: m.met (moves ++ later) := by
  rw [met, met, List.map_append]
  exact Graph.isPrefix_eraseDups ({m.initial} :: moves.map Move.target) _

theorem nodup_met (m : Nfa) (moves : List Move) : (m.met moves).Nodup := by
  induction moves using List.reverseRecOn with
  | nil => exact List.nodup_singleton _
  | append_singleton moves move ih =>
    rw [met_concat]
    split
    · exact ih
    · rename_i hnot
      exact List.concat_eq_append ▸ ih.concat hnot

/-- What is met keeps its place, whatever is met later. -/
theorem getElem?_met_append_iff (m : Nfa) {moves : List Move} {s : StateSet} (hs : s ∈ m.met moves) (later : List Move)
    (k : Nat) : (m.met (moves ++ later))[k]? = some s ↔ (m.met moves)[k]? = some s := by
  have hbegin := List.prefix_iff_getElem?.1 (m.isPrefix_met moves later)
  obtain ⟨i, hi, rfl⟩ := List.getElem_of_mem hs
  refine ⟨fun hk => ?_, fun hk => ?_⟩
  · have hlt := (List.getElem?_eq_some_iff.1 (hbegin i hi)).1
    obtain rfl := (List.getElem?_inj hlt (m.nodup_met _)).1 ((hbegin i hi).trans hk.symm)
    exact List.getElem?_eq_getElem hi
  · obtain ⟨hlt, heq⟩ := List.getElem?_eq_some_iff.1 hk
    rw [hbegin k hlt, heq]

/-- What the first places lead to comes in the order of discovery. -/
theorem met_log (m : Nfa) (places : Nat) :
    m.met (m.log places) =
      ((subsetGraph m.rules.rows).encounters [{m.initial}] (m.subsets.take places)).eraseDups := by
  have htargets : (m.log places).map Move.target =
      (m.subsets.take places).flatMap fun s => (moves m.rules.rows s).toList.map Prod.snd := by
    calc (m.log places).map Move.target
        = (m.subsets.zipIdx.take places).flatMap fun entry => (moves m.rules.rows entry.1).toList.map Prod.snd := by
          rw [log, List.map_flatMap]
          simp only [map_target_movesFrom]
      _ = ((m.subsets.zipIdx.take places).map Prod.fst).flatMap fun s => (moves m.rules.rows s).toList.map Prod.snd :=
          by rw [List.flatMap_map]
      _ = (m.subsets.take places).flatMap fun s => (moves m.rules.rows s).toList.map Prod.snd := by
          rw [List.map_take, List.zipIdx_map_fst]
  rw [met, htargets]
  rfl

/-- In the end all sets are met, in the order of their places. -/
theorem met_log_length (m : Nfa) : m.met (m.log m.subsets.length) = m.subsets := by
  rw [met_log, List.take_length]
  exact (subsetGraph m.rules.rows).eraseDups_discover _

theorem isPrefix_met_log (m : Nfa) (places : Nat) : m.met (m.log places) <+: m.subsets := by
  rw [met_log]
  exact (subsetGraph m.rules.rows).isPrefix_eraseDups_take _ _

/-- As long as places are left, one more set than there are places was met. -/
theorem lt_length_met_log (m : Nfa) (places : Nat) (h : places < m.subsets.length) :
    places < (m.met (m.log places)).length := by
  rw [met_log]
  exact (subsetGraph m.rules.rows).lt_length_eraseDups_take _ _ (by rwa [subsets, List.length_map] at h)

/-! ## The rules by the moves -/

theorem idxOf?_subsets_eq_some_iff (m : Nfa) (s : StateSet) (k : State) :
    m.subsets.idxOf? s = some k ↔ m.subsets[k]? = some s := by
  rw [List.idxOf?_eq_some_iff, List.getElem?_eq_some_iff]
  refine exists_congr fun hk => and_iff_left_of_imp ?_
  rintro rfl j hj heq
  exact Nat.ne_of_lt hj ((List.Nodup.getElem_inj_iff m.nodup_subsets).1 heq)

theorem transition?_byPlace_iff (m : Nfa) (key : State × Char) (p : State) :
    m.byPlace.transition? key.1 key.2 = some p ↔
      ∃ move ∈ m.log m.subsets.length, move.key = key ∧ m.subsets[p]? = some move.target := by
  have hrule : m.byPlace.transition? key.1 key.2 = some p ↔
      ∃ s, m.subsets[key.1]? = some s ∧ (m.move s key.2).isEmpty = false ∧
        m.subsets[p]? = some (m.move s key.2) := by
    show m.byPlace.rules[(key.1, key.2)]? = some p ↔ _
    simp only [getElem?_byPlace, Option.bind_eq_some_iff, Option.ite_none_left_eq_some, Bool.not_eq_true,
      idxOf?_subsets_eq_some_iff]
  rw [hrule]
  refine ⟨?_, ?_⟩
  · rintro ⟨s, hk, hne, hp⟩
    exact ⟨⟨key, m.move s key.2⟩,
      (m.mem_log ..).2 ⟨key.1, s, key.2, (List.getElem?_eq_some_iff.1 hk).1, hk, hne, rfl⟩, rfl, hp⟩
  · rintro ⟨move, hmove, rfl, hp⟩
    obtain ⟨k, s, c, -, hk, hne, rfl⟩ := (m.mem_log ..).1 hmove
    exact ⟨s, hk, hne, hp⟩

theorem mem_into_byPlace_iff (m : Nfa) (key : State ×ₗ Char) (p : State) :
    key ∈ m.byPlace.into p ↔
      ∃ move ∈ m.log m.subsets.length, toLex move.key = key ∧ m.subsets[p]? = some move.target :=
  m.transition?_byPlace_iff (ofLex key) p

/-- The moves ascend by place and character. -/
theorem sorted_log (m : Nfa) (places : Nat) : (m.log places).Pairwise fun x y => toLex x.key < toLex y.key := by
  have hplaces : (m.subsets.zipIdx.take places).Pairwise fun x y => x.2 < y.2 := by
    have hall : (m.subsets.zipIdx.map Prod.snd).Pairwise (· < ·) := by
      rw [List.zipIdx_map_snd]
      exact List.pairwise_lt_range'
    exact (List.pairwise_map.1 hall).sublist (List.take_sublist ..)
  rw [log, List.pairwise_flatMap]
  refine ⟨?_, hplaces.imp fun {x y} hlt => ?_⟩
  · rintro ⟨s, k⟩ -
    refine (m.sorted_movesFrom k s).imp_of_mem fun {x y} hx hy hlt => ?_
    obtain ⟨a, -, -, rfl⟩ := (m.mem_movesFrom ..).1 hx
    obtain ⟨b, -, -, rfl⟩ := (m.mem_movesFrom ..).1 hy
    exact Prod.Lex.toLex_lt_toLex.2 (Or.inr ⟨rfl, compare_lt_iff_lt.1 hlt⟩)
  · intro a ha b hb
    obtain ⟨c, -, -, rfl⟩ := (m.mem_movesFrom ..).1 ha
    obtain ⟨d, -, -, rfl⟩ := (m.mem_movesFrom ..).1 hb
    exact Prod.Lex.toLex_lt_toLex.2 (Or.inl hlt)

/-! ## The first move to a state -/

theorem ne_initial_of_pos (m : Nfa) (k : State) (s : StateSet) (hpos : 0 < k) (hk : m.subsets[k]? = some s) :
    s ≠ {m.initial} := by
  rintro rfl
  have hlt := (List.getElem?_eq_some_iff.1 hk).1
  exact Nat.ne_of_gt hpos ((List.getElem?_inj hlt m.nodup_subsets).1 (hk.trans m.getElem?_subsets_zero.symm))

/-- What is met and does not start the discovery is the target of a move. -/
theorem mem_met_iff (m : Nfa) (moves : List Move) (s : StateSet) (h : s ≠ {m.initial}) :
    s ∈ m.met moves ↔ ∃ move ∈ moves, move.target = s := by
  rw [met, List.mem_eraseDups, List.mem_cons, or_iff_right h, List.mem_map]

/-- The moves up to some moment meet, with the set at a place, those at all places before it. -/
theorem mem_met_of_le (m : Nfa) (before after : List Move) (hlog : m.log m.subsets.length = before ++ after)
    (j k : State) (s t : StateSet) (hle : j ≤ k) (hj : m.subsets[j]? = some s) (hk : m.subsets[k]? = some t)
    (ht : t ∈ m.met before) : s ∈ m.met before := by
  rw [← met_log_length, hlog] at hj hk
  have hplace := (m.getElem?_met_append_iff ht after k).1 hk
  have hlt := Nat.lt_of_le_of_lt hle (List.getElem?_eq_some_iff.1 hplace).1
  have hbegin := List.prefix_iff_getElem?.1 (m.isPrefix_met before after) j hlt
  obtain rfl := Option.some.inj (hj.symm.trans hbegin)
  exact List.getElem_mem hlt

/-- The first of the moves to a state. -/
theorem exists_first_move (m : Nfa) (k : State) (s : StateSet) (hpos : 0 < k) (hk : m.subsets[k]? = some s) :
    ∃ before key after, m.log m.subsets.length = before ++ ⟨key, s⟩ :: after ∧
      ¬ ∃ move ∈ before, move.target = s := by
  have hmet : s ∈ m.met (m.log m.subsets.length) := by
    rw [met_log_length]
    exact List.mem_of_getElem? hk
  have hsome := (m.mem_met_iff _ s (m.ne_initial_of_pos k s hpos hk)).1 hmet
  cases hfirst : (m.log m.subsets.length).find? fun move => move.target = s with
  | none =>
    obtain ⟨move, hmove, htarget⟩ := hsome
    exact absurd (decide_eq_true htarget) (List.find?_eq_none.1 hfirst move hmove)
  | some move =>
    obtain ⟨htarget, before, after, hlog, hbefore⟩ := List.find?_eq_some_iff_append.1 hfirst
    obtain rfl := of_decide_eq_true htarget
    refine ⟨before, move.key, after, hlog, ?_⟩
    rintro ⟨other, hother, heq⟩
    simpa [heq] using hbefore other hother

/-- A state has a least source and character of the rules that lead to it: the source has a smaller number, and the rules
that lead to the next state all come later. -/
theorem exists_isLeast_into (m : Nfa) (k : State) (hpos : 0 < k) (hk : k < m.subsets.length) :
    ∃ key, IsLeast (m.byPlace.into k) key ∧ (ofLex key).1 < k ∧ ∀ later ∈ m.byPlace.into (k + 1), key < later := by
  have hplace : m.subsets[k]? = some m.subsets[k] := List.getElem?_eq_getElem hk
  have hinitial := m.ne_initial_of_pos k _ hpos hplace
  obtain ⟨before, key, after, hlog, hbefore⟩ := m.exists_first_move k _ hpos hplace
  have hsorted := m.sorted_log m.subsets.length
  rw [hlog, List.pairwise_append, List.pairwise_cons] at hsorted
  obtain ⟨-, ⟨hafter, -⟩, -⟩ := hsorted
  have hsplit : ∀ move ∈ m.log m.subsets.length,
      move ∈ before ∨ move = ⟨key, m.subsets[k]⟩ ∨ toLex key < toLex move.key := by
    intro move hmove
    rw [hlog, List.mem_append, List.mem_cons] at hmove
    exact hmove.imp_right fun h => h.imp_right (hafter move)
  have hleast : IsLeast (m.byPlace.into k) (toLex key) := by
    refine ⟨(m.mem_into_byPlace_iff ..).2 ⟨_, hlog ▸ List.mem_append_right _ List.mem_cons_self, rfl, hplace⟩, ?_⟩
    intro other hother
    obtain ⟨move, hmove, rfl, htarget⟩ := (m.mem_into_byPlace_iff ..).1 hother
    rcases hsplit move hmove with hmem | rfl | hlt
    · exact absurd ⟨move, hmem, Option.some.inj (htarget.symm.trans hplace)⟩ hbefore
    · exact le_rfl
    · exact hlt.le
  refine ⟨toLex key, hleast, ?_, ?_⟩
  · -- the set is met from the places before it, by a move that the first one does not come after
    have hmet : m.subsets[k] ∈ m.met (m.log k) := by
      have hlt := m.lt_length_met_log k hk
      rw [← (m.isPrefix_met_log k).getElem hlt]
      exact List.getElem_mem hlt
    obtain ⟨move, hmove, htarget⟩ := (m.mem_met_iff _ _ hinitial).1 hmet
    obtain ⟨j, s, c, hjk, hj, hne, rfl⟩ := (m.mem_log ..).1 hmove
    have hle : toLex key ≤ toLex (j, c) := hleast.2 <| (m.mem_into_byPlace_iff ..).2
      ⟨_, (m.mem_log ..).2 ⟨j, s, c, hjk.trans hk, hj, hne, rfl⟩, rfl, htarget ▸ hplace⟩
    exact (Prod.Lex.monotone_fst _ _ hle).trans_lt hjk
  · -- were there a move to the next set before the first one to this set, it would have met this set too
    intro later hlater
    obtain ⟨move, hmove, rfl, hnext⟩ := (m.mem_into_byPlace_iff ..).1 hlater
    rcases hsplit move hmove with hmem | rfl | hlt
    · have hnextmet : move.target ∈ m.met before :=
        (m.mem_met_iff _ _ (m.ne_initial_of_pos (k + 1) _ (Nat.succ_pos k) hnext)).2 ⟨move, hmem, rfl⟩
      have hmet := m.mem_met_of_le before _ hlog k (k + 1) _ _ (Nat.le_succ k) hplace hnext hnextmet
      exact absurd ((m.mem_met_iff _ _ hinitial).1 hmet) hbefore
    · exact absurd ((List.getElem?_inj hk m.nodup_subsets).1 (hplace.trans hnext.symm)) (Nat.ne_of_lt (Nat.lt_succ_self k))
    · exact hlt

/-- Some character leads to the set at a place from one at a place before it. -/
theorem exists_move_to (m : Nfa) (k : State) (hpos : 0 < k) (hk : k < m.subsets.length) :
    ∃ j s c, j < k ∧ m.subsets[j]? = some s ∧ (m.move s c).isEmpty = false ∧ m.subsets[k]? = some (m.move s c) := by
  obtain ⟨key, hleast, hlt, -⟩ := m.exists_isLeast_into k hpos hk
  obtain ⟨move, hmove, rfl, htarget⟩ := (m.mem_into_byPlace_iff ..).1 hleast.1
  obtain ⟨j, s, c, -, hj, hne, rfl⟩ := (m.mem_log ..).1 hmove
  exact ⟨j, s, c, hlt, hj, hne, htarget⟩

end Nfa

end PatternAutomata
