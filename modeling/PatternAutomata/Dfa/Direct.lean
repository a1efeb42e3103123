/-
The subset automaton of an automaton with epsilon rules.

`Nfa.toDfa` gives the subset automaton that is left after epsilon elimination, without writing out the automaton in
between, whose rules may be many more. After the first set, every set of the subset automaton is closed under epsilon
rules, so it is enough to follow them after each character; only the initial state, which starts on its own, needs the
rows of its closure as well. `toDfa_eq_determinize` says that nothing is lost, and `toDfa_eq_byPlace` on which states the
automaton is as long as the sets have identifiers of their own.
-/
import PatternAutomata.Dfa.Subsets
import PatternAutomata.Nfa.Elimination

namespace PatternAutomata.Nfa

/-- The rows of the rules with the closures of their destinations; the initial state has the rows of its closure. -/
def startRows (m : Nfa) : Rows :=
  let table := m.closureTable
  let arrival := m.arrivalRows table
  arrival.insert m.initial (arrival.gather (table.get m.initial))

/-- The deterministic automaton that accepts the same words. -/
def toDfa (m : Nfa) : Dfa := subsetAutomaton m.directAccepts (subsetsWithMoves m.startRows m.initial)

/-! ## The automaton in between -/

theorem mem_destinations_startRows (m : Nfa) (q : State) (c : Char) (p : State) :
    p ∈ (m.startRows.row q).destinations c ↔
      ∃ r, (r = q ∨ q = m.initial ∧ Reaches m.Silent q r) ∧
        ∃ t, t ∈ m.rules.destinations r (.char c) ∧ Reaches m.Silent t p := by
  rw [startRows, Rows.row, Std.ExtTreeMap.getElem?_insert]
  simp only [Std.LawfulEqOrd.compare_eq_iff_eq]
  by_cases hq : m.initial = q
  · subst hq
    rw [if_pos rfl, Option.getD_some, Rows.mem_destinations_gather,
      m.closureTable_get _ (StateSet.mem_insert.2 (Or.inl rfl))]
    simp only [mem_closure_iff, mem_destinations_arrivalRows, true_and]
    refine exists_congr fun r => and_congr_left fun _ => ⟨Or.inr, ?_⟩
    intro h
    rcases h with rfl | hr
    · exact .refl
    · exact hr
  · rw [if_neg hq, ← Rows.row.eq_def, mem_destinations_arrivalRows]
    simp only [Ne.symm hq, false_and, or_false, exists_eq_left]

/-- The sets that reading can be in: the one it starts from, and the closed ones. -/
def Settled (m : Nfa) (s : StateSet) : Prop := s = {m.initial} ∨ ∀ q, q ∈ s → ∀ p, m.Silent q p → p ∈ s

theorem mem_of_reaches (m : Nfa) (s : StateSet) (hclosed : ∀ q, q ∈ s → ∀ p, m.Silent q p → p ∈ s) (q p : State)
    (hq : q ∈ s) (h : Reaches m.Silent q p) : p ∈ s := by
  induction h with
  | refl => exact hq
  | tail _ hstep ih => exact hclosed _ ih _ hstep

/-- From a settled set, the rows lead where the automaton without epsilon rules leads. -/
theorem moves_startRows (m : Nfa) (s : StateSet) (hs : m.Settled s) :
    moves m.startRows s = moves m.withoutEpsilon.rules.rows s := by
  refine Row.proper_congr fun c => StateSet.ext fun p => ?_
  simp only [Rows.mem_destinations_gather, mem_destinations_startRows, Rules.mem_destinations_rows,
    mem_destinations_withoutEpsilon, mem_step_iff, mem_closure_iff]
  refine ⟨?_, ?_⟩
  · intro h
    rcases h with ⟨q, hq, r, rfl | ⟨-, hr⟩, t⟩
    · exact ⟨r, hq, r, .refl, t⟩
    · exact ⟨q, hq, r, hr, t⟩
  · intro h
    obtain ⟨q, hq, r, hr, t⟩ := h
    rcases hs with rfl | hclosed
    · exact ⟨q, hq, r, Or.inr ⟨StateSet.mem_singleton.1 hq, hr⟩, t⟩
    · exact ⟨r, m.mem_of_reaches s hclosed q r hq hr, r, Or.inl rfl, t⟩

theorem settled_of_arrow (m : Nfa) (s next : StateSet) (h : (subsetGraph m.startRows).Arrow s next) :
    m.Settled next := by
  obtain ⟨⟨c, _⟩, hmove, rfl⟩ := List.mem_map.1 h
  rw [Std.ExtTreeMap.mem_toList_iff_getElem?_eq_some,
    show (subsetGraph m.startRows).expand s = (m.startRows.gather s).proper from rfl, Row.getElem?_proper] at hmove
  split at hmove
  · cases hmove
  · obtain rfl := Option.some.inj hmove
    refine Or.inr fun q hq p hqp => ?_
    simp only [Rows.mem_destinations_gather, mem_destinations_startRows] at hq ⊢
    obtain ⟨a, ha, r, hr, t, ht, htq⟩ := hq
    exact ⟨a, ha, r, hr, t, ht, htq.tail hqp⟩

/-- The automaton is the subset automaton of the one without epsilon rules. -/
theorem toDfa_eq_determinize (m : Nfa) : m.toDfa = m.withoutEpsilon.determinize := by
  have hfound : subsetsWithMoves m.startRows m.initial = m.withoutEpsilon.discovered :=
    (subsetGraph m.startRows).discover_congr (subsetGraph m.withoutEpsilon.rules.rows) m.Settled [{m.initial}]
      (fun s hs => Or.inl (List.mem_singleton.1 hs)) (fun s next _ h => m.settled_of_arrow s next h) rfl
      (fun s hs => m.moves_startRows s hs)
  rw [toDfa, hfound]
  rfl

theorem toDfa_eq_byPlace (m : Nfa) (h : m.withoutEpsilon.subsets.length ≤ 4294967296) :
    m.toDfa = m.withoutEpsilon.byPlace :=
  m.toDfa_eq_determinize.trans (m.withoutEpsilon.determinize_eq_byPlace h)

end PatternAutomata.Nfa
