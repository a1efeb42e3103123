/-
The subset automaton by a worklist.

A worklist numbers the sets that are known and keeps those that are not yet processed in a queue. One round takes the set
at the front, notes whether it accepts and follows the alphabet from it: a set that is known gets a rule, one that is not
gets the next number and a place at the end of the queue as well, and a character that leads nowhere gets nothing. The
next number is the identifier that a counter of 32 bits shows at the number of sets that are known.

After each character the worklist holds what the moves so far have met (`Tracks.follow`), so after each round it holds
what the log of as many places has met (`Tracks.round`). It follows that the rounds come to an end, that they process the
discovered sets in the order of discovery, each once, and that they leave the rules and accepting states of the subset
automaton (`run_start`). All of this holds for any number of sets. That each set has a state of its own, numbered in the
order of discovery, holds as long as there are identifiers for them (`determinize_by_worklist`), and no longer
(`not_numbered_collector`).
-/
import PatternAutomata.Proofs.Dfa.InStep
import PatternAutomata.Proofs.Dfa.Numbering

namespace PatternAutomata.Nfa

/-! ## The numbers of the sets -/

/-- The number of a set: the identifier of its place. -/
def number (m : Nfa) (s : StateSet) : State := identifier (m.subsets.idxOf s)

theorem idxOf_subsets (m : Nfa) {s : StateSet} {k : State} (hk : m.subsets[k]? = some s) : m.subsets.idxOf s = k := by
  obtain ⟨hlt, rfl⟩ := List.getElem?_eq_some_iff.1 hk
  exact m.nodup_subsets.idxOf_getElem k hlt

theorem number_eq (m : Nfa) {s : StateSet} {k : State} (hk : m.subsets[k]? = some s) : m.number s = identifier k := by
  rw [number, m.idxOf_subsets hk]

/-- One set more than identifiers leaves only 0 with two sets. -/
theorem eq_of_number_eq (m : Nfa) (hcount : m.subsets.length ≤ 2 ^ 32 + 1) {k p : State} {s : StateSet}
    (hk : m.subsets[k]? = some s) (hp : m.number s = p) (hne : p ≠ 0) : k = p := by
  have hle : k ≤ 2 ^ 32 := Nat.le_of_lt_succ (Nat.lt_of_lt_of_le (List.getElem?_eq_some_iff.1 hk).1 hcount)
  rw [m.number_eq hk] at hp
  exact (identifier_of_le hle (hp ▸ hne)).symm.trans hp

/-- The key that a move is entered with. -/
def Move.entry (move : Move) : State × Char := (identifier move.key.1, move.key.2)

/-- The rules of some moves between the numbers of the sets, entered one after the other. -/
def entered (m : Nfa) (moves : List Move) : Dfa.Rules :=
  .ofList (moves.map fun move => (move.entry, m.number move.target)) pairOrder

theorem entered_concat (m : Nfa) (moves : List Move) (move : Move) :
    m.entered (moves ++ [move]) = (m.entered moves).insert move.entry (m.number move.target) := by
  simp only [entered, List.map_append, List.map_singleton, Std.ExtTreeMap.ofList_eq_insertMany_empty,
    Std.ExtTreeMap.insertMany_append, Std.ExtTreeMap.insertMany_list_singleton]

/-- The moves are the rules between the places, in the order of their keys. -/
theorem toList_rules_byPlace (m : Nfa) :
    m.byPlace.rules.toList =
      (m.log m.subsets.length).map fun move => (move.key, m.subsets.idxOf move.target) := by
  refine eq_of_ascending Std.ExtTreeMap.ordered_keys_toList ?_ ?_
  · refine List.pairwise_map.2 ((m.sorted_log _).imp fun {x y} hlt => ?_)
    rcases Prod.Lex.toLex_lt_toLex.1 hlt with hlt | ⟨heq, hlt⟩
    · rw [pairOrder, compare_lt_iff_lt.2 hlt, Ordering.lt_then]
    · rw [pairOrder, heq, Std.compare_self, Ordering.eq_then, compare_lt_iff_lt.2 hlt]
  · rintro ⟨key, p⟩
    rw [Std.ExtTreeMap.mem_toList_iff_getElem?_eq_some]
    refine (m.transition?_byPlace_iff key p).trans ?_
    simp only [List.mem_map, Prod.mk.injEq]
    refine ⟨fun h => ?_, fun h => ?_⟩
    · obtain ⟨move, hmove, rfl, hp⟩ := h
      exact ⟨move, hmove, rfl, m.idxOf_subsets hp⟩
    · obtain ⟨move, hmove, rfl, rfl⟩ := h
      have hmem : move.target ∈ m.subsets := by
        rw [← m.met_log_length]
        exact m.mem_met_of_mem hmove
      exact ⟨move, hmove, rfl, List.getElem?_idxOf hmem⟩

theorem rules_determinize (m : Nfa) : m.determinize.rules = m.entered (m.log m.subsets.length) := by
  show m.byPlace.rules.identified = _
  rw [Dfa.Rules.identified, toList_rules_byPlace, List.map_map]
  rfl

theorem mem_accepts_determinize_iff (m : Nfa) (k : State) :
    k ∈ m.determinize.accepts ↔ ∃ s ∈ m.subsets, s.intersects m.accepts = true ∧ m.number s = k := by
  show k ∈ StateSet.ofList (m.byPlace.accepts.toList.map identifier) ↔ _
  simp only [StateSet.mem_ofList, List.mem_map, StateSet.mem_toList, mem_accepts_byPlace]
  refine ⟨fun h => ?_, fun h => ?_⟩
  · obtain ⟨j, ⟨s, hj, haccepts⟩, rfl⟩ := h
    exact ⟨s, List.mem_of_getElem? hj, haccepts, m.number_eq hj⟩
  · obtain ⟨s, hs, haccepts, rfl⟩ := h
    exact ⟨m.subsets.idxOf s, ⟨s, List.getElem?_idxOf hs, haccepts⟩, rfl⟩

/-- The last move with a key is its rule. -/
theorem getElem?_entered (m : Nfa) (moves : List Move) (key : State × Char) :
    (m.entered moves)[key]? =
      (moves.reverse.find? fun move => move.entry = key).map fun move => m.number move.target := by
  induction moves using List.reverseRecOn with
  | nil => rfl
  | append_singleton moves last ih =>
    rw [entered_concat, Std.ExtTreeMap.getElem?_insert, ih, List.reverse_append, List.reverse_singleton,
      List.singleton_append, List.find?_cons]
    simp only [Std.LawfulEqCmp.compare_eq_iff_eq]
    by_cases hlast : last.entry = key <;> simp [hlast]

/-- Among moves in the order of their keys, the last one that is looked for has the greatest key. -/
theorem find?_reverse_eq_some_iff {moves : List Move} (hsorted : moves.Pairwise fun x y => toLex x.key < toLex y.key)
    (p : Move → Bool) (move : Move) :
    moves.reverse.find? p = some move ↔
      move ∈ moves ∧ p move = true ∧ ∀ other ∈ moves, p other = true → toLex other.key ≤ toLex move.key := by
  have hreverse := List.pairwise_reverse.2 hsorted
  rw [List.find?_eq_some_iff_append]
  refine ⟨fun h => ?_, fun h => ?_⟩
  · obtain ⟨hmove, later, earlier, hsplit, hlater⟩ := h
    have hmem : ∀ other, other ∈ moves ↔ other ∈ later ++ move :: earlier := fun other => by
      rw [← hsplit, List.mem_reverse]
    refine ⟨(hmem move).2 (List.mem_append_right later List.mem_cons_self), hmove, fun other hother hp => ?_⟩
    rw [hsplit] at hreverse
    rcases List.mem_append.1 ((hmem other).1 hother) with hother | hother
    · exact absurd hp (by simpa using hlater other hother)
    rcases List.mem_cons.1 hother with rfl | hother
    · exact le_refl _
    · exact ((List.pairwise_cons.1 (List.pairwise_append.1 hreverse).2.1).1 other hother).le
  · obtain ⟨hmem, hmove, hgreatest⟩ := h
    obtain ⟨later, earlier, hsplit⟩ := List.append_of_mem (List.mem_reverse.2 hmem)
    refine ⟨hmove, later, earlier, hsplit, fun other hother => ?_⟩
    rw [hsplit] at hreverse
    have hlt := (List.pairwise_append.1 hreverse).2.2 other hother move List.mem_cons_self
    have hother : other ∈ moves := List.mem_reverse.1 (hsplit ▸ List.mem_append_left _ hother)
    rw [Bool.not_eq_true', Bool.eq_false_iff]
    exact fun hp => absurd hlt (not_lt_of_ge (hgreatest other hother hp))

/-- **Later rules stay.** A character leads from a state to the number of the set that it leads to from the last of the
sets with this state from which it leads anywhere. -/
theorem transition?_determinize_iff (m : Nfa) (q : State) (c : Char) (p : State) :
    m.determinize.transition? q c = some p ↔ ∃ k s, m.subsets[k]? = some s ∧ identifier k = q ∧
      (m.move s c).isEmpty = false ∧ m.number (m.move s c) = p ∧
      ∀ j t, k < j → m.subsets[j]? = some t → identifier j = q → (m.move t c).isEmpty = true := by
  have hmem : ∀ k s c, m.subsets[k]? = some s → (m.move s c).isEmpty = false →
      ⟨(k, c), m.move s c⟩ ∈ m.log m.subsets.length := fun k s c hk hne =>
    (m.mem_log ..).2 ⟨k, s, c, (List.getElem?_eq_some_iff.1 hk).1, hk, hne, rfl⟩
  show m.determinize.rules[(q, c)]? = some p ↔ _
  rw [rules_determinize, getElem?_entered, Option.map_eq_some_iff]
  simp only [find?_reverse_eq_some_iff (m.sorted_log m.subsets.length), decide_eq_true_eq]
  refine ⟨fun h => ?_, fun h => ?_⟩
  · obtain ⟨move, ⟨hmove, hentry, hgreatest⟩, hp⟩ := h
    obtain ⟨k, s, d, -, hk, hne, rfl⟩ := (m.mem_log ..).1 hmove
    obtain ⟨rfl, rfl⟩ := Prod.mk.inj hentry
    refine ⟨k, s, hk, rfl, hne, hp, fun j t hlt hj hq => ?_⟩
    by_contra hnext
    have hle := hgreatest _ (hmem j t d hj (Bool.not_eq_true _ ▸ hnext)) (Prod.ext hq rfl)
    exact absurd hle (not_le_of_gt (Prod.Lex.toLex_lt_toLex.2 (Or.inl hlt)))
  · obtain ⟨k, s, hk, rfl, hne, hp, hlater⟩ := h
    refine ⟨⟨(k, c), m.move s c⟩, ⟨hmem k s c hk hne, rfl, fun other hother hentry => ?_⟩, hp⟩
    obtain ⟨j, t, d, -, hj, hnext, rfl⟩ := (m.mem_log ..).1 hother
    obtain ⟨hq, rfl⟩ : identifier j = identifier k ∧ d = c := Prod.mk.inj hentry
    rcases Nat.lt_trichotomy j k with hlt | rfl | hlt
    · exact (Prod.Lex.toLex_lt_toLex.2 (Or.inl hlt)).le
    · exact le_refl _
    · exact absurd ((hlater j t hlt hj hq).symm.trans hnext) (by decide)

/-! ## Rounds -/

/-- The sets that are known with their numbers, those that wait to be processed, and what is built so far. -/
structure Worklist where
  numbers : Std.ExtTreeMap StateSet State
  queue : List (StateSet × State)
  accepts : StateSet
  rules : Dfa.Rules

namespace Worklist

/-- Only the set that holds the initial state alone is known, and waits. -/
def start (m : Nfa) : Worklist :=
  ⟨(∅ : Std.ExtTreeMap StateSet State).insert {m.initial} 0, [({m.initial}, 0)], ∅, ∅⟩

/-- Follows one character from the set with a number. -/
def follow (m : Nfa) (s : StateSet) (k : State) (l : Worklist) (c : Char) : Worklist :=
  let next := m.move s c
  if next.isEmpty then l
  else match l.numbers[next]? with
    | some p => { l with rules := l.rules.insert (k, c) p }
    | none =>
      let fresh := identifier l.numbers.size
      { l with
        numbers := l.numbers.insert next fresh
        queue := l.queue ++ [(next, fresh)]
        rules := l.rules.insert (k, c) fresh }

/-- Processes the set with a number, while the rest of the queue waits. -/
def process (m : Nfa) (l : Worklist) (s : StateSet) (k : State) (rest : List (StateSet × State)) : Worklist :=
  m.alphabet.foldl (follow m s k)
    { l with queue := rest, accepts := if s.intersects m.accepts then l.accepts.insert k else l.accepts }

/-- Rounds until the queue is empty: the sets that are processed with their numbers, one after the other, and what is left
in the end. -/
inductive Run (m : Nfa) : Worklist → List (StateSet × State) → Worklist → Prop where
  | done {l : Worklist} : l.queue = [] → Run m l [] l
  | round {l final : Worklist} {s : StateSet} {k : State} {rest processed : List (StateSet × State)} :
      l.queue = (s, k) :: rest → Run m (l.process m s k rest) processed final → Run m l ((s, k) :: processed) final

/-- There is at most one run. -/
theorem Run.unique {m : Nfa} {l final other : Worklist} {processed processed' : List (StateSet × State)}
    (h : Run m l processed final) (h' : Run m l processed' other) : processed = processed' ∧ final = other := by
  induction h generalizing processed' with
  | done hqueue =>
    cases h' with
    | done => exact ⟨rfl, rfl⟩
    | round hqueue' => exact absurd (hqueue.symm.trans hqueue') (List.cons_ne_nil _ _).symm
  | round hqueue _ ih =>
    cases h' with
    | done hqueue' => exact absurd (hqueue'.symm.trans hqueue) (List.cons_ne_nil _ _).symm
    | round hqueue' hrun =>
      obtain ⟨hhead, rfl⟩ := List.cons.inj (hqueue.symm.trans hqueue')
      obtain ⟨rfl, rfl⟩ := Prod.mk.inj hhead
      obtain ⟨rfl, rfl⟩ := ih hrun
      exact ⟨rfl, rfl⟩

/-! ## What a worklist holds -/

/-- A worklist holds what moves have met: the sets that are met are known by their numbers, the first ones are processed
and the others wait, and the moves are entered as rules. -/
structure Tracks (m : Nfa) (moves : List Move) (processed : Nat) (l : Worklist) : Prop where
  /-- the sets are met in the order of discovery -/
  known : m.met moves <+: m.subsets
  numbers : ∀ s, l.numbers[s]? = if s ∈ m.met moves then some (m.number s) else none
  size : l.numbers.size = (m.met moves).length
  processed_le : processed ≤ (m.met moves).length
  queue : l.queue = ((m.met moves).drop processed).map fun s => (s, m.number s)
  accepts : ∀ k, k ∈ l.accepts ↔ ∃ s ∈ (m.met moves).take processed, s.intersects m.accepts = true ∧ m.number s = k
  rules : l.rules = m.entered moves

variable {m : Nfa} {moves : List Move} {processed : Nat} {l : Worklist} {s : StateSet} {k : State}

theorem number_initial (m : Nfa) : m.number {m.initial} = 0 := m.number_eq m.getElem?_subsets_zero

theorem tracks_start (m : Nfa) : Tracks m [] 0 (start m) := by
  have hmet : m.met [] = [{m.initial}] := rfl
  refine ⟨?_, fun s => ?_, ?_, Nat.zero_le _, ?_, fun k => ?_, rfl⟩
  · have hlog := m.isPrefix_met_log 0
    rwa [log, List.take_zero, List.flatMap_nil] at hlog
  · rw [hmet, start, Std.ExtTreeMap.getElem?_insert]
    simp only [Std.LawfulEqOrd.compare_eq_iff_eq, Std.ExtTreeMap.getElem?_empty, List.mem_singleton]
    by_cases hs : {m.initial} = s
    · subst hs
      rw [if_pos rfl, if_pos rfl, number_initial]
    · rw [if_neg hs, if_neg (Ne.symm hs)]
  · rw [hmet, start, Std.ExtTreeMap.size_insert]
    simp
  · rw [hmet, start, List.drop_zero, List.map_singleton, number_initial]
  · simp [start]

/-- What is met next gets the number of its place. -/
theorem Tracks.number_next (h : Tracks m moves processed l)
    (hknown : m.met moves ++ [s] <+: m.subsets) : m.number s = identifier l.numbers.size := by
  have hlast : m.subsets[(m.met moves).length]? = some s :=
    (List.prefix_iff_getElem?.1 hknown _ (by simp)).trans (by simp)
  rw [h.size]
  exact m.number_eq hlast

/-- A move is noted: its target is known afterwards by its number, whether it was known before or not. -/
theorem Tracks.follow (h : Tracks m moves processed l) (j : State) (c : Char)
    (hknown : m.met (moves ++ m.movesFrom j s [c]) <+: m.subsets) :
    Tracks m (moves ++ m.movesFrom j s [c]) processed (follow m s (identifier j) l c) := by
  by_cases hempty : (m.move s c).isEmpty = true
  · have hmoves : m.movesFrom j s [c] = [] := by simp [movesFrom, hempty]
    rw [hmoves, List.append_nil, Worklist.follow, if_pos hempty]
    exact h
  · have hmoves : m.movesFrom j s [c] = [⟨(j, c), m.move s c⟩] := by simp [movesFrom, hempty]
    have hmet := m.met_concat moves ⟨(j, c), m.move s c⟩
    have hentered := m.entered_concat moves ⟨(j, c), m.move s c⟩
    rw [hmoves] at hknown ⊢
    rw [Worklist.follow, if_neg hempty, h.numbers]
    by_cases hmem : m.move s c ∈ m.met moves
    · rw [if_pos hmem] at hmet ⊢
      rw [hmet] at hknown
      exact ⟨hmet ▸ hknown, hmet ▸ h.numbers, hmet ▸ h.size, hmet ▸ h.processed_le, hmet ▸ h.queue, hmet ▸ h.accepts,
        hentered ▸ h.rules ▸ rfl⟩
    · rw [if_neg hmem] at hmet ⊢
      rw [hmet] at hknown
      have hnumber := h.number_next hknown
      have hnew : ¬ l.numbers.contains (m.move s c) = true := by
        rw [Std.ExtTreeMap.contains_eq_isSome_getElem?, h.numbers, if_neg hmem]
        exact Bool.false_ne_true
      refine ⟨hmet ▸ hknown, fun t => ?_, ?_, ?_, ?_, ?_, ?_⟩
      · rw [hmet, Std.ExtTreeMap.getElem?_insert, h.numbers, ← hnumber]
        simp only [Std.LawfulEqOrd.compare_eq_iff_eq, List.mem_append, List.mem_singleton]
        by_cases ht : m.move s c = t
        · subst ht
          rw [if_pos rfl, if_pos (Or.inr rfl)]
        · simp only [if_neg ht, Ne.symm ht, or_false]
      · rw [hmet, Std.ExtTreeMap.size_insert, if_neg hnew, h.size, List.length_append, List.length_singleton]
      · rw [hmet, List.length_append]
        exact h.processed_le.trans (Nat.le_add_right ..)
      · rw [hmet, List.drop_append_of_le_length h.processed_le, List.map_append, ← h.queue, List.map_singleton, hnumber]
      · rw [hmet, List.take_append_of_le_length h.processed_le]
        exact h.accepts
      · rw [hentered, hnumber, ← h.rules]
        rfl

/-- Following characters one after the other notes where they lead. -/
theorem Tracks.foldl_follow (h : Tracks m moves processed l) (j : State) (characters : List Char)
    (hknown : m.met (moves ++ m.movesFrom j s characters) <+: m.subsets) :
    Tracks m (moves ++ m.movesFrom j s characters) processed
      (characters.foldl (Worklist.follow m s (identifier j)) l) := by
  induction characters generalizing moves l with
  | nil => rwa [movesFrom, List.filterMap_nil, List.append_nil]
  | cons c rest ih =>
    have hsplit : m.movesFrom j s (c :: rest) = m.movesFrom j s [c] ++ m.movesFrom j s rest :=
      m.movesFrom_append j s [c] rest
    rw [hsplit, ← List.append_assoc] at hknown ⊢
    exact ih (h.follow j c ((m.isPrefix_met _ _).trans hknown)) hknown

/-! ## One round and a whole run -/

/-- Where the log of as many places has been noted as were processed, the set at the next place is at the front, and a
round notes the moves from it. -/
theorem Tracks.round (h : Tracks m (m.log k) k l) (hk : m.subsets[k]? = some s) :
    ∃ rest, l.queue = (s, m.number s) :: rest ∧ Tracks m (m.log (k + 1)) (k + 1) (l.process m s (m.number s) rest) := by
  have hlt := m.lt_length_met_log k (List.getElem?_eq_some_iff.1 hk).1
  have hfront : (m.met (m.log k))[k] = s :=
    Option.some.inj ((List.prefix_iff_getElem?.1 h.known k hlt).symm.trans hk)
  have hqueue : l.queue = (s, m.number s) :: ((m.met (m.log k)).drop (k + 1)).map fun s => (s, m.number s) := by
    rw [h.queue, List.drop_eq_getElem_cons hlt, hfront, List.map_cons]
  refine ⟨_, hqueue, ?_⟩
  have htaken : Tracks m (m.log k) (k + 1)
      { l with
        queue := ((m.met (m.log k)).drop (k + 1)).map fun s => (s, m.number s)
        accepts := if s.intersects m.accepts then l.accepts.insert (m.number s) else l.accepts } := by
    refine ⟨h.known, h.numbers, h.size, hlt, rfl, fun j => ?_, h.rules⟩
    have hinsert : j ∈ (if s.intersects m.accepts then l.accepts.insert (m.number s) else l.accepts) ↔
        (s.intersects m.accepts = true ∧ m.number s = j) ∨ j ∈ l.accepts := by
      split <;> simp [*, eq_comm]
    rw [hinsert, h.accepts, List.take_add_one, List.getElem?_eq_getElem hlt, hfront]
    simp only [Option.toList_some, List.mem_append, List.mem_singleton, or_and_right, exists_or, exists_eq_left,
      or_comm]
  have hknown := m.isPrefix_met_log (k + 1)
  rw [m.log_succ k s hk] at hknown ⊢
  rw [m.number_eq hk] at htaken ⊢
  exact htaken.foldl_follow k m.alphabet hknown

/-- What is left of a run. -/
def final (m : Nfa) : Worklist :=
  ⟨tabulate m.subsets fun s => some (m.number s), [], m.determinize.accepts, m.determinize.rules⟩

theorem Tracks.eq_final (h : Tracks m (m.log m.subsets.length) m.subsets.length l) : l = final m := by
  obtain ⟨-, hnumbers, -, -, hqueue, haccepts, hrules⟩ := h
  rw [met_log_length] at hnumbers hqueue haccepts
  have hnumbers : l.numbers = tabulate m.subsets fun s => some (m.number s) :=
    Std.ExtTreeMap.ext_getElem? fun s => by rw [hnumbers, getElem?_tabulate]
  have hqueue : l.queue = [] := by rw [hqueue, List.drop_length, List.map_nil]
  have haccepts : l.accepts = m.determinize.accepts := StateSet.ext fun k => by
    rw [haccepts, List.take_length, mem_accepts_determinize_iff]
  have hrules : l.rules = m.determinize.rules := hrules.trans m.rules_determinize.symm
  cases l
  cases hnumbers
  cases hqueue
  cases haccepts
  cases hrules
  rfl

/-- As many rounds as there are sets left process these in the order of discovery. -/
theorem Tracks.run {j : Nat} (h : Tracks m (m.log j) j l) (rounds : Nat) (hrounds : j + rounds = m.subsets.length) :
    Run m l ((m.subsets.drop j).map fun s => (s, m.number s)) (final m) := by
  induction rounds generalizing j l with
  | zero =>
    obtain rfl : j = m.subsets.length := hrounds
    obtain rfl := h.eq_final
    rw [List.drop_length, List.map_nil]
    exact .done rfl
  | succ rounds ih =>
    have hlt : j < m.subsets.length := by omega
    obtain ⟨rest, hqueue, hnext⟩ := h.round (List.getElem?_eq_getElem hlt)
    rw [List.drop_eq_getElem_cons hlt, List.map_cons]
    exact .round hqueue (ih hnext (by omega))

theorem run_start (m : Nfa) : Run m (start m) (m.subsets.map fun s => (s, m.number s)) (final m) :=
  (tracks_start m).run m.subsets.length (Nat.zero_add _)

end Worklist

/-- **By discovery.** The worklist comes to an end, after it has processed every set that characters lead to exactly once,
and leaves the subset automaton, whose initial state is the first. The sets are at most as many as there are sets of
states. If each of them has an identifier of its own, the states are the numbers below that of the sets, each set has the
number of its place, and for each state but the first there is a least source and character that lead to it: the source
is smaller than the state, and the least source and character that lead to the next state are greater. -/
theorem determinize_by_worklist (m : Nfa) :
    (∀ processed l, Worklist.Run m (Worklist.start m) processed l ↔
      processed = (m.subsets.map fun s => (s, m.number s)) ∧
        l = ⟨tabulate m.subsets fun s => some (m.number s), [], m.determinize.accepts, m.determinize.rules⟩) ∧
    (m.subsets.Nodup ∧ ∀ s, s ∈ m.subsets ↔
      Reaches (fun s next => next.isEmpty = false ∧ ∃ c, m.move s c = next) {m.initial} s) ∧
    m.determinize.initial = 0 ∧
    m.subsets.length ≤ 2 ^ m.states.size ∧
    (m.subsets.length ≤ 2 ^ 32 →
      (∀ k s, m.subsets[k]? = some s → m.number s = k) ∧
      (∀ k, k ∈ m.determinize.states ↔ k < m.subsets.length) ∧
      ∀ k, 0 < k → k < m.subsets.length →
        ∃ first, IsLeast (m.determinize.into k) first ∧ (ofLex first).1 < k ∧
          ∀ later, IsLeast (m.determinize.into (k + 1)) later → first < later) := by
  refine ⟨fun processed l => ?_, ⟨m.nodup_subsets, m.mem_subsets_iff⟩, rfl, m.length_subsets_le, fun hcount => ?_⟩
  · refine ⟨fun h => h.unique (Worklist.run_start m), fun h => ?_⟩
    obtain ⟨rfl, rfl⟩ := h
    exact Worklist.run_start m
  · rw [m.determinize_eq_byPlace hcount]
    refine ⟨fun k s hk => ?_, fun k => ?_, fun k hpos hk => ?_⟩
    · rw [m.number_eq hk, identifier_of_lt (Nat.lt_of_lt_of_le (List.getElem?_eq_some_iff.1 hk).1 hcount)]
    · simp only [mem_states_byPlace_iff, List.getElem?_eq_some_iff]
      exact ⟨fun h => h.choose_spec.choose, fun hk => ⟨m.subsets[k], hk, rfl⟩⟩
    · obtain ⟨first, hfirst, hsource, hlater⟩ := m.exists_isLeast_into k hpos hk
      exact ⟨first, hfirst, hsource, fun later h => hlater later h.1⟩

/-- From a state that `a` and `b` lead away from, `a` leads to the first new state, and `b` to the next one. -/
theorem determinize_by_worklist_fork :
    let m : Nfa := ⟨(0 : Nat), .ofList [1, 2],
      ((∅ : Nfa.Rules).add (0 : Nat) (.char 'a') (1 : Nat)).add (0 : Nat) (.char 'b') (2 : Nat)⟩
    (m.subsets.length ≤ 2 ^ 32 ∧ 0 < 1 ∧ 1 < m.subsets.length) ∧
      ∃ first, IsLeast (m.determinize.into 1) first ∧ (ofLex first).1 < 1 ∧
        ∀ later, IsLeast (m.determinize.into 2) later → first < later := by
  intro m
  have hcount : m.subsets.length ≤ 2 ^ 32 := m.length_subsets_le.trans (by decide +kernel)
  have hlength : 1 < m.subsets.length := by decide +kernel
  exact ⟨⟨hcount, by decide, hlength⟩, ((determinize_by_worklist m).2.2.2.2 hcount).2.2 1 (by decide) hlength⟩

section Collector

variable {first : Char} {others : List Char}

/-- From the first set, the first character alone leads on, to the set of no codes. -/
theorem move_first_collector (hcodes : ∀ c ∈ first :: others, 1 < c.toNat) {s : StateSet} {c : Char}
    (hs : (collector first others).subsets[0]? = some s) (hne : ((collector first others).move s c).isEmpty = false) :
    c = first ∧ (collector first others).move s c = codes [] := by
  obtain rfl := Option.some.inj ((collector first others).getElem?_subsets_zero.symm.trans hs)
  have hmove : (collector first others).move {(collector first others).initial} c = _ := move_initial_collector hcodes c
  rw [hmove] at hne ⊢
  split at hne
  · exact ⟨‹_›, if_pos ‹_›⟩
  · cases hne

/-- From each other set, every character leads on, to the set of one more code. -/
theorem exists_codes_collector (hcodes : ∀ c ∈ first :: others, 1 < c.toNat) {k : State} {s : StateSet} (hpos : 0 < k)
    (hk : (collector first others).subsets[k]? = some s) :
    ∃ collected, (∀ c ∈ collected, c ∈ first :: others) ∧
      ∀ c, (collector first others).move s c = if c ∈ first :: others then codes (c :: collected) else ∅ := by
  obtain ⟨collected, hcollected, rfl⟩ := ((mem_subsets_collector_iff hcodes s).1 (List.mem_of_getElem? hk)).resolve_left
    ((collector first others).ne_initial_of_pos k s hpos hk)
  exact ⟨collected, hcollected, move_codes hcodes hcollected⟩

/-- The second set of a collector is that of no codes, and the third set comes from this one. -/
theorem places_collector (hcodes : ∀ c ∈ first :: others, 1 < c.toNat)
    (hcount : 2 < (collector first others).subsets.length) :
    (collector first others).subsets[1]? = some (codes []) ∧
      ∃ c, ((collector first others).move (codes []) c).isEmpty = false ∧
        (collector first others).subsets[2]? = some ((collector first others).move (codes []) c) := by
  obtain ⟨j, s, c, hj, hs, hne, hone⟩ := (collector first others).exists_move_to 1 (by decide)
    (Nat.lt_trans Nat.one_lt_two hcount)
  obtain rfl : j = 0 := Nat.lt_one_iff.1 hj
  rw [(move_first_collector hcodes hs hne).2] at hone
  refine ⟨hone, ?_⟩
  obtain ⟨j, s, c, hj, hs, hne, htwo⟩ := (collector first others).exists_move_to 2 (by decide) hcount
  rcases Nat.le_one_iff_eq_zero_or_eq_one.1 (Nat.le_of_lt_succ hj) with rfl | rfl
  · rw [(move_first_collector hcodes hs hne).2, ← hone] at htwo
    exact absurd ((List.getElem?_inj hcount (nodup_subsets _)).1 htwo) (by decide)
  · obtain rfl := Option.some.inj (hone.symm.trans hs)
    exact ⟨c, hne, htwo⟩

/-- With one set more than identifiers, the rules from the last set take the place of those from the first, so that no
rule leads to the state 1, the number of the second set. -/
theorem one_not_mem_states_collector (hcodes : ∀ c ∈ first :: others, 1 < c.toNat)
    (hcount : (collector first others).subsets.length = 2 ^ 32 + 1) :
    ¬ 1 ∈ (collector first others).determinize.states := by
  generalize hm : collector first others = m at hcount
  obtain ⟨hone, -⟩ : m.subsets[1]? = some (codes []) ∧ _ := hm ▸ places_collector hcodes (by rw [hm, hcount]; decide)
  intro hmem
  rcases (m.determinize.mem_states 1).1 hmem with hinitial | ⟨⟨q, d⟩, hrule⟩
  · cases hinitial
  obtain ⟨k, s, hk, rfl, hne, hp, hlater⟩ := (m.transition?_determinize_iff q d 1).1 hrule
  have hmove : m.move s d = codes [] := by
    rcases m.transition?_byPlace k s hk d with ⟨hempty, -⟩ | ⟨p, -, hto⟩
    · exact absurd (hempty.symm.trans hne) (by decide)
    · obtain rfl := m.eq_of_number_eq hcount.le hto hp (by decide)
      exact Option.some.inj (hto.symm.trans hone)
  subst hm
  rcases Nat.eq_zero_or_pos k with rfl | hpos
  · -- the last set has the same number as the first, and a rule for the first character too
    obtain ⟨rfl, -⟩ := move_first_collector hcodes hk hne
    have hlast := List.getElem?_eq_getElem (l := (collector d others).subsets) (i := 2 ^ 32) (by rw [hcount]; decide)
    obtain ⟨collected, -, hnext⟩ := exists_codes_collector hcodes (by decide) hlast
    have hempty := hlater _ _ (by decide) hlast rfl
    rw [hnext, if_pos List.mem_cons_self, StateSet.isEmpty_iff] at hempty
    exact hempty 1 ((mem_codes_iff ..).2 (Or.inl rfl))
  · obtain ⟨collected, hcollected, hnext⟩ := exists_codes_collector hcodes hpos hk
    rw [hnext] at hne hmove
    split at hne
    · rw [if_pos ‹_›] at hmove
      exact absurd (mem_of_codes_eq hcodes (List.forall_mem_cons.2 ⟨‹_›, hcollected⟩) hmove List.mem_cons_self)
        List.not_mem_nil
    · cases hne

/-- The rule to the state 2, from the second set, stays. -/
theorem two_mem_states_collector (hcodes : ∀ c ∈ first :: others, 1 < c.toNat)
    (hcount : (collector first others).subsets.length = 2 ^ 32 + 1) :
    2 ∈ (collector first others).determinize.states := by
  generalize hm : collector first others = m at hcount
  obtain ⟨hone, c, hne, htwo⟩ : m.subsets[1]? = some (codes []) ∧
      ∃ c, (m.move (codes []) c).isEmpty = false ∧ m.subsets[2]? = some (m.move (codes []) c) :=
    hm ▸ places_collector hcodes (by rw [hm, hcount]; decide)
  refine (m.determinize.mem_states 2).2 (Or.inr ⟨(1, c), (m.transition?_determinize_iff 1 c 2).2 ?_⟩)
  refine ⟨1, codes [], hone, rfl, hne, m.number_eq htwo, fun j t hlt hj hq => ?_⟩
  have hplace := m.eq_of_number_eq hcount.le hj ((m.number_eq hj).trans hq) (by decide)
  exact absurd hplace (Nat.ne_of_gt hlt)

end Collector

/-- With 32 characters to collect, one set more than there are identifiers is processed, and the states are not the
numbers below any bound. -/
theorem not_numbered_collector :
    let m := collector 'a' "bcdefghijklmnopqrstuvwxyz012345".toList
    m.subsets.length = 2 ^ 32 + 1 ∧ ¬ 1 ∈ m.determinize.states ∧ 2 ∈ m.determinize.states ∧
      ¬ ∃ n, ∀ k, k ∈ m.determinize.states ↔ k < n := by
  intro m
  have hcodes := one_lt_toNat_of_mem_letters
  have hcount : m.subsets.length = 2 ^ 32 + 1 := length_subsets_collector hcodes (by decide +kernel)
  have hone := one_not_mem_states_collector hcodes hcount
  have htwo := two_mem_states_collector hcodes hcount
  refine ⟨hcount, hone, htwo, fun hbounded => ?_⟩
  obtain ⟨n, hn⟩ := hbounded
  exact hone ((hn 1).2 (Nat.lt_trans Nat.one_lt_two ((hn 2).1 htwo)))

end PatternAutomata.Nfa
