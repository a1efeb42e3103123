/-
What compiled automata look like.

The assembled automaton has no dead ends, by induction on the tree, so the automaton compiled from it is trim, minimized
or not, as long as there are identifiers enough (`Identified`). That fixes its alphabet, since every tree stands for some
word and each of its literals is in one. Minimization leaves no two states that look alike, which in a trim automaton is
enough to tell states with finite residuals apart. And a cursor over it reads a word no further than a word of the
language may begin.

- `toDfa_trim`: no superfluous states, and exactly the characters of the literals.
- `toDfa_distinguishes`: states with finite residuals differ in them, and for a finite language no automaton is smaller.
- `matchWord_stops`: a cursor stops after the longest prefix that some word of the language begins with.
-/
import Mathlib.Order.Bounds.Basic
import PatternAutomata.Proofs.Dfa.Viable
import PatternAutomata.Proofs.Nfa.Productive
import PatternAutomata.Proofs.Pattern.Assembly

namespace PatternAutomata.Tree

/-- What is assembled has no dead ends, even where identifiers are handed out twice. -/
theorem productive_assemble (t : Tree) (n : Nat) : (t.assemble.run n).1.Productive := by
  induction t generalizing n with
  | empty => rw [assemble]; exact Nfa.productive_emptyWord (identifier n)
  | literal c => rw [assemble]; exact Nfa.productive_character (identifier n) (identifier (n + 1)) c
  | union left right ihl ihr => rw [run_union]; exact Nfa.productive_union _ _ _ (ihl n) (ihr _)
  | concat first second ihf ihs => rw [run_concat]; exact Nfa.productive_concat _ _ (ihf n) (ihs _)
  | star body ih => rw [run_star]; exact Nfa.productive_star _ _ _ (ih n)
  | plus body ih => rw [run_plus]; exact Nfa.productive_plus _ _ _ _ (ih n) (ih _)

theorem initial_toDfa (t : Tree) (minimize : Bool) : (t.toDfa minimize).initial = (0 : Nat) := by
  cases minimize with
  | false => rfl
  | true =>
    obtain ⟨r, hr⟩ := t.toNfa.toDfa.exists_folds_minimize
    exact Nat.le_zero.1 (hr.initial ▸ hr.le t.toNfa.toDfa.initial)

/-- The compiled automaton has no superfluous states, minimized or not. -/
theorem Identified.trim_toDfa {t : Tree} (h : t.Identified) (minimize : Bool) : (t.toDfa minimize).Trim := by
  have hsubsets : t.toNfa.toDfa.Trim := t.toNfa.trim_toDfa h.subsets fun u q hpath =>
    t.productive_assemble 0 q (hpath.mentions (Nfa.mentions_initial _))
  cases minimize with
  | false => exact hsubsets
  | true => exact hsubsets.minimize

/-- **Trim.** The compiled automaton starts in the state 0; each of its states is reached by some word and leads to
acceptance by some word; only its states accept and have rules; and the characters on its rules are those of the
literals of the tree. -/
theorem toDfa_trim (t : Tree) (h : t.Identified) (minimize : Bool) :
    (t.toDfa minimize).initial = (0 : Nat) ∧ (t.toDfa minimize).Trim ∧
      ∀ c, (∃ q p, (t.toDfa minimize).transition? q c = some p) ↔ c ∈ t.literals := by
  refine ⟨t.initial_toDfa minimize, h.trim_toDfa minimize, fun c => ?_⟩
  rw [(h.trim_toDfa minimize).exists_transition?_iff, mem_literals_iff]
  simp only [h.acceptsWord_toDfa_iff]

/-- A choice of which one side is repeated. -/
theorem toDfa_trim_choice :
    let t : Tree := .union (.literal 'a') (.star (.literal 'b'))
    t.Identified ∧ (t.toDfa true).initial = (0 : Nat) ∧ (t.toDfa true).Trim ∧
      ∀ c, (∃ q p, (t.toDfa true).transition? q c = some p) ↔ c ∈ t.literals := by
  intro t
  have hidentified : t.Identified := .of_stateCount_le (by decide)
  exact ⟨hidentified, toDfa_trim t hidentified true⟩

/-- **Told apart.** Two states of the minimized automaton accept different sets of words if one of the sets is finite. So
for a tree with a finite language, such as any tree without repetition, the number of states is the least that an
automaton for the language can have. -/
theorem toDfa_distinguishes (t : Tree) (h : t.Identified) :
    (∀ p q, p ∈ (t.toDfa true).states → q ∈ (t.toDfa true).states → p ≠ q →
      Set.Finite ((t.toDfa true).residual p) → (t.toDfa true).residual p ≠ (t.toDfa true).residual q) ∧
    (Set.Finite t.language →
      IsLeast {n | ∃ d : Dfa, (∀ w, d.acceptsWord w = true ↔ w ∈ t.language) ∧ d.states.size = n}
        (t.toDfa true).states.size) ∧
    (t.hasRepetition = false → Set.Finite t.language) := by
  have htrim := h.trim_toDfa true
  have hdistinct : ∀ p q, p ∈ (t.toDfa true).states → q ∈ (t.toDfa true).states →
      Set.Finite ((t.toDfa true).residual p) → (t.toDfa true).residual p = (t.toDfa true).residual q → p = q := by
    intro p q hp hq hfinite heq
    obtain ⟨bound, hbound⟩ := Dfa.exists_length_lt_of_finite _ hfinite
    exact htrim.eq_of_residual_eq t.toNfa.toDfa.irreducible_minimize bound hp hq hbound heq
  refine ⟨fun p q hp hq hne hfinite heq => hne (hdistinct p q hp hq hfinite heq), fun hfinite => ⟨?_, ?_⟩,
    t.finite_language_of_hasRepetition⟩
  · exact ⟨t.toDfa true, h.acceptsWord_toDfa_iff true, rfl⟩
  · rintro n ⟨d, hd, rfl⟩
    have haccepted : Set.Finite {w | (t.toDfa true).acceptsWord w = true} :=
      hfinite.subset fun w hw => (h.acceptsWord_toDfa_iff true w).1 hw
    have hresidual := htrim.finite_residual haccepted
    exact htrim.size_states_le (fun p q hp hq => hdistinct p q hp hq (hresidual p hp)) fun w => by
      rw [Bool.eq_iff_iff, hd, h.acceptsWord_toDfa_iff]

/-- A choice of two sequences: its words are finitely many, so no automaton for it has fewer states. -/
theorem toDfa_distinguishes_choice :
    let t : Tree := .union (.concat (.literal 'a') (.literal 'c')) (.concat (.literal 'b') (.literal 'c'))
    t.Identified ∧ t.hasRepetition = false ∧ Set.Finite t.language ∧
      IsLeast {n | ∃ d : Dfa, (∀ w, d.acceptsWord w = true ↔ w ∈ t.language) ∧ d.states.size = n}
        (t.toDfa true).states.size := by
  intro t
  have hidentified : t.Identified := .of_stateCount_le (by decide)
  obtain ⟨-, hleast, hfinite⟩ := toDfa_distinguishes t hidentified
  exact ⟨hidentified, rfl, hfinite rfl, hleast (hfinite rfl)⟩

/-- **Stops in time.** A cursor over the compiled automaton, whatever it was used on before, reads a word up to the end of
its longest viable prefix and stays in the state that this prefix leads to. Something is left unread exactly if that prefix
is shorter than the word, and then the word is rejected; otherwise the answer is whether the word is in the language. -/
theorem matchWord_stops (t : Tree) (h : t.Identified) (minimize : Bool) (q : State) (history : List (List Char))
    (w : List Char) :
    let d := t.toDfa minimize
    let k := (⟨d, q⟩ : Dfa.Cursor).after history
    let stop := k.dfa.read k.reset.current w
    ∃ u, LongestViable t.language u w ∧ w = u ++ stop.unread ∧ d.read d.initial u = ⟨stop.state, []⟩ ∧
      (k.matchWord w).2 = ⟨d, stop.state⟩ ∧ (stop.unread ≠ [] ↔ u.length < w.length) ∧
      ((k.matchWord w).1 = true ↔ stop.unread = [] ∧ w ∈ t.language) := by
  intro d k stop
  have hlanguage := h.acceptsWord_toDfa_iff minimize
  have hdfa : k.dfa = d := Dfa.Cursor.dfa_after _ history
  have hstop : stop = d.read d.initial w := hdfa ▸ rfl
  have hmatch : k.matchWord w = (d.acceptsWord w, ⟨d, stop.state⟩) := by rw [k.matchWord_eq, hdfa, hstop]
  obtain ⟨u, v, p, hw, hlongest, hu, hread⟩ := (h.trim_toDfa minimize).longestViable_read hlanguage w
  rw [hmatch, hstop, hread]
  refine ⟨u, hlongest, hw, hu, rfl, ?_, ?_⟩
  · rw [hw, List.length_append, Nat.lt_add_right_iff_pos, List.length_pos_iff]
  · -- what is accepted has been read to its end
    refine ⟨fun hacc => ⟨?_, (hlanguage w).1 hacc⟩, fun h => (hlanguage w).2 h.2⟩
    replace hacc : d.acceptsWord w = true := hacc
    rw [Dfa.acceptsWord, hread, Dfa.isAcceptedAt, Bool.and_eq_true] at hacc
    exact List.isEmpty_iff.1 hacc.1

/-- A cursor that was used on another word before, on a word of which only the first character is viable. -/
theorem matchWord_stops_letters :
    let t : Tree := .concat (.literal 'a') (.literal 'b')
    let d := t.toDfa true
    let k := (⟨d, (0 : Nat)⟩ : Dfa.Cursor).after [['a', 'b']]
    let stop := k.dfa.read k.reset.current ['a', 'c']
    t.Identified ∧ ∃ u, LongestViable t.language u ['a', 'c'] ∧ ['a', 'c'] = u ++ stop.unread ∧
      d.read d.initial u = ⟨stop.state, []⟩ ∧ (k.matchWord ['a', 'c']).2 = ⟨d, stop.state⟩ ∧
      (stop.unread ≠ [] ↔ u.length < ['a', 'c'].length) ∧
      ((k.matchWord ['a', 'c']).1 = true ↔ stop.unread = [] ∧ ['a', 'c'] ∈ t.language) := by
  intro t d k stop
  have hidentified : t.Identified := .of_stateCount_le (by decide)
  exact ⟨hidentified, matchWord_stops t hidentified true (0 : Nat) [['a', 'b']] ['a', 'c']⟩

end PatternAutomata.Tree
