/-
Automata whose states are all reached.

A state is reached if some word leads to it from the initial state, and an automaton is accessible if every state it
mentions is reached. A single state and a single character are accessible, and the combinators keep it: each operand is
entered at its initial state, and from there on its own rules lead to all of it. Only a sequence asks for more. Its second
operand is entered from where the first one accepts, so some accepting state of the first must be reached; without one the
joining rules are missing, and the initial state of the second may not even be mentioned.

- `mentions_concat_iff`, `mentions_plus_iff`: which states a sequence and a plus mention.
- `accessible_union`, `accessible_concat`, `accessible_star`, `accessible_plus`: accessible automata from accessible ones.
-/
import PatternAutomata.Proofs.Nfa.Productive

namespace PatternAutomata.Nfa

variable {m n : Nfa} {q p : State} {w : List Char}

/-- Some word leads to the state from the initial one. -/
def Reached (m : Nfa) (q : State) : Prop := ∃ w, m.Path m.initial w q

theorem reached_initial (m : Nfa) : m.Reached m.initial := ⟨[], .refl m.initial⟩

theorem Reached.path (h : m.Reached q) (hpath : m.Path q w p) : m.Reached p := by
  obtain ⟨u, hu⟩ := h
  exact ⟨u ++ w, hu.append hpath⟩

theorem Reached.silent (h : m.Reached q) (hstep : m.Silent q p) : m.Reached p := h.path (.silent hstep (.refl p))

theorem Reached.mentions (h : m.Reached q) : m.Mentions q := by
  obtain ⟨w, hw⟩ := h
  exact hw.mentions m.mentions_initial

theorem Live.mentions (h : m.Live q) : m.Mentions q := by
  obtain ⟨w, p, hp, hpath⟩ := h
  cases hpath with
  | refl => exact m.mentions_of_accepts hp
  | silent hstep _ => exact m.mentions_of_source hstep
  | read hstep _ => exact m.mentions_of_source hstep

theorem Live.exists_accepts (h : m.Live q) : ∃ r, r ∈ m.accepts := by
  obtain ⟨-, r, hr, -⟩ := h
  exact ⟨r, hr⟩

/-- Every mentioned state is reached. -/
def Accessible (m : Nfa) : Prop := ∀ q, m.Mentions q → m.Reached q

/-- What is reached in a part is reached in the whole, once the initial state of the part is and the rules of the part
are there. -/
theorem Reached.of_part (h : m.Reached q) (hinitial : n.Reached m.initial)
    (hrules : ∀ q a p, p ∈ m.rules.destinations q a → p ∈ n.rules.destinations q a) : n.Reached q := by
  obtain ⟨w, hw⟩ := h
  exact hinitial.path (hw.mono hrules)

/-! ## Single states, characters and unions -/

theorem accessible_emptyWord (q : State) : (emptyWord q).Accessible := by
  intro s hs
  obtain rfl := (mentions_emptyWord q s).1 hs
  exact reached_initial _

theorem accessible_character (q e : State) (c : Char) : (character q e c).Accessible := by
  intro s hs
  rcases (mentions_character q e c s).1 hs with rfl | rfl
  · exact reached_initial _
  · exact ⟨[c], .read ((mem_destinations_character ..).2 ⟨rfl, rfl, rfl⟩) (.refl s)⟩

theorem accessible_union (q : State) (left right : Nfa) (hl : left.Accessible) (hr : right.Accessible) :
    (union q left right).Accessible := by
  have hstart : (union q left right).Reached q := reached_initial _
  have hleft : (union q left right).Reached left.initial :=
    hstart.silent ((mem_destinations_union ..).2 (Or.inr (Or.inr ⟨rfl, rfl, Or.inl rfl⟩)))
  have hright : (union q left right).Reached right.initial :=
    hstart.silent ((mem_destinations_union ..).2 (Or.inr (Or.inr ⟨rfl, rfl, Or.inr rfl⟩)))
  intro s hs
  rcases (mentions_union q left right s).1 hs with rfl | hs | hs
  · exact hstart
  · exact (hl s hs).of_part hleft fun _ _ _ h => (mem_destinations_union ..).2 (Or.inl h)
  · exact (hr s hs).of_part hright fun _ _ _ h => (mem_destinations_union ..).2 (Or.inr (Or.inl h))

/-! ## Sequences -/

theorem mentions_concat_iff (first second : Nfa) (haccepts : ∃ r, r ∈ first.accepts) (s : State) :
    (concat first second).Mentions s ↔ first.Mentions s ∨ second.Mentions s := by
  refine ⟨mentions_of_mentions_concat first second s, fun h => ?_⟩
  obtain ⟨r, hr⟩ := haccepts
  have hjoin : ∀ r, r ∈ first.accepts → second.initial ∈ (concat first second).rules.destinations r .epsilon :=
    fun r hr => (mem_destinations_concat ..).2 (Or.inr (Or.inr ⟨hr, rfl, rfl⟩))
  have hstates : ∀ x, x ∈ first.rules.states ∨ x ∈ second.rules.states → (concat first second).Mentions x := by
    intro x hx
    refine Or.inr (Or.inr ?_)
    simp only [concat, Rules.mem_states_addFrom, Rules.mem_states_merge]
    exact Or.inl hx.symm
  rcases h with (rfl | hs | hs) | (rfl | hs | hs)
  · exact mentions_initial _
  · exact mentions_of_source _ (hjoin s hs)
  · exact hstates s (Or.inl hs)
  · exact mentions_of_destination _ (hjoin r hr)
  · exact Or.inr (Or.inl hs)
  · exact hstates s (Or.inr hs)

theorem accessible_concat (first second : Nfa) (hf : first.Accessible) (hs : second.Accessible)
    (hlive : first.Live first.initial) : (concat first second).Accessible := by
  have hfirst : ∀ s, first.Reached s → (concat first second).Reached s := fun s h =>
    h.of_part (reached_initial _) fun _ _ _ h => (mem_destinations_concat ..).2 (Or.inl h)
  -- over from where the first operand accepts
  obtain ⟨u, r, hr, hpath⟩ := hlive
  have hsecond : (concat first second).Reached second.initial :=
    (hfirst r ⟨u, hpath⟩).silent ((mem_destinations_concat ..).2 (Or.inr (Or.inr ⟨hr, rfl, rfl⟩)))
  intro s h
  rcases mentions_of_mentions_concat first second s h with h | h
  · exact hfirst s (hf s h)
  · exact (hs s h).of_part hsecond fun _ _ _ h => (mem_destinations_concat ..).2 (Or.inr (Or.inl h))

/-! ## Repetitions -/

theorem accessible_star (q e : State) (body : Nfa) (hb : body.Accessible) : (star q e body).Accessible := by
  have hstart : (star q e body).Reached q := reached_initial _
  have hbody : (star q e body).Reached body.initial :=
    hstart.silent ((mem_destinations_star ..).2 (Or.inr ⟨rfl, Or.inl rfl, Or.inr rfl⟩))
  intro s hs
  rcases (mentions_star q e body s).1 hs with rfl | rfl | hs
  · exact hstart
  · exact hstart.silent ((mem_destinations_star ..).2 (Or.inr ⟨rfl, Or.inl rfl, Or.inl rfl⟩))
  · exact (hb s hs).of_part hbody fun _ _ _ h => (mem_destinations_star ..).2 (Or.inl h)

/-- A plus mentions the states of its two parts in a row. -/
theorem mentions_plus_iff (q e : State) (first rest : Nfa) (haccepts : ∃ r, r ∈ first.accepts) (s : State) :
    (plus q e first rest).Mentions s ↔ first.Mentions s ∨ s = q ∨ s = e ∨ rest.Mentions s := by
  refine ⟨mentions_of_mentions_plus q e first rest s, fun h => ?_⟩
  rcases (mentions_concat_iff first (star q e rest) haccepts s).2 (h.imp_right (mentions_star q e rest s).2) with h | h | h
  · exact Or.inl h
  · exact Or.inr (Or.inl (StateSet.mem_union.2 (Or.inr h)))
  · exact Or.inr (Or.inr h)

theorem accessible_plus (q e : State) (first rest : Nfa) (hf : first.Accessible) (hr : rest.Accessible)
    (hlive : first.Live first.initial) : (plus q e first rest).Accessible := by
  intro s hs
  have hparts : (concat first (star q e rest)).Mentions s :=
    (mentions_concat_iff _ _ hlive.exists_accepts s).2 ((mentions_of_mentions_plus q e first rest s hs).imp_right
      (mentions_star q e rest s).2)
  have hreached := accessible_concat first (star q e rest) hf (accessible_star q e rest hr) hlive s hparts
  exact hreached.of_part (reached_initial _) fun _ _ _ h => rules_plus q e first rest ▸ h

end PatternAutomata.Nfa
