/-
Automata without dead ends.

A state is live if some word leads from it to an accepting state, and an automaton is productive if every state it
mentions is live. A single state and a single character are productive, and the combinators keep it: their rules include
those of the operands, and wherever an operand accepts they accept too or go on by an epsilon rule. That the operands
share no state is not needed for this.
-/
import PatternAutomata.Proofs.Nfa.Combinators

namespace PatternAutomata.Nfa

variable {m n : Nfa} {q p : State} {w : List Char}

/-- Some word leads from the state to an accepting one. -/
def Live (m : Nfa) (q : State) : Prop := ∃ w p, p ∈ m.accepts ∧ m.Path q w p

theorem live_of_accepts (h : q ∈ m.accepts) : m.Live q := ⟨[], q, h, .refl q⟩

theorem Path.live (h : m.Path q w p) (hp : m.Live p) : m.Live q := by
  obtain ⟨v, t, ht, hrest⟩ := hp
  exact ⟨w ++ v, t, ht, h.append hrest⟩

/-- A state stays live when rules and accepting states are added. -/
theorem Live.mono (h : m.Live q) (haccepts : ∀ p, p ∈ m.accepts → p ∈ n.accepts)
    (hrules : ∀ q a p, p ∈ m.rules.destinations q a → p ∈ n.rules.destinations q a) : n.Live q := by
  obtain ⟨w, p, hp, hpath⟩ := h
  exact ⟨w, p, haccepts p hp, hpath.mono hrules⟩

/-- Every mentioned state is live. -/
def Productive (m : Nfa) : Prop := ∀ q, m.Mentions q → m.Live q

theorem productive_emptyWord (q : State) : (emptyWord q).Productive := by
  intro s hs
  obtain rfl := (mentions_emptyWord q s).1 hs
  exact live_of_accepts (StateSet.mem_singleton.2 rfl)

theorem productive_character (q e : State) (c : Char) : (character q e c).Productive := by
  have he : (character q e c).Live e := live_of_accepts (StateSet.mem_singleton.2 rfl)
  intro s hs
  rcases (mentions_character q e c s).1 hs with rfl | rfl
  · have hstep : (character s e c).Path s [c] e := .read ((mem_destinations_character ..).2 ⟨rfl, rfl, rfl⟩) (.refl e)
    exact hstep.live he
  · exact he

theorem productive_union (q : State) (left right : Nfa) (hl : left.Productive) (hr : right.Productive) :
    (union q left right).Productive := by
  have hleft : ∀ s, left.Mentions s → (union q left right).Live s := fun s hs =>
    (hl s hs).mono (fun _ h => StateSet.mem_union.2 (Or.inl h)) fun _ _ _ h => (mem_destinations_union ..).2 (Or.inl h)
  have hright : ∀ s, right.Mentions s → (union q left right).Live s := fun s hs =>
    (hr s hs).mono (fun _ h => StateSet.mem_union.2 (Or.inr h)) fun _ _ _ h =>
      (mem_destinations_union ..).2 (Or.inr (Or.inl h))
  intro s hs
  rcases (mentions_union q left right s).1 hs with rfl | hs | hs
  · have hstart : (union s left right).Silent s left.initial :=
      (mem_destinations_union ..).2 (Or.inr (Or.inr ⟨rfl, rfl, Or.inl rfl⟩))
    exact (Path.silent hstart (.refl _)).live (hleft _ left.mentions_initial)
  · exact hleft s hs
  · exact hright s hs

theorem productive_concat (first second : Nfa) (hf : first.Productive) (hs : second.Productive) :
    (concat first second).Productive := by
  have hsecond : ∀ s, second.Mentions s → (concat first second).Live s := fun s h =>
    (hs s h).mono (fun _ h => h) fun _ _ _ h => (mem_destinations_concat ..).2 (Or.inr (Or.inl h))
  intro s h
  rcases mentions_of_mentions_concat first second s h with h | h
  · -- through the first operand to where it accepts, and over to the second
    obtain ⟨u, r, hr, hpath⟩ := hf s h
    have hpath : (concat first second).Path s u r := hpath.mono fun _ _ _ h => (mem_destinations_concat ..).2 (Or.inl h)
    have hjoin : (concat first second).Silent r second.initial :=
      (mem_destinations_concat ..).2 (Or.inr (Or.inr ⟨hr, rfl, rfl⟩))
    exact hpath.live ((Path.silent hjoin (.refl _)).live (hsecond _ second.mentions_initial))
  · exact hsecond s h

theorem productive_star (q e : State) (body : Nfa) (hb : body.Productive) : (star q e body).Productive := by
  have he : (star q e body).Live e := live_of_accepts ((mem_accepts_star ..).2 (Or.inr rfl))
  intro s hs
  rcases (mentions_star q e body s).1 hs with rfl | rfl | hs
  · have hskip : (star s e body).Silent s e := (mem_destinations_star ..).2 (Or.inr ⟨rfl, Or.inl rfl, Or.inl rfl⟩)
    exact (Path.silent hskip (.refl e)).live he
  · exact he
  · obtain ⟨w, r, hr, hpath⟩ := hb s hs
    have hpath : (star q e body).Path s w r := hpath.mono fun _ _ _ h => (mem_destinations_star ..).2 (Or.inl h)
    have hend : (star q e body).Silent r e := (mem_destinations_star ..).2 (Or.inr ⟨rfl, Or.inr hr, Or.inl rfl⟩)
    exact hpath.live ((Path.silent hend (.refl e)).live he)

/-- A repetition at least once has the rules of its two parts in a row, and accepts in more states. -/
theorem productive_plus (q e : State) (first rest : Nfa) (hf : first.Productive) (hr : rest.Productive) :
    (plus q e first rest).Productive := by
  have hconcat := productive_concat first (star q e rest) hf (productive_star q e rest hr)
  have hparts : ∀ s, (concat first (star q e rest)).Mentions s → (plus q e first rest).Live s := fun s hs =>
    (hconcat s hs).mono (fun _ h => StateSet.mem_union.2 (Or.inr h)) fun _ _ _ h => rules_plus q e first rest ▸ h
  intro s hs
  rcases hs with hs | hs | hs
  · exact hparts s (Or.inl hs)
  · exact live_of_accepts hs
  · exact hparts s (Or.inr (Or.inr hs))

end PatternAutomata.Nfa
