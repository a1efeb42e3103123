/-
The languages of combined automata.

The combinators keep the states of their operands and join them by epsilon rules, so the operands should mention no state
in common (`Apart`) and none of the new ones. A repetition also asks that no rule of its body lead back to the initial
state of the body (`NoEntry`): it accepts in that state, and coming back there in the middle of a word would accept a
word that the body has not finished.

A path through a combined automaton stays among the states of an operand until one of the joining rules takes it out;
`Path.leave` says where. The cases of the language theorems are read off that.

- `language_emptyWord`, `language_character`, `language_union`, `language_concat`, `language_star`, `language_plus`: the
  languages of the combinations.
- `noEntry_union`, `noEntry_concat`, `noEntry_star`, `noEntry_plus`: no rule leads into their initial states.
-/
import PatternAutomata.Nfa.Combinators
import PatternAutomata.Proofs.Nfa.Path

namespace PatternAutomata.Nfa

open Computability

/-! ## Mentioned states -/

/-- The state is initial, accepts, or is the source or a destination of a rule. -/
def Mentions (m : Nfa) (q : State) : Prop := q = m.initial ∨ q ∈ m.accepts ∨ q ∈ m.rules.states

/-- No state is mentioned by both automata. -/
def Apart (m n : Nfa) : Prop := ∀ q, m.Mentions q → ¬ n.Mentions q

/-- No rule leads into the initial state. -/
def NoEntry (m : Nfa) : Prop := ∀ q a, ¬ m.initial ∈ m.rules.destinations q a

theorem mentions_initial (m : Nfa) : m.Mentions m.initial := Or.inl rfl

theorem mentions_of_accepts (m : Nfa) {q : State} (h : q ∈ m.accepts) : m.Mentions q := Or.inr (Or.inl h)

theorem mentions_of_destination (m : Nfa) {q p : State} {a : Symbol} (h : p ∈ m.rules.destinations q a) :
    m.Mentions p := Or.inr (Or.inr (m.rules.mem_states_of_destination q a p h))

theorem mentions_of_source (m : Nfa) {q p : State} {a : Symbol} (h : p ∈ m.rules.destinations q a) : m.Mentions q :=
  Or.inr (Or.inr (m.rules.mem_states_of_source q a p h))

theorem Apart.symm {m n : Nfa} (h : m.Apart n) : n.Apart m := fun q hn hm => h q hm hn

/-! ## Paths in a larger automaton -/

theorem Path.mono {m n : Nfa} (h : ∀ q a p, p ∈ m.rules.destinations q a → p ∈ n.rules.destinations q a) {q p : State}
    {w : List Char} (hpath : m.Path q w p) : n.Path q w p := by
  induction hpath with
  | refl q => exact .refl q
  | silent hstep _ ih => exact .silent (h _ _ _ hstep) ih
  | read hstep _ ih => exact .read (h _ _ _ hstep) ih

theorem path_congr {m n : Nfa} (h : m.rules = n.rules) (q : State) (w : List Char) (p : State) :
    m.Path q w p ↔ n.Path q w p :=
  ⟨Path.mono fun _ _ _ ht => h ▸ ht, Path.mono fun _ _ _ ht => h.symm ▸ ht⟩

/-- Where the rules of `n` from inside `m` are rules of `m` or epsilon rules along `exit`, a path that starts inside `m`
is a path of `m`, or is one up to the first exit. -/
theorem Path.leave {m n : Nfa} (exit : State → State → Prop)
    (h : ∀ q a p, m.Mentions q → p ∈ n.rules.destinations q a →
      p ∈ m.rules.destinations q a ∨ (a = .epsilon ∧ exit q p))
    {q p : State} {w : List Char} (hq : m.Mentions q) (hpath : n.Path q w p) :
    m.Path q w p ∨ ∃ u v r s, w = u ++ v ∧ m.Path q u r ∧ exit r s ∧ n.Path s v p := by
  induction hpath with
  | refl q => exact Or.inl (.refl q)
  | @silent q r p w hstep rest ih =>
    rcases h _ _ _ hq hstep with hin | ⟨-, hexit⟩
    · rcases ih (m.mentions_of_destination hin) with ih | ⟨u, v, s, t, hw, hpre, hexit, hpost⟩
      · exact Or.inl (.silent hin ih)
      · exact Or.inr ⟨u, v, s, t, hw, .silent hin hpre, hexit, hpost⟩
    · exact Or.inr ⟨[], w, q, r, rfl, .refl q, hexit, rest⟩
  | @read q r p c w hstep rest ih =>
    rcases h _ _ _ hq hstep with hin | ⟨ha, -⟩
    · rcases ih (m.mentions_of_destination hin) with ih | ⟨u, v, s, t, hw, hpre, hexit, hpost⟩
      · exact Or.inl (.read hin ih)
      · exact Or.inr ⟨c :: u, v, s, t, by rw [hw, List.cons_append], .read hin hpre, hexit, hpost⟩
    · cases ha

/-- Without exits a path that starts inside `m` is a path of `m`. -/
theorem Path.inside {m n : Nfa}
    (h : ∀ q a p, m.Mentions q → p ∈ n.rules.destinations q a → p ∈ m.rules.destinations q a) {q p : State}
    {w : List Char} (hq : m.Mentions q) (hpath : n.Path q w p) : m.Path q w p := by
  rcases Path.leave (fun _ _ => False) (fun q a p hq hp => Or.inl (h q a p hq hp)) hq hpath with h | ⟨_, _, _, _, h⟩
  · exact h
  · exact absurd h.2.2.1 id

theorem Path.mentions {m : Nfa} {q p : State} {w : List Char} (hpath : m.Path q w p) (hq : m.Mentions q) :
    m.Mentions p := by
  induction hpath with
  | refl => exact hq
  | silent hstep _ ih => exact ih (m.mentions_of_destination hstep)
  | read hstep _ ih => exact ih (m.mentions_of_destination hstep)

/-! ## Single states and characters -/

theorem mentions_emptyWord (q s : State) : (emptyWord q).Mentions s ↔ s = q := by
  unfold Mentions emptyWord
  rw [StateSet.mem_singleton]
  refine ⟨fun h => ?_, Or.inl⟩
  rcases h with h | h | h
  · exact h
  · exact h
  · exact absurd h (Rules.not_mem_states_empty s)

theorem noEntry_emptyWord (q : State) : (emptyWord q).NoEntry := fun s a => Rules.not_mem_destinations_empty s a q

theorem language_emptyWord (q : State) : (emptyWord q).language = 1 := by
  ext w
  rw [Language.mem_one]
  refine ⟨fun h => ?_, fun h => h ▸ ⟨q, StateSet.mem_singleton.2 rfl, .refl q⟩⟩
  obtain ⟨p, -, hpath⟩ := h
  cases hpath with
  | refl => rfl
  | silent hstep _ => exact absurd hstep (Rules.not_mem_destinations_empty _ _ _)
  | read hstep _ => exact absurd hstep (Rules.not_mem_destinations_empty _ _ _)

theorem mem_destinations_character (q e : State) (c : Char) (s : State) (a : Symbol) (p : State) :
    p ∈ (character q e c).rules.destinations s a ↔ s = q ∧ a = .char c ∧ p = e := by
  unfold character
  rw [Rules.mem_destinations_add]
  exact or_iff_right (Rules.not_mem_destinations_empty s a p)

theorem mentions_character (q e : State) (c : Char) (s : State) : (character q e c).Mentions s ↔ s = q ∨ s = e := by
  unfold Mentions character
  rw [StateSet.mem_singleton, Rules.mem_states_add, or_iff_right (Rules.not_mem_states_empty s)]
  exact ⟨fun h => h.elim Or.inl fun h => h.elim Or.inr id, fun h => Or.inr (Or.inr h)⟩

theorem noEntry_character (q e : State) (c : Char) (hne : q ≠ e) : (character q e c).NoEntry := by
  intro s a h
  exact hne ((mem_destinations_character ..).1 h).2.2

theorem language_character (q e : State) (c : Char) (hne : q ≠ e) : (character q e c).language = {[c]} := by
  ext w
  show w ∈ (character q e c).language ↔ w = [c]
  refine ⟨fun h => ?_, fun h => ?_⟩
  · obtain ⟨p, hp, hpath⟩ := h
    replace hpath : (character q e c).Path q w p := hpath
    obtain rfl := StateSet.mem_singleton.1 hp
    cases hpath with
    | refl => exact absurd rfl hne
    | silent hstep _ =>
      obtain ⟨-, ha, -⟩ := (mem_destinations_character ..).1 hstep
      cases ha
    | read hstep rest =>
      obtain ⟨-, ha, rfl⟩ := (mem_destinations_character ..).1 hstep
      cases ha
      cases rest with
      | refl => rfl
      | silent hstep _ => exact absurd ((mem_destinations_character ..).1 hstep).1.symm hne
      | read hstep _ => exact absurd ((mem_destinations_character ..).1 hstep).1.symm hne
  · subst h
    have hstep : e ∈ (character q e c).rules.destinations q (.char c) :=
      (mem_destinations_character ..).2 ⟨rfl, rfl, rfl⟩
    exact ⟨e, StateSet.mem_singleton.2 rfl, .read hstep (.refl e)⟩

/-! ## Union -/

theorem mem_destinations_union (q : State) (left right : Nfa) (s : State) (a : Symbol) (p : State) :
    p ∈ (union q left right).rules.destinations s a ↔
      p ∈ left.rules.destinations s a ∨ p ∈ right.rules.destinations s a ∨
        (s = q ∧ a = .epsilon ∧ (p = left.initial ∨ p = right.initial)) := by
  simp only [union, Rules.mem_destinations_add, Rules.mem_destinations_merge]
  grind

theorem mentions_union (q : State) (left right : Nfa) (s : State) :
    (union q left right).Mentions s ↔ s = q ∨ left.Mentions s ∨ right.Mentions s := by
  simp only [Mentions, union, Rules.mem_states_add, Rules.mem_states_merge, StateSet.mem_union]
  grind

theorem noEntry_union (q : State) (left right : Nfa) (hl : ¬ left.Mentions q) (hr : ¬ right.Mentions q) :
    (union q left right).NoEntry := by
  intro s a h
  rcases (mem_destinations_union ..).1 h with h | h | ⟨-, -, h | h⟩
  · exact hl (left.mentions_of_destination h)
  · exact hr (right.mentions_of_destination h)
  · exact hl (Or.inl h)
  · exact hr (Or.inl h)

/-- Where paths of a union go from its new initial state to an accepting state. -/
theorem path_union_iff (q : State) (left right : Nfa) (hl : ¬ left.Mentions q) (hr : ¬ right.Mentions q)
    (happart : left.Apart right) (w : List Char) (p : State) (hp : p ∈ left.accepts ∪ right.accepts) :
    (union q left right).Path q w p ↔ left.Path left.initial w p ∨ right.Path right.initial w p := by
  refine ⟨?_, ?_⟩
  · intro h
    cases h with
    | refl =>
      rcases StateSet.mem_union.1 hp with h | h
      · exact absurd (left.mentions_of_accepts h) hl
      · exact absurd (right.mentions_of_accepts h) hr
    | read hstep _ =>
      rcases (mem_destinations_union ..).1 hstep with h | h | ⟨-, h, -⟩
      · exact absurd (left.mentions_of_source h) hl
      · exact absurd (right.mentions_of_source h) hr
      · cases h
    | silent hstep rest =>
      rcases (mem_destinations_union ..).1 hstep with h | h | ⟨-, -, rfl | rfl⟩
      · exact absurd (left.mentions_of_source h) hl
      · exact absurd (right.mentions_of_source h) hr
      · refine Or.inl (rest.inside (fun s a t hs ht => ?_) left.mentions_initial)
        rcases (mem_destinations_union ..).1 ht with h | h | ⟨rfl, -⟩
        · exact h
        · exact absurd (right.mentions_of_source h) (happart s hs)
        · exact absurd hs hl
      · refine Or.inr (rest.inside (fun s a t hs ht => ?_) right.mentions_initial)
        rcases (mem_destinations_union ..).1 ht with h | h | ⟨rfl, -⟩
        · exact absurd (left.mentions_of_source h) (happart.symm s hs)
        · exact h
        · exact absurd hs hr
  · intro h
    rcases h with h | h
    · have hstep : (union q left right).Silent q left.initial :=
        (mem_destinations_union ..).2 (Or.inr (Or.inr ⟨rfl, rfl, Or.inl rfl⟩))
      exact .silent hstep (h.mono fun s a t ht => (mem_destinations_union ..).2 (Or.inl ht))
    · have hstep : (union q left right).Silent q right.initial :=
        (mem_destinations_union ..).2 (Or.inr (Or.inr ⟨rfl, rfl, Or.inr rfl⟩))
      exact .silent hstep (h.mono fun s a t ht => (mem_destinations_union ..).2 (Or.inr (Or.inl ht)))

theorem language_union (q : State) (left right : Nfa) (hl : ¬ left.Mentions q) (hr : ¬ right.Mentions q)
    (happart : left.Apart right) : (union q left right).language = left.language + right.language := by
  ext w
  rw [Language.mem_add]
  refine ⟨?_, ?_⟩
  · intro h
    obtain ⟨p, hp, hpath⟩ := h
    -- the operands share no state, so the operand that the path runs through is the one that accepts in `p`
    rcases (path_union_iff q left right hl hr happart w p hp).1 hpath with h | h
    · rcases StateSet.mem_union.1 hp with hp | hp
      · exact Or.inl ⟨p, hp, h⟩
      · exact absurd (right.mentions_of_accepts hp) (happart p (h.mentions left.mentions_initial))
    · rcases StateSet.mem_union.1 hp with hp | hp
      · exact absurd (left.mentions_of_accepts hp) (happart.symm p (h.mentions right.mentions_initial))
      · exact Or.inr ⟨p, hp, h⟩
  · intro h
    rcases h with ⟨p, hp, h⟩ | ⟨p, hp, h⟩
    · have hp' : p ∈ left.accepts ∪ right.accepts := StateSet.mem_union.2 (Or.inl hp)
      exact ⟨p, hp', (path_union_iff q left right hl hr happart w p hp').2 (Or.inl h)⟩
    · have hp' : p ∈ left.accepts ∪ right.accepts := StateSet.mem_union.2 (Or.inr hp)
      exact ⟨p, hp', (path_union_iff q left right hl hr happart w p hp').2 (Or.inr h)⟩

/-! ## Concatenation -/

theorem mem_destinations_concat (first second : Nfa) (s : State) (a : Symbol) (p : State) :
    p ∈ (concat first second).rules.destinations s a ↔
      p ∈ first.rules.destinations s a ∨ p ∈ second.rules.destinations s a ∨
        (s ∈ first.accepts ∧ a = .epsilon ∧ p = second.initial) := by
  simp only [concat, Rules.mem_destinations_addFrom, Rules.mem_destinations_merge]
  grind

theorem mentions_of_mentions_concat (first second : Nfa) (s : State) (h : (concat first second).Mentions s) :
    first.Mentions s ∨ second.Mentions s := by
  simp only [Mentions, concat, Rules.mem_states_addFrom, Rules.mem_states_merge] at h ⊢
  grind

theorem noEntry_concat (first second : Nfa) (hfirst : first.NoEntry) (happart : first.Apart second) :
    (concat first second).NoEntry := by
  intro s a h
  rcases (mem_destinations_concat ..).1 h with h | h | ⟨-, -, h⟩
  · exact hfirst s a h
  · exact happart _ first.mentions_initial (second.mentions_of_destination h)
  · exact happart _ first.mentions_initial (Or.inl h)

/-- Inside the second operand a sequence follows the rules of the second operand. -/
theorem path_concat_second_iff (first second : Nfa) (happart : first.Apart second) (q : State)
    (hq : second.Mentions q) (w : List Char) (p : State) : (concat first second).Path q w p ↔ second.Path q w p := by
  refine ⟨?_, ?_⟩
  · refine Path.inside (fun s a t hs ht => ?_) hq
    rcases (mem_destinations_concat ..).1 ht with h | h | ⟨h, -⟩
    · exact absurd (first.mentions_of_source h) (happart.symm s hs)
    · exact h
    · exact absurd (first.mentions_of_accepts h) (happart.symm s hs)
  · exact fun h => h.mono fun s a t ht => (mem_destinations_concat ..).2 (Or.inr (Or.inl ht))

/-- A path of a sequence from the start runs through the first operand alone, or leaves it at an accepting state for the
second. -/
theorem path_concat_iff (first second : Nfa) (happart : first.Apart second) (w : List Char) (p : State) :
    (concat first second).Path first.initial w p ↔
      first.Path first.initial w p ∨
        ∃ u v, w = u ++ v ∧ u ∈ first.language ∧ second.Path second.initial v p := by
  have hmono : ∀ q w p, first.Path q w p → (concat first second).Path q w p := fun q w p h =>
    h.mono fun s a t ht => (mem_destinations_concat ..).2 (Or.inl ht)
  refine ⟨?_, ?_⟩
  · intro h
    have hexit : ∀ s a t, first.Mentions s → t ∈ (concat first second).rules.destinations s a →
        t ∈ first.rules.destinations s a ∨ (a = .epsilon ∧ (s ∈ first.accepts ∧ t = second.initial)) := by
      intro s a t hs ht
      rcases (mem_destinations_concat ..).1 ht with h | h | ⟨h1, h2, h3⟩
      · exact Or.inl h
      · exact absurd (second.mentions_of_source h) (happart s hs)
      · exact Or.inr ⟨h2, h1, h3⟩
    rcases Path.leave _ hexit first.mentions_initial h with h | ⟨u, v, r, s, hw, hpre, ⟨hr, rfl⟩, hpost⟩
    · exact Or.inl h
    · exact Or.inr ⟨u, v, hw, ⟨r, hr, hpre⟩,
        (path_concat_second_iff first second happart _ second.mentions_initial v p).1 hpost⟩
  · intro h
    rcases h with h | ⟨u, v, rfl, ⟨r, hr, hpre⟩, hpost⟩
    · exact hmono _ _ _ h
    · have hstep : (concat first second).Silent r second.initial :=
        (mem_destinations_concat ..).2 (Or.inr (Or.inr ⟨hr, rfl, rfl⟩))
      exact (hmono _ _ _ hpre).append
        (.silent hstep ((path_concat_second_iff first second happart _ second.mentions_initial v p).2 hpost))

theorem language_concat (first second : Nfa) (happart : first.Apart second) :
    (concat first second).language = first.language * second.language := by
  ext w
  rw [Language.mem_mul]
  refine ⟨?_, ?_⟩
  · intro h
    obtain ⟨p, hp, hpath⟩ := h
    rcases (path_concat_iff first second happart w p).1 hpath with h | ⟨u, v, rfl, hu, hv⟩
    · exact absurd (second.mentions_of_accepts hp) (happart p (h.mentions first.mentions_initial))
    · exact ⟨u, hu, v, ⟨p, hp, hv⟩, rfl⟩
  · intro h
    obtain ⟨u, hu, v, ⟨p, hp, hv⟩, rfl⟩ := h
    exact ⟨p, hp, (path_concat_iff first second happart (u ++ v) p).2 (Or.inr ⟨u, v, rfl, hu, hv⟩)⟩

/-! ## Repetition -/

theorem append_mem_kstar {l : Language Char} {u v : List Char} (hu : u ∈ l) (hv : v ∈ l∗) : u ++ v ∈ l∗ := by
  obtain ⟨rounds, rfl, hrounds⟩ := Language.mem_kstar.1 hv
  show (u :: rounds).flatten ∈ l∗
  exact Language.join_mem_kstar (List.forall_mem_cons.2 ⟨hu, hrounds⟩)

theorem mem_destinations_star (q e : State) (body : Nfa) (s : State) (a : Symbol) (p : State) :
    p ∈ (star q e body).rules.destinations s a ↔
      p ∈ body.rules.destinations s a ∨
        (a = .epsilon ∧ (s = q ∨ s ∈ body.accepts) ∧ (p = e ∨ p = body.initial)) := by
  simp only [star, Rules.mem_destinations_addFrom, Rules.mem_destinations_add]
  grind

theorem mem_accepts_star (q e : State) (body : Nfa) (p : State) :
    p ∈ (star q e body).accepts ↔ p = body.initial ∨ p = e := by
  simp only [star, StateSet.mem_union, StateSet.mem_singleton]

theorem mentions_star (q e : State) (body : Nfa) (s : State) :
    (star q e body).Mentions s ↔ s = q ∨ s = e ∨ body.Mentions s := by
  simp only [Mentions, star, Rules.mem_states_addFrom, Rules.mem_states_add, StateSet.mem_union, StateSet.mem_singleton]
  grind

theorem noEntry_star (q e : State) (body : Nfa) (hq : ¬ body.Mentions q) (hne : q ≠ e) : (star q e body).NoEntry := by
  intro s a h
  rcases (mem_destinations_star ..).1 h with h | ⟨-, -, h | h⟩
  · exact hq (body.mentions_of_destination h)
  · exact hne h
  · exact hq (Or.inl h)

/-- The new end of a repetition has no rules. -/
theorem eq_nil_of_path_star_end (q e : State) (body : Nfa) (he : ¬ body.Mentions e) (hne : q ≠ e) (w : List Char)
    (p : State) (h : (star q e body).Path e w p) : w = [] := by
  have hnone : ∀ a r, ¬ r ∈ (star q e body).rules.destinations e a := by
    intro a r hr
    rcases (mem_destinations_star ..).1 hr with h | ⟨-, h | h, -⟩
    · exact he (body.mentions_of_source h)
    · exact hne h.symm
    · exact he (body.mentions_of_accepts h)
  cases h with
  | refl => rfl
  | silent hstep _ => exact absurd hstep (hnone _ _)
  | read hstep _ => exact absurd hstep (hnone _ _)

/-- A path of a repetition from inside the body to an accepting state finishes the round it is in, and goes on with whole
rounds. Only a path that ends where rounds begin may have no round to finish: no rule of the body leads back there, so
the path comes there by a joining rule alone. -/
theorem rounds_of_path_star (q e : State) (body : Nfa) (hentry : body.NoEntry) (hq : ¬ body.Mentions q)
    (he : ¬ body.Mentions e) (hne : q ≠ e) (s : State) (w : List Char) (p : State) (h : (star q e body).Path s w p)
    (hs : body.Mentions s) (hp : p = body.initial ∨ p = e) :
    (s = body.initial ∧ w = []) ∨
      ∃ u v r, w = u ++ v ∧ r ∈ body.accepts ∧ body.Path s u r ∧ v ∈ body.language∗ := by
  induction h with
  | refl s =>
    rcases hp with hp | hp
    · exact Or.inl ⟨hp, rfl⟩
    · exact absurd (hp ▸ hs) he
  | @silent s r p w hstep rest ih =>
    rcases (mem_destinations_star ..).1 hstep with hbody | ⟨-, hsource, hr⟩
    · rcases ih (body.mentions_of_destination hbody) hp with ⟨hr, -⟩ | ⟨u, v, t, hw, ht, hpath, hv⟩
      · exact absurd (hr ▸ hbody) (hentry s .epsilon)
      · exact Or.inr ⟨u, v, t, hw, ht, .silent hbody hpath, hv⟩
    · have hacc : s ∈ body.accepts := by
        rcases hsource with hsource | hsource
        · exact absurd (hsource ▸ hs) hq
        · exact hsource
      rcases hr with rfl | rfl
      · have hw := eq_nil_of_path_star_end q r body he hne w p rest
        exact Or.inr ⟨[], [], s, hw, hacc, .refl s, Language.nil_mem_kstar _⟩
      · rcases ih body.mentions_initial hp with ⟨-, hw⟩ | ⟨u, v, t, hw, ht, hpath, hv⟩
        · exact Or.inr ⟨[], [], s, hw, hacc, .refl s, Language.nil_mem_kstar _⟩
        · have hround : u ++ v ∈ body.language∗ := append_mem_kstar ⟨t, ht, hpath⟩ hv
          exact Or.inr ⟨[], w, s, rfl, hacc, .refl s, hw ▸ hround⟩
  | @read s r p c w hstep rest ih =>
    rcases (mem_destinations_star ..).1 hstep with hbody | ⟨ha, -⟩
    · rcases ih (body.mentions_of_destination hbody) hp with ⟨hr, -⟩ | ⟨u, v, t, hw, ht, hpath, hv⟩
      · exact absurd (hr ▸ hbody) (hentry s (.char c))
      · exact Or.inr ⟨c :: u, v, t, by rw [hw, List.cons_append], ht, .read hbody hpath, hv⟩
    · cases ha

/-- Any number of words of the body leads from where rounds begin back to there. -/
theorem path_star_of_mem_kstar (q e : State) (body : Nfa) (w : List Char) (h : w ∈ body.language∗) :
    (star q e body).Path body.initial w body.initial := by
  obtain ⟨rounds, rfl, hrounds⟩ := Language.mem_kstar.1 h
  clear h
  induction rounds with
  | nil => exact .refl _
  | cons u rounds ih =>
    obtain ⟨r, hr, hpath⟩ := hrounds u List.mem_cons_self
    have hround : (star q e body).Path body.initial u r :=
      hpath.mono fun s a t ht => (mem_destinations_star ..).2 (Or.inl ht)
    have hback : (star q e body).Silent r body.initial :=
      (mem_destinations_star ..).2 (Or.inr ⟨rfl, Or.inr hr, Or.inr rfl⟩)
    have hrest : ∀ v ∈ rounds, v ∈ body.language := fun v hv => hrounds v (List.mem_cons_of_mem u hv)
    exact hround.append (.silent hback (ih hrest))

theorem language_star (q e : State) (body : Nfa) (hentry : body.NoEntry) (hq : ¬ body.Mentions q)
    (he : ¬ body.Mentions e) (hne : q ≠ e) : (star q e body).language = body.language∗ := by
  ext w
  refine ⟨?_, ?_⟩
  · intro h
    obtain ⟨p, hp, hpath⟩ := h
    have hp := (mem_accepts_star ..).1 hp
    cases hpath with
    | refl =>
      rcases hp with hp | hp
      · exact absurd (Or.inl hp) hq
      · exact absurd hp hne
    | read hstep _ =>
      rcases (mem_destinations_star ..).1 hstep with h | ⟨h, -⟩
      · exact absurd (body.mentions_of_source h) hq
      · cases h
    | silent hstep rest =>
      rcases (mem_destinations_star ..).1 hstep with h | ⟨-, -, rfl | rfl⟩
      · exact absurd (body.mentions_of_source h) hq
      · rw [eq_nil_of_path_star_end q _ body he hne w p rest]
        exact Language.nil_mem_kstar _
      · rcases rounds_of_path_star q e body hentry hq he hne _ w p rest body.mentions_initial hp with
          ⟨-, rfl⟩ | ⟨u, v, r, rfl, hr, hround, hv⟩
        · exact Language.nil_mem_kstar _
        · exact append_mem_kstar ⟨r, hr, hround⟩ hv
  · intro h
    have hstart : (star q e body).Silent q body.initial :=
      (mem_destinations_star ..).2 (Or.inr ⟨rfl, Or.inl rfl, Or.inr rfl⟩)
    exact ⟨body.initial, (mem_accepts_star ..).2 (Or.inl rfl), .silent hstart (path_star_of_mem_kstar q e body w h)⟩

/-! ## Repetition at least once -/

/-- The rules of a repetition at least once are those of its two parts in a row. -/
theorem rules_plus (q e : State) (first rest : Nfa) :
    (plus q e first rest).rules = (concat first (star q e rest)).rules := rfl

theorem mentions_of_mentions_plus (q e : State) (first rest : Nfa) (s : State)
    (h : (plus q e first rest).Mentions s) : first.Mentions s ∨ s = q ∨ s = e ∨ rest.Mentions s := by
  have hparts : first.Mentions s ∨ (star q e rest).Mentions s := by
    rcases h with h | h | h
    · exact Or.inl (Or.inl h)
    · rcases StateSet.mem_union.1 h with h | h
      · exact Or.inl (first.mentions_of_accepts h)
      · exact Or.inr (Nfa.mentions_of_accepts _ h)
    · exact mentions_of_mentions_concat first (star q e rest) s (Or.inr (Or.inr h))
  exact hparts.imp_right (mentions_star q e rest s).1

theorem apart_star (q e : State) (first rest : Nfa) (happart : first.Apart rest) (hq : ¬ first.Mentions q)
    (he : ¬ first.Mentions e) : first.Apart (star q e rest) := by
  intro s hs h
  rcases (mentions_star q e rest s).1 h with rfl | rfl | h
  · exact hq hs
  · exact he hs
  · exact happart s hs h

theorem noEntry_plus (q e : State) (first rest : Nfa) (hfirst : first.NoEntry) (happart : first.Apart rest)
    (hq : ¬ first.Mentions q) (he : ¬ first.Mentions e) : (plus q e first rest).NoEntry :=
  noEntry_concat first (star q e rest) hfirst (apart_star q e first rest happart hq he)

theorem language_plus (q e : State) (first rest : Nfa) (hentry : rest.NoEntry) (happart : first.Apart rest)
    (hqf : ¬ first.Mentions q) (hef : ¬ first.Mentions e) (hqr : ¬ rest.Mentions q) (her : ¬ rest.Mentions e)
    (hne : q ≠ e) : (plus q e first rest).language = first.language * rest.language∗ := by
  have htail := apart_star q e first rest happart hqf hef
  have hlanguage := language_star q e rest hentry hqr her hne
  have hpaths : ∀ s w p, (plus q e first rest).Path s w p ↔ (concat first (star q e rest)).Path s w p :=
    fun s w p => path_congr (rules_plus q e first rest) s w p
  ext w
  rw [Language.mem_mul, ← hlanguage]
  refine ⟨?_, ?_⟩
  · intro h
    obtain ⟨p, hp, hpath⟩ := h
    rcases (path_concat_iff first _ htail w p).1 ((hpaths _ w p).1 hpath) with h | ⟨u, v, rfl, hu, hv⟩
    · rcases StateSet.mem_union.1 hp with hp | hp
      · exact ⟨w, ⟨p, hp, h⟩, [], hlanguage ▸ Language.nil_mem_kstar _, List.append_nil w⟩
      · exact absurd (Nfa.mentions_of_accepts _ hp) (htail p (h.mentions first.mentions_initial))
    · rcases StateSet.mem_union.1 hp with hp | hp
      · exact absurd (first.mentions_of_accepts hp) (htail.symm p (hv.mentions (Nfa.mentions_initial _)))
      · exact ⟨u, hu, v, ⟨p, hp, hv⟩, rfl⟩
  · intro h
    obtain ⟨u, hu, v, ⟨p, hp, hv⟩, rfl⟩ := h
    refine ⟨p, StateSet.mem_union.2 (Or.inr hp), (hpaths _ _ p).2 ?_⟩
    exact (path_concat_iff first _ htail (u ++ v) p).2 (Or.inr ⟨u, v, rfl, hu, hv⟩)

end PatternAutomata.Nfa
