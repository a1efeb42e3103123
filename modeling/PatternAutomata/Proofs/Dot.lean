/-
What the graph of an automaton tells.

After its head a graph is written item by item, one for each state and one for each arrow. Whatever follows an item, the
item can be told from the text: a state ends at the first character that is no digit, and a label can be read back
(`readLabel`), because an escape starts with a backslash and no character that stands for itself is one. So equal texts
have the same items, and these are the states, whether each accepts, and the arrows.

The arrows of a deterministic automaton are its rules. Those of a nondeterministic one do not show the keys that lead
nowhere; they are told by where the symbols lead, which is the other half of the statement.

- `escaped_dotLabel`: in a label nothing stands that would end it or break its line.
- `dotLabel_append_inj`, `name_append_inj`, `Item.append_inj`, `Item.lines_inj`: labels, states, items and lists of
  items are told by their text.
- `toList_graph`: a graph is its head, its initial state and the lines of its items.
- `graph_eq_iff`: what a graph tells.
- `dot_eq_iff`: automata with the same graph.
-/
import Mathlib.Data.List.Basic
import PatternAutomata.Dot

namespace PatternAutomata

namespace Dot

/-! ## Labels -/

/-- Reading from the left, a backslash escapes the character after it; no other quotation mark, line feed or last
backslash occurs. -/
def Escaped : List Char → Prop
  | [] => True
  | ['\\'] => False
  | '\\' :: _ :: rest => Escaped rest
  | c :: rest => c ≠ '"' ∧ c ≠ '\n' ∧ Escaped rest

/-- The symbol that a text begins with the label of, and what follows the label. -/
def readLabel : List Char → Option (Symbol × List Char)
  | 'ε' :: rest => some (.epsilon, rest)
  | '\'' :: '\\' :: '"' :: '\'' :: rest => some (.char '"', rest)
  | '\'' :: '\\' :: '\\' :: '\'' :: rest => some (.char '\\', rest)
  | '\'' :: '\\' :: '\\' :: 'n' :: '\'' :: rest => some (.char '\n', rest)
  | '\'' :: '\\' :: '\\' :: 't' :: '\'' :: rest => some (.char '\t', rest)
  | '\'' :: c :: '\'' :: rest => some (.char c, rest)
  | _ => none

/-- How a character is shown in its label: one of four ways of escaping, or the character itself. -/
theorem dotLabel_char (c : Char) :
    (c = '"' ∧ (Symbol.char c).dotLabel = ['\'', '\\', '"', '\'']) ∨
    (c = '\\' ∧ (Symbol.char c).dotLabel = ['\'', '\\', '\\', '\'']) ∨
    (c = '\n' ∧ (Symbol.char c).dotLabel = ['\'', '\\', '\\', 'n', '\'']) ∨
    (c = '\t' ∧ (Symbol.char c).dotLabel = ['\'', '\\', '\\', 't', '\'']) ∨
    ((c ≠ '"' ∧ c ≠ '\\' ∧ c ≠ '\n') ∧ (Symbol.char c).dotLabel = ['\'', c, '\'']) := by
  by_cases hquote : c = '"'
  · exact Or.inl ⟨hquote, by rw [hquote]; rfl⟩
  by_cases hslash : c = '\\'
  · exact Or.inr (Or.inl ⟨hslash, by rw [hslash]; rfl⟩)
  by_cases hfeed : c = '\n'
  · exact Or.inr (Or.inr (Or.inl ⟨hfeed, by rw [hfeed]; rfl⟩))
  by_cases htab : c = '\t'
  · exact Or.inr (Or.inr (Or.inr (Or.inl ⟨htab, by rw [htab]; rfl⟩)))
  · refine Or.inr (Or.inr (Or.inr (Or.inr ⟨⟨hquote, hslash, hfeed⟩, ?_⟩)))
    simp [Symbol.dotLabel, hquote, hslash, hfeed, htab]

/-- Whatever follows a label, the symbol can be read off it. -/
theorem readLabel_dotLabel_append (a : Symbol) (rest : List Char) :
    readLabel (a.dotLabel ++ rest) = some (a, rest) := by
  cases a with
  | epsilon => rfl
  | char c =>
    rcases dotLabel_char c with ⟨rfl, h⟩ | ⟨rfl, h⟩ | ⟨rfl, h⟩ | ⟨rfl, h⟩ | ⟨-, h⟩ <;> rw [h]
    · rfl
    · rfl
    · rfl
    · rfl
    · simp [readLabel]

theorem dotLabel_append_inj {a b : Symbol} {s t : List Char} (h : a.dotLabel ++ s = b.dotLabel ++ t) :
    a = b ∧ s = t := by
  have hread : some (a, s) = some (b, t) := by
    rw [← readLabel_dotLabel_append, h, readLabel_dotLabel_append]
  exact Prod.mk.inj (Option.some.inj hread)

/-- Nothing in a label ends it or breaks its line. -/
theorem escaped_dotLabel (a : Symbol) : Escaped a.dotLabel ∧ '\n' ∉ a.dotLabel := by
  cases a with
  | epsilon => simp [Symbol.dotLabel, Escaped]
  | char c =>
    rcases dotLabel_char c with ⟨-, h⟩ | ⟨-, h⟩ | ⟨-, h⟩ | ⟨-, h⟩ | ⟨⟨hquote, hslash, hfeed⟩, h⟩ <;> rw [h]
    · simp [Escaped]
    · simp [Escaped]
    · simp [Escaped]
    · simp [Escaped]
    · simp [Escaped, hquote, hslash, hfeed, Ne.symm hfeed]

/-! ## States -/

theorem toList_name (q : State) : (State.name q).toList = 'q' :: Nat.toDigits 10 q := by
  simp [State.name]

/-- A state ends at the first character that is no digit. -/
theorem name_append_inj {q p : State} {x : Char} {s t : List Char} (hx : x.isDigit = false)
    (h : (State.name q).toList ++ x :: s = (State.name p).toList ++ x :: t) : q = p ∧ s = t := by
  have hdigits : ∀ (q : Nat) (s : List Char),
      (Nat.toDigits 10 q ++ x :: s).takeWhile Char.isDigit = Nat.toDigits 10 q := fun q s => by
    rw [List.takeWhile_append_of_pos fun c hc => Nat.isDigit_of_mem_toDigits (by decide) (by decide) hc,
      List.takeWhile_cons_of_neg (by rw [hx]; exact Bool.false_ne_true), List.append_nil]
  rw [toList_name, toList_name, List.cons_append, List.cons_append, List.cons.injEq] at h
  have hname : Nat.toDigits 10 q = Nat.toDigits 10 p := by rw [← hdigits q s, h.2, hdigits p t]
  refine ⟨?_, ?_⟩
  · calc q = Nat.ofDigitChars 10 (Nat.toDigits 10 q) 0 := Nat.ofDigitChars_ten_toDigits.symm
      _ = Nat.ofDigitChars 10 (Nat.toDigits 10 p) 0 := by rw [hname]
      _ = p := Nat.ofDigitChars_ten_toDigits
  · rw [hname] at h
    exact (List.cons.inj (List.append_cancel_left h.2)).2

/-! ## Items -/

/-- What a graph has a line for. -/
inductive Item where
  | state (q : State) (accepting : Bool)
  | arrow (source : State) (a : Symbol) (target : State)

namespace Item

/-- The state that the line of an item begins with. -/
def source : Item → State
  | state q _ => q
  | arrow q _ _ => q

/-- The line of an item after its first state and the space that follows it. -/
def rest : Item → String
  | state _ accepting => "[shape=" ++ (if accepting then "doublecircle" else "circle") ++ "];\n"
  | arrow _ a p => "-> " ++ State.name p ++ " [label=\"" ++ String.ofList a.dotLabel ++ "\"];\n"

/-- The line of an item. -/
def line (i : Item) : String := "\t" ++ State.name i.source ++ " " ++ i.rest

/-- Whatever follows the line of an item, the item can be read off it. -/
theorem append_inj {i j : Item} {s t : List Char} (h : i.line.toList ++ s = j.line.toList ++ t) : i = j ∧ s = t := by
  obtain ⟨hsource, hrest⟩ : i.source = j.source ∧ i.rest.toList ++ s = j.rest.toList ++ t :=
    name_append_inj (x := ' ') (by decide) (by simpa [line] using h)
  cases i with
  | state q accepting =>
    cases j with
    | state p accepting' =>
      obtain rfl : q = p := hsource
      cases accepting <;> cases accepting' <;> simp_all [rest]
    | arrow p a target => simp [rest] at hrest
  | arrow q a target =>
    cases j with
    | state p accepting' => simp [rest] at hrest
    | arrow p b target' =>
      obtain rfl : q = p := hsource
      obtain ⟨rfl, hlabel⟩ := name_append_inj (x := ' ') (by decide) (by simpa [rest] using hrest)
      have hlabel' : a.dotLabel ++ ("\"];\n".toList ++ s) = b.dotLabel ++ ("\"];\n".toList ++ t) := by
        simpa using hlabel
      obtain ⟨rfl, htail⟩ := dotLabel_append_inj hlabel'
      exact ⟨rfl, List.append_cancel_left htail⟩

/-- A list of items is told by its lines, up to a line that begins with a closing brace. -/
theorem lines_inj {items others : List Item} {s t : List Char}
    (h : items.flatMap (fun i => i.line.toList) ++ '\x7d' :: s =
      others.flatMap (fun i => i.line.toList) ++ '\x7d' :: t) : items = others := by
  -- A closing brace is no tab, with which every item begins.
  induction items generalizing others with
  | nil =>
    cases others with
    | nil => rfl
    | cons j others => simp [line] at h
  | cons i items ih =>
    cases others with
    | nil => simp [line] at h
    | cons j others =>
      rw [List.flatMap_cons, List.flatMap_cons, List.append_assoc, List.append_assoc] at h
      obtain ⟨rfl, hrest⟩ := append_inj h
      rw [ih hrest]

/-- The state of an item that is one, and whether it accepts. -/
def state? : Item → Option (State × Bool)
  | state q accepting => some (q, accepting)
  | arrow _ _ _ => none

/-- The arrow of an item that is one. -/
def arrow? : Item → Option (State × Symbol × State)
  | state _ _ => none
  | arrow q a p => some (q, a, p)

end Item

/-! ## Graphs -/

/-- The items of a graph in the order of their lines. -/
def items (accepts states : StateSet) (arrows : List (State × Symbol × State)) : List Item :=
  states.toList.map (fun q => .state q (accepts.contains q)) ++ arrows.map fun (q, a, p) => .arrow q a p

/-- The graph in front of its initial state. -/
def head (name : String) : String :=
  "digraph " ++ name ++ " \x7b\n" ++ "\trankdir=LR;\n" ++ "\tnode [fontsize=18];\n" ++
    "\tedge [fontsize=18, labelfloat=false];\n" ++ "\t\"\" [shape=point];\n" ++ "\t\"\" -> "

variable {name : String} {initial initial' : State} {accepts accepts' states states' : StateSet}
  {arrows arrows' : List (State × Symbol × State)}

theorem stateLine_eq (accepts : StateSet) (q : State) :
    stateLine accepts q = (Item.state q (accepts.contains q)).line :=
  String.toList_inj.1 (by simp [stateLine, Item.line, Item.rest, Item.source])

theorem arrowLine_eq (arrow : State × Symbol × State) :
    arrowLine arrow = (Item.arrow arrow.1 arrow.2.1 arrow.2.2).line :=
  String.toList_inj.1 (by simp [arrowLine, Item.line, Item.rest, Item.source])

/-- After its head and its initial state, a graph is the lines of its items and a closing brace. -/
theorem toList_graph : (graph name initial accepts states arrows).toList =
    (head name).toList ++ ((State.name initial).toList ++ (";\n".toList ++
      ((items accepts states arrows).flatMap (fun i => i.line.toList) ++ "\x7d\n".toList))) := by
  unfold graph head items
  simp only [funext (stateLine_eq accepts), funext arrowLine_eq]
  simp only [String.toList_append, String.toList_join, List.flatMap_map]
  rw [List.flatMap_append, List.flatMap_map, List.flatMap_map]
  simp only [List.append_assoc]

theorem filterMap_state?_items :
    (items accepts states arrows).filterMap Item.state? = states.toList.map fun q => (q, accepts.contains q) := by
  simp [items, List.filterMap_map, Function.comp_def, Item.state?]

theorem filterMap_arrow?_items : (items accepts states arrows).filterMap Item.arrow? = arrows := by
  simp [items, List.filterMap_map, Function.comp_def, Item.arrow?]

/-- What a graph tells: its initial state, its states, which of them accept, and its arrows. -/
theorem graph_eq_iff : graph name initial accepts states arrows = graph name initial' accepts' states' arrows' ↔
    initial = initial' ∧ states = states' ∧ accepts ∩ states = accepts' ∩ states' ∧ arrows = arrows' := by
  refine ⟨fun h => ?_, ?_⟩
  · have htext := congrArg String.toList h
    rw [toList_graph, toList_graph] at htext
    obtain ⟨hinitial, hbody⟩ := name_append_inj (x := ';') (by decide) (by simpa using List.append_cancel_left htext)
    have hitems : items accepts states arrows = items accepts' states' arrows' :=
      Item.lines_inj (List.cons.inj hbody).2
    have hshapes := congrArg (List.filterMap Item.state?) hitems
    rw [filterMap_state?_items, filterMap_state?_items] at hshapes
    have hlist : states.toList = states'.toList := by
      simpa [Function.comp_def] using congrArg (List.map Prod.fst) hshapes
    obtain rfl : states = states' := StateSet.ext fun q => by rw [← StateSet.mem_toList, hlist, StateSet.mem_toList]
    refine ⟨hinitial, rfl, StateSet.ext fun q => ?_, ?_⟩
    · rw [StateSet.mem_inter, StateSet.mem_inter]
      refine and_congr_left fun hq => ?_
      have hshape := List.map_inj_left.1 hshapes q (StateSet.mem_toList.2 hq)
      rw [← StateSet.contains_iff, ← StateSet.contains_iff, (Prod.mk.inj hshape).2]
    · simpa only [filterMap_arrow?_items] using congrArg (List.filterMap Item.arrow?) hitems
  · rintro ⟨rfl, rfl, haccepts, rfl⟩
    have hstates : states.toList.map (stateLine accepts) = states.toList.map (stateLine accepts') :=
      List.map_inj_left.2 fun q hq => by
        have hmem : q ∈ accepts ∩ states ↔ q ∈ accepts' ∩ states := by rw [haccepts]
        have hcontains : accepts.contains q = accepts'.contains q := Bool.eq_iff_iff.2 <| by
          rwa [StateSet.mem_inter, StateSet.mem_inter, and_iff_left (StateSet.mem_toList.1 hq),
            and_iff_left (StateSet.mem_toList.1 hq)] at hmem
        rw [stateLine, hcontains, ← stateLine]
    unfold graph
    rw [hstates]

end Dot

/-! ## Arrows -/

theorem Nfa.Rules.mem_transitions (rules : Nfa.Rules) (q : State) (a : Symbol) (p : State) :
    (q, a, p) ∈ rules.transitions ↔ p ∈ rules.destinations q a := by
  rw [transitions, List.mem_flatMap, destinations]
  refine ⟨?_, fun h => ?_⟩
  · rintro ⟨⟨⟨r, b⟩, states⟩, hentry, harrow⟩
    obtain ⟨t, ht, heq⟩ := List.mem_map.1 harrow
    cases heq
    rw [Std.ExtTreeMap.mem_toList_iff_getElem?_eq_some.1 hentry]
    exact StateSet.mem_toList.1 ht
  · cases hkey : rules[(q, a)]? with
    | none => simp [hkey] at h
    | some states =>
      refine ⟨((q, a), states), Std.ExtTreeMap.mem_toList_iff_getElem?_eq_some.2 hkey, List.mem_map.2 ⟨p, ?_, rfl⟩⟩
      simpa [hkey] using h

/-- A key without a destination has no arrow. -/
theorem Nfa.Rules.transitions_filter (rules : Nfa.Rules) :
    Rules.transitions (rules.filter fun _ states => !states.isEmpty) = rules.transitions := by
  rw [transitions, transitions, Std.ExtTreeMap.toList_filter]
  induction rules.toList with
  | nil => rfl
  | cons entry entries ih =>
    obtain ⟨⟨q, a⟩, states⟩ := entry
    cases hempty : states.isEmpty with
    | false => simp [hempty, ih]
    | true =>
      have hnil : states.toList = [] := List.length_eq_zero_iff.1
        ((StateSet.size_eq_zero_iff states).2 ((StateSet.isEmpty_iff states).1 hempty))
      simp [hempty, hnil, ih]

/-- A key with destinations is told by them. -/
theorem Nfa.Rules.getElem?_filter_isEmpty (rules : Nfa.Rules) (key : State × Symbol) :
    (rules.filter fun _ states => !states.isEmpty)[key]? =
      if (rules[key]?.getD ∅).isEmpty then none else some (rules[key]?.getD ∅) := by
  rw [Std.ExtTreeMap.getElem?_filter']
  cases rules[key]? with
  | none => rfl
  | some states => cases hempty : states.isEmpty <;> simp [Option.filter, hempty]

/-- Where the symbols lead, and nothing else, tells the arrows and their order. -/
theorem Nfa.Rules.transitions_eq_iff (rules others : Nfa.Rules) :
    rules.transitions = others.transitions ↔ ∀ q a p, p ∈ rules.destinations q a ↔ p ∈ others.destinations q a := by
  refine ⟨fun h q a p => ?_, fun h => ?_⟩
  · rw [← mem_transitions, ← mem_transitions, h]
  · rw [← transitions_filter rules, ← transitions_filter others]
    refine congrArg Rules.transitions (Std.ExtTreeMap.ext_getElem? fun key => ?_)
    have hkey : rules[key]?.getD ∅ = others[key]?.getD ∅ := StateSet.ext (h key.1 key.2)
    rw [getElem?_filter_isEmpty, getElem?_filter_isEmpty, hkey]

/-- The arrows of a deterministic automaton are its rules. -/
theorem Dfa.Rules.transitions_map_char_inj (rules others : Dfa.Rules) :
    (rules.transitions.map fun (q, c, p) => (q, Symbol.char c, p)) =
      (others.transitions.map fun (q, c, p) => (q, Symbol.char c, p)) ↔ rules = others := by
  refine ⟨fun h => Std.ExtTreeMap.toList_inj.1 ?_, fun h => by rw [h]⟩
  rw [transitions, transitions, List.map_map, List.map_map] at h
  refine List.map_injective_iff.2 ?_ h
  rintro ⟨⟨q, c⟩, p⟩ ⟨⟨q', c'⟩, p'⟩ heq
  cases heq
  rfl

/-- **Automata with the same graph.** Deterministic ones have the same initial state, states, accepting states among
them, and rules; nondeterministic ones have the same initial state, states, accepting states among them, and arrows; and
automata that have these in common have the same graph. In no label does anything stand that ends it or breaks its
line. -/
theorem dot_eq_iff :
    (∀ d e : Dfa, d.dot = e.dot ↔
      d.initial = e.initial ∧ d.states = e.states ∧ d.accepts ∩ d.states = e.accepts ∩ e.states ∧ d.rules = e.rules) ∧
    (∀ m n : Nfa, m.dot = n.dot ↔
      m.initial = n.initial ∧ m.states = n.states ∧ m.accepts ∩ m.states = n.accepts ∩ n.states ∧
        ∀ q a p, p ∈ m.rules.destinations q a ↔ p ∈ n.rules.destinations q a) ∧
    ∀ a : Symbol, Dot.Escaped a.dotLabel ∧ '\n' ∉ a.dotLabel := by
  refine ⟨fun d e => ?_, fun m n => ?_, Dot.escaped_dotLabel⟩
  · rw [Dfa.dot, Dfa.dot, Dot.graph_eq_iff, Dfa.Rules.transitions_map_char_inj]
  · rw [Nfa.dot, Nfa.dot, Dot.graph_eq_iff, Nfa.Rules.transitions_eq_iff]

end PatternAutomata
