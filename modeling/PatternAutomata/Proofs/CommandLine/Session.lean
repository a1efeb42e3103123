/-
Sessions answer by language alone.

What a session prints is told without automata: a line is read as a pattern or answered by the language of the tree in
force (`Awaited`, `Conversation`). The session is in step with that (`answer_awaiting`), so on any lines it prints the
conversation, as long as the trees that it answers by keep to the identifiers (`Answerable`). Past them it may not: a
pattern of 31 pairs of letters matches the empty string, which is none of its words (`not_conversation_lookback`).

The loop behind a session has two variables, the last pattern that was compiled and whether a new one is awaited, so it
keeps an old pattern while it waits (`Loop`). That pattern is never used: whatever it is, the loop prints what a session
prints that has forgotten it (`Loop.transcript_eq`). And minimizing changes no answer at all, with identifiers enough or
not, so neither does it change what is printed.

- `Awaited.after_eq_input_iff`: the tree in force is that of the latest line that was read as a pattern and parsed.
- `conversation_transcript`: a session prints the conversation on its lines.
- `exists_verdicts_run`: what is printed on inputs, and how a run on them ends.
- `run_options`: minimizing changes nothing.
- `session_by_language`: all of this for the program.
-/
import PatternAutomata.CommandLine.Run
import PatternAutomata.Proofs.Pattern.Lookback

namespace PatternAutomata.CommandLine

variable {options : Options} {nestLimit : Nat}

/-- A compiled pattern matches the words of the language of its tree, minimized or not. -/
theorem isMatch_iff (pattern : String) {t : Tree} (h : t.Identified) (minimize : Bool) (input : String) :
    (Regex.mk pattern (t.toDfa minimize)).isMatch input = true ↔ input.toList ∈ t.language :=
  h.acceptsWord_toDfa_iff minimize input.toList

/-- It matches the same minimized and not, whatever that is. -/
theorem isMatch_minimize (pattern : String) (t : Tree) (minimize minimize' : Bool) (input : String) :
    (Regex.mk pattern (t.toDfa minimize)).isMatch input = (Regex.mk pattern (t.toDfa minimize')).isMatch input :=
  (t.acceptsWord_toDfa_minimize minimize input.toList).trans (t.acceptsWord_toDfa_minimize minimize' input.toList).symm

theorem isMatch_empty (pattern : String) (d : Dfa) : (Regex.mk pattern d).isMatch "" = d.acceptsWord [] := rfl

theorem verdict_true (input : String) : verdict input true ++ "\n" = input ++ " => Match!\n" := String.append_assoc

theorem verdict_false (input : String) : verdict input false ++ "\n" = input ++ " => Not match.\n" :=
  String.append_assoc

theorem report_eq (line : String) (e : PatternError) :
    "input regex: " ++ ("error: " ++ refusal line ++ ": " ++ e.message ++ "\n") =
      "input regex: error: invalid pattern " ++ Text.quoteString line ++ ": " ++ e.message ++ "\n" := by
  have hliteral : "input regex: error: invalid pattern " = "input regex: " ++ ("error: " ++ "invalid pattern ") := rfl
  unfold refusal
  generalize Text.quoteString line = quoted
  generalize e.message = message
  rw [hliteral]
  simp only [String.append_assoc]

/-! ## What is awaited -/

/-- What is awaited from the next line: a pattern, a string to tell by the tree of the latest pattern, or nothing any
more. -/
inductive Awaited where
  | pattern
  | input (latest : String) (t : Tree)
  | nothing

namespace Awaited

/-- What is awaited after a line. -/
def next (nestLimit : Nat) : Awaited → String → Awaited
  | pattern, line =>
    match parse nestLimit line with
    | .error _ => pattern
    | .ok t => input line t
  | input latest t, line =>
    if line = "<EXIT>" then nothing else if line = "<REGEX>" then pattern else input latest t
  | nothing, _ => nothing

/-- What is awaited after some lines. -/
def after (nestLimit : Nat) (a : Awaited) (lines : List String) : Awaited := lines.foldl (next nestLimit) a

theorem after_append (a : Awaited) (before lines : List String) :
    a.after nestLimit (before ++ lines) = (a.after nestLimit before).after nestLimit lines := List.foldl_append

theorem next_input (latest : String) (t : Tree) {line : String} (hexit : line ≠ "<EXIT>") (hregex : line ≠ "<REGEX>") :
    (input latest t).next nestLimit line = input latest t := by
  rw [next, if_neg hexit, if_neg hregex]

/-- Strings that are no commands leave the tree in force. -/
theorem after_input (latest : String) (t : Tree) (strings : List String)
    (h : ∀ s ∈ strings, s ≠ "<EXIT>" ∧ s ≠ "<REGEX>") :
    (input latest t).after nestLimit strings = input latest t := by
  induction strings with
  | nil => rfl
  | cons s strings ih =>
    obtain ⟨hexit, hregex⟩ := h s List.mem_cons_self
    show ((input latest t).next nestLimit s).after nestLimit strings = _
    rw [next_input latest t hexit hregex]
    exact ih fun s' hs' => h s' (List.mem_cons_of_mem s hs')

/-- The latest of these lines that was read as a pattern and parsed, with its tree: only strings that are no commands
were read since. -/
def LatestPattern (nestLimit : Nat) (before : List String) (latest : String) (t : Tree) : Prop :=
  ∃ earlier strings, before = earlier ++ latest :: strings ∧ pattern.after nestLimit earlier = pattern ∧
    parse nestLimit latest = .ok t ∧ ∀ s ∈ strings, s ≠ "<EXIT>" ∧ s ≠ "<REGEX>"

/-- Where a string is awaited, it is for the latest line that was read as a pattern and parsed. -/
theorem after_eq_input_iff (before : List String) (latest : String) (t : Tree) :
    pattern.after nestLimit before = input latest t ↔ LatestPattern nestLimit before latest t := by
  refine ⟨fun h => ?_, fun h => ?_⟩
  · induction before using List.reverseRecOn with
    | nil => cases h
    | append_singleton before line ih =>
      rw [after_append] at h
      change (pattern.after nestLimit before).next nestLimit line = input latest t at h
      cases hbefore : pattern.after nestLimit before with
      | nothing => rw [hbefore] at h; cases h
      | pattern =>
        rw [hbefore, next] at h
        split at h
        · cases h
        · rename_i hparse
          cases h
          exact ⟨before, [], rfl, hbefore, hparse, fun s hs => absurd hs List.not_mem_nil⟩
      | input last u =>
        rw [hbefore, next] at h
        split_ifs at h with hexit hregex
        obtain ⟨earlier, strings, rfl, hearlier, hparse, hstrings⟩ := ih (hbefore.trans h)
        refine ⟨earlier, strings ++ [line], by simp, hearlier, hparse, fun s hs => ?_⟩
        rcases List.mem_append.1 hs with hs | hs
        · exact hstrings s hs
        · rw [List.mem_singleton.1 hs]
          exact ⟨hexit, hregex⟩
  · obtain ⟨earlier, strings, rfl, hearlier, hparse, hstrings⟩ := h
    rw [after_append, hearlier]
    show (pattern.next nestLimit latest).after nestLimit strings = _
    rw [next, hparse]
    exact after_input latest t strings hstrings

end Awaited

/-- The trees that lines are answered by keep to the identifiers. -/
def Answerable (nestLimit : Nat) (a : Awaited) (lines : List String) : Prop :=
  ∀ before line rest latest t, lines = before ++ line :: rest → a.after nestLimit before = .input latest t → t.Identified

theorem answerable_nil (nestLimit : Nat) (a : Awaited) : Answerable nestLimit a [] :=
  fun _ _ _ _ _ hnil => absurd hnil.symm (by simp)

theorem answerable_cons_iff {a : Awaited} {line : String} {rest : List String} :
    Answerable nestLimit a (line :: rest) ↔
      (∀ latest t, a = .input latest t → t.Identified) ∧ Answerable nestLimit (a.next nestLimit line) rest := by
  refine ⟨fun h => ⟨fun latest t ha => h [] line rest latest t rfl ha, fun before line' rest' latest t hrest =>
    h (line :: before) line' rest' latest t (congrArg (line :: ·) hrest)⟩, fun h => ?_⟩
  obtain ⟨hhead, htail⟩ := h
  intro before line' rest' latest t hlines hawaited
  cases before with
  | nil => exact hhead latest t hawaited
  | cons first before =>
    obtain ⟨rfl, hrest⟩ := List.cons.inj hlines
    exact htail before line' rest' latest t hrest hawaited

/-! ## Conversations -/

/-- What is printed on lines, where a string is told by whether it is in the language of the tree in force. -/
inductive Conversation (nestLimit : Nat) : Awaited → List String → String → Prop where
  | patternEnd : Conversation nestLimit .pattern [] "input regex: "
  | refused {line : String} {e : PatternError} {rest : List String} {text : String}
    (hparse : parse nestLimit line = .error e) (hrest : Conversation nestLimit .pattern rest text) :
    Conversation nestLimit .pattern (line :: rest)
      ("input regex: error: invalid pattern " ++ Text.quoteString line ++ ": " ++ e.message ++ "\n" ++ text)
  | accepted {line : String} {t : Tree} {rest : List String} {text : String} (hparse : parse nestLimit line = .ok t)
    (hrest : Conversation nestLimit (.input line t) rest text) :
    Conversation nestLimit .pattern (line :: rest) ("input regex: " ++ text)
  | inputEnd {latest : String} {t : Tree} : Conversation nestLimit (.input latest t) [] "input string to match: \n"
  | exit {latest line : String} {t : Tree} {rest : List String} (hexit : line = "<EXIT>") :
    Conversation nestLimit (.input latest t) (line :: rest) "input string to match: Bye:)\n"
  | renew {latest line : String} {t : Tree} {rest : List String} {text : String} (hregex : line = "<REGEX>")
    (hrest : Conversation nestLimit .pattern rest text) :
    Conversation nestLimit (.input latest t) (line :: rest) ("input string to match: " ++ text)
  | matched {latest line : String} {t : Tree} {rest : List String} {text : String} (hexit : line ≠ "<EXIT>")
    (hregex : line ≠ "<REGEX>") (hmem : line.toList ∈ t.language)
    (hrest : Conversation nestLimit (.input latest t) rest text) :
    Conversation nestLimit (.input latest t) (line :: rest)
      ("input string to match: " ++ line ++ " => Match!\n" ++ text)
  | notMatched {latest line : String} {t : Tree} {rest : List String} {text : String} (hexit : line ≠ "<EXIT>")
    (hregex : line ≠ "<REGEX>") (hmem : line.toList ∉ t.language)
    (hrest : Conversation nestLimit (.input latest t) rest text) :
    Conversation nestLimit (.input latest t) (line :: rest)
      ("input string to match: " ++ line ++ " => Not match.\n" ++ text)

/-- There is one conversation on given lines. -/
theorem Conversation.unique {a : Awaited} {lines : List String} {text text' : String}
    (h : Conversation nestLimit a lines text) (h' : Conversation nestLimit a lines text') : text = text' := by
  induction h generalizing text' with
  | patternEnd => cases h'; rfl
  | refused hparse _ ih =>
    cases h' with
    | refused hparse' hrest' =>
      cases hparse.symm.trans hparse'
      rw [ih hrest']
    | accepted hparse' _ => cases hparse.symm.trans hparse'
  | accepted hparse _ ih =>
    cases h' with
    | refused hparse' _ => cases hparse.symm.trans hparse'
    | accepted hparse' hrest' =>
      cases hparse.symm.trans hparse'
      rw [ih hrest']
  | inputEnd => cases h'; rfl
  | exit hexit =>
    cases h' with
    | exit _ => rfl
    | renew hregex => exact absurd (hexit.symm.trans hregex) (by decide)
    | matched hexit' => exact absurd hexit hexit'
    | notMatched hexit' => exact absurd hexit hexit'
  | renew hregex _ ih =>
    cases h' with
    | exit hexit => exact absurd (hexit.symm.trans hregex) (by decide)
    | renew _ hrest' => rw [ih hrest']
    | matched _ hregex' => exact absurd hregex hregex'
    | notMatched _ hregex' => exact absurd hregex hregex'
  | matched hexit hregex hmem _ ih =>
    cases h' with
    | exit hexit' => exact absurd hexit' hexit
    | renew hregex' => exact absurd hregex' hregex
    | matched _ _ _ hrest' => rw [ih hrest']
    | notMatched _ _ hmem' => exact absurd hmem hmem'
  | notMatched hexit hregex hmem _ ih =>
    cases h' with
    | exit hexit' => exact absurd hexit' hexit
    | renew hregex' => exact absurd hregex' hregex
    | matched _ _ hmem' => exact absurd hmem' hmem
    | notMatched _ _ _ hrest' => rw [ih hrest']

/-! ## Printing line by line -/

namespace Session

/-- The session that awaits it. -/
def awaiting (options : Options) : Awaited → Session
  | .pattern => awaitingPattern
  | .input latest t => awaitingInput ⟨latest, t.toDfa options.minimize⟩
  | .nothing => ended

/-- The session after answering some lines. -/
def after (options : Options) (s : Session) (lines : List String) : Session :=
  lines.foldl (fun s line => (s.answer options line).2) s

/-- Everything printed until these lines are answered. -/
def told (options : Options) : Session → List String → String
  | _, [] => ""
  | s, line :: rest => s.prompt ++ (s.answer options line).1 ++ told options (s.answer options line).2 rest

theorem transcript_cons (s : Session) (line : String) (rest : List String) :
    transcript options s (line :: rest) =
      s.prompt ++ (s.answer options line).1 ++ transcript options (s.answer options line).2 rest := by
  cases s <;> simp [transcript, prompt, answer]

theorem transcript_append (s : Session) (before rest : List String) :
    transcript options s (before ++ rest) = told options s before ++ transcript options (after options s before) rest := by
  induction before generalizing s with
  | nil => simp [told, after]
  | cons line before ih =>
    rw [List.cons_append, transcript_cons, ih, told]
    simp only [String.append_assoc]
    rfl

/-- A string that is no command is answered by a verdict. -/
theorem transcript_input (regex : Regex) (line : String) (rest : List String) (hexit : line ≠ "<EXIT>")
    (hregex : line ≠ "<REGEX>") : transcript options (.awaitingInput regex) (line :: rest) =
      "input string to match: " ++ line ++ (if regex.isMatch line then " => Match!\n" else " => Not match.\n") ++
        transcript options (.awaitingInput regex) rest := by
  rw [transcript_cons, answer, if_neg hexit, if_neg hregex]
  show "input string to match: " ++ (verdict line (regex.isMatch line) ++ "\n") ++ _ = _
  cases regex.isMatch line with
  | true => rw [verdict_true, if_pos rfl, ← String.append_assoc]
  | false => rw [verdict_false, if_neg Bool.false_ne_true, ← String.append_assoc]

/-- Nothing is printed after the command that ends the session. -/
theorem transcript_exit (regex : Regex) (rest : List String) :
    transcript options (.awaitingInput regex) ("<EXIT>" :: rest) = "input string to match: Bye:)\n" := by
  rw [transcript_cons, answer, if_pos rfl, prompt, transcript, String.append_empty]
  rfl

/-- A line leads to the session that awaits what is awaited after it. -/
theorem answer_awaiting (a : Awaited) (line : String) :
    ((awaiting options a).answer options line).2 = awaiting options (a.next options.nestLimit line) := by
  cases a with
  | pattern =>
    rw [awaiting, answer, Regex.compile, Awaited.next]
    cases parse options.nestLimit line <;> rfl
  | input latest t =>
    rw [awaiting, answer, Awaited.next]
    split_ifs <;> rfl
  | nothing => rfl

theorem after_awaiting (a : Awaited) (lines : List String) :
    after options (awaiting options a) lines = awaiting options (a.after options.nestLimit lines) := by
  induction lines generalizing a with
  | nil => rfl
  | cons line rest ih =>
    show after options ((awaiting options a).answer options line).2 rest = _
    rw [answer_awaiting]
    exact ih _

/-- A session that awaits a string does so for the latest line that was read as a pattern and parsed. -/
theorem after_eq_awaitingInput_iff (before : List String) (regex : Regex) :
    after options awaitingPattern before = awaitingInput regex ↔
      ∃ latest t, Awaited.LatestPattern options.nestLimit before latest t ∧
        regex = ⟨latest, t.toDfa options.minimize⟩ := by
  have hafter : after options awaitingPattern before = awaiting options (Awaited.pattern.after options.nestLimit before) :=
    after_awaiting .pattern before
  simp only [hafter, ← Awaited.after_eq_input_iff]
  cases Awaited.pattern.after options.nestLimit before with
  | pattern => exact ⟨nofun, fun h => by obtain ⟨latest, t, hne, -⟩ := h; cases hne⟩
  | nothing => exact ⟨nofun, fun h => by obtain ⟨latest, t, hne, -⟩ := h; cases hne⟩
  | input latest t =>
    refine ⟨fun h => ⟨latest, t, rfl, (awaitingInput.inj h).symm⟩, fun h => ?_⟩
    obtain ⟨latest', t', heq, rfl⟩ := h
    cases heq
    rfl

end Session

/-- A session prints the conversation on its lines. -/
theorem conversation_transcript (a : Awaited) (ha : a ≠ .nothing) (lines : List String)
    (h : Answerable options.nestLimit a lines) :
    Conversation options.nestLimit a lines (Session.transcript options (.awaiting options a) lines) := by
  induction lines generalizing a with
  | nil =>
    cases a with
    | pattern => exact .patternEnd
    | input latest t => exact .inputEnd
    | nothing => exact absurd rfl ha
  | cons line rest ih =>
    obtain ⟨hidentified, htail⟩ := answerable_cons_iff.1 h
    have hrest := fun hnext => ih (a.next options.nestLimit line) hnext htail
    cases a with
    | nothing => exact absurd rfl ha
    | pattern =>
      rw [Session.transcript_cons, Session.answer_awaiting, Session.awaiting, Session.answer, Regex.compile]
      rw [Awaited.next] at hrest ⊢
      cases hparse : parse options.nestLimit line with
      | ok t =>
        rw [hparse] at hrest
        exact .accepted hparse (hrest nofun)
      | error e =>
        rw [hparse] at hrest
        show Conversation _ _ _ ("input regex: " ++ ("error: " ++ refusal line ++ ": " ++ e.message ++ "\n") ++ _)
        rw [report_eq]
        exact .refused hparse (hrest nofun)
    | input latest t =>
      by_cases hexit : line = "<EXIT>"
      · rw [hexit, Session.awaiting, Session.transcript_exit]
        exact .exit rfl
      by_cases hregex : line = "<REGEX>"
      · rw [Session.transcript_cons, Session.answer_awaiting, Session.awaiting, Session.answer, if_neg hexit,
          if_pos hregex]
        rw [Awaited.next, if_neg hexit, if_pos hregex] at hrest ⊢
        rw [String.append_empty]
        exact .renew hregex (hrest nofun)
      · rw [Awaited.next_input latest t hexit hregex] at hrest
        have hlanguage := isMatch_iff latest (hidentified latest t rfl) options.minimize line
        rw [Session.awaiting, Session.transcript_input _ line rest hexit hregex]
        split_ifs with hmatched
        · exact .matched hexit hregex (hlanguage.1 hmatched) (hrest nofun)
        · exact .notMatched hexit hregex (fun hmem => hmatched (hlanguage.2 hmem)) (hrest nofun)

/-! ## The loop that keeps its pattern -/

/-- The variables of the loop that reads the lines: the pattern compiled last and whether a new one is awaited. -/
structure Loop where
  stored : Option Regex
  needsPattern : Bool

/-- Everything printed by the loop. A pattern that is refused and a request for a new one leave the stored one in
place. -/
def Loop.transcript (options : Options) (loop : Loop) : List String → String
  | [] => if loop.needsPattern then "input regex: " else "input string to match: " ++ "\n"
  | line :: rest =>
    if loop.needsPattern then
      match Regex.compile options line with
      | .ok regex => "input regex: " ++ Loop.transcript options ⟨some regex, false⟩ rest
      | .error e =>
        "input regex: " ++ ("error: " ++ refusal line ++ ": " ++ e.message ++ "\n") ++ Loop.transcript options loop rest
    else if line = "<EXIT>" then "input string to match: " ++ "Bye:)\n"
    else if line = "<REGEX>" then
      "input string to match: " ++ Loop.transcript options { loop with needsPattern := true } rest
    else
      match loop.stored with
      | some regex =>
        "input string to match: " ++ (verdict line (regex.isMatch line) ++ "\n") ++ Loop.transcript options loop rest
      | none => "input string to match: " ++ Loop.transcript options loop rest

/-- Whatever pattern is stored while a new one is awaited, the loop prints what the session prints. -/
theorem Loop.transcript_eq (lines : List String) :
    (∀ stored, Loop.transcript options ⟨stored, true⟩ lines = Session.transcript options .awaitingPattern lines) ∧
      ∀ regex, Loop.transcript options ⟨some regex, false⟩ lines =
        Session.transcript options (.awaitingInput regex) lines := by
  induction lines with
  | nil => exact ⟨fun _ => rfl, fun _ => rfl⟩
  | cons line rest ih =>
    refine ⟨fun stored => ?_, fun regex => ?_⟩
    · rw [Loop.transcript, if_pos rfl, Session.transcript_cons, Session.answer]
      cases Regex.compile options line with
      | ok regex =>
        dsimp only
        rw [ih.2, Session.prompt, String.append_empty]
      | error e =>
        dsimp only
        rw [ih.1, Session.prompt]
    · rw [Loop.transcript, if_neg Bool.false_ne_true, Session.transcript_cons, Session.answer]
      by_cases hexit : line = "<EXIT>"
      · rw [if_pos hexit, if_pos hexit, Session.prompt, Session.transcript, String.append_empty]
      by_cases hregex : line = "<REGEX>"
      · rw [if_neg hexit, if_neg hexit, if_pos hregex, if_pos hregex, Session.prompt, ih.1, String.append_empty]
      · rw [if_neg hexit, if_neg hexit, if_neg hregex, if_neg hregex, Session.prompt, ih.2]

/-! ## Inputs on the command line -/

/-- What is printed on inputs, and how many of them are not in the language. -/
inductive Verdicts (l : Language Char) : List String → String → Nat → Prop where
  | nil : Verdicts l [] "" 0
  | matched {input : String} {rest : List String} {text : String} {failed : Nat} (hmem : input.toList ∈ l)
    (hrest : Verdicts l rest text failed) : Verdicts l (input :: rest) (input ++ " => Match!\n" ++ text) failed
  | notMatched {input : String} {rest : List String} {text : String} {failed : Nat} (hmem : input.toList ∉ l)
    (hrest : Verdicts l rest text failed) :
    Verdicts l (input :: rest) (input ++ " => Not match.\n" ++ text) (failed + 1)

theorem verdicts_join (regex : Regex) {l : Language Char} (h : ∀ input, regex.isMatch input = true ↔ input.toList ∈ l)
    (inputs : List String) :
    Verdicts l inputs (String.join (inputs.map fun input => verdict input (regex.isMatch input) ++ "\n"))
      (inputs.filter fun input => !regex.isMatch input).length := by
  induction inputs with
  | nil => exact .nil
  | cons input rest ih =>
    rw [List.map_cons, String.join_cons, List.filter_cons]
    cases hmatched : regex.isMatch input with
    | true =>
      rw [verdict_true]
      exact .matched ((h input).1 hmatched) ih
    | false =>
      rw [verdict_false]
      exact .notMatched (fun hmem => Bool.false_ne_true (hmatched.symm.trans ((h input).2 hmem))) ih

/-- A pattern that is refused ends the run with its cause. -/
theorem run_matchInputs_of_error {pattern : String} {e : PatternError} (hparse : parse options.nestLimit pattern = .error e)
    (inputs : List String) (all : Bool) (stdin : List String) :
    (Command.matchInputs pattern inputs all).run options stdin =
      ⟨1, "", "Error: invalid pattern " ++ Text.quoteString pattern ++ "\n\nCaused by:\n    " ++ e.message ++ "\n"⟩ := by
  have hliteral : "Error: invalid pattern " = "Error: " ++ "invalid pattern " := rfl
  rw [Command.run, Regex.compile, hparse]
  show Outcome.refused pattern e = _
  unfold Outcome.refused Outcome.failure refusal
  generalize Text.quoteString pattern = quoted
  generalize e.message = message
  rw [hliteral]
  simp only [String.append_assoc]

/-- Every input is told by the language, and the run fails if all were asked for and not all are in it. -/
theorem exists_verdicts_run {pattern : String} {t : Tree} (hparse : parse options.nestLimit pattern = .ok t)
    (h : t.Identified) (inputs : List String) (all : Bool) (stdin : List String) :
    ∃ text failed, Verdicts t.language inputs text failed ∧
      (Command.matchInputs pattern inputs all).run options stdin =
        if all = true ∧ 0 < failed then
          ⟨1, text, "Error: " ++ toString failed ++ " of " ++ toString inputs.length ++ " inputs did not match\n"⟩
        else ⟨0, text, ""⟩ := by
  refine ⟨_, _, verdicts_join ⟨pattern, t.toDfa options.minimize⟩ (isMatch_iff pattern h options.minimize) inputs, ?_⟩
  have hsuffix : " inputs did not match\n" = " inputs did not match" ++ "\n" := rfl
  rw [Command.run, Regex.compile, hparse]
  show matchOutcome ⟨pattern, t.toDfa options.minimize⟩ inputs all = _
  rw [matchOutcome, hsuffix]
  simp only [Bool.and_eq_true, decide_eq_true_eq, gt_iff_lt, Outcome.failure, Outcome.success, String.append_assoc]

/-! ## Minimizing changes nothing -/

/-- A session prints the same text whether patterns are minimized or not. -/
theorem Session.transcript_minimize (minimize : Bool) (a : Awaited) (lines : List String) :
    transcript { options with minimize } (awaiting { options with minimize } a) lines =
      transcript options (awaiting options a) lines := by
  induction lines generalizing a with
  | nil => cases a <;> rfl
  | cons line rest ih =>
    have hprompt : (awaiting { options with minimize } a).prompt = (awaiting options a).prompt := by cases a <;> rfl
    have hanswer : ((awaiting { options with minimize } a).answer { options with minimize } line).1 =
        ((awaiting options a).answer options line).1 := by
      cases a with
      | pattern =>
        rw [awaiting, awaiting, answer, answer, Regex.compile, Regex.compile]
        cases parse options.nestLimit line <;> rfl
      | input latest t =>
        rw [awaiting, awaiting, answer, answer, isMatch_minimize latest t minimize options.minimize]
        split_ifs <;> rfl
      | nothing => rfl
    rw [transcript_cons, transcript_cons, answer_awaiting, answer_awaiting, hprompt, hanswer]
    exact congrArg _ (ih (a.next options.nestLimit line))

/-- A command other than printing a graph does the same whether patterns are minimized or not. -/
theorem run_options (options : Options) (command : Command) (hcommand : ∀ pattern nfa, command ≠ .dot pattern nfa)
    (minimize : Bool) (stdin : List String) : command.run { options with minimize } stdin = command.run options stdin := by
  cases command with
  | matchInputs pattern inputs all =>
    rw [Command.run, Command.run, Regex.compile, Regex.compile]
    cases parse options.nestLimit pattern with
    | error e => rfl
    | ok t => simp only [Except.map, matchOutcome, isMatch_minimize pattern t minimize options.minimize]
  | dot pattern nfa => exact absurd rfl (hcommand pattern nfa)
  | repl => exact congrArg Outcome.success (Session.transcript_minimize minimize .pattern stdin)

/-! ## The program -/

/-- **Answers by language.** As long as the trees that lines are answered by keep to the identifiers, a session prints
the conversation on its lines and ends well. It prints what the loop prints that keeps an old pattern while it awaits a
new one, whatever that is. A string is awaited exactly where some line that was read as a pattern and parsed is in force,
and is then told by the language of its tree; nothing after the command that ends the session matters. Inputs on the
command line are told by the language too, and how the run ends depends on how many are not in it. All that is printed and
the exit code are the same whether patterns are minimized or not, and whatever reads the command line, with and without
the option that says so. -/
theorem session_by_language (options : Options) :
    (∀ lines, Answerable options.nestLimit .pattern lines → ∀ text,
      Command.repl.run options lines = ⟨0, text, ""⟩ ↔ Conversation options.nestLimit .pattern lines text) ∧
    (∀ stored lines, Command.repl.run options lines = ⟨0, Loop.transcript options ⟨stored, true⟩ lines, ""⟩) ∧
    (∀ before regex, Session.after options .awaitingPattern before = .awaitingInput regex ↔
      ∃ latest t, Awaited.LatestPattern options.nestLimit before latest t ∧
        regex = ⟨latest, t.toDfa options.minimize⟩) ∧
    (∀ before latest t, Awaited.LatestPattern options.nestLimit before latest t →
      (∀ line rest, t.Identified → line ≠ "<EXIT>" → line ≠ "<REGEX>" → ∃ answer,
        (line.toList ∈ t.language ∧ answer = " => Match!\n" ∨ line.toList ∉ t.language ∧ answer = " => Not match.\n") ∧
        Command.repl.run options (before ++ line :: rest) =
          ⟨0, Session.told options .awaitingPattern before ++ ("input string to match: " ++ line ++ answer ++
            Session.transcript options (.awaitingInput ⟨latest, t.toDfa options.minimize⟩) rest), ""⟩) ∧
      ∀ rest, Command.repl.run options (before ++ "<EXIT>" :: rest) =
        ⟨0, Session.told options .awaitingPattern before ++ "input string to match: Bye:)\n", ""⟩) ∧
    (∀ pattern e, parse options.nestLimit pattern = .error e → ∀ inputs all stdin,
      (Command.matchInputs pattern inputs all).run options stdin =
        ⟨1, "", "Error: invalid pattern " ++ Text.quoteString pattern ++ "\n\nCaused by:\n    " ++ e.message ++ "\n"⟩) ∧
    (∀ pattern t, parse options.nestLimit pattern = .ok t → t.Identified → ∀ inputs all stdin,
      ∃ text failed, Verdicts t.language inputs text failed ∧
        (Command.matchInputs pattern inputs all).run options stdin =
          if all = true ∧ 0 < failed then
            ⟨1, text, "Error: " ++ toString failed ++ " of " ++ toString inputs.length ++ " inputs did not match\n"⟩
          else ⟨0, text, ""⟩) ∧
    (∀ (command : Command) minimize stdin, (∀ pattern nfa, command ≠ .dot pattern nfa) →
      command.run { options with minimize } stdin = command.run options stdin) ∧
    ∀ (read : List String → Option Request) args args' invocation, read args = some (.run invocation) →
      read args' = some (.run { invocation with minimize := false }) →
      (∀ pattern nfa, invocation.command ≠ .dot pattern nfa) →
      ∀ stdin, runWith read args stdin = invocation.command.run invocation.options (Text.lines stdin) ∧
        runWith read args' stdin = runWith read args stdin := by
  have hrepl : ∀ lines, Command.repl.run options lines = ⟨0, Session.transcript options .awaitingPattern lines, ""⟩ :=
    fun _ => rfl
  refine ⟨fun lines hlines text => ?_, fun stored lines => ?_, Session.after_eq_awaitingInput_iff,
    fun before latest t hlatest => ?_, fun pattern e => run_matchInputs_of_error,
    fun pattern t => exists_verdicts_run, fun command minimize stdin h => run_options options command h minimize stdin,
    fun read args args' invocation hargs hargs' hcommand stdin => ?_⟩
  · have htold := conversation_transcript .pattern nofun lines hlines
    rw [hrepl, Outcome.mk.injEq]
    refine ⟨fun h => h.2.1 ▸ htold, fun h => ⟨rfl, htold.unique h, rfl⟩⟩
  · rw [hrepl, (Loop.transcript_eq lines).1 stored]
  · have hafter := (Session.after_eq_awaitingInput_iff before _).2 ⟨latest, t, hlatest, rfl⟩
    simp only [hrepl, Session.transcript_append, hafter]
    refine ⟨fun line rest ht hexit hregex => ?_, fun rest => by rw [Session.transcript_exit]⟩
    have hlanguage := isMatch_iff latest ht options.minimize line
    rw [Session.transcript_input _ line rest hexit hregex]
    split_ifs with hmatched
    · exact ⟨_, Or.inl ⟨hlanguage.1 hmatched, rfl⟩, rfl⟩
    · exact ⟨_, Or.inr ⟨fun hmem => hmatched (hlanguage.2 hmem), rfl⟩, rfl⟩
  · have hrun : runWith read args stdin = invocation.command.run invocation.options (Text.lines stdin) := by
      rw [runWith, hargs]
    refine ⟨hrun, ?_⟩
    rw [hrun, runWith, hargs']
    exact run_options invocation.options invocation.command hcommand false (Text.lines stdin)

/-- A line that does not parse, a letter as the pattern, a string and the end; the letter on the command line; and a
session with the option. -/
theorem session_by_language_letter :
    Answerable defaultNestLimit .pattern ["(", "a", "b"] ∧
    (∀ text, Command.repl.run {} ["(", "a", "b"] = ⟨0, text, ""⟩ ↔
      Conversation defaultNestLimit .pattern ["(", "a", "b"] text) ∧
    Awaited.LatestPattern defaultNestLimit ["(", "a"] "a" (.literal 'a') ∧
    (∃ answer, ("b".toList ∈ (Tree.literal 'a').language ∧ answer = " => Match!\n" ∨
        "b".toList ∉ (Tree.literal 'a').language ∧ answer = " => Not match.\n") ∧
      Command.repl.run {} (["(", "a"] ++ "b" :: []) =
        ⟨0, Session.told {} .awaitingPattern ["(", "a"] ++ ("input string to match: " ++ "b" ++ answer ++
          Session.transcript {} (.awaitingInput ⟨"a", (Tree.literal 'a').toDfa true⟩) []), ""⟩) ∧
    (∃ e, parse defaultNestLimit "(" = .error e ∧ (Command.matchInputs "(" ["a"] true).run {} [] =
      ⟨1, "", "Error: invalid pattern " ++ Text.quoteString "(" ++ "\n\nCaused by:\n    " ++ e.message ++ "\n"⟩) ∧
    (∃ text failed, Verdicts (Tree.literal 'a').language ["a", "b"] text failed ∧
      (Command.matchInputs "a" ["a", "b"] true).run {} [] =
        if true = true ∧ 0 < failed then
          ⟨1, text, "Error: " ++ toString failed ++ " of " ++ toString ["a", "b"].length ++ " inputs did not match\n"⟩
        else ⟨0, text, ""⟩) ∧
    Command.repl.run { minimize := false } ["a", "b"] = Command.repl.run {} ["a", "b"] ∧
    request? ["repl"] = some (.run ⟨true, 0, .repl⟩) ∧
    runWith request? ["--no-minimize", "repl"] "a\nb\n" = runWith request? ["repl"] "a\nb\n" := by
  have hidentified : (Tree.literal 'a').Identified := .of_stateCount_le (by decide)
  have hrepl : ∀ pattern nfa, Command.repl ≠ .dot pattern nfa := nofun
  have hanswerable : Answerable defaultNestLimit .pattern ["(", "a", "b"] := by
    have hinput : ∀ latest t, Awaited.input "a" (.literal 'a') = .input latest t → t.Identified := by
      intro latest t heq
      cases heq
      exact hidentified
    exact answerable_cons_iff.2 ⟨nofun, answerable_cons_iff.2 ⟨nofun, answerable_cons_iff.2 ⟨hinput,
      answerable_nil defaultNestLimit _⟩⟩⟩
  have hlatest : Awaited.LatestPattern defaultNestLimit ["(", "a"] "a" (.literal 'a') :=
    ⟨["("], [], rfl, rfl, rfl, nofun⟩
  have hrequest : request? ["repl"] = some (.run ⟨true, 0, .repl⟩) := rfl
  obtain ⟨hconversation, -, -, hanswers, hrefused, hmatch, hminimize, hread⟩ := session_by_language {}
  exact ⟨hanswerable, hconversation _ hanswerable, hlatest,
    (hanswers _ "a" _ hlatest).1 "b" [] hidentified (by decide) (by decide), ⟨_, rfl, hrefused "(" _ rfl ["a"] true []⟩,
    hmatch "a" (.literal 'a') rfl hidentified ["a", "b"] true [], hminimize .repl false ["a", "b"] hrepl, hrequest,
    (hread request? ["repl"] ["--no-minimize", "repl"] ⟨true, 0, .repl⟩ hrequest rfl hrepl "a\nb\n").2⟩

/-- A pattern of 31 pairs of letters that is read under the default limit. It matches the empty string, which is not in
its language, so what is printed is no conversation. -/
theorem not_conversation_lookback :
    let pattern := "(a|b)+|(a|b)*a" ++
      "(a|b)(a|b)(a|b)(a|b)(a|b)(a|b)(a|b)(a|b)(a|b)(a|b)(a|b)(a|b)(a|b)(a|b)(a|b)(a|b)" ++
      "(a|b)(a|b)(a|b)(a|b)(a|b)(a|b)(a|b)(a|b)(a|b)(a|b)(a|b)(a|b)(a|b)(a|b)(a|b)" ++ "c"
    parse defaultNestLimit pattern = .ok (.lookback 31) ∧ "".toList ∉ (Tree.lookback 31).language ∧
    Command.repl.run {} [pattern, ""] =
      ⟨0, "input regex: input string to match:  => Match!\ninput string to match: \n", ""⟩ ∧
    ¬ ∀ text, Command.repl.run {} [pattern, ""] = ⟨0, text, ""⟩ ↔
      Conversation defaultNestLimit .pattern [pattern, ""] text := by
  intro pattern
  have hparse : parse defaultNestLimit pattern = .ok (.lookback 31) := by decide +kernel
  have hstates : (Tree.lookback 31).stateCount ≤ 2 ^ 32 := by rw [Tree.stateCount_lookback]; decide
  obtain ⟨hmatched, hmem⟩ := Tree.acceptsWord_nil_toDfa_lookback (Nat.le_refl 31) hstates true
  have hverdict := (isMatch_empty pattern ((Tree.lookback 31).toDfa true)).trans hmatched
  have hrun : Command.repl.run {} [pattern, ""] =
      ⟨0, "input regex: input string to match:  => Match!\ninput string to match: \n", ""⟩ := by
    show Outcome.success (Session.transcript {} .awaitingPattern [pattern, ""]) = _
    rw [Session.transcript_cons, Session.answer, Regex.compile, hparse]
    show Outcome.success ("input regex: " ++ "" ++
      Session.transcript {} (.awaitingInput ⟨pattern, (Tree.lookback 31).toDfa true⟩) [""]) = _
    rw [Session.transcript_input _ "" [] (by decide) (by decide), if_pos hverdict]
    rfl
  have htold : Conversation defaultNestLimit .pattern [pattern, ""] _ :=
    .accepted hparse (.notMatched (by decide) (by decide) hmem .inputEnd)
  exact ⟨hparse, hmem, hrun, fun h => absurd (((h _).1 hrun).unique htold) (by decide)⟩

end PatternAutomata.CommandLine
