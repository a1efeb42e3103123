/-
Reading a pattern by recursive descent.

There is one function for each rule of the grammar. It reads a prefix of the tokens and gives the tree of what it has
read and the tokens that are left. All that a function knows of the groups around it is how many there are. Which way it
goes is decided by the token that stands next, so no token is read twice.

    expression -> subexpr EOF
    subexpr    -> seq ('|' seq)*
    seq        -> subseq | ε
    subseq     -> repeat subseq | repeat
    repeat     -> factor ('*' | '+')*
    factor     -> '(' subexpr ')' | CHARACTER

The descent and the scan do the same. Where the scan stands with groups open, each function reads what the scan reads
next and leaves the scan where its result belongs: a factor becomes the last item of the innermost group, a sequence its
alternative in progress, and a subexpression the whole group, whose end is then looked for.

- `resume_settled`, `resume_operators`: where the scan stands when an alternative should end, and after operators.
- `resume_subexpr` and the theorems with it, one for each function: the scan reads on as the function does.
- `descend_eq_parse`: both make the same of every pattern, errors and all.
-/
import PatternAutomata.Pattern.Parser

namespace PatternAutomata

namespace Descent

/-! ## The tokens that are left -/

/-- What stands next, and where. Behind the last token stands the end of the pattern. -/
def look (ending : Nat) : List Token → TokenKind × Nat
  | [] => (.endOfPattern, ending)
  | token :: _ => (token.lexeme.kind, token.offset)

/-- The error of finding what stands next where something else was expected. -/
def unexpected (ending : Nat) (expected : TokenKind) (ts : List Token) : PatternError :=
  .unexpectedToken expected (look ending ts).1 (look ending ts).2

/-- Expects a kind of thing to stand next. -/
def expect (ending : Nat) (expected : TokenKind) (ts : List Token) : Except PatternError Unit :=
  if (look ending ts).1 = expected then .ok () else .error (unexpected ending expected ts)

/-- Whether a factor starts here. -/
def startsFactor : List Token → Bool
  | ⟨.character _, _⟩ :: _ => true
  | ⟨.leftParen, _⟩ :: _ => true
  | _ => false

/-- Whether an operator stands here. -/
def startsOperator : List Token → Bool
  | ⟨.star, _⟩ :: _ => true
  | ⟨.plus, _⟩ :: _ => true
  | _ => false

/-- Repeats a tree as the operators that stand next say. What is left starts after them. -/
def operators (node : Tree) : List Token → Tree × List Token
  | ⟨.star, _⟩ :: rest => operators node.repeatStar rest
  | ⟨.plus, _⟩ :: rest => operators node.repeatPlus rest
  | rest => (node, rest)

theorem length_operators_le (node : Tree) (ts : List Token) : (operators node ts).2.length ≤ ts.length := by
  induction ts generalizing node with
  | nil => exact Nat.le_refl _
  | cons token rest ih =>
    obtain ⟨lexeme, offset⟩ := token
    cases lexeme with
    | star => exact Nat.le_succ_of_le (ih node.repeatStar)
    | plus => exact Nat.le_succ_of_le (ih node.repeatPlus)
    | _ => exact Nat.le_refl _

theorem startsOperator_operators (node : Tree) (ts : List Token) : startsOperator (operators node ts).2 = false := by
  induction ts generalizing node with
  | nil => rfl
  | cons token rest ih =>
    obtain ⟨lexeme, offset⟩ := token
    cases lexeme with
    | star => exact ih node.repeatStar
    | plus => exact ih node.repeatPlus
    | _ => rfl

/-! ## The functions -/

/-- What a function has read, as a tree, and the tokens that are left, which are fewer than a bound. -/
structure Parsed (bound : Nat) where
  tree : Tree
  rest : List Token
  short : rest.length < bound

/-- A result within a larger bound. -/
def Parsed.within {m n : Nat} (p : Parsed m) (h : m ≤ n) : Parsed n := ⟨p.tree, p.rest, Nat.lt_of_lt_of_le p.short h⟩

/-- A result with the operators after it. -/
def Parsed.repeated {n : Nat} (p : Parsed n) : Parsed n where
  tree := (operators p.tree p.rest).1
  rest := (operators p.tree p.rest).2
  short := Nat.lt_of_le_of_lt (length_operators_le p.tree p.rest) p.short

section
variable (limit ending : Nat)

mutual

/-- A sequence and the alternatives after it. -/
def subexpr (depth : Nat) (ts : List Token) : Except PatternError (Parsed (ts.length + 1)) := do
  let left ← seq depth ts
  have hleft := left.short
  let all ← alternatives depth left.tree left.rest
  return all.within (by omega)
termination_by 5 * ts.length + 4

/-- The alternatives after those that have been read. -/
def alternatives (depth : Nat) (left : Tree) (ts : List Token) : Except PatternError (Parsed (ts.length + 1)) :=
  match ts with
  | ⟨.bar, _⟩ :: rest => do
    let right ← seq depth rest
    have hright := right.short
    let all ← alternatives depth (.union left right.tree) right.rest
    return all.within (by rw [List.length_cons]; omega)
  | ts => return ⟨left, ts, Nat.lt_succ_self _⟩
termination_by 5 * ts.length + 3

/-- A sequence of items, which may be empty. -/
def seq (depth : Nat) (ts : List Token) : Except PatternError (Parsed (ts.length + 1)) := do
  if startsFactor ts then
    let items ← subseq depth [] ts
    return items.within (Nat.le_succ _)
  else return ⟨.empty, ts, Nat.lt_succ_self _⟩
termination_by 5 * ts.length + 3

/-- The items after those given, which stand with the last one in front. -/
def subseq (depth : Nat) (heads : List Tree) (ts : List Token) : Except PatternError (Parsed ts.length) := do
  let item ← repetition depth ts
  have hitem := item.short
  if startsFactor item.rest then
    let items ← subseq depth (item.tree :: heads) item.rest
    return items.within (Nat.le_of_lt hitem)
  else return ⟨OpenGroup.sequenceOf (item.tree :: heads), item.rest, hitem⟩
termination_by 5 * ts.length + 2

/-- A factor and the operators after it. -/
def repetition (depth : Nat) (ts : List Token) : Except PatternError (Parsed ts.length) := do
  let item ← factor depth ts
  return item.repeated
termination_by 5 * ts.length + 1

/-- A group or a character. -/
def factor (depth : Nat) (ts : List Token) : Except PatternError (Parsed ts.length) :=
  match ts with
  | ⟨.leftParen, offset⟩ :: rest => do
    if limit ≤ depth then throw (.nestLimitExceeded limit offset)
    let body ← subexpr (depth + 1) rest
    have hbody := body.short
    expect ending .rightParen body.rest
    return ⟨body.tree, body.rest.tail, by rw [List.length_tail, List.length_cons]; omega⟩
  | ⟨.character c, _⟩ :: rest => return ⟨.literal c, rest, Nat.lt_succ_self _⟩
  | ts => throw (unexpected ending .character ts)
termination_by 5 * ts.length

end

/-- The tree of a whole pattern, given by its tokens. -/
def expression (ts : List Token) : Except PatternError Tree := do
  let body ← subexpr limit ending 0 ts
  expect ending .endOfPattern body.rest
  return body.tree

/-! ## The scan from where it stands -/

/-- What the scan makes of the tokens that are left. -/
def resume (n : Nesting) (ts : List Token) : Except PatternError Tree := do
  let n ← ts.foldlM (Nesting.read limit) n
  n.finish ending

/-- How the scan goes on where the innermost group should end, given the tree of that group. -/
def close (t : Tree) (outer : List OpenGroup) (ts : List Token) : Except PatternError Tree :=
  match outer with
  | [] => do
    expect ending .endOfPattern ts
    return t
  | around :: outer => do
    expect ending .rightParen ts
    resume limit ending ⟨around.push t, outer⟩ ts.tail

/-- How the scan goes on where an alternative should end, given the tree of the innermost group so far. -/
def settle (t : Tree) (outer : List OpenGroup) (ts : List Token) : Except PatternError Tree :=
  match ts with
  | ⟨.bar, _⟩ :: rest => resume limit ending ⟨⟨some t, []⟩, outer⟩ rest
  | ts => close limit ending t outer ts

variable {limit ending}

theorem resume_cons {n n' : Nesting} {token : Token} (hread : n.read limit token = .ok n') (ts : List Token) :
    resume limit ending n (token :: ts) = resume limit ending n' ts := by
  unfold resume
  rw [List.foldlM_cons, hread]
  rfl

theorem resume_cons_error {n : Nesting} {token : Token} {e : PatternError} (hread : n.read limit token = .error e)
    (ts : List Token) : resume limit ending n (token :: ts) = .error e := by
  unfold resume
  rw [List.foldlM_cons, hread]
  rfl

/-- Where neither a factor nor an operator can be read, the alternative in progress ends or nothing can be read at
all. -/
theorem resume_settled {g : OpenGroup} {outer : List OpenGroup} {ts : List Token} (hfactor : startsFactor ts = false)
    (hoperator : startsOperator ts = true → g.items = []) :
    resume limit ending ⟨g, outer⟩ ts = settle limit ending g.tree outer ts := by
  cases ts with
  | nil => cases outer <;> rfl
  | cons token rest =>
    obtain ⟨lexeme, offset⟩ := token
    obtain ⟨ended, items⟩ := g
    cases lexeme with
    | character c => cases hfactor
    | leftParen => cases hfactor
    | bar => rfl
    | rightParen => cases outer <;> rfl
    | star =>
      obtain rfl : items = [] := hoperator rfl
      cases outer <;> rfl
    | plus =>
      obtain rfl : items = [] := hoperator rfl
      cases outer <;> rfl

/-- Operators repeat the last item. -/
theorem resume_operators (g : OpenGroup) (node : Tree) (outer : List OpenGroup) (ts : List Token) :
    resume limit ending ⟨g.push node, outer⟩ ts =
      resume limit ending ⟨g.push (operators node ts).1, outer⟩ (operators node ts).2 := by
  induction ts generalizing node with
  | nil => rfl
  | cons token rest ih =>
    obtain ⟨lexeme, offset⟩ := token
    cases lexeme with
    | star => exact ih node.repeatStar
    | plus => exact ih node.repeatPlus
    | _ => rfl

/-- The alternatives that a bar has ended, if there are any, with one alternative more. -/
def joined : Option Tree → Tree → Tree
  | none, t => t
  | some left, t => .union left t

theorem tree_eq_joined (ended : Option Tree) (items : List Tree) :
    OpenGroup.tree ⟨ended, items⟩ = joined ended (OpenGroup.sequenceOf items) := by
  cases ended <;> rfl

-- The functions are followed call by call, with the measures that they end by. What they leave is fewer tokens than they
-- were given (`short`), which is what the recursion needs after a call.

mutual

/-- A subexpression is all that the innermost group holds. -/
theorem resume_subexpr (outer : List OpenGroup) (ts : List Token) :
    resume limit ending ⟨.new, outer⟩ ts =
      subexpr limit ending outer.length ts >>= fun p => close limit ending p.tree outer p.rest := by
  have hseq := resume_seq none outer ts
  rw [subexpr, OpenGroup.new, hseq]
  simp only [bind_assoc, pure_bind]
  refine bind_congr fun left => ?_
  have hleft := left.short
  exact settle_alternatives left.tree outer left.rest
termination_by 5 * ts.length + 4

/-- Alternatives are read up to where the group ends. -/
theorem settle_alternatives (left : Tree) (outer : List OpenGroup) (ts : List Token) :
    settle limit ending left outer ts =
      alternatives limit ending outer.length left ts >>= fun p => close limit ending p.tree outer p.rest := by
  unfold settle alternatives
  split
  · next rest =>
    rw [resume_seq (some left) outer rest]
    simp only [bind_assoc, pure_bind]
    refine bind_congr fun right => ?_
    have hright := right.short
    exact settle_alternatives (.union left right.tree) outer right.rest
  · rfl
termination_by 5 * ts.length + 3

/-- A sequence is the alternative in progress. -/
theorem resume_seq (ended : Option Tree) (outer : List OpenGroup) (ts : List Token) :
    resume limit ending ⟨⟨ended, []⟩, outer⟩ ts =
      seq limit ending outer.length ts >>= fun p => settle limit ending (joined ended p.tree) outer p.rest := by
  rw [seq]
  by_cases hfactor : startsFactor ts = true
  · rw [if_pos hfactor, resume_subseq ended [] outer ts hfactor]
    simp only [bind_assoc, pure_bind]
    rfl
  · rw [if_neg hfactor, resume_settled (Bool.eq_false_iff.2 hfactor) fun _ => rfl, tree_eq_joined]
    rfl
termination_by 5 * ts.length + 3

/-- The items of a sequence stand in the alternative in progress, one after another. -/
theorem resume_subseq (ended : Option Tree) (heads : List Tree) (outer : List OpenGroup) (ts : List Token)
    (hfactor : startsFactor ts = true) :
    resume limit ending ⟨⟨ended, heads⟩, outer⟩ ts =
      subseq limit ending outer.length heads ts >>= fun p =>
        settle limit ending (joined ended p.tree) outer p.rest := by
  rw [subseq, repetition, resume_factor ⟨ended, heads⟩ outer ts hfactor]
  simp only [bind_assoc, pure_bind]
  refine bind_congr fun item => ?_
  have hitem := item.repeated.short
  -- the scan takes the operators one by one, and then there is none left for it
  rw [resume_operators]
  by_cases hnext : startsFactor item.repeated.rest = true
  · rw [if_pos hnext]
    simp only [bind_assoc, pure_bind]
    exact resume_subseq ended (item.repeated.tree :: heads) outer item.repeated.rest hnext
  · have hoperator : startsOperator item.repeated.rest = false := startsOperator_operators item.tree item.rest
    rw [if_neg hnext, pure_bind, ← tree_eq_joined]
    exact resume_settled (Bool.eq_false_iff.2 hnext) fun h => absurd h (Bool.eq_false_iff.1 hoperator)
termination_by 5 * ts.length + 2

/-- A factor is one item. -/
theorem resume_factor (g : OpenGroup) (outer : List OpenGroup) (ts : List Token) (hfactor : startsFactor ts = true) :
    resume limit ending ⟨g, outer⟩ ts =
      factor limit ending outer.length ts >>= fun p => resume limit ending ⟨g.push p.tree, outer⟩ p.rest := by
  match ts with
  | ⟨.character c, offset⟩ :: rest => rw [factor]; rfl
  | ⟨.leftParen, offset⟩ :: rest =>
    rw [factor]
    by_cases hlimit : limit ≤ outer.length
    · have hread : (Nesting.mk g outer).read limit ⟨.leftParen, offset⟩ = .error (.nestLimitExceeded limit offset) :=
        if_pos hlimit
      rw [if_pos hlimit, resume_cons_error hread]
      rfl
    · have hread : (Nesting.mk g outer).read limit ⟨.leftParen, offset⟩ = .ok ⟨.new, g :: outer⟩ := if_neg hlimit
      rw [if_neg hlimit, resume_cons hread, resume_subexpr (g :: outer) rest]
      simp only [bind_assoc, pure_bind]
      rfl
termination_by 5 * ts.length

end

theorem expression_eq_treeOfTokens (ts : List Token) : expression limit ending ts = treeOfTokens limit ts ending :=
  (resume_subexpr [] ts).symm

end

end Descent

/-- The tree of a pattern by recursive descent, with groups nested at most `limit` deep. -/
def descend (limit : Nat) (pattern : String) : Except PatternError Tree := do
  let ts ← tokens pattern
  Descent.expression limit pattern.utf8ByteSize ts

/-- **Descent is the scan.** Both give the same tree of a pattern, or the same error. -/
theorem descend_eq_parse (limit : Nat) (pattern : String) : descend limit pattern = parse limit pattern := by
  unfold descend parse
  cases tokens pattern with
  | error e => rfl
  | ok ts => exact Descent.expression_eq_treeOfTokens ts

end PatternAutomata
