/-
The written form of trees.

A tree is written as its constructor with the operands in parentheses, a character as a quoted literal. A spine is
written in one loop: all openings of a union come before its base and the right operands follow one by one, and a
sequence is closed by as many parentheses as it has heads. The result is what writing node by node gives
(`text_union`, `text_concat`).
-/
import PatternAutomata.Pattern.Tree.Basic
import PatternAutomata.Text.Quoted

namespace PatternAutomata.Tree

/-- The written form of a tree. -/
def text : Tree → String
  | empty => "Empty"
  | literal c => "Literal(" ++ Text.quoteChar c ++ ")"
  | union left right =>
    let rights := (left.unionSpine [right]).2
    String.join (rights.map fun _ => "Union(") ++ (left.unionSpine [right]).1.text ++
      String.join (rights.attach.map fun r => ", " ++ r.1.text ++ ")")
  | concat first second =>
    let heads := (second.concatSpine [first]).1
    String.join (heads.attach.reverse.map fun h => "Concat(" ++ h.1.text ++ ", ") ++
      (second.concatSpine [first]).2.text ++ String.join (heads.map fun _ => ")")
  | star body => "Star(" ++ body.text ++ ")"
  | plus body => "Plus(" ++ body.text ++ ")"
termination_by t => t.size
decreasing_by
  · have := (left.size_unionSpine [right]).1
    simp only [size]; omega
  · exact size_lt_of_mem_unionSpine left right r.1 r.2
  · exact size_lt_of_mem_concatSpine first second h.1 h.2
  · have := (second.size_concatSpine [first]).1
    simp only [size]; omega
  · simp only [size]; omega
  · simp only [size]; omega

/-! ## Spines are written as their nodes would be -/

theorem join_map_const_append (word : String) (l : List Tree) (rest : String) :
    String.join (l.map fun _ => word) ++ (word ++ rest) = word ++ (String.join (l.map fun _ => word) ++ rest) := by
  induction l with
  | nil => simp
  | cons a l ih => simp only [List.map_cons, String.join_cons, String.append_assoc, ih]

theorem text_union_spine (left right : Tree) :
    (union left right).text =
      String.join ((left.unionSpine [right]).2.map fun _ => "Union(") ++ ((left.unionSpine [right]).1.text ++
        String.join ((left.unionSpine [right]).2.map fun r => ", " ++ r.text ++ ")")) := by
  rw [text]
  simp [String.append_assoc]

theorem text_unionSpine (t : Tree) (rights : List Tree) :
    String.join ((t.unionSpine rights).2.map fun _ => "Union(") ++ ((t.unionSpine rights).1.text ++
        String.join ((t.unionSpine rights).2.map fun r => ", " ++ r.text ++ ")")) =
      String.join (rights.map fun _ => "Union(") ++ (t.text ++
        String.join (rights.map fun r => ", " ++ r.text ++ ")")) := by
  induction t generalizing rights with
  | union left right ihl ihr =>
    rw [unionSpine, ihl, text_union_spine, ihl]
    simp only [List.map_cons, List.map_nil, String.join_cons, String.join_nil, String.append_assoc,
      String.append_empty, join_map_const_append]
  | _ => rfl

/-- A union is written with both operands, whatever spine it is the top of. -/
theorem text_union (left right : Tree) :
    (union left right).text = "Union(" ++ left.text ++ ", " ++ right.text ++ ")" := by
  rw [text_union_spine, text_unionSpine]
  simp [String.append_assoc]

theorem text_concat_spine (first second : Tree) :
    (concat first second).text =
      String.join ((second.concatSpine [first]).1.reverse.map fun h => "Concat(" ++ h.text ++ ", ") ++
        ((second.concatSpine [first]).2.text ++ String.join ((second.concatSpine [first]).1.map fun _ => ")")) := by
  rw [text]
  simp [String.append_assoc]

theorem text_concatSpine (t : Tree) (heads : List Tree) :
    String.join ((t.concatSpine heads).1.reverse.map fun h => "Concat(" ++ h.text ++ ", ") ++
        ((t.concatSpine heads).2.text ++ String.join ((t.concatSpine heads).1.map fun _ => ")")) =
      String.join (heads.reverse.map fun h => "Concat(" ++ h.text ++ ", ") ++
        (t.text ++ String.join (heads.map fun _ => ")")) := by
  induction t generalizing heads with
  | concat first second ihf ihs =>
    rw [concatSpine, ihs, text_concat_spine, ihs]
    simp [String.join_append, String.append_assoc]
  | _ => rfl

/-- A sequence is written with both parts, whatever spine it is the top of. -/
theorem text_concat (first second : Tree) :
    (concat first second).text = "Concat(" ++ first.text ++ ", " ++ second.text ++ ")" := by
  rw [text_concat_spine, text_concatSpine]
  simp [String.append_assoc]

end PatternAutomata.Tree
