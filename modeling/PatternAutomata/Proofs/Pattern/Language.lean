/-
The language of a tree.

A tree stands for a set of words by structural recursion alone; no automaton and no repetition that absorbs another one
comes into it. Every tree stands for some word, so nothing in a tree is idle: the characters of its words are the
characters of its literals (`mem_literals_iff`). Without repetition the words are finitely many
(`finite_language_of_hasRepetition`).
-/
import Mathlib.Computability.Language
import Mathlib.Data.Finite.Prod
import PatternAutomata.Pattern.Tree.Basic

namespace PatternAutomata.Tree

open Computability

/-- The words that a tree stands for. -/
def language : Tree → Language Char
  | empty => 1
  | literal c => {[c]}
  | union left right => left.language + right.language
  | concat first second => first.language * second.language
  | star body => body.language∗
  | plus body => body.language * body.language∗

/-- The characters of the literals of a tree, from left to right. -/
def literals : Tree → List Char
  | empty => []
  | literal c => [c]
  | union left right => left.literals ++ right.literals
  | concat first second => first.literals ++ second.literals
  | star body => body.literals
  | plus body => body.literals

/-- Whether something is repeated in a tree. -/
def hasRepetition : Tree → Bool
  | empty => false
  | literal _ => false
  | union left right => left.hasRepetition || right.hasRepetition
  | concat first second => first.hasRepetition || second.hasRepetition
  | star _ => true
  | plus _ => true

/-- Every tree stands for some word. -/
theorem exists_mem_language (t : Tree) : ∃ w, w ∈ t.language := by
  induction t with
  | empty => exact ⟨[], rfl⟩
  | literal c => exact ⟨[c], rfl⟩
  | union left right ihl ihr =>
    obtain ⟨w, hw⟩ := ihl
    exact ⟨w, Or.inl hw⟩
  | concat first second ihf ihs =>
    obtain ⟨u, hu⟩ := ihf
    obtain ⟨v, hv⟩ := ihs
    exact ⟨u ++ v, Language.append_mem_mul hu hv⟩
  | star body ih => exact ⟨[], Language.nil_mem_kstar _⟩
  | plus body ih =>
    obtain ⟨w, hw⟩ := ih
    exact ⟨w ++ [], Language.append_mem_mul hw (Language.nil_mem_kstar _)⟩

theorem exists_mem_mul_iff (l m : Language Char) (hl : ∃ w, w ∈ l) (hm : ∃ w, w ∈ m) (c : Char) :
    (∃ w ∈ l * m, c ∈ w) ↔ (∃ w ∈ l, c ∈ w) ∨ ∃ w ∈ m, c ∈ w := by
  refine ⟨?_, ?_⟩
  · intro h
    obtain ⟨w, hw, hc⟩ := h
    obtain ⟨u, hu, v, hv, rfl⟩ := Language.mem_mul.1 hw
    exact (List.mem_append.1 hc).imp (fun hc => ⟨u, hu, hc⟩) fun hc => ⟨v, hv, hc⟩
  · obtain ⟨x, hx⟩ := hl
    obtain ⟨y, hy⟩ := hm
    intro h
    rcases h with ⟨u, hu, hc⟩ | ⟨v, hv, hc⟩
    · exact ⟨u ++ y, Language.append_mem_mul hu hy, List.mem_append_left y hc⟩
    · exact ⟨x ++ v, Language.append_mem_mul hx hv, List.mem_append_right x hc⟩

theorem exists_mem_kstar_iff (l : Language Char) (c : Char) : (∃ w ∈ l∗, c ∈ w) ↔ ∃ w ∈ l, c ∈ w := by
  refine ⟨?_, ?_⟩
  · intro h
    obtain ⟨w, hw, hc⟩ := h
    obtain ⟨rounds, rfl, hrounds⟩ := Language.mem_kstar.1 hw
    obtain ⟨u, hu, hc⟩ := List.mem_flatten.1 hc
    exact ⟨u, hrounds u hu, hc⟩
  · intro h
    obtain ⟨w, hw, hc⟩ := h
    exact ⟨w, Set.mem_of_mem_of_subset hw (le_kstar : l ≤ l∗), hc⟩

/-- The characters of the words are those of the literals. -/
theorem mem_literals_iff (t : Tree) (c : Char) : c ∈ t.literals ↔ ∃ w ∈ t.language, c ∈ w := by
  induction t with
  | empty =>
    refine iff_of_false List.not_mem_nil fun h => ?_
    obtain ⟨w, rfl, hc⟩ := h
    exact List.not_mem_nil hc
  | literal a =>
    refine ⟨fun hc => ⟨[a], rfl, hc⟩, fun h => ?_⟩
    obtain ⟨w, rfl, hc⟩ := h
    exact hc
  | union left right ihl ihr =>
    rw [literals, List.mem_append, ihl, ihr, language]
    simp only [Language.mem_add, or_and_right, exists_or]
  | concat first second ihf ihs =>
    rw [literals, List.mem_append, ihf, ihs, language,
      exists_mem_mul_iff _ _ first.exists_mem_language second.exists_mem_language]
  | star body ih => rw [literals, ih, language, exists_mem_kstar_iff]
  | plus body ih =>
    rw [literals, ih, language, exists_mem_mul_iff _ _ body.exists_mem_language ⟨[], Language.nil_mem_kstar _⟩,
      exists_mem_kstar_iff, or_self]

theorem finite_language_of_hasRepetition (t : Tree) (h : t.hasRepetition = false) : Set.Finite t.language := by
  induction t with
  | empty => exact Set.finite_singleton []
  | literal c => exact Set.finite_singleton [c]
  | union left right ihl ihr =>
    obtain ⟨hl, hr⟩ := Bool.or_eq_false_iff.1 h
    exact (ihl hl).union (ihr hr)
  | concat first second ihf ihs =>
    obtain ⟨hf, hs⟩ := Bool.or_eq_false_iff.1 h
    exact (ihf hf).image2 _ (ihs hs)
  | star body ih => cases h
  | plus body ih => cases h

end PatternAutomata.Tree
