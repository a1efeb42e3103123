/-
Finite maps given by a rule or a list.

`tabulate keys value` is the ordered map that holds, for each listed key at which the rule gives a value, that value. A
look-up in it is the rule itself on the listed keys, which is all that the automata need to know about a map they build.
`numbered items` and `placesOf items` serve to look into a list often: the item at a place, and the first place of an
item. A map lists its entries by ascending key, and no other list of them does (`eq_of_ascending`); entered one after the
other they give the map again (`ofList_toList`).
-/
import Std.Data.ExtTreeMap

namespace PatternAutomata

variable {κ ν : Type} {order : κ → κ → Ordering} [Std.TransCmp order]

/-- The map that takes each listed key to the value of the rule there, and leaves out the keys where it gives none. -/
def tabulate (keys : List κ) (value : κ → Option ν) : Std.ExtTreeMap κ ν order :=
  keys.foldr (fun key map => match value key with
    | some v => map.insert key v
    | none => map) ∅

theorem getElem?_tabulate [Std.LawfulEqCmp order] [DecidableEq κ] (keys : List κ) (value : κ → Option ν) (key : κ) :
    (tabulate keys value : Std.ExtTreeMap κ ν order)[key]? = if key ∈ keys then value key else none := by
  induction keys with
  | nil => simp [tabulate]
  | cons k keys ih =>
    unfold tabulate at ih ⊢
    by_cases hk : k = key
    · subst hk
      cases hv : value k <;> simp [hv, ih]
    · have hk' : ¬ key = k := fun h => hk h.symm
      cases hv : value k <;> simp [hv, ih, hk, hk', Std.ExtTreeMap.getElem?_insert]

/-- The items of a list by their places. -/
def numbered (items : List ν) : Std.ExtTreeMap Nat ν :=
  items.zipIdx.foldr (fun (item, place) map => map.insert place item) ∅

/-- The first place of each item of a list. -/
def placesOf (items : List κ) : Std.ExtTreeMap κ Nat order :=
  items.zipIdx.foldr (fun (item, place) map => map.insert item place) ∅

theorem getElem?_numbered (items : List ν) (place : Nat) : (numbered items)[place]? = items[place]? := by
  have shifted : ∀ start, ((items.zipIdx start).foldr (fun (item, place) map => map.insert place item)
      (∅ : Std.ExtTreeMap Nat ν))[place]? = if start ≤ place then items[place - start]? else none := by
    induction items with
    | nil => simp
    | cons item rest ih =>
      intro start
      rw [List.zipIdx_cons, List.foldr_cons, Std.ExtTreeMap.getElem?_insert, ih, List.getElem?_cons]
      simp only [Std.LawfulEqOrd.compare_eq_iff_eq]
      by_cases h : start = place
      · simp [h]
      · by_cases hle : start ≤ place
        · rw [if_neg h, if_pos (by omega), if_pos hle, if_neg (by omega), Nat.sub_sub]
        · rw [if_neg h, if_neg (by omega), if_neg hle]
  exact (shifted 0).trans (by simp)

theorem getElem?_placesOf [Std.LawfulEqCmp order] [DecidableEq κ] (items : List κ) (item : κ) :
    (placesOf items : Std.ExtTreeMap κ Nat order)[item]? = items.idxOf? item := by
  have shifted : ∀ start, ((items.zipIdx start).foldr (fun (item, place) map => map.insert item place)
      (∅ : Std.ExtTreeMap κ Nat order))[item]? = (items.idxOf? item).map (start + ·) := by
    induction items with
    | nil => simp
    | cons first rest ih =>
      intro start
      rw [List.zipIdx_cons, List.foldr_cons, Std.ExtTreeMap.getElem?_insert, ih, List.idxOf?_cons]
      simp only [Std.LawfulEqCmp.compare_eq_iff_eq, beq_iff_eq]
      by_cases h : first = item
      · simp [h]
      · rw [if_neg h, if_neg h, Option.map_map]
        exact congrArg (Option.map · _) (funext fun place => Nat.add_right_comm start 1 place)
  exact (shifted 0).trans (by simp)

/-- Lists that ascend by key and have the same entries are equal. -/
theorem eq_of_ascending [Std.LawfulEqCmp order] {entries others : List (κ × ν)}
    (hentries : entries.Pairwise fun x y => order x.1 y.1 = .lt)
    (hothers : others.Pairwise fun x y => order x.1 y.1 = .lt) (hmem : ∀ entry, entry ∈ entries ↔ entry ∈ others) :
    entries = others := by
  have hnodup : ∀ {l : List (κ × ν)}, (l.Pairwise fun x y => order x.1 y.1 = .lt) → l.Nodup := fun hl =>
    hl.imp fun {x y} hlt heq => by
      have hself : order y.1 y.1 = .eq := Std.ReflCmp.compare_self
      rw [heq, hself] at hlt
      cases hlt
  refine List.Perm.eq_of_pairwise (fun a b _ _ hab hba => ?_) hentries hothers
    ((List.perm_ext_iff_of_nodup (hnodup hentries) (hnodup hothers)).2 hmem)
  exact absurd hba (Std.OrientedCmp.not_lt_of_lt hab)

/-- A map is what its entries give. -/
theorem ofList_toList [Std.LawfulEqCmp order] [DecidableEq κ] (map : Std.ExtTreeMap κ ν order) :
    Std.ExtTreeMap.ofList map.toList order = map := by
  refine Std.ExtTreeMap.ext_getElem? fun key => ?_
  cases hkey : map[key]? with
  | some value =>
    exact Std.ExtTreeMap.getElem?_ofList_of_mem Std.ReflCmp.compare_self Std.ExtTreeMap.distinct_keys_toList
      (Std.ExtTreeMap.mem_toList_iff_getElem?_eq_some.2 hkey)
  | none =>
    refine Std.ExtTreeMap.getElem?_ofList_of_contains_eq_false (Bool.eq_false_iff.2 fun hmem => ?_)
    rw [List.contains_iff_mem, Std.ExtTreeMap.map_fst_toList_eq_keys, Std.ExtTreeMap.mem_keys,
      Std.ExtTreeMap.mem_iff_isSome_getElem?, hkey] at hmem
    cases hmem

end PatternAutomata
