import Mathlib.Data.Set.Card
import UrlRouting.Proofs.Parameters

/-! # The entries of parameters

Parameters as an ordered map: their names in the order of the entries, and the value of each name.

* `names_set`, `names_setAll`: a present name keeps its place, and new names go behind the others in
  the order in which they are first set.
* `eq_of_names`: the names in one order, with the same values, are the same entries. Laws of
  operations on parameters follow from what the operations do to names and to look-ups.
* `Built` says that parameters come from the operations, as all do (`built`).
* `built_lists_once`: every name is listed once, and a list of pairs gives each name the place of
  its first and the value of its last occurrence. -/

namespace UrlRouting.Parameters

variable {parameters : Parameters} {name value : String} {pairs : List (String × String)}

/-- The names, in the order of their entries. -/
def names (parameters : Parameters) : List String := parameters.entries.map Prod.fst

theorem mem_names_iff : name ∈ parameters.names ↔ parameters.contains name = true :=
  contains_iff_mem.symm

theorem nodup_names (parameters : Parameters) : parameters.names.Nodup := parameters.distinct

/-! ### What setting does to the names -/

theorem contains_set (parameters : Parameters) (name value other : String) :
    (parameters.set name value).contains other =
      (decide (other = name) || parameters.contains other) := by
  simp only [contains_eq_isSome, get?_set]
  by_cases h : other = name <;> simp [h]

theorem names_set (parameters : Parameters) (name value : String) :
    (parameters.set name value).names =
      if parameters.contains name then parameters.names else parameters.names ++ [name] := by
  unfold names contains
  show (setEntry name value parameters.entries).map Prod.fst = _
  induction parameters.entries with
  | nil => rfl
  | cons entry rest ih =>
      by_cases h : entry.1 = name
      · simp [setEntry, h]
      · simp only [setEntry, if_neg h, List.map_cons, ih, List.any_cons, decide_eq_false h,
          Bool.false_or, List.cons_append]
        split <;> rfl

/-- The new names of a list of pairs go behind, each at its first occurrence. -/
theorem names_setAll (parameters : Parameters) (pairs : List (String × String)) :
    (parameters.setAll pairs).names =
      parameters.names ++
        ((pairs.map Prod.fst).filter fun name => !parameters.contains name).eraseDups := by
  induction pairs generalizing parameters with
  | nil => simp [setAll]
  | cons pair rest ih =>
      obtain ⟨first, value⟩ := pair
      rw [setAll_cons, ih, names_set, List.map_cons]
      by_cases h : parameters.contains first = true
      · -- the name keeps its place, and its later occurrences are not new either
        have hsame : (parameters.set first value).contains = parameters.contains := by
          funext name
          rw [contains_set]
          by_cases hn : name = first <;> simp [hn, h]
        rw [if_pos h, hsame, List.filter_cons_of_neg (by simp [h])]
      · have hnew : (fun name => !(parameters.set first value).contains name) =
            fun name => !(name == first) && !parameters.contains name := by
          funext name
          rw [contains_set, Bool.not_or]
          rfl
        rw [if_neg h, hnew, List.filter_cons_of_pos (by simp [h]), List.eraseDups_cons,
          List.filter_filter, List.append_assoc, List.singleton_append]

theorem eraseDups_of_nodup {names : List String} (h : names.Nodup) : names.eraseDups = names := by
  induction names with
  | nil => rfl
  | cons name rest ih =>
      obtain ⟨hn, hrest⟩ := List.nodup_cons.mp h
      have hother : rest.filter (fun other => !other == name) = rest := by
        apply List.filter_eq_self.mpr
        intro other ho
        simpa using fun he : other = name => hn (he ▸ ho)
      rw [List.eraseDups_cons, hother, ih hrest]

theorem names_setAll_of_nodup (parameters : Parameters) (h : (pairs.map Prod.fst).Nodup) :
    (parameters.setAll pairs).names =
      parameters.names ++ (pairs.map Prod.fst).filter fun name => !parameters.contains name := by
  rw [names_setAll, eraseDups_of_nodup (h.filter _)]

/-! ### Names and values decide the entries -/

theorem entries_eq (parameters : Parameters) :
    parameters.entries =
      parameters.names.filterMap fun name => (parameters.get? name).map fun value => (name, value) := by
  have hself : ∀ entry ∈ parameters.entries,
      (parameters.get? entry.1).map (fun value => (entry.1, value)) = some entry := by
    intro entry hm
    rw [get?_eq_some_iff.mpr hm]
    rfl
  unfold names
  rw [List.filterMap_map]
  exact (List.filterMap_congr hself).trans List.filterMap_some |>.symm

theorem eq_of_names {a b : Parameters} (hn : a.names = b.names)
    (hv : ∀ name, a.get? name = b.get? name) : a = b := by
  apply Parameters.ext
  rw [a.entries_eq, b.entries_eq, hn]
  simp only [hv]

/-! ### Lists of pairs -/

theorem names_ofList (pairs : List (String × String)) :
    (ofList pairs).names = (pairs.map Prod.fst).eraseDups := by
  have hall : (pairs.map Prod.fst).filter (fun name => !empty.contains name) = pairs.map Prod.fst :=
    List.filter_eq_self.mpr fun _ _ => rfl
  unfold ofList
  rw [names_setAll, hall]
  rfl

/-- Of the values of a name the last is kept. -/
theorem get?_ofList_iff :
    (ofList pairs).get? name = some value ↔
      ∃ before after, pairs = before ++ (name, value) :: after ∧ name ∉ after.map Prod.fst := by
  have hreverse : (ofList pairs).get? name = pairs.reverse.lookup name :=
    (get?_setAll empty pairs name).trans Option.or_none
  rw [hreverse, List.lookup_eq_some_iff]
  constructor
  · rintro ⟨front, rest, he, hfront⟩
    refine ⟨rest.reverse, front.reverse, ?_, ?_⟩
    · rw [← List.reverse_reverse pairs, he]
      simp
    · intro hm
      obtain ⟨pair, hp, rfl⟩ := List.mem_map.mp hm
      simpa using hfront pair (List.mem_reverse.mp hp)
  · rintro ⟨before, after, rfl, hafter⟩
    refine ⟨after.reverse, before.reverse, by simp, ?_⟩
    intro pair hp
    apply bne_iff_ne.mpr
    rintro rfl
    exact hafter (List.mem_map_of_mem (List.mem_reverse.mp hp))

theorem ofList_of_nodup (h : (pairs.map Prod.fst).Nodup) : ofList pairs = ⟨pairs, h⟩ := by
  apply eq_of_names
  · rw [names_ofList, eraseDups_of_nodup h]
    rfl
  · intro name
    exact (get?_setAll_of_nodup empty h name).trans Option.or_none

/-! ### Maps -/

theorem getElem?_toMap (parameters : Parameters) (name : String) :
    parameters.toMap[name]? = parameters.get? name := by
  unfold toMap
  cases hv : parameters.get? name with
  | none =>
      apply Std.HashMap.getElem?_ofList_of_contains_eq_false
      simpa using lookup_eq_none_iff.mp hv
  | some value =>
      have hkeys : parameters.entries.Pairwise fun a b => (a.1 == b.1) = false := by
        simpa [List.Nodup, List.pairwise_map] using parameters.distinct
      exact Std.HashMap.getElem?_ofList_of_mem (beq_self_eq_true name) hkeys
        (get?_eq_some_iff.mp hv)

theorem nodup_toList (values : Std.HashMap String String) : values.toList.Nodup := by
  apply values.distinct_keys_toList.imp
  rintro a b hk rfl
  simp at hk

theorem perm_toList_toMap (parameters : Parameters) :
    parameters.toMap.toList.Perm parameters.entries := by
  rw [List.perm_ext_iff_of_nodup (nodup_toList _) (.of_map _ parameters.nodup_names)]
  rintro ⟨name, value⟩
  rw [Std.HashMap.mem_toList_iff_getElem?_eq_some, getElem?_toMap, get?_eq_some_iff]

/-! ### Parameters that the operations build -/

/-- The parameters come from the operations. A map may list its values in any order. -/
inductive Built : Parameters → Prop
  | empty : Built empty
  | set {parameters : Parameters} (built : Built parameters) (name value : String) :
    Built (parameters.set name value)
  | ofList (pairs : List (String × String)) : Built (Parameters.ofList pairs)
  | ofMap {values : Std.HashMap String String} {listing : List (String × String)}
    (perm : listing.Perm values.toList) : Built (Parameters.ofList listing)
  | mergedOver {parameters base : Parameters} (own : Built parameters) (below : Built base) :
    Built (parameters.mergedOver base)

/-- All parameters come from the operations: they are the list of their entries. -/
theorem built (parameters : Parameters) : parameters.Built := by
  have hlist : Parameters.ofList parameters.entries = parameters :=
    ofList_of_nodup parameters.distinct
  rw [← hlist]
  exact .ofList parameters.entries

theorem size_eq_ncard (parameters : Parameters) :
    parameters.size = {name | parameters.contains name = true}.ncard := by
  have hset : {name | parameters.contains name = true} = (parameters.names.toFinset : Set String) := by
    ext name
    simp [mem_names_iff]
  rw [hset, Set.ncard_coe_finset, List.toFinset_card_of_nodup parameters.nodup_names]
  simp [size, names]

/-- **Every name is listed once.** All parameters come from the operations. They list each of their
names once, with the value that the name is looked up to, so there are as many entries as names. A
list of pairs gives each name the place of its first occurrence and the value of its last one, as
does setting the pairs one after another. -/
theorem built_lists_once :
    (∀ parameters : Parameters, parameters.Built ∧
      parameters.names.Nodup ∧
      parameters.size = {name | parameters.contains name = true}.ncard ∧
      (∀ name, parameters.contains name = (parameters.get? name).isSome) ∧
      (∀ name value, parameters.get? name = some value ↔ (name, value) ∈ parameters.entries) ∧
      ∀ name, parameters.names.count name = if parameters.contains name then 1 else 0) ∧
    ∀ pairs : List (String × String),
      ofList pairs = pairs.foldl (fun result pair => result.set pair.1 pair.2) empty ∧
      (ofList pairs).names = (pairs.map Prod.fst).eraseDups ∧
      ∀ name value, (name, value) ∈ (ofList pairs).entries ↔
        ∃ before after, pairs = before ++ (name, value) :: after ∧ name ∉ after.map Prod.fst := by
  constructor
  · intro parameters
    refine ⟨parameters.built, parameters.nodup_names, parameters.size_eq_ncard,
      contains_eq_isSome parameters, fun _ _ => get?_eq_some_iff, ?_⟩
    intro name
    rw [parameters.nodup_names.count]
    simp only [mem_names_iff]
  · intro pairs
    refine ⟨rfl, names_ofList pairs, ?_⟩
    intro name value
    rw [← get?_eq_some_iff, get?_ofList_iff]

example : ((ofList [("a", "1"), ("b", "2"), ("a", "3")]).set "c" "4").entries =
    [("a", "3"), ("b", "2"), ("c", "4")] := by decide

end UrlRouting.Parameters
