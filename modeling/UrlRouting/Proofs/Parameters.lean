import UrlRouting.Parameters

/-! # Looking values up

What setting values does to look-ups, the view of parameters as a partial map.

* `get?_set`: setting a name changes its own value and no other.
* `get?_setAll`: of the values set for one name the last counts, and the names that are not set
  keep their values.
* `contains_eq_isSome`: a name is contained if it has a value.
* `get?_eq_some_iff`, `sameValues_of_get?`: no name occurs twice, so the values are those of the
  entries, and parameters are equal if they give the same value to every name. -/

namespace UrlRouting.Parameters

theorem lookup_cons_ite {α : Type} (name first : String) (value : α) (entries : List (String × α)) :
    ((first, value) :: entries).lookup name =
      if name = first then some value else entries.lookup name := by
  by_cases h : name = first
  · subst h
    rw [List.lookup_cons_self, if_pos rfl]
  · rw [List.lookup_cons, beq_eq_false_iff_ne.mpr h, if_neg h]

theorem lookup_eq_none_iff {α : Type} {pairs : List (String × α)} {name : String} :
    pairs.lookup name = none ↔ name ∉ pairs.map Prod.fst := by
  rw [List.lookup_eq_none_iff]
  constructor
  · intro h hm
    obtain ⟨pair, hp, rfl⟩ := List.mem_map.mp hm
    exact bne_iff_ne.mp (h pair hp) rfl
  · intro h pair hp
    exact bne_iff_ne.mpr fun he => h (List.mem_map.mpr ⟨pair, hp, he.symm⟩)

theorem lookup_setEntry (name value other : String) (entries : List (String × String)) :
    (setEntry name value entries).lookup other =
      if other = name then some value else entries.lookup other := by
  induction entries with
  | nil => exact lookup_cons_ite other name value []
  | cons entry rest ih =>
      obtain ⟨first, found⟩ := entry
      rw [setEntry]
      by_cases h : first = name
      · subst h
        rw [if_pos rfl, lookup_cons_ite, lookup_cons_ite]
        by_cases ho : other = first <;> simp [ho]
      · rw [if_neg h, lookup_cons_ite, lookup_cons_ite, ih]
        by_cases ho : other = first
        · subst ho
          simp [h]
        · simp [ho]

theorem get?_set (parameters : Parameters) (name value other : String) :
    (parameters.set name value).get? other =
      if other = name then some value else parameters.get? other :=
  lookup_setEntry name value other parameters.entries

theorem setAll_cons (parameters : Parameters) (name value : String)
    (rest : List (String × String)) :
    parameters.setAll ((name, value) :: rest) = (parameters.set name value).setAll rest := rfl

theorem get?_setAll (parameters : Parameters) (pairs : List (String × String)) (name : String) :
    (parameters.setAll pairs).get? name = (pairs.reverse.lookup name).or (parameters.get? name) := by
  induction pairs generalizing parameters with
  | nil => rfl
  | cons pair rest ih =>
      obtain ⟨first, value⟩ := pair
      rw [setAll_cons, ih, get?_set, List.reverse_cons, List.lookup_append, lookup_cons_ite,
        Option.or_assoc]
      by_cases h : name = first <;> simp [h]

/-- If no name is set twice, the values may be looked up in the order in which they were set. -/
theorem get?_setAll_of_nodup (parameters : Parameters) {pairs : List (String × String)}
    (h : (pairs.map Prod.fst).Nodup) (name : String) :
    (parameters.setAll pairs).get? name = (pairs.lookup name).or (parameters.get? name) := by
  induction pairs generalizing parameters with
  | nil => rfl
  | cons pair rest ih =>
      obtain ⟨first, value⟩ := pair
      rw [List.map_cons, List.nodup_cons] at h
      rw [setAll_cons, ih _ h.2, get?_set, lookup_cons_ite]
      by_cases hn : name = first
      · subst hn
        -- the name does not occur again, so no later value replaces this one
        rw [lookup_eq_none_iff.mpr h.1, if_pos rfl, if_pos rfl]
        rfl
      · rw [if_neg hn, if_neg hn]

theorem mem_of_lookup {α : Type} {pairs : List (String × α)} {name : String} {value : α}
    (h : pairs.lookup name = some value) : (name, value) ∈ pairs := by
  obtain ⟨front, rest, he, -⟩ := List.lookup_eq_some_iff.mp h
  rw [he]
  exact List.mem_append_right front List.mem_cons_self

theorem lookup_iff_mem_of_nodup {α : Type} {pairs : List (String × α)}
    (h : (pairs.map Prod.fst).Nodup) {name : String} {value : α} :
    pairs.lookup name = some value ↔ (name, value) ∈ pairs := by
  refine ⟨mem_of_lookup, ?_⟩
  intro hm
  induction pairs with
  | nil => cases hm
  | cons pair rest ih =>
      obtain ⟨first, found⟩ := pair
      rw [List.map_cons, List.nodup_cons] at h
      rw [List.lookup_cons]
      rcases List.mem_cons.mp hm with he | hm
      · cases he
        rw [beq_self_eq_true]
      · have hne : name ≠ first := fun he => h.1 (List.mem_map.mpr ⟨_, hm, he⟩)
        rw [beq_eq_false_iff_ne.mpr hne]
        exact ih h.2 hm

theorem contains_eq_isSome (values : Parameters) (name : String) :
    values.contains name = (values.get? name).isSome := by
  unfold contains get?
  induction values.entries with
  | nil => rfl
  | cons entry rest ih =>
      obtain ⟨first, value⟩ := entry
      rw [List.any_cons, lookup_cons_ite, ih]
      by_cases h : first = name
      · simp [h]
      · simp [h, Ne.symm h]

theorem contains_iff_mem {values : Parameters} {name : String} :
    values.contains name = true ↔ name ∈ values.entries.map Prod.fst := by
  rw [contains, List.any_eq_true, List.mem_map]
  simp only [decide_eq_true_eq]

/-- Own values win over those of the base. -/
theorem get?_mergedOver (parameters base : Parameters) (name : String) :
    (parameters.mergedOver base).get? name = (parameters.get? name).or (base.get? name) :=
  get?_setAll_of_nodup base parameters.distinct name

theorem get?_mergedOver_congr (parameters : Parameters) {base other : Parameters} {name : String}
    (h : base.get? name = other.get? name) :
    (parameters.mergedOver base).get? name = (parameters.mergedOver other).get? name := by
  rw [get?_mergedOver, get?_mergedOver, h]

theorem exists_get?_mergedOver {parameters : Parameters} {name : String}
    (h : parameters.contains name = true) (base : Parameters) :
    ∃ value, (name, value) ∈ parameters.entries ∧
      (parameters.mergedOver base).get? name = some value := by
  rw [contains_eq_isSome, Option.isSome_iff_exists] at h
  obtain ⟨value, hv⟩ := h
  refine ⟨value, mem_of_lookup hv, ?_⟩
  rw [get?_mergedOver, hv]
  rfl

theorem get?_mergedOver_of_notMem {parameters : Parameters} {name : String}
    (h : name ∉ parameters.entries.map Prod.fst) (base : Parameters) :
    (parameters.mergedOver base).get? name = base.get? name := by
  have hnone : parameters.get? name = none := lookup_eq_none_iff.mpr h
  rw [get?_mergedOver, hnone, Option.none_or]

theorem setEntry_of_notMem {entries : List (String × String)} {name : String}
    (h : name ∉ entries.map Prod.fst) (value : String) :
    setEntry name value entries = entries ++ [(name, value)] := by
  induction entries with
  | nil => rfl
  | cons entry rest ih =>
      rw [List.map_cons, List.mem_cons, not_or] at h
      rw [setEntry, if_neg (Ne.symm h.1), ih h.2, List.cons_append]

/-! ### Look-ups and entries -/

theorem get?_eq_some_iff {parameters : Parameters} {name value : String} :
    parameters.get? name = some value ↔ (name, value) ∈ parameters.entries :=
  lookup_iff_mem_of_nodup parameters.distinct

theorem get?_eq_of_perm {parameters other : Parameters}
    (hp : parameters.entries.Perm other.entries) (name : String) :
    parameters.get? name = other.get? name := by
  ext value
  rw [get?_eq_some_iff, get?_eq_some_iff, hp.mem_iff]

/-- Parameters are equal if they give the same value to every name. -/
theorem sameValues_of_get? {a b : Parameters} (h : ∀ name, a.get? name = b.get? name) :
    (a == b) = true := by
  have hnames : (a.entries.map Prod.fst).Perm (b.entries.map Prod.fst) := by
    rw [List.perm_ext_iff_of_nodup a.distinct b.distinct]
    intro name
    rw [← contains_iff_mem, ← contains_iff_mem, contains_eq_isSome, contains_eq_isSome, h]
  have hsize := hnames.length_eq
  rw [List.length_map, List.length_map] at hsize
  refine Bool.and_eq_true_iff.mpr ⟨decide_eq_true hsize, List.all_eq_true.mpr ?_⟩
  rintro ⟨name, value⟩ hm
  exact decide_eq_true ((h name).symm.trans (get?_eq_some_iff.mpr hm))

end UrlRouting.Parameters
