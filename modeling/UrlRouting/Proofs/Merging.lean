import UrlRouting.Proofs.Entries
import UrlRouting.Proofs.Matching

/-! # Merging

Laying parameters over others, as an operation with laws.

* `names_mergedOver`, `get?_mergedOver`: the names of the base come first, and own values win.
* `Parameters.mergedOver_monoid`: hence merging is associative, the empty parameters are neutral, and
  parameters laid over themselves are unchanged, order of entries included.
* `Route.matchPath_mergedOver`: the defaults of a route have no part in the search for a match. The
  answer is the one without defaults, laid over the defaults. -/

namespace UrlRouting

namespace Parameters

variable {a b c : Parameters}

/-! ### Laws of merging -/

theorem names_mergedOver (a b : Parameters) :
    (a.mergedOver b).names = b.names ++ a.names.filter fun name => !b.contains name :=
  names_setAll_of_nodup b a.distinct

theorem contains_mergedOver (a b : Parameters) (name : String) :
    (a.mergedOver b).contains name = (a.contains name || b.contains name) := by
  simp only [contains_eq_isSome, get?_mergedOver, Option.isSome_or]

theorem mergedOver_assoc (a b c : Parameters) :
    (a.mergedOver b).mergedOver c = a.mergedOver (b.mergedOver c) := by
  apply eq_of_names
  · have hnew : (fun name => !(b.mergedOver c).contains name) =
        fun name => !c.contains name && !b.contains name := by
      funext name
      rw [contains_mergedOver, Bool.not_or, Bool.and_comm]
    rw [names_mergedOver, names_mergedOver, names_mergedOver, names_mergedOver, hnew,
      List.filter_append, List.filter_filter, List.append_assoc]
  · intro name
    rw [get?_mergedOver, get?_mergedOver, get?_mergedOver, get?_mergedOver, Option.or_assoc]

theorem mergedOver_empty (a : Parameters) : a.mergedOver empty = a := ofList_of_nodup a.distinct

theorem empty_mergedOver (a : Parameters) : empty.mergedOver a = a := rfl

theorem mergedOver_self (a : Parameters) : a.mergedOver a = a := by
  apply eq_of_names
  · have hnone : a.names.filter (fun name => !a.contains name) = [] := by
      apply List.filter_eq_nil_iff.mpr
      intro name hn
      simp [mem_names_iff.mp hn]
    rw [names_mergedOver, hnone, List.append_nil]
  · intro name
    rw [get?_mergedOver, Option.or_self]

theorem get?_mergedOver_ite (a b : Parameters) (name : String) :
    (a.mergedOver b).get? name = if a.contains name then a.get? name else b.get? name := by
  rw [get?_mergedOver, contains_eq_isSome]
  cases a.get? name <;> rfl

/-- Names that are a part of a list without repetition are those members of it that are contained. -/
theorem names_eq_filter {all : List String} (hs : a.names.Sublist all) (hn : all.Nodup) :
    a.names = all.filter fun name => a.contains name := by
  have hself : a.names.filter (fun name => a.contains name) = a.names :=
    List.filter_eq_self.mpr fun name hm => mem_names_iff.mp hm
  have hpart := hs.filter fun name => a.contains name
  rw [hself] at hpart
  apply hpart.eq_of_length_le
  apply List.Subperm.length_le
  apply List.subperm_of_subset (hn.filter _)
  intro name hm
  exact mem_names_iff.mpr (List.mem_filter.mp hm).2

/-- **Merging is a monoid.** It is associative, with the empty parameters as neutral element, and
parameters laid over themselves are unchanged. Own values win, the names of the base come first in
their order, and the other own names follow in theirs. -/
theorem mergedOver_monoid (a b c : Parameters) :
    (a.mergedOver b).mergedOver c = a.mergedOver (b.mergedOver c) ∧
      a.mergedOver empty = a ∧ empty.mergedOver a = a ∧ a.mergedOver a = a ∧
      (∀ name, (a.mergedOver b).get? name =
        if a.contains name then a.get? name else b.get? name) ∧
      (a.mergedOver b).names = b.names ++ a.names.filter fun name => !b.contains name :=
  ⟨mergedOver_assoc a b c, mergedOver_empty a, empty_mergedOver a, mergedOver_self a,
    get?_mergedOver_ite a b, names_mergedOver a b⟩

example : ((ofList [("x", "1"), ("y", "2")]).mergedOver (ofList [("z", "4"), ("y", "5")])).entries =
    [("z", "4"), ("y", "2"), ("x", "1")] := by decide

end Parameters

/-! ### Matching over defaults -/

namespace Route

variable {text : String} {pattern : Pattern} {path : String} {captured : Parameters}

/-- An answer is what the match captures, laid over the defaults. It captures placeholders in the order
of the pattern. -/
theorem exists_captured (h : Pattern.compile text = .ok pattern) {defaults result : Parameters}
    (hm : matchPath ⟨pattern, defaults⟩ path = some result) :
    ∃ captured : Parameters, matchPath ⟨pattern, .empty⟩ path = some captured ∧
      captured.names.Sublist pattern.placeholders ∧ result = captured.mergedOver defaults := by
  obtain ⟨choices, captures, hf, rfl⟩ := (matchPath_eq_some_iff _ _ _).mp hm
  have hnodup := Pattern.nodup_of_derives h hf.derives
  have hsub := hf.derives.names_sublist
  rw [← map_fst_decodeCaptures] at hnodup hsub
  rw [Pattern.names_tree h] at hsub
  refine ⟨⟨decodeCaptures captures, hnodup⟩, ?_, hsub, rfl⟩
  rw [matchPath_eq_some_iff]
  exact ⟨choices, captures, hf, (Parameters.ofList_of_nodup hnodup).symm⟩

theorem matchPath_eq_map (h : Pattern.compile text = .ok pattern) (defaults : Parameters)
    (path : String) :
    matchPath ⟨pattern, defaults⟩ path =
      (matchPath ⟨pattern, .empty⟩ path).map fun captured => captured.mergedOver defaults := by
  cases hm : matchPath ⟨pattern, defaults⟩ path with
  | none =>
      have hnone : matchPath ⟨pattern, .empty⟩ path = none := by
        rw [matchPath_eq_none_iff] at hm ⊢
        exact hm
      rw [hnone]
      rfl
  | some result =>
      obtain ⟨captured, hc, -, rfl⟩ := exists_captured h hm
      rw [hc]
      rfl

theorem names_of_matchPath (h : Pattern.compile text = .ok pattern)
    (hc : matchPath ⟨pattern, .empty⟩ path = some captured) :
    captured.names = pattern.placeholders.filter fun name => captured.contains name := by
  obtain ⟨other, ho, hsub, -⟩ := exists_captured h hc
  rw [hc, Option.some.injEq] at ho
  subst ho
  exact Parameters.names_eq_filter hsub (Pattern.compile_eq_ok h).2.2

/-- **Defaults factor out of matching.** A pattern that compiles makes a route with any defaults. The
route matches the paths that it matches without defaults, and its answer is the one without
defaults laid over the defaults: first the names of the defaults in their order, then the other
captured placeholders in the order of the pattern. A captured value wins, and a name that is not
captured keeps its default. -/
theorem matchPath_mergedOver (h : Pattern.compile text = .ok pattern) (defaults : Parameters)
    (path : String) :
    compile text defaults = .ok ⟨pattern, defaults⟩ ∧
      compile text .empty = .ok ⟨pattern, .empty⟩ ∧
      ((matchPath ⟨pattern, defaults⟩ path).isSome ↔ (matchPath ⟨pattern, .empty⟩ path).isSome) ∧
      ∀ captured, matchPath ⟨pattern, .empty⟩ path = some captured →
        matchPath ⟨pattern, defaults⟩ path = some (captured.mergedOver defaults) ∧
        (captured.mergedOver defaults).names =
          defaults.names ++ pattern.placeholders.filter
            (fun name => !defaults.contains name && captured.contains name) ∧
        (∀ name, captured.contains name = true →
          (captured.mergedOver defaults).get? name = captured.get? name) ∧
        ∀ name, captured.contains name = false →
          (captured.mergedOver defaults).get? name = defaults.get? name := by
  have hmap := matchPath_eq_map h defaults path
  refine ⟨compile_of_pattern h defaults, compile_of_pattern h .empty, ?_, ?_⟩
  · rw [hmap, Option.isSome_map]
  · intro captured hc
    have hnames := names_of_matchPath h hc
    have hvalue := Parameters.get?_mergedOver_ite captured defaults
    refine ⟨?_, ?_, ?_, ?_⟩
    · rw [hmap, hc]
      rfl
    · rw [Parameters.names_mergedOver, hnames, List.filter_filter]
    · intro name hn
      rw [hvalue, if_pos hn]
    · intro name hn
      rw [hvalue, hn]
      rfl

/-- A default for a captured placeholder gives way in its place, the default of the placeholder in the
skipped group is kept, and the other captured placeholder goes to the end. -/
theorem matchPath_twoLevels_overlaid :
    Pattern.compile (twoLevels .empty).pattern.text = .ok (twoLevels .empty).pattern ∧
      (twoLevels .empty).matchPath "/a/1/3" = some (.ofList [("x", "1"), ("y", "3")]) ∧
      (twoLevels (.ofList [("y", "8"), ("lang", "de"), ("z", "9")])).matchPath "/a/1/3" =
        some (.ofList [("y", "3"), ("lang", "de"), ("z", "9"), ("x", "1")]) := by
  have hp := (compile_eq_ok (compile_twoLevels .empty)).1
  have hc : (twoLevels .empty).matchPath "/a/1/3" = some (.ofList [("x", "1"), ("y", "3")]) := rfl
  obtain ⟨-, -, -, hmatched⟩ :=
    matchPath_mergedOver hp (.ofList [("y", "8"), ("lang", "de"), ("z", "9")]) "/a/1/3"
  exact ⟨hp, hc, (hmatched _ hc).1⟩

end Route

end UrlRouting
