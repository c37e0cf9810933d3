import UrlRouting.Proofs.Compiled
import UrlRouting.Proofs.Parameters
import UrlRouting.Proofs.Preference
import UrlRouting.Route.Basic

/-! # Matching a path

What a route answers for a path, in terms of derivations: it matches the paths that have one, and
its answer is the defaults with the decoded captures of the first one laid over them
(`Route.matchPath_iff_isFirst`). -/

namespace UrlRouting

namespace Tree

/-- A derivation captures the placeholders that it reaches, in the order of the pattern. -/
theorem Derives.names_sublist {tree : Tree} {text : List Char} {choices : List Choice}
    {captures : Captures} (h : tree.Derives text choices captures) :
    (captures.map Prod.fst).Sublist (Token.names tree.tokens) := by
  induction h with
  | done => exact List.Sublist.refl _
  | literal _ ih => exact ih
  | placeholder _ _ _ ih => exact ih.cons_cons _
  | take _ _ ihc ihn =>
      rw [List.map_append, Token.names_group]
      exact ihc.append ihn
  | skip _ ih =>
      rw [Token.names_group]
      exact ih.trans (List.sublist_append_right _ _)

end Tree

theorem Pattern.nodup_of_derives {text : String} {pattern : Pattern}
    (h : compile text = .ok pattern) {path : List Char} {choices : List Choice}
    {captures : Captures} (hd : pattern.tree.Derives path choices captures) :
    (captures.map Prod.fst).Nodup := by
  have hs := hd.names_sublist
  rw [names_tree h] at hs
  exact hs.nodup (compile_eq_ok h).2.2

namespace Route

theorem compile_eq_ok {text : String} {defaults : Parameters} {route : Route}
    (h : compile text defaults = .ok route) :
    Pattern.compile text = .ok route.pattern ∧ route.defaults = defaults := by
  unfold compile at h
  cases hp : Pattern.compile text with
  | error fault => rw [hp] at h; cases h
  | ok pattern =>
      rw [hp] at h
      cases h
      exact ⟨rfl, rfl⟩

theorem compile_of_pattern {text : String} {pattern : Pattern}
    (h : Pattern.compile text = .ok pattern)
    (defaults : Parameters) : compile text defaults = .ok ⟨pattern, defaults⟩ := by
  unfold compile
  rw [h]
  rfl

theorem map_fst_decodeCaptures (captures : Captures) :
    (decodeCaptures captures).map Prod.fst = captures.map Prod.fst := by
  rw [decodeCaptures, List.map_map]
  rfl

theorem lookup_decodeCaptures (captures : Captures) (name : String) :
    (decodeCaptures captures).lookup name =
      (captures.lookup name).map fun value => Segment.decode (String.ofList value) := by
  induction captures with
  | nil => rfl
  | cons capture rest ih =>
      obtain ⟨first, value⟩ := capture
      simp only [decodeCaptures, List.map_cons, List.lookup_cons] at ih ⊢
      split
      · rfl
      · exact ih

/-- The value of a name after a match: decoded if the derivation reaches the placeholder of that
name, and otherwise the default. -/
theorem get?_setAll_decodeCaptures (defaults : Parameters) {captures : Captures}
    (h : (captures.map Prod.fst).Nodup) (name : String) :
    (defaults.setAll (decodeCaptures captures)).get? name =
      ((captures.lookup name).map fun value => Segment.decode (String.ofList value)).or
        (defaults.get? name) := by
  rw [← map_fst_decodeCaptures] at h
  rw [Parameters.get?_setAll_of_nodup defaults h, lookup_decodeCaptures]

theorem matchPath_eq_none_iff (route : Route) (path : String) :
    route.matchPath path = none ↔
      ¬ ∃ choices captures, route.pattern.tree.Derives path.toList choices captures := by
  rw [matchPath, Option.map_eq_none_iff, Tree.captures?_eq_none_iff]

theorem matchPath_eq_some_iff (route : Route) (path : String) (result : Parameters) :
    route.matchPath path = some result ↔
      ∃ choices captures, route.pattern.tree.IsFirst path.toList choices captures ∧
        result = route.defaults.setAll (decodeCaptures captures) := by
  rw [matchPath, Option.map_eq_some_iff]
  constructor
  · rintro ⟨captures, hc, rfl⟩
    obtain ⟨choices, hf⟩ := Tree.captures?_eq_some_iff.mp hc
    exact ⟨choices, captures, hf, rfl⟩
  · rintro ⟨choices, captures, hf, rfl⟩
    exact ⟨captures, Tree.captures?_eq_some_iff.mpr ⟨choices, hf⟩, rfl⟩

/-- **Matching is the search for the first derivation.** A compiled route matches the paths that
its pattern derives. The answer belongs to the first derivation in the order of preference: the
defaults, and over them the decoded text of each placeholder that this derivation reaches. -/
theorem matchPath_iff_isFirst {text : String} {defaults : Parameters} {route : Route}
    (h : compile text defaults = .ok route) (path : String) :
    route.pattern.tree.tokens = route.pattern.tokens ∧
      ((route.matchPath path).isSome ↔
        ∃ choices captures, route.pattern.tree.Derives path.toList choices captures) ∧
      ∀ result, route.matchPath path = some result ↔
        ∃ choices captures, route.pattern.tree.IsFirst path.toList choices captures ∧
          result = defaults.setAll (decodeCaptures captures) ∧
          ∀ name, result.get? name =
            ((captures.lookup name).map fun value => Segment.decode (String.ofList value)).or
              (defaults.get? name) := by
  obtain ⟨hp, rfl⟩ := compile_eq_ok h
  refine ⟨Pattern.tokens_tree hp, ?_, ?_⟩
  · rw [Option.isSome_iff_ne_none, ne_eq, matchPath_eq_none_iff, Classical.not_not]
  · intro result
    rw [matchPath_eq_some_iff]
    constructor
    · rintro ⟨choices, captures, hf, rfl⟩
      have hnodup := Pattern.nodup_of_derives hp hf.derives
      exact ⟨choices, captures, hf, rfl, get?_setAll_decodeCaptures _ hnodup⟩
    · rintro ⟨choices, captures, hf, hr, -⟩
      exact ⟨choices, captures, hf, hr⟩

/-- The route of a pattern with a nested group before another group. -/
def twoLevels (defaults : Parameters) : Route where
  pattern :=
    { text := "/a[/\x7bx\x7d[/\x7by\x7d]][/\x7bz\x7d]"
      tokens :=
        [.literal "/a", .groupOpen, .literal "/", .placeholder "x", .groupOpen, .literal "/",
          .placeholder "y", .groupClose, .groupClose, .groupOpen, .literal "/", .placeholder "z",
          .groupClose]
      placeholders := ["x", "y", "z"]
      collected := by decide }
  defaults := defaults

theorem compile_twoLevels (defaults : Parameters) :
    compile (twoLevels defaults).pattern.text defaults = .ok (twoLevels defaults) := by
  have hp : Pattern.compile (twoLevels .empty).pattern.text = .ok (twoLevels .empty).pattern := by
    with_unfolding_all rfl
  exact compile_of_pattern hp defaults

/-- Of the two derivations of `/a/1/3` the first gives the second segment to the nested group; the
default of the skipped placeholder shows. -/
theorem matchPath_twoLevels :
    compile (twoLevels (.ofList [("z", "9")])).pattern.text (.ofList [("z", "9")]) =
        .ok (twoLevels (.ofList [("z", "9")])) ∧
      (twoLevels (.ofList [("z", "9")])).matchPath "/a/1/3" =
        some (.ofList [("z", "9"), ("x", "1"), ("y", "3")]) ∧
      ∃ choices captures,
        (twoLevels (.ofList [("z", "9")])).pattern.tree.IsFirst "/a/1/3".toList choices captures ∧
        (.ofList [("z", "9"), ("x", "1"), ("y", "3")]) =
          Parameters.setAll (.ofList [("z", "9")]) (decodeCaptures captures) := by
  have hm : (twoLevels (.ofList [("z", "9")])).matchPath "/a/1/3" =
      some (.ofList [("z", "9"), ("x", "1"), ("y", "3")]) := rfl
  obtain ⟨choices, captures, hf, hr, -⟩ :=
    ((matchPath_iff_isFirst (compile_twoLevels _) "/a/1/3").2.2 _).mp hm
  exact ⟨compile_twoLevels _, hm, choices, captures, hf, hr⟩

end Route

end UrlRouting
