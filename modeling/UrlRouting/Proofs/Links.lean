import UrlRouting.Proofs.RoundTrip
import UrlRouting.Proofs.Runs

/-! # Links are answered

A path that a route assembles from non-empty values is matched by that route, whatever the shape of
its pattern.

* `Tree.derives_renderFrom`: the text of a tree has a derivation. It takes the groups that were
  written, skips those that were dropped, and gives each placeholder its written value.
* `Route.derives_assemble`: hence an assembled path has a derivation that captures the written
  values.
* `Router.matchRoute_assemble`: a router answers its own links, with the route that assembled the
  path or one registered earlier. -/

namespace UrlRouting

namespace Tree

variable {values : Parameters}

/-- The text of a sequence without missing or empty values has a derivation, and it captures the
written values. -/
theorem derives_renderFrom {tree : Tree} (hf : tree.isFilled values = true)
    (hne : ∀ name ∈ Token.names tree.tokens, values.get? name ≠ some "") (dropping : Bool) :
    ∃ choices, tree.Derives (tree.renderFrom values dropping).toList choices
      (encodePairs (tree.writtenFrom values dropping)) := by
  induction tree generalizing dropping with
  | done => exact ⟨[], .done⟩
  | literal text next ih =>
      obtain ⟨choices, hd⟩ := ih hf hne dropping
      refine ⟨choices, ?_⟩
      rw [renderFrom, String.toList_append]
      exact .literal hd
  | placeholder name next ih =>
      rw [isFilled, Bool.and_eq_true, Parameters.contains_eq_isSome, Option.isSome_iff_exists] at hf
      obtain ⟨⟨value, hv⟩, hf⟩ := hf
      have hvalue : (Segment.encode value).toList ≠ [] := by
        rw [ne_eq, Segment.encode_eq_empty_iff]
        rintro rfl
        exact hne name List.mem_cons_self hv
      obtain ⟨choices, hd⟩ := ih hf (fun other hm => hne other (List.mem_cons_of_mem _ hm)) dropping
      refine ⟨.value (Segment.encode value).toList :: choices, ?_⟩
      rw [renderFrom, writtenFrom, hv, String.toList_append]
      exact .placeholder hvalue (Segment.slash_notMem_encode value) hd
  | group content next ihc ihn =>
      rw [Token.names_group] at hne
      have hnext := ihn hf fun name hm => hne name (List.mem_append_right _ hm)
      rw [renderFrom, writtenFrom]
      split
      · obtain ⟨choices, hd⟩ := hnext true
        exact ⟨_, .skip hd⟩
      · next hk =>
        rw [Bool.or_eq_true, not_or, Bool.not_eq_true', Bool.not_eq_false] at hk
        obtain ⟨before, hc⟩ := ihc hk.2 (fun name hm => hne name (List.mem_append_left _ hm)) false
        obtain ⟨choices, hd⟩ := hnext false
        rw [String.toList_append, encodePairs_append]
        exact ⟨_, .take hc hd⟩

end Tree

namespace Route

variable {text : String} {defaults : Parameters} {route : Route} {parameters : Parameters}
  {path : String}

theorem derives_assemble (h : compile text defaults = .ok route)
    (hn : ∀ entry ∈ parameters.entries, entry.1 ∈ route.pattern.placeholders)
    (hv : ∀ name ∈ route.pattern.placeholders, (parameters.mergedOver defaults).get? name ≠ some "")
    (ha : route.assemble parameters = .ok path) :
    ∃ choices, route.pattern.tree.Derives path.toList choices
      (encodePairs (route.pattern.tree.written (parameters.mergedOver defaults))) := by
  obtain ⟨hf, rfl⟩ := (assemble_eq_ok_iff h hn).mp ha
  refine Tree.derives_renderFrom hf ?_ false
  rw [Pattern.names_tree (compile_eq_ok h).1]
  exact hv

end Route

namespace Router

/-- **Links are answered.** A route matches every path that it assembles from non-empty values for
its placeholders. If the route is registered under some name, then the router assembles the same
path for that name and matches it, with the route itself or one that was registered earlier. -/
theorem matchRoute_assemble {text : String} {defaults : Parameters} {route : Route}
    (h : Route.compile text defaults = .ok route) {parameters : Parameters}
    (hn : ∀ entry ∈ parameters.entries, entry.1 ∈ route.pattern.placeholders)
    (hv : ∀ name ∈ route.pattern.placeholders, (parameters.mergedOver defaults).get? name ≠ some "")
    {path : String} (ha : route.assemble parameters = .ok path) :
    (route.matchPath path).isSome ∧
      ∀ (entries : List (String × Route)) (name : String),
        (empty.registerAll entries).route? name = some route →
          (empty.registerAll entries).assemble name parameters = .ok path ∧
          ∃ found other, (empty.registerAll entries).matchRoute path = some found ∧
            (empty.registerAll entries).route? found.name = some other ∧
            other.matchPath path = some found.parameters ∧
            (empty.registerAll entries).names.idxOf found.name ≤
              (empty.registerAll entries).names.idxOf name := by
  have hm : (route.matchPath path).isSome := by
    rw [Option.isSome_iff_ne_none, ne_eq, Route.matchPath_eq_none_iff, Classical.not_not]
    obtain ⟨choices, hd⟩ := Route.derives_assemble h hn hv ha
    exact ⟨choices, _, hd⟩
  refine ⟨hm, ?_⟩
  intro entries name hr
  have hindexed := indexed_empty.registerAll entries
  have hposition := hindexed.route?_eq_some hr
  obtain ⟨found, earlier, other, hf, hle, he, hp⟩ := exists_matchRoute hposition hm
  refine ⟨?_, found, other, hf, hindexed.route?_of_getElem? he, hp, ?_⟩
  · rw [assemble, hr]
    exact ha
  · rw [hindexed.idxOf_names he]
    exact hle

/-- Registrations of two routes that match the same paths. -/
def overlapping : List (String × Route) :=
  [("nested", Route.lastNested .empty), ("levels", Route.twoLevels .empty)]

/-- A link of the second route is answered by the first one. -/
theorem matchRoute_overlapping :
    Route.compile (Route.twoLevels .empty).pattern.text .empty = .ok (Route.twoLevels .empty) ∧
      (empty.registerAll overlapping).route? "levels" = some (Route.twoLevels .empty) ∧
      (empty.registerAll overlapping).assemble "levels" (.ofList [("x", "1"), ("z", "3")]) =
        .ok "/a/1/3" ∧
      ∃ found other, (empty.registerAll overlapping).matchRoute "/a/1/3" = some found ∧
        found.name = "nested" ∧
        (empty.registerAll overlapping).route? found.name = some other ∧
        other.matchPath "/a/1/3" = some found.parameters ∧
        (empty.registerAll overlapping).names.idxOf found.name ≤
          (empty.registerAll overlapping).names.idxOf "levels" := by
  have hr : (empty.registerAll overlapping).route? "levels" = some (Route.twoLevels .empty) := by
    rw [route?_registerAll_empty]
    rfl
  have ha : (Route.twoLevels .empty).assemble (.ofList [("x", "1"), ("z", "3")]) =
      .ok "/a/1/3" := by
    with_unfolding_all rfl
  have hm : (empty.registerAll overlapping).matchRoute "/a/1/3" =
      some ⟨"nested", .ofList [("x", "1"), ("y", "3")]⟩ := by
    rw [matchRoute_eq_findSome?, toList_routes_registerAll_empty]
    with_unfolding_all rfl
  obtain ⟨-, hlinks⟩ :=
    matchRoute_assemble (Route.compile_twoLevels .empty) (by decide) (by decide) ha
  obtain ⟨hassemble, found, other, hf, hother, hp, hle⟩ := hlinks overlapping "levels" hr
  rw [hm, Option.some.injEq] at hf
  subst hf
  exact ⟨Route.compile_twoLevels .empty, hr, hassemble, _, other, hm, rfl, hother, hp, hle⟩

end Router

end UrlRouting
