import UrlRouting.Proofs.Assembly
import UrlRouting.Proofs.Matching
import UrlRouting.Proofs.Queries

/-! # Assembled URLs

What a URL consists of, and how its parts are found again.

* `Route.assemble_eq_ok_iff_path`: a URL is the path for the merged values, and after a question mark
  the query of the caller's pairs that are no placeholders, if there are any.
* `Tree.notMem_renderFrom`: a character that neither literals nor segments hold is not in a path.
* `Route.split_assemble`: hence the first question mark of a URL ends its path, and behind it stand
  the caller's pairs. -/

namespace UrlRouting

namespace Tree

theorem notMem_renderFrom {c : Char} (hs : ∀ value, c ∉ (Segment.encode value).toList) {tree : Tree}
    (hl : ∀ word, .literal word ∈ tree.tokens → c ∉ word.toList) (values : Parameters)
    (dropping : Bool) : c ∉ (tree.renderFrom values dropping).toList := by
  induction tree generalizing dropping with
  | done => exact List.not_mem_nil
  | literal word next ih =>
      rw [renderFrom, String.toList_append, List.mem_append, not_or]
      exact ⟨hl word List.mem_cons_self, ih (fun other hm => hl other (List.mem_cons_of_mem _ hm)) _⟩
  | placeholder name next ih =>
      rw [renderFrom, String.toList_append, List.mem_append, not_or]
      refine ⟨?_, ih (fun other hm => hl other (List.mem_cons_of_mem _ hm)) _⟩
      cases values.get? name with
      | none => exact List.not_mem_nil
      | some value => exact hs value
  | group content next ihc ihn =>
      have hnext := ihn fun word hm =>
        hl word (List.mem_cons_of_mem _ (List.mem_append_right _ (List.mem_cons_of_mem _ hm)))
      rw [renderFrom]
      split
      · exact hnext true
      · rw [String.toList_append, List.mem_append, not_or]
        refine ⟨ihc (fun word hm => ?_) false, hnext false⟩
        exact hl word (List.mem_cons_of_mem _ (List.mem_append_left _ hm))

end Tree

namespace Route

variable {text : String} {defaults : Parameters} {route : Route} {parameters : Parameters}
  {url : String}

theorem queryPairs_eq_filter (route : Route) (parameters : Parameters) :
    route.queryPairs parameters =
      parameters.entries.filter fun entry => entry.1 ∉ route.pattern.placeholders := by
  rw [queryPairs]
  congr 1
  funext entry
  rw [decide_not, List.contains_eq_mem]

theorem queryPairs_eq_nil_iff :
    route.queryPairs parameters = [] ↔
      ¬ ∃ entry ∈ parameters.entries, entry.1 ∉ route.pattern.placeholders := by
  simp [queryPairs_eq_filter, List.filter_eq_nil_iff]

/-- A URL is the path for the merged values, with the query behind a question mark if a pair of the
caller is no placeholder's. -/
theorem assemble_eq_ok_iff_path :
    route.assemble parameters = .ok url ↔
      ∃ path, Walk.path route.pattern.tokens (parameters.mergedOver route.defaults) = .ok path ∧
        url = if route.queryPairs parameters = [] then path
          else path ++ "?" ++ Query.encode (route.queryPairs parameters) := by
  rw [assemble]
  simp only [String.isEmpty_iff, Query.encode_eq_empty_iff]
  cases Walk.path route.pattern.tokens (parameters.mergedOver route.defaults) with
  | error fault => exact iff_of_false (fun h => nomatch h) fun ⟨_, h, _⟩ => nomatch h
  | ok path =>
      constructor
      · intro h
        cases h
        exact ⟨path, rfl, rfl⟩
      · rintro ⟨_, h, rfl⟩
        cases h
        rfl

theorem question_notMem_path (h : compile text defaults = .ok route)
    (hq : ∀ word, .literal word ∈ route.pattern.tokens → '?' ∉ word.toList) {values : Parameters}
    {path : String} (hp : Walk.path route.pattern.tokens values = .ok path) : '?' ∉ path.toList := by
  rw [← Pattern.tokens_tree (compile_eq_ok h).1] at hq hp
  rw [Walk.path_tokens] at hp
  split at hp
  · cases hp
    have hsegment := fun value => Segment.delimiterSafe_encode.notMem value '?' (by decide)
    exact Tree.notMem_renderFrom hsegment hq values false
  · cases hp

/-- **A URL splits into its path and its query.** If no literal holds a question mark, the first one
of an assembled URL ends the path for the merged values. There is one if and only if the caller gave
a name that is no placeholder's, and what follows it is read as the caller's pairs with such names,
in their order. -/
theorem split_assemble (h : compile text defaults = .ok route)
    (hq : ∀ word, .literal word ∈ route.pattern.tokens → '?' ∉ word.toList)
    (ha : route.assemble parameters = .ok url) :
    ∃ path query, Query.splitAtFirst '?' url.toList = (String.toList path, query) ∧
      Walk.path route.pattern.tokens (parameters.mergedOver defaults) = .ok path ∧
      ('?' ∈ url.toList ↔
        ∃ entry ∈ parameters.entries, entry.1 ∉ route.pattern.placeholders) ∧
      Query.decode (String.ofList (query.getD [])) =
        parameters.entries.filter fun entry => entry.1 ∉ route.pattern.placeholders := by
  obtain ⟨path, hp, hurl⟩ := assemble_eq_ok_iff_path.mp ha
  have hfree := question_notMem_path h hq hp
  rw [(compile_eq_ok h).2] at hp
  rw [← queryPairs_eq_filter]
  split at hurl
  · next hnone =>
    subst hurl
    refine ⟨url, none, Query.splitAtFirst_of_notMem hfree, hp, ?_, hnone.symm⟩
    exact iff_of_false hfree (queryPairs_eq_nil_iff.mp hnone)
  · next hsome =>
    have htext : url.toList =
        path.toList ++ '?' :: (Query.encode (route.queryPairs parameters)).toList := by
      rw [hurl, String.toList_append, String.toList_append, List.append_assoc]
      rfl
    rw [htext]
    refine ⟨path, _, Query.splitAtFirst_append hfree _, hp, ?_, ?_⟩
    · refine iff_of_true (List.mem_append_right _ List.mem_cons_self) ?_
      rwa [queryPairs_eq_nil_iff, Classical.not_not] at hsome
    · rw [Option.getD_some, String.ofList_toList, Query.decode_encode]

/-- The value of `z` goes neither into the path, since its group is passed over, nor into the query;
the default goes nowhere. -/
theorem split_twoLevels :
    compile (twoLevels (.ofList [("lang", "de")])).pattern.text (.ofList [("lang", "de")]) =
        .ok (twoLevels (.ofList [("lang", "de")])) ∧
      (twoLevels (.ofList [("lang", "de")])).assemble
          (.ofList [("q&a", "?= é"), ("z", "3"), ("", "")]) = .ok "/a?q%26a=%3F%3D+%C3%A9&=" ∧
      ∃ query, Query.splitAtFirst '?' "/a?q%26a=%3F%3D+%C3%A9&=".toList = ("/a".toList, query) ∧
        Query.decode (String.ofList (query.getD [])) = [("q&a", "?= é"), ("", "")] := by
  have ha : (twoLevels (.ofList [("lang", "de")])).assemble
      (.ofList [("q&a", "?= é"), ("z", "3"), ("", "")]) = .ok "/a?q%26a=%3F%3D+%C3%A9&=" := by
    with_unfolding_all rfl
  have hq : ∀ word, .literal word ∈ (twoLevels (.ofList [("lang", "de")])).pattern.tokens →
      '?' ∉ word.toList := by
    intro word hm
    have hall : ∀ token ∈ (twoLevels (.ofList [("lang", "de")])).pattern.tokens,
        '?' ∉ token.write.toList := by decide
    exact hall _ hm
  obtain ⟨path, query, hs, hp, -, hd⟩ :=
    split_assemble (compile_twoLevels (.ofList [("lang", "de")])) hq ha
  have hpath : Walk.path (twoLevels (.ofList [("lang", "de")])).pattern.tokens
      ((Parameters.ofList [("q&a", "?= é"), ("z", "3"), ("", "")]).mergedOver
        (.ofList [("lang", "de")])) = .ok "/a" := by
    with_unfolding_all rfl
  cases hpath.symm.trans hp
  exact ⟨compile_twoLevels _, ha, query, hs, hd⟩

end Route

end UrlRouting
