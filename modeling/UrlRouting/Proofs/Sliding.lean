import UrlRouting.Proofs.Rereading

/-! # Values that slide

A route without defaults assembles a path and matches it again. A group is only passed over after
an omission in the same sequence, so a value written in an outer sequence can be read inside an
inner group that was left out.

* `Route.keeps_values_iff`: every captured value is the caller's exactly if the first omission that
  rereads at all rereads the caller's values.
* `Route.slides_twoLevels`: in `/a[/{x}[/{y}]][/{z}]` the value of `z` slides to `y` if `y` is
  omitted. -/

namespace UrlRouting

namespace Route

/-- Without defaults, a match gives the decoded captures and nothing else. -/
theorem forall_get?_decodeCaptures {captures : Captures} (h : (captures.map Prod.fst).Nodup)
    (p : String → String → Prop) :
    (∀ name value, (Parameters.empty.setAll (decodeCaptures captures)).get? name = some value →
        p name value) ↔
      ∀ capture ∈ captures, p capture.1 (Segment.decode (String.ofList capture.2)) := by
  have hget : ∀ name, (Parameters.empty.setAll (decodeCaptures captures)).get? name =
      (captures.lookup name).map fun value => Segment.decode (String.ofList value) := by
    intro name
    rw [get?_setAll_decodeCaptures _ h]
    exact Option.or_none
  constructor
  · rintro hp ⟨name, value⟩ hm
    have hl : captures.lookup name = some value := (Parameters.lookup_iff_mem_of_nodup h).mpr hm
    apply hp name
    rw [hget, hl]
    rfl
  · intro hp name value hv
    rw [hget, Option.map_eq_some_iff] at hv
    obtain ⟨found, hl, rfl⟩ := hv
    have hm : (name, found) ∈ captures := Parameters.mem_of_lookup hl
    exact hp _ hm

/-- **When no value slides.** A segmented route without defaults matches every path that it
assembles from non-empty values. Each value of the match is the one given for the same placeholder
if and only if this holds of what the first omission rereads; in particular it holds if the text
behind no omitted group can be read by entering that group. -/
theorem keeps_values_iff {text : String} {route : Route}
    (h : compile text .empty = .ok route) (hs : Token.Segmented route.pattern.tokens)
    {parameters : Parameters}
    (hn : ∀ entry ∈ parameters.entries, entry.1 ∈ route.pattern.placeholders)
    (hv : ∀ entry ∈ parameters.entries, entry.2 ≠ "") {path : String}
    (ha : route.assemble parameters = .ok path) :
    ∃ result, route.matchPath path = some result ∧
      ((∀ name value, result.get? name = some value →
          (parameters.mergedOver .empty).get? name = some value) ↔
        ∀ captures,
          (route.pattern.tree.omissions (parameters.mergedOver .empty)).findSome?
              Omission.reread? = some captures →
            ∀ capture ∈ captures, (parameters.mergedOver .empty).get? capture.1 =
              some (Segment.decode (String.ofList capture.2))) := by
  have hne : ∀ name ∈ route.pattern.placeholders,
      (parameters.mergedOver .empty).get? name ≠ some "" := by
    intro name _ hget
    have hown : (parameters.mergedOver .empty).get? name = parameters.get? name :=
      (Parameters.get?_mergedOver parameters .empty name).trans Option.or_none
    rw [hown] at hget
    exact hv _ (Parameters.mem_of_lookup hget) rfl
  have hc := captures?_assemble h hs hn hne ha
  obtain ⟨choices, hf⟩ := Tree.captures?_eq_some_iff.mp hc
  have hnodup := Pattern.nodup_of_derives (compile_eq_ok h).1 hf.derives
  refine ⟨_, matchPath_of_captures? hc, ?_⟩
  rw [(compile_eq_ok h).2, forall_get?_decodeCaptures hnodup]
  cases (route.pattern.tree.omissions (parameters.mergedOver .empty)).findSome?
    Omission.reread? with
  | some found =>
      rw [Option.getD_some]
      constructor
      · rintro hk captures he
        cases he
        exact hk
      · exact fun hk => hk found rfl
  | none =>
      rw [Option.getD_none]
      constructor
      · intro _ captures he
        cases he
      · -- the match gives back what was written
        intro _ capture hm
        obtain ⟨⟨name, value⟩, hw, rfl⟩ := List.mem_map.mp hm
        rw [Tree.get?_of_mem_writtenFrom hw, String.ofList_toList, Segment.value_of_encode]

/-- The omitted group is the last one, where nothing is left to read, and no value slides. -/
theorem keeps_values_twoLevels :
    compile (twoLevels .empty).pattern.text .empty = .ok (twoLevels .empty) ∧
      Token.Segmented (twoLevels .empty).pattern.tokens ∧
      (twoLevels .empty).assemble (.ofList [("x", "1"), ("y", "2")]) = .ok "/a/1/2" ∧
      ∃ result, (twoLevels .empty).matchPath "/a/1/2" = some result ∧
        ∀ name value, result.get? name = some value →
          ((Parameters.ofList [("x", "1"), ("y", "2")]).mergedOver .empty).get? name = some value := by
  have hs : Token.Segmented (twoLevels .empty).pattern.tokens := by decide
  have ha : (twoLevels .empty).assemble (.ofList [("x", "1"), ("y", "2")]) = .ok "/a/1/2" := by
    with_unfolding_all rfl
  obtain ⟨result, hm, hk⟩ :=
    keeps_values_iff (compile_twoLevels .empty) hs (by decide) (by decide) ha
  refine ⟨compile_twoLevels .empty, hs, ha, result, hm, hk.mpr ?_⟩
  intro captures he
  have hnone : ((twoLevels .empty).pattern.tree.omissions
      ((Parameters.ofList [("x", "1"), ("y", "2")]).mergedOver .empty)).findSome?
        Omission.reread? = none := rfl
  rw [hnone] at he
  cases he

/-- The value given for `z` slides to `y`, for which no value is given. -/
theorem slides_twoLevels :
    compile (twoLevels .empty).pattern.text .empty = .ok (twoLevels .empty) ∧
      Token.Segmented (twoLevels .empty).pattern.tokens ∧
      (∀ entry ∈ [("x", "1"), ("z", "3")],
        entry.1 ∈ (twoLevels .empty).pattern.placeholders ∧ entry.2 ≠ "") ∧
      (twoLevels .empty).assemble (.ofList [("x", "1"), ("z", "3")]) = .ok "/a/1/3" ∧
      ∃ result, (twoLevels .empty).matchPath "/a/1/3" = some result ∧
        result.get? "y" = some "3" ∧
        (Parameters.ofList [("x", "1"), ("z", "3")]).get? "y" = none := by
  refine ⟨compile_twoLevels .empty, by decide, by decide, by with_unfolding_all rfl, ?_⟩
  exact ⟨(.ofList [("x", "1"), ("y", "3")]), rfl, rfl, rfl⟩

end Route

end UrlRouting
