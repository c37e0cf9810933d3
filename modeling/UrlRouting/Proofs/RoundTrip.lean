import UrlRouting.Proofs.Rereading

/-! # Assembling and matching again

A segmented route in which only the last group of a sequence holds other groups gives back what it
was given: the match of an assembled path is the defaults with the written values laid over them.

* `Tree.nestedLast` is the condition on groups. Behind such a group no other group of its sequence
  follows, so behind an omission only text is written that the matcher needs for other items.
* `Tree.captures?_entered`: a group cannot be entered where all slashes of the text are needed by
  what follows the group, unless nothing is read in it.
* `Tree.readBack_of_nestedLast`: hence no omission changes the captures.
* `Route.matchPath_assemble`: the round trip. -/

namespace UrlRouting

namespace Tree

open SuffixTable

/-- A group stands directly in the sequence. -/
def hasGroup : Tree → Bool
  | done => false
  | literal _ next => next.hasGroup
  | placeholder _ next => next.hasGroup
  | group _ _ => true

/-- Every group that holds a group is the last group of its sequence. -/
def nestedLast : Tree → Bool
  | done => true
  | literal _ next => next.nestedLast
  | placeholder _ next => next.nestedLast
  | group content next =>
    !(content.hasGroup && next.hasGroup) && content.nestedLast && next.nestedLast

variable {values : Parameters} {outer : Tree} {after : List Char} {captures : Captures}

theorem renderFrom_of_not_hasGroup {tree : Tree} (h : tree.hasGroup = false) (dropping : Bool) :
    tree.renderFrom values dropping = tree.renderFrom values true := by
  induction tree with
  | done => rfl
  | literal text next ih => rw [renderFrom, renderFrom, ih h]
  | placeholder name next ih => rw [renderFrom, renderFrom, ih h]
  | group content next => cases h

/-- What is read by entering a group, in front of a text all of whose slashes the rest needs, is
read without the group as well. -/
theorem captures?_entered {content rest : Tree} {text : List Char} {found : Captures}
    (hs : Token.segmentedAfter (some .groupOpen) content.tokens = true)
    (hn : rest.Needs (text.count '/'))
    (h : (content.append rest).captures? text = some found) : rest.captures? text = some found := by
  rw [captures?_append] at h
  obtain ⟨⟨inner, tail⟩, hm, hr⟩ := List.exists_of_findSome?_eq_some h
  obtain ⟨later, hl, rfl⟩ := Option.map_eq_some_iff.mp hr
  obtain ⟨taken, choices, rfl, hd⟩ := mem_derivations_iff.mp hm
  rcases hd.nothing_or_slash (fun _ => Token.noConfusion) hs with ⟨rfl, rfl⟩ | hslash
  · exact hl
  · -- the group took a slash, so too few are left
    obtain ⟨_, hf⟩ := captures?_eq_some_iff.mp hl
    have hle := hn tail _ _ hf.derives
    have hpos := List.count_pos_iff.mpr hslash
    rw [List.count_append] at hle
    omega

/-- Reading a rendering back gives the written values, if the groups that hold groups are last and
`outer` needs the slashes behind the sequence. -/
theorem readBack_of_nestedLast {front : Option Token} {tree : Tree} (h : Legible values front tree)
    (hl : tree.nestedLast = true) (ha : AtSeparator '/' after)
    (ho : outer.captures? after = some captures)
    (hneed : tree.hasGroup = true → outer.Needs (after.count '/')) (dropping : Bool) :
    tree.readBack values dropping outer after captures =
      encodePairs (tree.writtenFrom values dropping) ++ captures := by
  induction tree generalizing front dropping outer after captures with
  | done => rfl
  | literal text next ih => exact ih h.after_literal hl ha ho hneed dropping
  | placeholder name next ih =>
      obtain ⟨value, hv, -⟩ := h.exists_value
      have hnext := ih h.after_placeholder hl ha ho hneed dropping
      rw [readBack_placeholder hv, hnext, writtenFrom, hv]
      rfl
  | group content next ihc ihn =>
      rw [nestedLast, Bool.and_eq_true, Bool.and_eq_true] at hl
      obtain ⟨⟨hlast, hlc⟩, hln⟩ := hl
      have hnext := ihn h.after_group hln ha ho fun _ => hneed rfl
      have hmatch := captures?_renderFrom h.after_group ha ho
      have hrest : (next.append outer).Needs
          (((next.renderFrom values true).toList ++ after).count '/') := (hneed rfl).append next
      by_cases hd : (dropping || !content.isFilled values) = true
      · rw [readBack_dropped hd, writtenFrom, if_pos hd, hnext true]
        cases he : (content.append (next.append outer)).captures?
          ((next.renderFrom values true).toList ++ after) with
        | none => rfl
        | some found =>
            have hsc := (Token.segmentedAfter_group h.segmented).1
            have hskip := captures?_entered hsc hrest he
            rw [hmatch true, hnext true] at hskip
            exact (Option.some.inj hskip).symm
      · have hend : AtSeparator '/' ((next.renderFrom values false).toList ++ after) :=
          h.after_group.atSeparator (fun _ => Token.noConfusion) ha false
        -- if the content holds groups, none follows, and all that is written behind it is needed
        have hinner : content.hasGroup = true → (next.append outer).Needs
            (((next.renderFrom values false).toList ++ after).count '/') := by
          intro hg
          rw [hg, Bool.true_and, Bool.not_eq_true'] at hlast
          rw [renderFrom_of_not_hasGroup hlast]
          exact hrest
        rw [readBack_kept hd, writtenFrom, if_neg hd, encodePairs_append, List.append_assoc,
          ← hnext false]
        exact ihc (h.inside_group hd) hlc hend (hmatch false) hinner false

theorem reread_of_nestedLast {tree : Tree} (h : Legible values none tree)
    (hl : tree.nestedLast = true) :
    ((tree.omissions values).findSome? Omission.reread?).getD (encodePairs (tree.written values)) =
      encodePairs (tree.written values) := by
  have hr : tree.readBack values false done [] [] =
      encodePairs (tree.writtenFrom values false) ++ [] :=
    readBack_of_nestedLast h hl (atSeparator_nil '/') rfl (fun _ => needs_done) false
  rw [readBack, List.append_nil] at hr
  exact hr

end Tree

namespace Route

/-- **The round trip.** A segmented route whose groups with groups are last matches every path that
it assembles from non-empty values for its placeholders. The match is the defaults with the written
values over them: a placeholder that was written has its value again, and no other one is
captured. -/
theorem matchPath_assemble {text : String} {defaults : Parameters} {route : Route}
    (h : compile text defaults = .ok route) (hs : Token.Segmented route.pattern.tokens)
    (hl : route.pattern.tree.nestedLast = true) {parameters : Parameters}
    (hn : ∀ entry ∈ parameters.entries, entry.1 ∈ route.pattern.placeholders)
    (hv : ∀ name ∈ route.pattern.placeholders, (parameters.mergedOver defaults).get? name ≠ some "")
    {path : String} (ha : route.assemble parameters = .ok path) :
    ∃ result, route.matchPath path = some result ∧
      result = defaults.setAll (route.pattern.tree.written (parameters.mergedOver defaults)) ∧
      ∀ name, result.get? name =
        if name ∈ (route.pattern.tree.written (parameters.mergedOver defaults)).map Prod.fst then
          (parameters.mergedOver defaults).get? name
        else defaults.get? name := by
  obtain ⟨hp, hd⟩ := compile_eq_ok h
  have hlegible := legible_of_assemble h hs hn hv ha
  have hc := captures?_assemble h hs hn hv ha
  rw [Tree.reread_of_nestedLast hlegible hl] at hc
  obtain ⟨choices, hf⟩ := Tree.captures?_eq_some_iff.mp hc
  have hnodup := Pattern.nodup_of_derives hp hf.derives
  rw [← map_fst_decodeCaptures, decodeCaptures_encodePairs] at hnodup
  have hm := matchPath_of_captures? hc
  rw [decodeCaptures_encodePairs, hd] at hm
  exact ⟨_, hm, rfl, Tree.get?_setAll_written defaults hnodup⟩

/-- The route of a pattern whose last group holds another. -/
def lastNested (defaults : Parameters) : Route where
  pattern :=
    { text := "/a[/\x7bx\x7d][/\x7by\x7d[/\x7bz\x7d]]"
      tokens :=
        [.literal "/a", .groupOpen, .literal "/", .placeholder "x", .groupClose, .groupOpen,
          .literal "/", .placeholder "y", .groupOpen, .literal "/", .placeholder "z", .groupClose,
          .groupClose]
      placeholders := ["x", "y", "z"]
      collected := by decide }
  defaults := defaults

theorem compile_lastNested (defaults : Parameters) :
    compile (lastNested defaults).pattern.text defaults = .ok (lastNested defaults) := by
  have hp : Pattern.compile (lastNested .empty).pattern.text = .ok (lastNested .empty).pattern := by
    with_unfolding_all rfl
  exact compile_of_pattern hp defaults

/-- The group of `y` is omitted and the default of `z` with it; the match gives back the value of `x`
and the defaults. -/
theorem matchPath_lastNested :
    compile (lastNested (.ofList [("z", "9")])).pattern.text (.ofList [("z", "9")]) =
        .ok (lastNested (.ofList [("z", "9")])) ∧
      Token.Segmented (lastNested (.ofList [("z", "9")])).pattern.tokens ∧
      (lastNested (.ofList [("z", "9")])).pattern.tree.nestedLast = true ∧
      (lastNested (.ofList [("z", "9")])).assemble (.ofList [("x", "1")]) = .ok "/a/1" ∧
      (lastNested (.ofList [("z", "9")])).matchPath "/a/1" =
        some (.ofList [("z", "9"), ("x", "1")]) := by
  have hs : Token.Segmented (lastNested (.ofList [("z", "9")])).pattern.tokens := by decide
  have hl : (lastNested (.ofList [("z", "9")])).pattern.tree.nestedLast = true := rfl
  have ha : (lastNested (.ofList [("z", "9")])).assemble (.ofList [("x", "1")]) = .ok "/a/1" := by
    with_unfolding_all rfl
  obtain ⟨result, hm, hr, -⟩ :=
    matchPath_assemble (compile_lastNested _) hs hl (by decide) (by decide) ha
  have hw : result = (.ofList [("z", "9"), ("x", "1")]) := by
    rw [hr]
    rfl
  exact ⟨compile_lastNested _, hs, hl, ha, hw ▸ hm⟩

end Route

end UrlRouting
