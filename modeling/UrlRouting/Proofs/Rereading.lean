import UrlRouting.Proofs.Assembly
import UrlRouting.Proofs.Matching
import UrlRouting.Proofs.Segments

/-! # Reading a rendering back

What the matcher answers for the path that a segmented tree gives for some values. The matcher
reads along the path and comes to every omitted group with the text written behind it; if that text
can be read by entering the group, the matcher enters it.

* `Tree.Legible` is the condition: a segmented sequence without missing or empty values.
* `Tree.written` lists the placeholders whose values are in the path.
* `Tree.omissions` lists the omitted groups, each with what the matcher can read there
  (`Omission.reread?`).
* `Tree.captures?_render`: the matcher gives what the first omission rereads, or else the written
  values. `Route.captures?_assemble` is the same for the URLs of a route. -/

namespace UrlRouting

/-- A group that is left out of a path. -/
structure Omission where
  /-- The captures of what is written before the group. -/
  before : Captures
  /-- The sequence that begins with the content of the group, in place of the group. -/
  entered : Tree
  /-- The text written behind the group. -/
  after : List Char

namespace Omission

/-- What the whole path gives if the text behind the group is read by entering the group. -/
def reread? (omission : Omission) : Option Captures :=
  (omission.entered.captures? omission.after).map (omission.before ++ ·)

/-- The omission with captures of text further to the front. -/
def behind (captures : Captures) (omission : Omission) : Omission :=
  { omission with before := captures ++ omission.before }

theorem reread?_behind (captures : Captures) (omission : Omission) :
    (omission.behind captures).reread? = omission.reread?.map (captures ++ ·) := by
  simp only [reread?, behind, Option.map_map, Function.comp_def, List.append_assoc]

theorem findSome?_behind (captures : Captures) (omissions : List Omission) :
    (omissions.map (behind captures)).findSome? reread? =
      (omissions.findSome? reread?).map (captures ++ ·) := by
  rw [List.findSome?_map, Tree.map_findSome?]
  congr 1
  funext omission
  exact reread?_behind captures omission

end Omission

/-- Values as they stand in a path. -/
def encodePairs (pairs : List (String × String)) : Captures :=
  pairs.map fun (name, value) => (name, (Segment.encode value).toList)

theorem encodePairs_append (first second : List (String × String)) :
    encodePairs (first ++ second) = encodePairs first ++ encodePairs second := List.map_append

namespace Tree

open SuffixTable

/-- The placeholders that the rendering of a sequence writes, with their values; groups are dropped
if `dropping`. -/
def writtenFrom (values : Parameters) (dropping : Bool) : Tree → List (String × String)
  | done => []
  | literal _ next => next.writtenFrom values dropping
  | placeholder name next =>
    ((values.get? name).map fun value => (name, value)).toList ++ next.writtenFrom values dropping
  | group content next =>
    if dropping || !content.isFilled values then next.writtenFrom values true
    else content.writtenFrom values false ++ next.writtenFrom values false

/-- The placeholders whose values are in the path of a tree, with those values. -/
def written (values : Parameters) (tree : Tree) : List (String × String) :=
  tree.writtenFrom values false

/-- The groups that the rendering of a sequence leaves out, from left to right. Behind the sequence
stand the items of `outer`, and the text `after` is written. -/
def omissionsFrom (values : Parameters) (dropping : Bool) :
    Tree → Tree → List Char → List Omission
  | done, _, _ => []
  | literal _ next, outer, after => next.omissionsFrom values dropping outer after
  | placeholder name next, outer, after =>
    let value := ((values.get? name).map fun value => (name, value)).toList
    (next.omissionsFrom values dropping outer after).map (Omission.behind (encodePairs value))
  | group content next, outer, after =>
    if dropping || !content.isFilled values then
      ⟨[], content.append (next.append outer), (next.renderFrom values true).toList ++ after⟩ ::
        next.omissionsFrom values true outer after
    else
      content.omissionsFrom values false (next.append outer)
          ((next.renderFrom values false).toList ++ after) ++
        (next.omissionsFrom values false outer after).map
          (Omission.behind (encodePairs (content.writtenFrom values false)))

/-- The groups that the path of a tree leaves out, from left to right. -/
def omissions (values : Parameters) (tree : Tree) : List Omission :=
  tree.omissionsFrom values false done []

/-- The captures of a rendered sequence, given those of what follows: what the first omission
rereads, or else the written values. -/
def readBack (values : Parameters) (dropping : Bool) (tree outer : Tree) (after : List Char)
    (captures : Captures) : Captures :=
  ((tree.omissionsFrom values dropping outer after).findSome? Omission.reread?).getD
    (encodePairs (tree.writtenFrom values dropping) ++ captures)

variable {values : Parameters} {outer : Tree} {after : List Char} {captures : Captures}

theorem get?_of_mem_writtenFrom {tree : Tree} {dropping : Bool} {name value : String}
    (h : (name, value) ∈ tree.writtenFrom values dropping) : values.get? name = some value := by
  induction tree generalizing dropping with
  | done => cases h
  | literal text next ih => exact ih h
  | placeholder other next ih =>
      rw [writtenFrom, List.mem_append] at h
      rcases h with h | h
      · rw [Option.mem_toList, Option.map_eq_some_iff] at h
        obtain ⟨found, hf, he⟩ := h
        cases he
        exact hf
      · exact ih h
  | group content next ihc ihn =>
      rw [writtenFrom] at h
      split at h
      · exact ihn h
      · rcases List.mem_append.mp h with h | h
        · exact ihc h
        · exact ihn h

/-- Laying the written values over the defaults gives every written name its value and no other name
a new one. -/
theorem get?_setAll_written (defaults : Parameters) {tree : Tree}
    (h : ((tree.written values).map Prod.fst).Nodup) (name : String) :
    (defaults.setAll (tree.written values)).get? name =
      if name ∈ (tree.written values).map Prod.fst then values.get? name
      else defaults.get? name := by
  rw [Parameters.get?_setAll_of_nodup _ h]
  split
  · next hm =>
    obtain ⟨⟨other, value⟩, hw, rfl⟩ := List.mem_map.mp hm
    rw [(Parameters.lookup_iff_mem_of_nodup h).mpr hw, get?_of_mem_writtenFrom hw]
    rfl
  · next hm => rw [Parameters.lookup_eq_none_iff.mpr hm, Option.none_or]

/-! ### Legible sequences -/

/-- The sequence behind the token `front` is segmented, no placeholder directly in it lacks a value,
and no value of it is empty. -/
structure Legible (values : Parameters) (front : Option Token) (tree : Tree) : Prop where
  segmented : Token.segmentedAfter front tree.tokens = true
  filled : tree.isFilled values = true
  nonempty : ∀ name ∈ Token.names tree.tokens, values.get? name ≠ some ""

namespace Legible

variable {front : Option Token} {content next : Tree}

theorem after_literal {text : String} (h : Legible values front (literal text next)) :
    Legible values (some (.literal text)) next :=
  ⟨(Token.segmentedAfter_cons.mp h.segmented).2, h.filled, h.nonempty⟩

theorem exists_value {name : String} (h : Legible values front (placeholder name next)) :
    ∃ value, values.get? name = some value ∧ value ≠ "" := by
  have hf := h.filled
  rw [isFilled, Bool.and_eq_true, Parameters.contains_eq_isSome, Option.isSome_iff_exists] at hf
  obtain ⟨value, hv⟩ := hf.1
  refine ⟨value, hv, ?_⟩
  rintro rfl
  exact h.nonempty name List.mem_cons_self hv

theorem after_placeholder {name : String} (h : Legible values front (placeholder name next)) :
    Legible values (some (.placeholder name)) next := by
  have hf := h.filled
  rw [isFilled, Bool.and_eq_true] at hf
  have hne : ∀ other ∈ Token.names next.tokens, values.get? other ≠ some "" := by
    intro other hm
    exact h.nonempty other (List.mem_cons_of_mem _ hm)
  exact ⟨(Token.segmentedAfter_cons.mp h.segmented).2, hf.2, hne⟩

theorem after_group (h : Legible values front (group content next)) :
    Legible values (some .groupClose) next := by
  have hne : ∀ name ∈ Token.names next.tokens, values.get? name ≠ some "" := by
    intro name hm
    apply h.nonempty name
    rw [Token.names_group]
    exact List.mem_append_right _ hm
  exact ⟨(Token.segmentedAfter_group h.segmented).2, h.filled, hne⟩

theorem inside_group {dropping : Bool} (h : Legible values front (group content next))
    (hd : ¬ (dropping || !content.isFilled values) = true) :
    Legible values (some .groupOpen) content := by
  have hf : content.isFilled values = true := by
    rw [Bool.or_eq_true, not_or] at hd
    simpa using hd.2
  have hne : ∀ name ∈ Token.names content.tokens, values.get? name ≠ some "" := by
    intro name hm
    apply h.nonempty name
    rw [Token.names_group]
    exact List.mem_append_left _ hm
  exact ⟨(Token.segmentedAfter_group h.segmented).1, hf, hne⟩

theorem atSeparator {token : Token} {tree : Tree} (h : Legible values (some token) tree)
    (hl : ∀ text, token ≠ .literal text) (ha : AtSeparator '/' after) (dropping : Bool) :
    AtSeparator '/' ((tree.renderFrom values dropping).toList ++ after) :=
  atSeparator_renderFrom hl h.segmented ha dropping

end Legible

/-! ### Reading back item by item -/

theorem readBack_placeholder {name value : String} (hv : values.get? name = some value)
    (next : Tree) (dropping : Bool) :
    (placeholder name next).readBack values dropping outer after captures =
      (name, (Segment.encode value).toList) ::
        next.readBack values dropping outer after captures := by
  simp only [readBack, omissionsFrom, writtenFrom, hv, Omission.findSome?_behind,
    encodePairs_append, List.append_assoc, Option.getD_map]
  rfl

theorem readBack_dropped {content next : Tree} {dropping : Bool}
    (hd : (dropping || !content.isFilled values) = true) :
    (group content next).readBack values dropping outer after captures =
      ((content.append (next.append outer)).captures?
          ((next.renderFrom values true).toList ++ after)).getD
        (next.readBack values true outer after captures) := by
  have hfirst : (⟨[], content.append (next.append outer),
      (next.renderFrom values true).toList ++ after⟩ : Omission).reread? =
        (content.append (next.append outer)).captures?
          ((next.renderFrom values true).toList ++ after) := Option.map_id'
  rw [readBack, omissionsFrom, writtenFrom, if_pos hd, if_pos hd, List.findSome?_cons, hfirst]
  cases (content.append (next.append outer)).captures?
    ((next.renderFrom values true).toList ++ after) <;> rfl

theorem readBack_kept {content next : Tree} {dropping : Bool}
    (hd : ¬ (dropping || !content.isFilled values) = true) :
    (group content next).readBack values dropping outer after captures =
      content.readBack values false (next.append outer)
        ((next.renderFrom values false).toList ++ after)
        (next.readBack values false outer after captures) := by
  simp only [readBack, omissionsFrom, writtenFrom, if_neg hd, List.findSome?_append,
    Omission.findSome?_behind, encodePairs_append, List.append_assoc]
  cases (content.omissionsFrom values false (next.append outer)
      ((next.renderFrom values false).toList ++ after)).findSome? Omission.reread? with
  | some found => rfl
  | none => exact Option.getD_map _ _ _

/-! ### The matcher on a rendering -/

/-- **The matcher reads a rendering back.** The text of a legible sequence, and after it a text that
`outer` matches, is matched with these captures. -/
theorem captures?_renderFrom {front : Option Token} {tree : Tree} (h : Legible values front tree)
    (ha : AtSeparator '/' after) (ho : outer.captures? after = some captures) (dropping : Bool) :
    (tree.append outer).captures? ((tree.renderFrom values dropping).toList ++ after) =
      some (tree.readBack values dropping outer after captures) := by
  induction tree generalizing front dropping outer after captures with
  | done => exact ho
  | literal text next ih =>
      rw [append, renderFrom, String.toList_append, List.append_assoc, captures?_literal_append]
      exact ih h.after_literal ha ho dropping
  | placeholder name next ih =>
      obtain ⟨value, hv, hne⟩ := h.exists_value
      have hnext := ih h.after_placeholder ha ho dropping
      -- the value ends where its segment ends, since no placeholder or text follows it directly
      have hend : AtSeparator '/' ((next.renderFrom values dropping).toList ++ after) :=
        h.after_placeholder.atSeparator (fun _ => Token.noConfusion) ha dropping
      rw [append, renderFrom, hv, String.toList_append, List.append_assoc, readBack_placeholder hv]
      rw [ne_eq, ← Segment.encode_eq_empty_iff] at hne
      exact captures?_placeholder_append hne (Segment.slash_notMem_encode value) hend hnext
  | group content next ihc ihn =>
      have hnext := ihn h.after_group ha ho
      rw [append, captures?_group, renderFrom]
      split
      · next hd =>
        rw [hnext true, readBack_dropped hd]
        cases (content.append (next.append outer)).captures?
          ((next.renderFrom values true).toList ++ after) <;> rfl
      · next hd =>
        have hend : AtSeparator '/' ((next.renderFrom values false).toList ++ after) :=
          h.after_group.atSeparator (fun _ => Token.noConfusion) ha false
        have hcontent := ihc (h.inside_group hd) hend (hnext false) false
        rw [readBack_kept hd, String.toList_append, List.append_assoc, hcontent]
        rfl

/-- The matcher on the path of a tree: what the first omission rereads, or else the written
values. -/
theorem captures?_render {tree : Tree} (h : Legible values none tree) :
    tree.captures? (tree.render values).toList =
      some (((tree.omissions values).findSome? Omission.reread?).getD
        (encodePairs (tree.written values))) := by
  have hc : (tree.append done).captures? ((tree.renderFrom values false).toList ++ []) =
      some (tree.readBack values false done [] []) :=
    captures?_renderFrom h (atSeparator_nil '/') rfl false
  rw [append_done, List.append_nil, readBack, List.append_nil] at hc
  exact hc

end Tree

/-! ### Routes -/

namespace Route

theorem decodeCaptures_encodePairs (pairs : List (String × String)) :
    decodeCaptures (encodePairs pairs) = pairs := by
  rw [decodeCaptures, encodePairs, List.map_map]
  refine List.map_id'' ?_ pairs
  rintro ⟨name, value⟩
  simp only [Function.comp_def, String.ofList_toList, Segment.value_of_encode]

theorem matchPath_of_captures? {route : Route} {path : String} {captures : Captures}
    (h : route.pattern.tree.captures? path.toList = some captures) :
    route.matchPath path = some (route.defaults.setAll (decodeCaptures captures)) := by
  rw [matchPath, h]
  rfl

variable {text : String} {defaults : Parameters} {route : Route} {parameters : Parameters}
  {path : String}

/-- If every name belongs to a placeholder, the URL has no query: it is the rendering of the tree,
provided that no placeholder outside the groups lacks a value. -/
theorem assemble_eq_ok_iff (h : compile text defaults = .ok route)
    (hn : ∀ entry ∈ parameters.entries, entry.1 ∈ route.pattern.placeholders) :
    route.assemble parameters = .ok path ↔
      route.pattern.tree.isFilled (parameters.mergedOver defaults) = true ∧
        path = route.pattern.tree.render (parameters.mergedOver defaults) := by
  obtain ⟨hp, rfl⟩ := compile_eq_ok h
  have hquery : route.queryPairs parameters = [] := by
    rw [queryPairs, List.filter_eq_nil_iff]
    intro entry he
    rw [List.contains_iff_mem.mpr (hn entry he)]
    exact Bool.false_ne_true
  have hw := Walk.path_tokens route.pattern.tree (parameters.mergedOver route.defaults)
  rw [assemble, hquery, ← Pattern.tokens_tree hp, hw, ← Tree.firstMissing?_eq_none_iff]
  cases route.pattern.tree.firstMissing? (parameters.mergedOver route.defaults) with
  | some name =>
      refine iff_of_false (fun ha => ?_) fun hm => ?_
      · cases ha
      · cases hm.1
  | none =>
      refine ⟨fun ha => ?_, fun ⟨_, hr⟩ => ?_⟩
      · cases ha
        exact ⟨rfl, rfl⟩
      · rw [hr]
        rfl

variable (h : compile text defaults = .ok route) (hs : Token.Segmented route.pattern.tokens)
  (hn : ∀ entry ∈ parameters.entries, entry.1 ∈ route.pattern.placeholders)
  (hv : ∀ name ∈ route.pattern.placeholders, (parameters.mergedOver defaults).get? name ≠ some "")
  (ha : route.assemble parameters = .ok path)

include h hs hn hv ha

theorem legible_of_assemble :
    Tree.Legible (parameters.mergedOver defaults) none route.pattern.tree := by
  have hp := (compile_eq_ok h).1
  have hf := ((assemble_eq_ok_iff h hn).mp ha).1
  refine ⟨?_, hf, ?_⟩
  · rw [Pattern.tokens_tree hp]
    exact Token.segmented_iff.mp hs
  · rw [Pattern.names_tree hp]
    exact hv

/-- What the matcher finds in a path that a segmented route assembled: what the first omission
rereads, or else the written values. -/
theorem captures?_assemble :
    route.pattern.tree.captures? path.toList =
      some (((route.pattern.tree.omissions (parameters.mergedOver defaults)).findSome?
        Omission.reread?).getD
          (encodePairs (route.pattern.tree.written (parameters.mergedOver defaults)))) := by
  have hl := legible_of_assemble h hs hn hv ha
  rw [((assemble_eq_ok_iff h hn).mp ha).2]
  exact Tree.captures?_render hl

end Route

end UrlRouting
