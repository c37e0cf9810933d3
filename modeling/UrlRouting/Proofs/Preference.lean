import UrlRouting.Matching.Captures

/-! # Derivations and the order of preference

A derivation of a text reads it along a tree: it decides for every group it reaches whether to take
or to skip it, and for every placeholder it reaches which text that takes.

* `Tree.Derives` is the relation "these decisions derive this text, with these captures".
* `Preferred` compares decisions from left to right: a group is taken before it is skipped, a
  placeholder takes a longer text before a shorter one.
* `Tree.ways` lists the derivations of the starts of a text; it holds all of them
  (`Tree.mem_ways_iff`) and is sorted by preference (`Tree.pairwise_ways`).
* `Tree.captures?_eq_some_iff`: the matcher finds the captures of the first derivation of the whole
  text, and finds none only if no derivation exists (`Tree.captures?_eq_none_iff`). -/

namespace UrlRouting

/-- A decision of a derivation. -/
inductive Choice where
  /-- An optional group is taken. -/
  | take
  /-- An optional group is skipped. -/
  | skip
  /-- A placeholder takes this text. -/
  | value (text : List Char)
deriving DecidableEq, Repr

/-- The first decision is preferred to the second. -/
inductive Choice.Before : Choice → Choice → Prop
  | take_skip : Before .take .skip
  | longer {long short : List Char} (h : short.length < long.length) :
      Before (.value long) (.value short)

/-- The first list of decisions is preferred to the second where they first differ. -/
inductive Preferred : List Choice → List Choice → Prop
  | here {a b : Choice} {as bs : List Choice} (h : a.Before b) : Preferred (a :: as) (b :: bs)
  | there {a : Choice} {as bs : List Choice} (h : Preferred as bs) : Preferred (a :: as) (a :: bs)

theorem Choice.Before.asymm {a b : Choice} (h : a.Before b) : ¬ b.Before a := by
  cases h with
  | take_skip => intro h; cases h
  | longer h =>
      intro h'
      cases h' with
      | longer h' => omega

theorem Choice.Before.irrefl (a : Choice) : ¬ a.Before a := fun h => h.asymm h

namespace Preferred

theorem asymm {as bs : List Choice} (h : Preferred as bs) : ¬ Preferred bs as := by
  induction h with
  | here h =>
      intro h'
      cases h' with
      | here h' => exact h.asymm h'
      | there _ => exact Choice.Before.irrefl _ h
  | there h ih =>
      intro h'
      cases h' with
      | here h' => exact Choice.Before.irrefl _ h'
      | there h' => exact ih h'

theorem append_left {as bs : List Choice} (h : Preferred as bs) (front : List Choice) :
    Preferred (front ++ as) (front ++ bs) := by
  induction front with
  | nil => exact h
  | cons a front ih => exact .there ih

theorem append_right {as bs : List Choice} (h : Preferred as bs) (cs ds : List Choice) :
    Preferred (as ++ cs) (bs ++ ds) := by
  induction h with
  | here h => exact .here h
  | there _ ih => exact .there ih

end Preferred

namespace Tree

/-- These decisions derive the text, with these captures. -/
inductive Derives : Tree → List Char → List Choice → Captures → Prop
  | done : Derives done [] [] []
  | literal {word : String} {next : Tree} {text : List Char} {choices : List Choice}
      {captures : Captures} (h : Derives next text choices captures) :
      Derives (literal word next) (word.toList ++ text) choices captures
  | placeholder {name : String} {next : Tree} {value text : List Char} {choices : List Choice}
      {captures : Captures} (hne : value ≠ []) (hv : '/' ∉ value)
      (h : Derives next text choices captures) :
      Derives (placeholder name next) (value ++ text) (.value value :: choices)
        ((name, value) :: captures)
  | take {content next : Tree} {inner text : List Char} {before choices : List Choice}
      {taken captures : Captures} (hc : Derives content inner before taken)
      (hn : Derives next text choices captures) :
      Derives (group content next) (inner ++ text) (.take :: (before ++ choices))
        (taken ++ captures)
  | skip {content next : Tree} {text : List Char} {choices : List Choice} {captures : Captures}
      (hn : Derives next text choices captures) :
      Derives (group content next) text (.skip :: choices) captures

/-- A derivation of the text to which every other one is second. -/
structure IsFirst (tree : Tree) (text : List Char) (choices : List Choice) (captures : Captures) :
    Prop where
  derives : tree.Derives text choices captures
  first : ∀ {others : List Choice} {found : Captures}, tree.Derives text others found →
    (others = choices ∧ found = captures) ∨ Preferred choices others

/-! ### All derivations in order -/

/-- A derivation of a start of a text, and the rest of the text. -/
structure Way where
  choices : List Choice
  captures : Captures
  rest : List Char

namespace Way

/-- A placeholder before a way. -/
def afterValue (name : String) (value : List Char) (way : Way) : Way :=
  ⟨.value value :: way.choices, (name, value) :: way.captures, way.rest⟩

/-- A taken group before a way. -/
def afterTaken (inner way : Way) : Way :=
  ⟨.take :: (inner.choices ++ way.choices), inner.captures ++ way.captures, way.rest⟩

/-- A skipped group before a way. -/
def afterSkipped (way : Way) : Way := { way with choices := .skip :: way.choices }

/-- The decisions of the first way are preferred to those of the second. -/
def Before (a b : Way) : Prop := Preferred a.choices b.choices

end Way

/-- The derivations of the starts of a text, in order of preference. -/
def ways : Tree → List Char → List Way
  | done, text => [⟨[], [], text⟩]
  | literal word next, text =>
    match afterWord? word.toList text with
    | some rest => next.ways rest
    | none => []
  | placeholder name next, text =>
    (runs '/' text).flatMap fun (value, rest) => (next.ways rest).map (Way.afterValue name value)
  | group content next, text =>
    ((content.ways text).flatMap fun inner => (next.ways inner.rest).map inner.afterTaken) ++
    (next.ways text).map Way.afterSkipped

/-- The ways are the derivations that the matcher is specified by, with their decisions. -/
theorem map_ways (tree : Tree) (text : List Char) :
    (tree.ways text).map (fun way => (way.captures, way.rest)) = tree.derivations text := by
  induction tree generalizing text with
  | done => rfl
  | literal word next ih =>
      rw [ways, derivations]
      cases afterWord? word.toList text with
      | none => rfl
      | some rest => exact ih rest
  | placeholder name next ih =>
      rw [ways, derivations, List.map_flatMap]
      congr 1
      funext run
      dsimp only
      rw [← ih, List.map_map, List.map_map]
      rfl
  | group content next ihc ihn =>
      rw [ways, derivations, List.map_append, List.map_flatMap, ← ihc, List.flatMap_map, List.map_map]
      congr 1
      · congr 1
        funext inner
        dsimp only
        rw [← ihn, List.map_map, List.map_map]
        rfl
      · rw [← ihn]
        rfl

theorem afterWord?_eq_some_iff {word text rest : List Char} :
    afterWord? word text = some rest ↔ text = word ++ rest := by
  induction word generalizing text with
  | nil => simp [afterWord?]
  | cons w word ih =>
      cases text with
      | nil => simp [afterWord?]
      | cons c text =>
          rw [afterWord?, List.cons_append, List.cons.injEq]
          by_cases h : w = c
          · simp [h, ih]
          · simp [h, Ne.symm h]

theorem mem_runs_iff {separator : Char} {text value rest : List Char} :
    (value, rest) ∈ runs separator text ↔
      value ≠ [] ∧ separator ∉ value ∧ text = value ++ rest := by
  induction text generalizing value with
  | nil =>
      simp only [runs, List.not_mem_nil, false_iff]
      rintro ⟨hne, -, h⟩
      exact hne (List.append_eq_nil_iff.mp h.symm).1
  | cons c text ih =>
      rw [runs]
      split
      · next hc =>
          subst hc
          simp only [List.not_mem_nil, false_iff]
          rintro ⟨hne, hs, h⟩
          cases value with
          | nil => exact hne rfl
          | cons v value =>
              rw [List.cons_append, List.cons.injEq] at h
              exact hs (h.1 ▸ List.mem_cons_self)
      · next hc =>
          simp only [List.mem_append, List.mem_map, Prod.mk.injEq, Prod.exists, List.mem_singleton]
          constructor
          · rintro (⟨run, after, hm, rfl, rfl⟩ | ⟨rfl, rfl⟩)
            · obtain ⟨-, hs, rfl⟩ := ih.mp hm
              refine ⟨List.cons_ne_nil _ _, ?_, rfl⟩
              rw [List.mem_cons, not_or]
              exact ⟨fun h => hc h.symm, hs⟩
            · refine ⟨List.cons_ne_nil _ _, ?_, rfl⟩
              rw [List.mem_singleton]
              exact fun h => hc h.symm
          · rintro ⟨hne, hs, h⟩
            cases value with
            | nil => exact absurd rfl hne
            | cons v value =>
                rw [List.cons_append, List.cons.injEq] at h
                obtain ⟨rfl, rfl⟩ := h
                cases value with
                | nil => exact .inr ⟨rfl, rfl⟩
                | cons w value =>
                    refine .inl ⟨w :: value, rest, ?_, rfl, rfl⟩
                    exact ih.mpr ⟨List.cons_ne_nil _ _, fun h => hs (List.mem_cons_of_mem _ h), rfl⟩

theorem pairwise_runs (separator : Char) (text : List Char) :
    (runs separator text).Pairwise fun a b => b.1.length < a.1.length := by
  induction text with
  | nil => exact List.Pairwise.nil
  | cons c text ih =>
      rw [runs]
      split
      · exact List.Pairwise.nil
      · rw [List.pairwise_append]
        refine ⟨?_, List.pairwise_singleton _ _, ?_⟩
        · rw [List.pairwise_map]
          exact ih.imp fun h => Nat.succ_lt_succ h
        · rintro ⟨run, rest⟩ hr b hb
          rw [List.mem_singleton] at hb
          subst hb
          obtain ⟨⟨value, after⟩, hm, he⟩ := List.mem_map.mp hr
          cases he
          have hv := (mem_runs_iff.mp hm).1
          have := List.length_pos_iff.mpr hv
          simpa using this

theorem exists_derives_of_mem_ways {tree : Tree} {text : List Char} {way : Way}
    (h : way ∈ tree.ways text) :
    ∃ taken, text = taken ++ way.rest ∧ tree.Derives taken way.choices way.captures := by
  induction tree generalizing text way with
  | done =>
      rw [ways, List.mem_singleton] at h
      subst h
      exact ⟨[], rfl, .done⟩
  | literal word next ih =>
      rw [ways] at h
      split at h
      · next rest hr =>
        obtain ⟨taken, rfl, hd⟩ := ih h
        refine ⟨word.toList ++ taken, ?_, .literal hd⟩
        rw [afterWord?_eq_some_iff.mp hr, List.append_assoc]
      · cases h
  | placeholder name next ih =>
      rw [ways, List.mem_flatMap] at h
      obtain ⟨⟨value, rest⟩, hr, hm⟩ := h
      obtain ⟨later, hl, rfl⟩ := List.mem_map.mp hm
      obtain ⟨hne, hv, rfl⟩ := mem_runs_iff.mp hr
      obtain ⟨taken, rfl, hd⟩ := ih hl
      exact ⟨value ++ taken, (List.append_assoc _ _ _).symm, .placeholder hne hv hd⟩
  | group content next ihc ihn =>
      rw [ways, List.mem_append, List.mem_flatMap] at h
      rcases h with ⟨inner, hi, hm⟩ | hm
      · obtain ⟨later, hl, rfl⟩ := List.mem_map.mp hm
        obtain ⟨front, rfl, hc⟩ := ihc hi
        obtain ⟨tail, ht, hn⟩ := ihn hl
        refine ⟨front ++ tail, ?_, .take hc hn⟩
        rw [ht, List.append_assoc]
        rfl
      · obtain ⟨later, hl, rfl⟩ := List.mem_map.mp hm
        obtain ⟨taken, ht, hn⟩ := ihn hl
        exact ⟨taken, ht, .skip hn⟩

theorem Derives.mem_ways {tree : Tree} {taken : List Char} {choices : List Choice}
    {captures : Captures} (h : tree.Derives taken choices captures) (rest : List Char) :
    ⟨choices, captures, rest⟩ ∈ tree.ways (taken ++ rest) := by
  induction h generalizing rest with
  | done => exact List.mem_singleton_self _
  | literal _ ih =>
      rw [ways, List.append_assoc, afterWord?_eq_some_iff.mpr rfl]
      exact ih rest
  | @placeholder _ _ value tail _ _ hne hv _ ih =>
      have hr : (value, tail ++ rest) ∈ runs '/' (value ++ tail ++ rest) :=
        mem_runs_iff.mpr ⟨hne, hv, List.append_assoc _ _ _⟩
      rw [ways, List.mem_flatMap]
      exact ⟨_, hr, List.mem_map.mpr ⟨_, ih rest, rfl⟩⟩
  | @take _ _ front tail _ _ _ _ _ _ ihc ihn =>
      have hi := ihc (tail ++ rest)
      rw [← List.append_assoc] at hi
      rw [ways, List.mem_append, List.mem_flatMap]
      exact .inl ⟨_, hi, List.mem_map.mpr ⟨_, ihn rest, rfl⟩⟩
  | skip _ ih =>
      rw [ways, List.mem_append]
      exact .inr (List.mem_map.mpr ⟨_, ih rest, rfl⟩)

/-- Every derivation of a start of the text is listed, and nothing else. -/
theorem mem_ways_iff {tree : Tree} {text : List Char} {way : Way} :
    way ∈ tree.ways text ↔
      ∃ taken, text = taken ++ way.rest ∧ tree.Derives taken way.choices way.captures := by
  refine ⟨exists_derives_of_mem_ways, ?_⟩
  rintro ⟨taken, rfl, hd⟩
  exact hd.mem_ways way.rest

/-- The ways are sorted: each is preferred to every later one. -/
theorem pairwise_ways (tree : Tree) (text : List Char) :
    (tree.ways text).Pairwise Way.Before := by
  induction tree generalizing text with
  | done => exact List.pairwise_singleton _ _
  | literal word next ih =>
      rw [ways]
      split
      · next rest _ => exact ih rest
      · exact List.Pairwise.nil
  | placeholder name next ih =>
      rw [ways, List.pairwise_flatMap]
      constructor
      · intro run _
        rw [List.pairwise_map]
        exact (ih run.2).imp .there
      · -- ways of different runs differ in their first decision
        apply (pairwise_runs '/' text).imp
        intro long short hlt a ha b hb
        obtain ⟨_, -, rfl⟩ := List.mem_map.mp ha
        obtain ⟨_, -, rfl⟩ := List.mem_map.mp hb
        exact .here (.longer hlt)
  | group content next ihc ihn =>
      rw [ways, List.pairwise_append, List.pairwise_flatMap]
      refine ⟨⟨?_, ?_⟩, ?_, ?_⟩
      · intro inner _
        rw [List.pairwise_map]
        exact (ihn inner.rest).imp fun h => .there (h.append_left inner.choices)
      · apply (ihc text).imp
        intro inner other h a ha b hb
        obtain ⟨_, -, rfl⟩ := List.mem_map.mp ha
        obtain ⟨_, -, rfl⟩ := List.mem_map.mp hb
        exact .there (h.append_right _ _)
      · rw [List.pairwise_map]
        exact (ihn text).imp .there
      · intro a ha b hb
        obtain ⟨inner, -, hm⟩ := List.mem_flatMap.mp ha
        obtain ⟨_, -, rfl⟩ := List.mem_map.mp hm
        obtain ⟨_, -, rfl⟩ := List.mem_map.mp hb
        exact .here .take_skip

/-! ### The matcher finds the first derivation -/

theorem captures?_eq_find? (tree : Tree) (text : List Char) :
    tree.captures? text =
      ((tree.ways text).find? fun way => way.rest.isEmpty).map Way.captures := by
  rw [captures?_eq, ← map_ways, List.find?_map, Option.map_map]
  rfl

theorem isFirst_of_find? {tree : Tree} {text : List Char} {way : Way}
    (h : (tree.ways text).find? (fun way => way.rest.isEmpty) = some way) :
    tree.IsFirst text way.choices way.captures := by
  obtain ⟨hw, earlier, later, hl, he⟩ := List.find?_eq_some_iff_append.mp h
  have hsorted := pairwise_ways tree text
  rw [hl, List.pairwise_append, List.pairwise_cons] at hsorted
  have hrest : way.rest = [] := List.isEmpty_iff.mp hw
  constructor
  · have hm : way ∈ tree.ways text := by
      rw [hl]
      exact List.mem_append_right _ List.mem_cons_self
    obtain ⟨taken, ht, hd⟩ := mem_ways_iff.mp hm
    rw [hrest, List.append_nil] at ht
    rwa [ht]
  · intro others found hd
    have hm : (⟨others, found, []⟩ : Way) ∈ tree.ways text :=
      mem_ways_iff.mpr ⟨text, (List.append_nil text).symm, hd⟩
    rw [hl, List.mem_append, List.mem_cons] at hm
    rcases hm with hm | hm | hm
    · have := he _ hm
      simp at this
    · subst hm
      exact .inl ⟨rfl, rfl⟩
    · exact .inr (hsorted.2.1.1 _ hm)

theorem IsFirst.unique {tree : Tree} {text : List Char} {choices others : List Choice}
    {captures found : Captures} (h : tree.IsFirst text choices captures)
    (h' : tree.IsFirst text others found) : captures = found := by
  rcases h.first h'.derives with ⟨-, hf⟩ | hp
  · exact hf.symm
  · rcases h'.first h.derives with ⟨-, hf⟩ | hp'
    · exact hf
    · exact absurd hp' hp.asymm

theorem captures?_eq_none_iff {tree : Tree} {text : List Char} :
    tree.captures? text = none ↔
      ¬ ∃ choices captures, tree.Derives text choices captures := by
  rw [captures?_eq_find?, Option.map_eq_none_iff, List.find?_eq_none]
  constructor
  · rintro h ⟨choices, captures, hd⟩
    have hm : (⟨choices, captures, []⟩ : Way) ∈ tree.ways text :=
      mem_ways_iff.mpr ⟨text, (List.append_nil text).symm, hd⟩
    exact h _ hm rfl
  · intro h way hm hw
    obtain ⟨taken, ht, hd⟩ := mem_ways_iff.mp hm
    rw [List.isEmpty_iff.mp hw, List.append_nil] at ht
    exact h ⟨_, _, ht ▸ hd⟩

theorem captures?_eq_some_iff {tree : Tree} {text : List Char} {captures : Captures} :
    tree.captures? text = some captures ↔ ∃ choices, tree.IsFirst text choices captures := by
  constructor
  · intro h
    rw [captures?_eq_find?] at h
    obtain ⟨way, hw, rfl⟩ := Option.map_eq_some_iff.mp h
    exact ⟨_, isFirst_of_find? hw⟩
  · rintro ⟨choices, h⟩
    cases hc : tree.captures? text with
    | none => exact absurd ⟨_, _, h.derives⟩ (captures?_eq_none_iff.mp hc)
    | some found =>
        rw [captures?_eq_find?] at hc
        obtain ⟨way, hw, rfl⟩ := Option.map_eq_some_iff.mp hc
        rw [h.unique (isFirst_of_find? hw)]

end Tree

end UrlRouting
