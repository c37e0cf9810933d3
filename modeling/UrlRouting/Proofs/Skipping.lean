import UrlRouting.Json.Skip
import UrlRouting.Proofs.Readers

/-! # Values that are passed over

`Json.WellFormed` says which texts are JSON values: numbers of any size, halves of code unit pairs
and any depth of nesting are among them.

* `Json.skipFrom_parts`: the items of an open container are passed over one after the other.
* `Json.WellFormed.skips`: whatever containers are open, the text of a value is passed over.
* `Json.WellFormed.skipValue`: so it is where no container is open. -/

namespace UrlRouting.Json

/-! ### Texts of values -/

/-- A name in quotes and the colon behind it. -/
inductive IsKey : List Char → Prop
  | mk {before letters gap : List Char} (hb : Blank before) (h : IsStringText letters)
    (hg : Blank gap) : IsKey (before ++ '"' :: (letters ++ '"' :: (gap ++ [':'])))

/-- The text of a value of any shape. -/
inductive WellFormed : List Char → Prop
  | null : WellFormed "null".toList
  | boolean (value : Bool) : WellFormed (if value then "true" else "false").toList
  | number {numeral : Numeral} {text : List Char} (h : SpellsNumeral numeral text) :
    WellFormed text
  | string {letters : List Char} (h : IsStringText letters) :
    WellFormed ('"' :: (letters ++ ['"']))
  | array {parts : List (List Char)} {gap : List Char} (hg : Blank gap)
    (items : ∀ part ∈ parts, WellFormed part) : WellFormed (bracketed '[' ']' parts gap)
  | object {members : List (List Char × List Char)} {gap : List Char} (hg : Blank gap)
    (keys : ∀ member ∈ members, IsKey member.1) (values : ∀ member ∈ members, WellFormed member.2) :
    WellFormed (bracketed '\x7b' '}' (members.map fun member => member.1 ++ member.2) gap)
  | padded {left text right : List Char} (hl : Blank left) (hr : Blank right)
    (h : WellFormed text) : WellFormed (left ++ (text ++ right))

/-! ### Steps -/

variable {frame : Frame} {frames : List Frame} {text tail rest : List Char} {c : Char}

theorem skipFrom_value (h : skipBlanks text = c :: tail) :
    skipFrom .value frames text =
      if c = '[' then skipFrom .opened (.list :: frames) tail
      else if c = '\x7b' then skipFrom .opened (.object :: frames) tail
      else skipScalar c tail >>= skipFrom .after frames := by
  rw [skipFrom]
  split
  · next hn => rw [h] at hn; cases hn
  · next d rest hd =>
    rw [h] at hd
    cases hd
    split
    · rfl
    split
    · rfl
    split
    · next fault hs => rw [hs]; rfl
    · next after hs => rw [hs]; rfl

theorem skipFrom_value_skipBlanks (text : List Char) :
    skipFrom .value frames (skipBlanks text) = skipFrom .value frames text := by
  cases h : skipBlanks text with
  | cons c tail =>
      rw [skipFrom_value h, skipFrom_value (skipBlanks_cons (isBlank_of_skipBlanks_eq_cons h) tail)]
  | nil =>
      have hend : ∀ text, skipBlanks text = [] →
          skipFrom .value frames text = .error .endsEarly := by
        intro text ht
        rw [skipFrom]
        split
        · rfl
        · next c rest hc => rw [ht] at hc; cases hc
      rw [hend text h, hend [] rfl]

/-- What follows the next item of a container and the rest of its items. -/
def skipItem (frame : Frame) (frames : List Frame) (text : List Char) : Except Fault (List Char) :=
  enterItem frame text >>= skipFrom .value (frame :: frames)

theorem skipItem_skipBlanks (text : List Char) :
    skipItem frame frames (skipBlanks text) = skipItem frame frames text := by
  cases frame with
  | list => exact skipFrom_value_skipBlanks text
  | object =>
      have hmark : afterMark '"' (skipBlanks text) = afterMark '"' text := by
        unfold afterMark
        rw [skipBlanks_skipBlanks]
      simp only [skipItem, enterItem, hmark]

theorem skipFrom_opened (h : skipBlanks text = c :: tail) :
    skipFrom .opened (frame :: frames) text =
      if c = frame.close then skipFrom .after frames tail
      else skipItem frame frames (c :: tail) := by
  rw [skipFrom]
  split
  · next hn => rw [h] at hn; cases hn
  · next d rest hd =>
    rw [h] at hd
    cases hd
    split
    · rfl
    unfold skipItem
    split
    · next fault hs => rw [hs]; rfl
    · next after hs => rw [hs]; rfl

theorem skipFrom_after (h : skipBlanks text = c :: tail) :
    skipFrom .after (frame :: frames) text =
      if c = frame.close then skipFrom .after frames tail
      else if c = ',' then skipItem frame frames tail
      else .error .malformed := by
  rw [skipFrom]
  split
  · next hn => rw [h] at hn; cases hn
  · next d rest hd =>
    rw [h] at hd
    cases hd
    split
    · rfl
    split
    · unfold skipItem
      split
      · next fault hs => rw [hs]; rfl
      · next after hs => rw [hs]; rfl
    · rfl

/-! ### Containers -/

/-- The text of a value is passed over, whatever containers are open. Of the gap behind the text
some blanks may be left. -/
def Skips (text : List Char) : Prop :=
  ∀ frames rest, Ends rest → ∃ after, skipBlanks after = skipBlanks rest ∧
    skipFrom .value frames (text ++ rest) = skipFrom .after frames after

/-- The text of an item of a container is passed over, and it does not begin as the container
ends. -/
structure SkipsPart (frame : Frame) (part : List Char) : Prop where
  begins : ∃ c tail, skipBlanks part = c :: tail ∧ c ≠ frame.close
  skips : ∀ frames rest, Ends rest → ∃ after, skipBlanks after = skipBlanks rest ∧
    skipItem frame frames (part ++ rest) = skipFrom .after (frame :: frames) after

theorem Frame.close_eq (frame : Frame) : frame.close = ']' ∨ frame.close = '}' := by
  cases frame with
  | list => exact .inl rfl
  | object => exact .inr rfl

variable {parts : List (List Char)}

theorem skipFrom_parts (h : ∀ part ∈ parts, SkipsPart frame part)
    (ht : skipBlanks text = skipBlanks (separated false parts ++ tail))
    (hend : skipBlanks tail = frame.close :: rest) :
    skipFrom .after (frame :: frames) text = skipFrom .after frames rest := by
  induction parts generalizing text with
  | nil => rw [skipFrom_after (ht.trans hend), if_pos rfl]
  | cons part parts ih =>
      obtain ⟨hpart, hparts⟩ := List.forall_mem_cons.mp h
      have hcomma : ',' ≠ frame.close := by cases frame <;> decide
      have htext : skipBlanks text = ',' :: (part ++ (separated false parts ++ tail)) := by
        rw [ht, separated, if_neg Bool.false_ne_true, List.append_assoc, List.append_assoc]
        exact skipBlanks_cons (by decide) _
      obtain ⟨after, ha, hskip⟩ := hpart.skips frames _ (ends_separated parts frame.close_eq hend)
      rw [skipFrom_after htext, if_neg hcomma, if_pos rfl, hskip]
      exact ih hparts ha

theorem skipFrom_container (h : ∀ part ∈ parts, SkipsPart frame part)
    (hend : skipBlanks tail = frame.close :: rest) :
    skipFrom .opened (frame :: frames) (separated true parts ++ tail) =
      skipFrom .after frames rest := by
  cases parts with
  | nil => rw [separated, List.nil_append, skipFrom_opened hend, if_pos rfl]
  | cons part parts =>
      obtain ⟨hpart, hparts⟩ := List.forall_mem_cons.mp h
      obtain ⟨c, first, hc, hne⟩ := hpart.begins
      obtain ⟨after, ha, hskip⟩ := hpart.skips frames _ (ends_separated parts frame.close_eq hend)
      have htext := skipBlanks_append_of_eq_cons hc (separated false parts ++ tail)
      rw [separated, if_pos rfl, List.nil_append, List.append_assoc, skipFrom_opened htext,
        if_neg hne, ← htext, skipItem_skipBlanks, hskip]
      exact skipFrom_parts hparts ha hend

/-! ### Values -/

theorem Skips.padded (h : Skips text) {left right : List Char} (hl : Blank left)
    (hr : Blank right) : Skips (left ++ (text ++ right)) := by
  intro frames rest hrest
  obtain ⟨after, ha, hskip⟩ := h frames (right ++ rest) ((ends_append_iff hr).mpr hrest)
  refine ⟨after, ha.trans (skipBlanks_append hr rest), ?_⟩
  rw [List.append_assoc, List.append_assoc, ← skipFrom_value_skipBlanks, skipBlanks_append hl,
    skipFrom_value_skipBlanks, hskip]

/-- A value that is no container is passed over as one token. -/
theorem skips_scalar (hb : isBlank c = false) (hlist : c ≠ '[') (hobject : c ≠ '\x7b')
    (h : ∀ rest, Ends rest → skipScalar c (tail ++ rest) = .ok rest) : Skips (c :: tail) := by
  intro frames rest hr
  refine ⟨rest, rfl, ?_⟩
  rw [List.cons_append, skipFrom_value (skipBlanks_cons hb _), if_neg hlist, if_neg hobject,
    h rest hr]
  rfl

theorem SpellsNumeral.skips {numeral : Numeral} (h : SpellsNumeral numeral text) : Skips text := by
  obtain ⟨c, tail, rfl, hc⟩ := h.exists_cons
  refine skips_scalar (isBlank_of_begins_numeral hc) (ne_of_begins_numeral hc (by decide))
    (ne_of_begins_numeral hc (by decide)) ?_
  intro rest hr
  unfold skipScalar
  rw [if_neg (ne_of_begins_numeral hc (by decide)), if_neg (ne_of_begins_numeral hc (by decide)),
    if_neg (ne_of_begins_numeral hc (by decide)), if_neg (ne_of_begins_numeral hc (by decide)),
    if_pos hc]
  exact h.skipNumber hr.endsNumeral

theorem skips_quoted {letters : List Char} (h : IsStringText letters) :
    Skips ('"' :: (letters ++ ['"'])) := by
  refine skips_scalar (by decide) (by decide) (by decide) ?_
  intro rest _
  show skipChars (letters ++ ['"'] ++ rest) = .ok rest
  rw [List.append_assoc]
  exact h.skipChars rest

theorem Skips.listPart (h : Skips text) (hb : Begins text) : SkipsPart .list text :=
  ⟨hb, fun frames rest hr => h (.list :: frames) rest hr⟩

theorem Skips.objectPart (h : Skips text) {key : List Char} (hk : IsKey key) :
    SkipsPart .object (key ++ text) := by
  obtain ⟨hb, hletters, hg⟩ := hk
  rename_i before letters gap
  have htext (rest : List Char) :
      before ++ '"' :: (letters ++ '"' :: (gap ++ [':'])) ++ text ++ rest =
        before ++ '"' :: (letters ++ '"' :: (gap ++ ':' :: (text ++ rest))) := by
    simp
  refine ⟨⟨'"', letters ++ '"' :: (gap ++ ':' :: text), ?_, by decide⟩, ?_⟩
  · have hpart := htext []
    rw [List.append_nil, List.append_nil] at hpart
    rw [hpart]
    exact skipBlanks_append_cons hb (by decide) _
  · intro frames rest hr
    obtain ⟨after, ha, hskip⟩ := h (.object :: frames) rest hr
    refine ⟨after, ha, ?_⟩
    rw [htext, skipItem, enterItem, afterMark_append hb (by decide)]
    simp only [bind, Except.bind, hletters.skipChars]
    rw [afterMark_append hg (by decide)]
    exact hskip

theorem WellFormed.begins (h : WellFormed text) : Begins text := by
  induction h with
  | null => exact begins_of_isBlank (by decide) (by decide) _
  | boolean value => cases value <;> exact begins_of_isBlank (by decide) (by decide) _
  | number h => exact h.begins
  | string => exact begins_of_isBlank (by decide) (by decide) _
  | array => exact begins_of_isBlank (by decide) (by decide) _
  | object => exact begins_of_isBlank (by decide) (by decide) _
  | padded hl _ _ ih => exact ih.padded hl _

theorem WellFormed.skips (h : WellFormed text) : Skips text := by
  induction h with
  | null => exact skips_scalar (by decide) (by decide) (by decide) fun rest _ => rfl
  | boolean value =>
      cases value <;> exact skips_scalar (by decide) (by decide) (by decide) fun rest _ => rfl
  | number h => exact h.skips
  | string h => exact skips_quoted h
  | @array parts gap hg items ih =>
      intro frames rest _
      have hparts : ∀ part ∈ parts, SkipsPart .list part :=
        fun part hp => (ih part hp).listPart (items part hp).begins
      have hend := @skipBlanks_append_cons gap hg ']' (by decide) rest
      refine ⟨rest, rfl, ?_⟩
      rw [bracketed, List.cons_append, closed_append,
        skipFrom_value (skipBlanks_cons (by decide) _), if_pos rfl]
      exact skipFrom_container hparts hend
  | @object members gap hg keys _ ih =>
      intro frames rest _
      have hparts : ∀ part ∈ members.map fun member => member.1 ++ member.2,
          SkipsPart .object part := by
        intro part hp
        obtain ⟨member, hm, rfl⟩ := List.mem_map.mp hp
        exact (ih member hm).objectPart (keys member hm)
      have hend := @skipBlanks_append_cons gap hg '}' (by decide) rest
      refine ⟨rest, rfl, ?_⟩
      rw [bracketed, List.cons_append, closed_append,
        skipFrom_value (skipBlanks_cons (by decide) _), if_neg (by decide), if_pos rfl]
      exact skipFrom_container hparts hend
  | padded hl hr _ ih => exact ih.padded hl hr

/-- Where no container is open, what follows the value is what is left. -/
theorem WellFormed.skipValue (h : WellFormed text) (hr : Ends rest) :
    ∃ after, skipBlanks after = skipBlanks rest ∧ Json.skipValue (text ++ rest) = .ok after := by
  obtain ⟨after, ha, hskip⟩ := h.skips [] rest hr
  refine ⟨after, ha, ?_⟩
  rw [Json.skipValue, hskip, skipFrom]
  intro h
  cases h

theorem WellFormed.skipMember (h : WellFormed text) {gap : List Char} (hg : Blank gap) {σ : Type}
    (state : σ) : (Json.skipMember state).Reads (gap ++ ':' :: text) state := by
  intro rest hr
  obtain ⟨after, ha, hskip⟩ := h.skipValue hr
  refine ⟨after, ha, ?_⟩
  unfold Json.skipMember
  rw [List.append_assoc, List.cons_append, afterMark_append hg (by decide)]
  simp only [bind, Except.bind, hskip, pure, Except.pure]

end UrlRouting.Json
