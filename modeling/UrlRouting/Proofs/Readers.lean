import Mathlib.Data.List.DropRight
import Mathlib.Data.List.Forall2
import UrlRouting.Json.Reader
import UrlRouting.Json.Writer
import UrlRouting.Proofs.Numerals
import UrlRouting.Proofs.Texts

/-! # Readers in front of what follows

* `Json.Blank`: a gap between the parts of a text. All readers pass over the gap in front of what
  they read (`Json.Reader.SkipsBlanks`).
* `Json.Reader.Reads`: a reader takes a value off the front of any text that may stand behind a
  value, and leaves that text or the gap in front of it.
* Lists and objects are read part by part (`Json.Reader.readItemsFrom_separated`,
  `Json.Reader.ReadsMembers.readMembersFrom`), and so is a record that is written as a list
  (`Json.Reader.Reads.readField`). -/

namespace UrlRouting.Json

/-! ### Gaps -/

/-- Nothing but blanks. -/
def Blank (gap : List Char) : Prop := ∀ c ∈ gap, isBlank c = true

instance (gap : List Char) : Decidable (Blank gap) := List.decidableBAll _ gap

theorem blank_nil : Blank [] := fun _ hc => nomatch hc

theorem skipBlanks_append {gap : List Char} (h : Blank gap) (text : List Char) :
    skipBlanks (gap ++ text) = skipBlanks text :=
  List.dropWhile_append_of_pos h

theorem skipBlanks_cons {c : Char} (h : isBlank c = false) (rest : List Char) :
    skipBlanks (c :: rest) = c :: rest :=
  List.dropWhile_cons_of_neg (by simp [h])

theorem isBlank_of_skipBlanks_eq_cons {text tail : List Char} {c : Char}
    (h : skipBlanks text = c :: tail) : isBlank c = false := by
  have hhead := List.head?_dropWhile_not isBlank text
  rw [← skipBlanks, h] at hhead
  simpa using hhead

theorem skipBlanks_append_cons {gap : List Char} (hg : Blank gap) {c : Char}
    (h : isBlank c = false) (rest : List Char) : skipBlanks (gap ++ c :: rest) = c :: rest := by
  rw [skipBlanks_append hg, skipBlanks_cons h]

@[simp] theorem skipBlanks_skipBlanks (text : List Char) :
    skipBlanks (skipBlanks text) = skipBlanks text :=
  List.dropWhile_idempotent isBlank text

theorem skipBlanks_append_of_eq_cons {text tail : List Char} {c : Char}
    (h : skipBlanks text = c :: tail) (rest : List Char) :
    skipBlanks (text ++ rest) = c :: (tail ++ rest) := by
  induction text with
  | nil => cases h
  | cons first text ih =>
      cases hb : isBlank first with
      | true =>
          have hdrop : skipBlanks (first :: text) = skipBlanks text :=
            List.dropWhile_cons_of_pos hb
          rw [hdrop] at h
          rw [List.cons_append, skipBlanks, List.dropWhile_cons_of_pos hb]
          exact ih h
      | false =>
          rw [skipBlanks_cons hb] at h
          cases h
          rw [List.cons_append, skipBlanks_cons hb]

theorem afterMark_of_skipBlanks {text rest : List Char} {mark : Char}
    (h : skipBlanks text = mark :: rest) : afterMark mark text = .ok rest := by
  unfold afterMark
  rw [h]
  dsimp only
  rw [if_pos rfl]

theorem afterMark_append {gap : List Char} (hg : Blank gap) {mark : Char}
    (hm : isBlank mark = false) (rest : List Char) :
    afterMark mark (gap ++ mark :: rest) = .ok rest :=
  afterMark_of_skipBlanks (skipBlanks_append_cons hg hm rest)

theorem nextItem_congr {text other : List Char} (h : skipBlanks text = skipBlanks other)
    (isFirst : Bool) : nextItem isFirst text = nextItem isFirst other := by
  unfold nextItem
  rw [h]

theorem nextName_congr {text other : List Char} (h : skipBlanks text = skipBlanks other)
    (isFirst : Bool) : nextName isFirst text = nextName isFirst other := by
  unfold nextName
  rw [h]

/-! ### What may stand around a value -/

/-- Blanks apart, the text ends, or a mark follows that may stand behind a value. -/
def Ends (rest : List Char) : Prop := ∀ c ∈ (skipBlanks rest).head?, c = ',' ∨ c = ']' ∨ c = '}'

/-- Blanks apart, the text begins, and not with the end of a list. -/
def Begins (text : List Char) : Prop := ∃ c tail, skipBlanks text = c :: tail ∧ c ≠ ']'

theorem ends_append_iff {gap : List Char} (h : Blank gap) {rest : List Char} :
    Ends (gap ++ rest) ↔ Ends rest := by
  rw [Ends, skipBlanks_append h, Ends]

theorem Ends.endsNumeral {rest : List Char} (h : Ends rest) : EndsNumeral rest := by
  intro c hc
  cases rest with
  | nil => cases hc
  | cons first rest =>
      cases hc
      cases hb : isBlank c with
      | true =>
          simp only [isBlank, Bool.or_eq_true, decide_eq_true_eq] at hb
          rcases hb with ((rfl | rfl) | rfl) | rfl <;> decide
      | false =>
          have hhead : c ∈ (skipBlanks (c :: rest)).head? := by
            rw [skipBlanks_cons hb]
            rfl
          rcases h c hhead with rfl | rfl | rfl <;> decide

theorem Begins.padded {text : List Char} (h : Begins text) {left : List Char} (hl : Blank left)
    (right : List Char) : Begins (left ++ (text ++ right)) := by
  obtain ⟨c, tail, ht, hc⟩ := h
  refine ⟨c, tail ++ right, ?_, hc⟩
  rw [skipBlanks_append hl, skipBlanks_append_of_eq_cons ht]

theorem ne_of_begins_numeral {c d : Char} (h : c = '-' ∨ c.isDigit = true)
    (hd : ¬ (d = '-' ∨ d.isDigit = true)) : c ≠ d := by
  rintro rfl
  exact hd h

theorem isBlank_of_begins_numeral {c : Char} (h : c = '-' ∨ c.isDigit = true) :
    isBlank c = false := by
  have hspace : c ≠ ' ' := ne_of_begins_numeral h (by decide)
  have htab : c ≠ '\t' := ne_of_begins_numeral h (by decide)
  have hline : c ≠ '\n' := ne_of_begins_numeral h (by decide)
  have hreturn : c ≠ '\r' := ne_of_begins_numeral h (by decide)
  simp [isBlank, hspace, htab, hline, hreturn]

theorem begins_of_isBlank {c : Char} (hb : isBlank c = false) (hc : c ≠ ']') (tail : List Char) :
    Begins (c :: tail) :=
  ⟨c, tail, skipBlanks_cons hb tail, hc⟩

theorem SpellsNumeral.begins {numeral : Numeral} {text : List Char}
    (h : SpellsNumeral numeral text) : Begins text := by
  obtain ⟨c, tail, rfl, hc⟩ := h.exists_cons
  exact begins_of_isBlank (isBlank_of_begins_numeral hc) (ne_of_begins_numeral hc (by decide)) tail

/-! ### Parts between commas -/

/-- Parts with a comma in front of each, but none in front of the first of all. -/
def separated : (isFirst : Bool) → List (List Char) → List Char
  | _, [] => []
  | isFirst, part :: rest => (if isFirst then [] else [',']) ++ part ++ separated false rest

theorem commaSeparated_eq (parts : List (List Char)) :
    commaSeparated parts = separated true parts := by
  unfold commaSeparated
  cases parts with
  | nil => rfl
  | cons part rest =>
      induction rest generalizing part with
      | nil => simp [separated]
      | cons next rest ih =>
          rw [List.intercalate_cons_cons, ih next]
          simp [separated]

theorem ends_separated (parts : List (List Char)) {tail rest : List Char} {mark : Char}
    (h : mark = ']' ∨ mark = '}') (ht : skipBlanks tail = mark :: rest) :
    Ends (separated false parts ++ tail) := by
  intro c hc
  cases parts with
  | nil =>
      rw [separated, List.nil_append, ht] at hc
      cases hc
      exact .inr h
  | cons part parts =>
      cases hc
      exact .inl rfl

/-- Parts between two marks, with a gap behind the last. -/
def bracketed (left right : Char) (parts : List (List Char)) (gap : List Char) : List Char :=
  left :: (commaSeparated parts ++ (gap ++ [right]))

theorem closed_append (parts : List (List Char)) (gap : List Char) (right : Char)
    (rest : List Char) :
    commaSeparated parts ++ (gap ++ [right]) ++ rest =
      separated true parts ++ (gap ++ right :: rest) := by
  simp [commaSeparated_eq]

theorem writeList_eq (parts : List (List Char)) : writeList parts = bracketed '[' ']' parts [] := by
  rw [writeList, bracketed, List.nil_append, List.cons_append]

theorem writeObject_eq (parts : List (List Char)) :
    writeObject parts = bracketed '\x7b' '}' parts [] := by
  rw [writeObject, bracketed, List.nil_append, List.cons_append]

theorem length_le_separated (parts : List (List Char)) :
    parts.length ≤ (separated false parts).length := by
  induction parts with
  | nil => exact Nat.le_refl 0
  | cons part rest ih =>
      simp only [separated, List.length_cons, List.length_append, Bool.false_eq_true, if_false,
        List.length_nil]
      omega

theorem length_le_separated_of_mem {parts : List (List Char)} {part : List Char}
    (h : part ∈ parts) (isFirst : Bool) : part.length ≤ (separated isFirst parts).length := by
  induction parts generalizing isFirst with
  | nil => exact absurd h List.not_mem_nil
  | cons first rest ih =>
      simp only [separated, List.length_append]
      rcases List.mem_cons.mp h with rfl | h
      · omega
      · have := ih h false
        omega

variable {left right : Char} {parts : List (List Char)} {part gap : List Char}

/-- A text within a bound has no more parts than that between its marks. -/
theorem length_lt_of_bracketed {bound : Nat}
    (h : (bracketed left right parts gap).length ≤ bound) : parts.length < bound + 1 := by
  have hparts : parts.length ≤ (separated true parts).length + 1 := by
    cases parts with
    | nil => exact Nat.zero_le _
    | cons part rest =>
        have hrest := length_le_separated rest
        simp only [separated, List.length_cons, List.length_append, if_true, List.length_nil]
        omega
  simp only [bracketed, commaSeparated_eq, List.length_cons, List.length_append,
    List.length_nil] at h
  omega

theorem length_le_bracketed (h : part ∈ parts) :
    part.length ≤ (bracketed left right parts gap).length := by
  have := length_le_separated_of_mem h true
  simp only [bracketed, commaSeparated_eq, List.length_cons, List.length_append]
  omega

/-! ### Members -/

/-- How a member of an object is spelled: its name and, behind a colon, the text of its value. -/
inductive SpellsMember : String → List Char → List Char → Prop
  | mk {name : String} {text before letters gap : List Char} (hb : Blank before)
    (spelled : SpellsChars name.toList letters) (hg : Blank gap) :
    SpellsMember name text (before ++ '"' :: (letters ++ '"' :: (gap ++ ':' :: text)))

theorem spellsMember_writeMember (name : String) (text : List Char) :
    SpellsMember name text (writeMember name text) := by
  have htext : writeMember name text =
      [] ++ '"' :: (name.toList.flatMap writeChar ++ '"' :: ([] ++ ':' :: text)) := by
    simp [writeMember, writeText]
  rw [htext]
  exact .mk blank_nil (spellsChars_flatMap_writeChar name.toList) blank_nil

theorem SpellsMember.length_le {name : String} {text : List Char}
    (h : SpellsMember name text part) : text.length ≤ part.length := by
  cases h
  simp only [List.length_append, List.length_cons]
  omega

namespace Reader

variable {α β σ : Type} {reader : Reader α} {text : List Char} {value : α}

/-! ### Readers of texts -/

/-- The reader passes over the gap in front of what it reads. -/
def SkipsBlanks (reader : Reader α) : Prop := ∀ text, reader (skipBlanks text) = reader text

/-- The value is read from the text in front of anything that may follow a value. Of the gap behind
the text some blanks may be left. -/
def Reads (reader : Reader α) (text : List Char) (value : α) : Prop :=
  ∀ rest, Ends rest →
    ∃ after, skipBlanks after = skipBlanks rest ∧ reader (text ++ rest) = .ok (value, after)

/-- What is read up to its end leaves nothing of the gap. -/
theorem reads_of_eq (h : ∀ rest, Ends rest → reader (text ++ rest) = .ok (value, rest)) :
    reader.Reads text value :=
  fun rest hr => ⟨rest, rfl, h rest hr⟩

theorem Reads.padded (h : reader.Reads text value) (hs : reader.SkipsBlanks)
    {left right : List Char} (hl : Blank left) (hr : Blank right) :
    reader.Reads (left ++ (text ++ right)) value := by
  intro rest hrest
  obtain ⟨after, ha, hread⟩ := h (right ++ rest) ((ends_append_iff hr).mpr hrest)
  refine ⟨after, ha.trans (skipBlanks_append hr rest), ?_⟩
  rw [List.append_assoc, List.append_assoc, ← hs, skipBlanks_append hl, hs, hread]

theorem Reads.map (h : reader.Reads text value) (f : α → β) :
    Reader.Reads (fun text => do
      let (value, rest) ← reader text
      return (f value, rest)) text (f value) := by
  intro rest hr
  obtain ⟨after, ha, hread⟩ := h rest hr
  refine ⟨after, ha, ?_⟩
  show (reader (text ++ rest) >>= _) = _
  rw [hread]
  rfl

theorem Reads.readNamed (h : reader.Reads text value) (hg : Blank gap) :
    (Json.readNamed reader).Reads (gap ++ ':' :: text) value := by
  intro rest hr
  obtain ⟨after, ha, hread⟩ := h rest hr
  refine ⟨after, ha, ?_⟩
  rw [List.append_assoc, List.cons_append, Json.readNamed, afterMark_append hg (by decide)]
  exact hread

theorem Reads.readOnce (h : reader.Reads text value) (hg : Blank gap) :
    (Json.readOnce (none : Option β) reader).Reads (gap ++ ':' :: text) value :=
  h.readNamed hg

theorem Reads.readInto (h : reader.Reads text value) (hg : Blank gap) (keep : α → σ) :
    (Json.readInto none reader keep).Reads (gap ++ ':' :: text) (keep value) :=
  (h.readOnce hg).map keep

/-! ### Lists -/

theorem nextItem_separated (h : Begins part) {isFirst : Bool} {tail : List Char}
    (ht : skipBlanks text = skipBlanks (separated isFirst (part :: parts) ++ tail)) :
    nextItem isFirst text = .ok (some (skipBlanks (part ++ (separated false parts ++ tail)))) := by
  obtain ⟨c, rest, hp, hc⟩ := h
  have hpart := skipBlanks_append_of_eq_cons hp (separated false parts ++ tail)
  rw [nextItem_congr ht, hpart]
  cases isFirst with
  | true =>
      rw [separated, if_pos rfl, List.nil_append, List.append_assoc]
      unfold nextItem
      rw [hpart]
      dsimp only
      rw [if_neg hc, if_pos rfl]
  | false =>
      have hcomma : isBlank ',' = false := by decide
      rw [separated, if_neg Bool.false_ne_true, List.singleton_append, List.cons_append,
        List.cons_append, List.append_assoc]
      unfold nextItem
      rw [skipBlanks_cons hcomma]
      dsimp only
      rw [if_neg (by decide), if_neg Bool.false_ne_true, if_pos rfl, hpart]
      dsimp only
      rw [if_neg hc]

theorem nextItem_end {rest : List Char} (h : skipBlanks text = ']' :: rest) (isFirst : Bool) :
    nextItem isFirst text = .ok none := by
  unfold nextItem
  rw [h]
  dsimp only
  rw [if_pos rfl]

theorem readItemsFrom_separated {item : Reader α} (hs : item.SkipsBlanks)
    {parts : List (List Char)} {values : List α}
    (h : List.Forall₂ (fun part value => Begins part ∧ item.Reads part value) parts values)
    {bound : Nat} (hb : parts.length < bound) (isFirst : Bool) {tail rest : List Char}
    (ht : skipBlanks text = skipBlanks (separated isFirst parts ++ tail))
    (hend : skipBlanks tail = ']' :: rest) :
    ∃ after, skipBlanks after = ']' :: rest ∧
      readItemsFrom item bound isFirst text = .ok (values, after) := by
  obtain ⟨bound, rfl⟩ := Nat.exists_eq_succ_of_ne_zero (Nat.ne_zero_of_lt hb)
  induction h generalizing bound isFirst text with
  | nil =>
      have hclose : skipBlanks text = ']' :: rest := ht.trans hend
      refine ⟨text, hclose, ?_⟩
      rw [readItemsFrom, nextItem_end hclose]
      rfl
  | @cons part value parts values first others ih =>
      obtain ⟨hbegin, hread⟩ := first
      obtain ⟨middle, hm, hvalue⟩ := hread _ (ends_separated parts (.inl rfl) hend)
      obtain ⟨bound, rfl⟩ := Nat.exists_eq_succ_of_ne_zero
        (Nat.ne_zero_of_lt (Nat.lt_of_succ_lt_succ hb))
      obtain ⟨after, ha, hvalues⟩ := ih false hm bound (Nat.lt_of_succ_lt_succ hb)
      refine ⟨after, ha, ?_⟩
      rw [readItemsFrom, nextItem_separated hbegin ht]
      simp only [bind, Except.bind, hs _, hvalue, hvalues, pure, Except.pure]

theorem reads_readItems {item : Reader α} (hs : item.SkipsBlanks) {values : List α}
    (h : List.Forall₂ (fun part value => Begins part ∧ item.Reads part value) parts values)
    (hg : Blank gap) {bound : Nat} (hb : (bracketed '[' ']' parts gap).length ≤ bound) :
    (readItems bound item).Reads (commaSeparated parts ++ (gap ++ [']'])) values := by
  apply reads_of_eq
  intro rest _
  have hend := @skipBlanks_append_cons gap hg ']' (by decide) rest
  rw [closed_append]
  obtain ⟨after, ha, hitems⟩ :=
    readItemsFrom_separated hs h (length_lt_of_bracketed hb) true rfl hend
  simp only [readItems, hitems, bind, Except.bind, afterMark_of_skipBlanks ha]
  rfl

/-- A field of a record that is written as a list is read from its part. -/
theorem Reads.readField (h : reader.Reads part value) (hs : reader.SkipsBlanks)
    (hbegin : Begins part) (default : α) {isFirst : Bool} {tail rest : List Char}
    (ht : skipBlanks text = skipBlanks (separated isFirst (part :: parts) ++ tail))
    (hend : skipBlanks tail = ']' :: rest) :
    ∃ after, skipBlanks after = skipBlanks (separated false parts ++ tail) ∧
      Json.readField isFirst reader default text = .ok (value, after) := by
  obtain ⟨after, ha, hvalue⟩ := h _ (ends_separated parts (.inl rfl) hend)
  refine ⟨after, ha, ?_⟩
  rw [Json.readField, nextItem_separated hbegin ht]
  simp only [bind, Except.bind, hs _, hvalue]

theorem readField_end (reader : Reader α) (default : α) (isFirst : Bool) {rest : List Char}
    (h : skipBlanks text = ']' :: rest) :
    Json.readField isFirst reader default text = .ok (default, text) := by
  rw [Json.readField, nextItem_end h]
  rfl

/-! ### Objects -/

/-- The parts of an object, read one after the other, lead from a state to another one. -/
inductive ReadsMembers (member : σ → String → Reader σ) : σ → List (List Char) → σ → Prop
  | nil (state : σ) : ReadsMembers member state [] state
  | cons {state next last : σ} {name : String} {text part : List Char} {rest : List (List Char)}
    (spelled : SpellsMember name text part)
    (first : ∀ {gap}, Blank gap → (member state name).Reads (gap ++ ':' :: text) next)
    (others : ReadsMembers member next rest last) :
    ReadsMembers member state (part :: rest) last

variable {member : σ → String → Reader σ} {state next last : σ}

theorem nextName_separated {name : String} {value : List Char} (h : SpellsMember name value part)
    {isFirst : Bool} {tail : List Char}
    (ht : skipBlanks text = skipBlanks (separated isFirst (part :: parts) ++ tail)) :
    ∃ letters gap, SpellsChars name.toList letters ∧ Blank gap ∧
      nextName isFirst text =
        .ok (some (letters ++
          '"' :: ((gap ++ ':' :: value) ++ (separated false parts ++ tail)))) := by
  obtain ⟨hb, spelled, hg⟩ := h
  rename_i before letters gap
  refine ⟨letters, gap, spelled, hg, ?_⟩
  have hquote : isBlank '"' = false := by decide
  have hcomma : isBlank ',' = false := by decide
  rw [nextName_congr ht]
  simp only [separated, List.append_assoc, List.cons_append]
  cases isFirst with
  | true =>
      unfold nextName
      rw [if_pos rfl, List.nil_append, skipBlanks_append_cons hb hquote]
      dsimp only
      rw [if_neg (by decide), if_pos rfl, if_pos rfl]
  | false =>
      unfold nextName
      rw [if_neg Bool.false_ne_true, List.singleton_append, skipBlanks_cons hcomma]
      dsimp only
      rw [if_neg (by decide), if_neg Bool.false_ne_true, if_pos rfl, afterMark_append hb hquote]
      rfl

theorem nextName_end {rest : List Char} (h : skipBlanks text = '}' :: rest) (isFirst : Bool) :
    nextName isFirst text = .ok none := by
  unfold nextName
  rw [h]
  dsimp only
  rw [if_pos rfl]

theorem ReadsMembers.readMembersFrom {parts : List (List Char)}
    (h : ReadsMembers member state parts last) {bound : Nat} (hb : parts.length < bound)
    (isFirst : Bool) {tail rest : List Char}
    (ht : skipBlanks text = skipBlanks (separated isFirst parts ++ tail))
    (hend : skipBlanks tail = '}' :: rest) :
    ∃ after, skipBlanks after = '}' :: rest ∧
      Json.readMembersFrom member bound isFirst state text = .ok (last, after) := by
  obtain ⟨bound, rfl⟩ := Nat.exists_eq_succ_of_ne_zero (Nat.ne_zero_of_lt hb)
  induction h generalizing bound isFirst text with
  | nil state =>
      have hclose : skipBlanks text = '}' :: rest := ht.trans hend
      refine ⟨text, hclose, ?_⟩
      rw [Json.readMembersFrom, nextName_end hclose]
      rfl
  | @cons state next last name value part parts spelled first _ ih =>
      obtain ⟨letters, gap, hletters, hgap, hname⟩ := nextName_separated spelled ht
      obtain ⟨middle, hm, hread⟩ := first hgap _ (ends_separated parts (.inr rfl) hend)
      obtain ⟨bound, rfl⟩ := Nat.exists_eq_succ_of_ne_zero
        (Nat.ne_zero_of_lt (Nat.lt_of_succ_lt_succ hb))
      obtain ⟨after, ha, hothers⟩ := ih false hm bound (Nat.lt_of_succ_lt_succ hb)
      refine ⟨after, ha, ?_⟩
      rw [Json.readMembersFrom, hname]
      simp only [bind, Except.bind, readText_of_spells hletters, hread, hothers]

theorem ReadsMembers.readMembers (h : ReadsMembers member state parts last) (hg : Blank gap)
    {bound : Nat} (hb : (bracketed '\x7b' '}' parts gap).length ≤ bound) :
    (readMembers bound member state).Reads (commaSeparated parts ++ (gap ++ ['}'])) last := by
  apply reads_of_eq
  intro rest _
  have hend := @skipBlanks_append_cons gap hg '}' (by decide) rest
  rw [closed_append]
  obtain ⟨after, ha, hmembers⟩ := h.readMembersFrom (length_lt_of_bracketed hb) true rfl hend
  simp only [Json.readMembers, hmembers, bind, Except.bind, afterMark_of_skipBlanks ha]
  rfl

end Reader

/-! ### Whole texts -/

theorem readWhole_of_reads {α : Type} {reader : Nat → Reader α} {text : List Char} {value : α}
    (h : (reader text.length).Reads text value) :
    readWhole reader (String.ofList text) = .ok value := by
  obtain ⟨after, ha, hread⟩ := h [] fun _ hc => nomatch hc
  rw [List.append_nil] at hread
  simp only [readWhole, String.toList_ofList, hread, bind, Except.bind, ha]
  rfl

end UrlRouting.Json
