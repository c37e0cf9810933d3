import UrlRouting.Proofs.Delimiters
import UrlRouting.Url.Query

/-! # Queries are read back

The reader of query strings gives back the list of pairs that was written, whatever characters the
names and values hold: no separator of a query comes from a name or a value.

* `Query.splitAtFirst_append`, `Query.splitAtEach_intercalate`: cutting a text at a separator
  inverts joining parts in which the separator does not occur.
* `Query.decodeComponent_encodeComponent`: reading a name or a value inverts writing it.
* `Query.delimiterSafe_encodeComponent`: the separators do not occur in a written name or value.
* `Query.decode_encode`, `Query.encode_eq_empty_iff`: a query is read as the list of its pairs, and
  only the empty list has an empty query.
* `Query.writePair_encode`, `Query.foldl_writePair`: a writer that goes from pair to pair, and in a
  name or a value from space to space, gives the same query.
* `Percent.writers_delimiterSafe`: what segments and form components are written with, each with its
  own marks. -/

namespace UrlRouting

namespace Query

/-! ### Cutting a text -/

section cutting

variable {separator : Char} {front : List Char}

theorem splitAtFirst_append (h : separator ∉ front) (rest : List Char) :
    splitAtFirst separator (front ++ separator :: rest) = (front, some rest) := by
  induction front with
  | nil => rw [List.nil_append, splitAtFirst, if_pos rfl]
  | cons c front ih =>
      rw [List.mem_cons, not_or] at h
      rw [List.cons_append, splitAtFirst, if_neg (Ne.symm h.1), ih h.2]

theorem splitAtFirst_of_notMem (h : separator ∉ front) :
    splitAtFirst separator front = (front, none) := by
  induction front with
  | nil => rfl
  | cons c front ih =>
      rw [List.mem_cons, not_or] at h
      rw [splitAtFirst, if_neg (Ne.symm h.1), ih h.2]

theorem splitAtEach_append (h : separator ∉ front) (rest : List Char) :
    splitAtEach separator (front ++ separator :: rest) = front :: splitAtEach separator rest := by
  induction front with
  | nil => rw [List.nil_append, splitAtEach, if_pos rfl]
  | cons c front ih =>
      rw [List.mem_cons, not_or] at h
      rw [List.cons_append, splitAtEach, if_neg (Ne.symm h.1), ih h.2]

theorem splitAtEach_of_notMem (h : separator ∉ front) : splitAtEach separator front = [front] := by
  induction front with
  | nil => rfl
  | cons c front ih =>
      rw [List.mem_cons, not_or] at h
      rw [splitAtEach, if_neg (Ne.symm h.1), ih h.2]

theorem splitAtEach_intercalate {parts : List (List Char)} (hne : parts ≠ [])
    (h : ∀ part ∈ parts, separator ∉ part) :
    splitAtEach separator ([separator].intercalate parts) = parts := by
  induction parts with
  | nil => exact absurd rfl hne
  | cons part parts ih =>
      have hpart := h part List.mem_cons_self
      cases parts with
      | nil => rw [List.intercalate_singleton, splitAtEach_of_notMem hpart]
      | cons next parts =>
          have hrest := ih (List.cons_ne_nil next parts)
            fun other hm => h other (List.mem_cons_of_mem part hm)
          rw [List.intercalate_cons_cons, List.append_assoc, List.singleton_append,
            splitAtEach_append hpart, hrest]

end cutting

/-! ### Names and values -/

/-- The characters that are read as they are, once each `+` has become a space. -/
def keepsBlank (c : Char) : Bool := c = ' ' || keeps c

theorem bounds_of_keepsBlank (c : Char) (h : keepsBlank c = true) :
    c.val.toNat ≤ 0x7F ∧ c ≠ '%' := by
  rw [keepsBlank, Bool.or_eq_true, decide_eq_true_eq] at h
  rcases h with rfl | h
  · decide
  · exact Percent.bounds_of_keeps (by decide) h

theorem map_of_plus_notMem {text : List Char} (h : '+' ∉ text) :
    (text.map fun c => if c = '+' then ' ' else c) = text := by
  refine (List.map_congr_left ?_).trans (List.map_id text)
  intro c hc
  exact if_neg fun he : c = '+' => h (he ▸ hc)

theorem plus_notMem_escapeChar (c : Char) : '+' ∉ Percent.escapeChar c :=
  (Percent.written_escapeChar "" c).notMem (by decide) (by decide)

/-- Once each `+` has become a space, a written name or value is a text with percent escapes. -/
theorem map_encodeChar (text : List Char) :
    ((text.flatMap encodeChar).map fun c => if c = '+' then ' ' else c) =
      Percent.encode keepsBlank text := by
  rw [List.map_flatMap, Percent.encode]
  congr 1
  funext c
  unfold encodeChar keepsBlank
  by_cases hb : c = ' '
  · subst hb
    rfl
  · rw [if_neg hb, decide_eq_false hb, Bool.false_or]
    split
    · next hk =>
      have hp : '+' ∉ [c] := by
        rw [List.mem_singleton]
        rintro rfl
        exact absurd hk (by decide)
      exact map_of_plus_notMem hp
    · exact map_of_plus_notMem (plus_notMem_escapeChar c)

/-- Reading a name or a value inverts writing it. -/
theorem decodeComponent_encodeComponent (text : String) :
    decodeComponent (encodeComponent text).toList = text := by
  rw [decodeComponent, encodeComponent, String.toList_ofList, map_encodeChar,
    Percent.decode_encode bounds_of_keepsBlank, String.ofList_toList]

theorem written_encodeChar (c : Char) : Percent.Written "-._+" (encodeChar c) := by
  unfold encodeChar
  split
  · exact .stands (.inr (by decide)) .nil
  split
  · next h => exact Percent.written_singleton (by decide) h
  · exact Percent.written_escapeChar _ c

theorem delimiterSafe_encodeComponent : Percent.DelimiterSafe "-._+" encodeComponent := by
  apply Percent.DelimiterSafe.of_flatMap _ written_encodeChar (by decide)
  · intro first second h
    rw [← decodeComponent_encodeComponent first, h, decodeComponent_encodeComponent]
  · intro value
    unfold encodeComponent
    rw [String.toList_ofList]

theorem equals_notMem_encodeComponent (text : String) : '=' ∉ (encodeComponent text).toList :=
  (delimiterSafe_encodeComponent.written text).notMem (by decide) (by decide)

/-! ### Pairs and lists of pairs -/

theorem toList_encodePair (pair : String × String) :
    (encodePair pair).toList =
      (encodeComponent pair.1).toList ++ '=' :: (encodeComponent pair.2).toList := by
  rw [encodePair, String.toList_append, String.toList_append, List.append_assoc]
  rfl

theorem decodePair_encodePair (pair : String × String) :
    decodePair (encodePair pair).toList = pair := by
  rw [toList_encodePair, decodePair,
    splitAtFirst_append (equals_notMem_encodeComponent pair.1)]
  simp only [Option.getD_some, decodeComponent_encodeComponent]

theorem ampersand_notMem_encodePair (pair : String × String) : '&' ∉ (encodePair pair).toList := by
  have h := fun text => delimiterSafe_encodeComponent.notMem text '&' (by decide)
  rw [toList_encodePair, List.mem_append, List.mem_cons]
  rintro (hm | hm | hm)
  · exact h pair.1 hm
  · exact absurd hm (by decide)
  · exact h pair.2 hm

theorem toList_encode (pairs : List (String × String)) :
    (encode pairs).toList = ['&'].intercalate (pairs.map fun pair => (encodePair pair).toList) := by
  rw [encode, String.toList_intercalate, List.map_map]
  rfl

theorem encode_eq_empty_iff {pairs : List (String × String)} : encode pairs = "" ↔ pairs = [] := by
  rw [← String.toList_eq_nil_iff, toList_encode]
  constructor
  · intro h
    cases pairs with
    | nil => rfl
    | cons pair pairs =>
        -- the first pair writes a `=` at least
        rw [List.map_cons, toList_encodePair] at h
        cases pairs <;> simp at h
  · rintro rfl
    rfl

theorem splitAtEach_encode {pairs : List (String × String)} (h : pairs ≠ []) :
    splitAtEach '&' (encode pairs).toList = pairs.map fun pair => (encodePair pair).toList := by
  rw [toList_encode]
  refine splitAtEach_intercalate (mt List.map_eq_nil_iff.mp h) ?_
  intro part hm
  obtain ⟨pair, -, rfl⟩ := List.mem_map.mp hm
  exact ampersand_notMem_encodePair pair

theorem decode_encode (pairs : List (String × String)) : decode (encode pairs) = pairs := by
  by_cases h : pairs = []
  · subst h
    rfl
  · have hne : (encode pairs).toList.isEmpty ≠ true := by
      rwa [ne_eq, List.isEmpty_iff, String.toList_eq_nil_iff, encode_eq_empty_iff]
    rw [decode, if_neg hne, splitAtEach_encode h, List.map_map]
    refine (List.map_congr_left ?_).trans (List.map_id pairs)
    intro pair _
    exact decodePair_encodePair pair

/-! ### Writing one pair after another -/

/-- A name or a value written part by part: the parts between spaces are escaped and joined by
`+`. -/
def joinParts (text : String) : String :=
  String.ofList (['+'].intercalate ((splitAtEach ' ' text.toList).map (Percent.encode keeps)))

/-- What has been written with one more pair behind it. An `&` stands before the pair unless nothing
has been written. -/
def writePair (written : String) (pair : String × String) : String :=
  (if written.isEmpty then written else written ++ "&") ++
    (joinParts pair.1 ++ "=" ++ joinParts pair.2)

theorem splitAtEach_ne_nil (separator : Char) (text : List Char) :
    splitAtEach separator text ≠ [] := by
  cases text with
  | nil => simp [splitAtEach]
  | cons c rest =>
      rw [splitAtEach]
      split
      · simp
      · cases splitAtEach separator rest <;> simp

/-- Escaping the parts between spaces is writing character by character. -/
theorem intercalate_splitAtEach (text : List Char) :
    ['+'].intercalate ((splitAtEach ' ' text).map (Percent.encode keeps)) =
      text.flatMap encodeChar := by
  induction text with
  | nil => rfl
  | cons c rest ih =>
      obtain ⟨part, parts, hp⟩ := List.exists_cons_of_ne_nil (splitAtEach_ne_nil ' ' rest)
      rw [List.flatMap_cons, ← ih, splitAtEach, hp]
      unfold encodeChar
      by_cases hc : c = ' '
      · rw [if_pos hc, if_pos hc, List.map_cons, List.map_cons, List.intercalate_cons_cons]
        rfl
      · rw [if_neg hc, if_neg hc, List.map_cons, List.map_cons]
        have hcons : Percent.encode keeps (c :: part) =
            (if keeps c then [c] else Percent.escapeChar c) ++ Percent.encode keeps part :=
          List.flatMap_cons
        rw [hcons]
        cases parts with
        | nil => simp only [List.map_nil, List.intercalate_singleton]
        | cons next parts =>
            simp only [List.map_cons, List.intercalate_cons_cons, List.append_assoc]

theorem joinParts_eq_encodeComponent (text : String) : joinParts text = encodeComponent text := by
  rw [joinParts, encodeComponent, intercalate_splitAtEach]

theorem intercalate_append_singleton {separator : List Char} {parts : List (List Char)}
    (hne : parts ≠ []) (last : List Char) :
    separator.intercalate (parts ++ [last]) =
      separator.intercalate parts ++ (separator ++ last) := by
  induction parts with
  | nil => exact absurd rfl hne
  | cons part parts ih =>
      cases parts with
      | nil => simp [List.intercalate_cons_cons]
      | cons next parts =>
          have hrest := ih (List.cons_ne_nil next parts)
          rw [List.cons_append] at hrest
          simp only [List.cons_append, List.intercalate_cons_cons, hrest, List.append_assoc]

theorem writePair_encode (pairs : List (String × String)) (pair : String × String) :
    writePair (encode pairs) pair = encode (pairs ++ [pair]) := by
  have hpair : joinParts pair.1 ++ "=" ++ joinParts pair.2 = encodePair pair := by
    rw [joinParts_eq_encodeComponent, joinParts_eq_encodeComponent, encodePair]
  unfold writePair
  rw [hpair]
  by_cases hne : pairs = []
  · subst hne
    exact String.empty_append
  · have hwritten : (encode pairs).isEmpty ≠ true := by
      rwa [ne_eq, String.isEmpty_iff, encode_eq_empty_iff]
    have hlist : (pairs.map fun pair => (encodePair pair).toList) ≠ [] :=
      mt List.map_eq_nil_iff.mp hne
    apply String.toList_inj.mp
    rw [if_neg hwritten, String.toList_append, String.toList_append, toList_encode, toList_encode,
      List.map_append, List.map_singleton, intercalate_append_singleton hlist, List.append_assoc]
    rfl

/-- A run of the writer adds its pairs to the query written before. -/
theorem foldl_writePair (front pairs : List (String × String)) :
    pairs.foldl writePair (encode front) = encode (front ++ pairs) := by
  induction pairs generalizing front with
  | nil => rw [List.foldl_nil, List.append_nil]
  | cons pair pairs ih =>
      rw [List.foldl_cons, writePair_encode, ih, List.append_assoc, List.singleton_append]

/-- **Every list of pairs is read back from its query**, in its order, with repeated and empty names
and values. The query is what a writer gives that adds one pair after another. So no two lists have
the same query, and only the empty list has an empty one. -/
theorem query_readable (pairs : List (String × String)) :
    pairs.foldl writePair "" = encode pairs ∧ decode (encode pairs) = pairs ∧
      (∀ other, encode other = encode pairs → other = pairs) ∧
      (encode pairs = "" ↔ pairs = []) := by
  refine ⟨foldl_writePair [] pairs, decode_encode pairs, ?_, encode_eq_empty_iff⟩
  intro other h
  rw [← decode_encode other, h, decode_encode]

end Query

namespace Percent

/-- **No delimiter comes from a value.** A segment is written with letters, digits, the marks
`-._~@:;,=+!*|` and escapes; a form component with letters, digits, `-._+` and escapes, so without
`=`. Neither holds a delimiter, a space or a character beyond ASCII, only the empty value has an
empty text, and the text of two values in a row is their texts in a row. For form components this is
so although they are written part by part between spaces. -/
theorem writers_delimiterSafe :
    DelimiterSafe "-._~@:;,=+!*|" Segment.encode ∧ DelimiterSafe "-._+" Query.encodeComponent ∧
      (∀ value, '=' ∉ (Query.encodeComponent value).toList) ∧
      ∀ value, Query.joinParts value = Query.encodeComponent value := by
  exact ⟨Segment.delimiterSafe_encode, Query.delimiterSafe_encodeComponent,
    Query.equals_notMem_encodeComponent, Query.joinParts_eq_encodeComponent⟩

end Percent

end UrlRouting
