import UrlRouting.Proofs.Readers

/-! # Spelled values

`Json.Spells` relates a value to its texts: gaps anywhere between the parts, escapes in strings, the
members of an object in any order. Of two members of one name the later counts.

* `Json.Spells.reads`: from each of its texts a value is read.
* `Json.Spells.reads_string`, `Json.Spells.reads_string?` and `Json.Spells.reads_object`: so it is
  where a string, a string or `null`, or an object is asked for. -/

namespace UrlRouting.Json

/-! ### Spellings -/

/-- A member in the text of an object: its name, the text of its value and its whole text. -/
structure Piece where
  name : String
  text : List Char
  part : List Char

namespace Piece

/-- The whole text is a spelling of the member. -/
def Spelled (piece : Piece) : Prop := SpellsMember piece.name piece.text piece.part

/-- A member as it is written. -/
def written (name : String) (text : List Char) : Piece := ⟨name, text, writeMember name text⟩

theorem spelled_written (name : String) (text : List Char) : (written name text).Spelled :=
  spellsMember_writeMember name text

/-- The object that is read from pieces with these values. -/
def object (pieces : List (Json × Piece)) : Object :=
  pieces.foldl (fun object piece => object.insert piece.2.name piece.1) .empty

end Piece

/-- How a value may be spelled in which at most `depth` containers are nested. -/
inductive Spells : Nat → Json → List Char → Prop
  | null {depth : Nat} : Spells depth null "null".toList
  | boolean {depth : Nat} (value : Bool) :
    Spells depth (boolean value) (if value then "true" else "false").toList
  | integer {depth : Nat} {n : Int} (range : (Number.integer n).InRange) :
    Spells depth (number (.integer n)) (Number.integer n).write.toList
  | float {depth : Nat} {numeral : Numeral} {text : List Char} {x : Float}
    (spelled : SpellsNumeral numeral text) (hv : numeral.value? = some (.float x)) :
    Spells depth (number (.float x)) text
  | string {depth : Nat} {text : String} {letters : List Char}
    (spelled : SpellsChars text.toList letters) :
    Spells depth (string text) ('"' :: (letters ++ ['"']))
  | array {depth : Nat} {pieces : List (Json × List Char)} {gap : List Char} (hg : Blank gap)
    (items : ∀ piece ∈ pieces, Spells depth piece.1 piece.2) :
    Spells (depth + 1) (array (pieces.map Prod.fst)) (bracketed '[' ']' (pieces.map Prod.snd) gap)
  | object {depth : Nat} {pieces : List (Json × Piece)} {gap : List Char} (hg : Blank gap)
    (spelled : ∀ piece ∈ pieces, piece.2.Spelled)
    (values : ∀ piece ∈ pieces, Spells depth piece.1 piece.2.text) :
    Spells (depth + 1) (object (Piece.object pieces).members)
      (bracketed '\x7b' '}' (pieces.map fun piece => piece.2.part) gap)
  | padded {depth : Nat} {value : Json} {left text right : List Char} (hl : Blank left)
    (hr : Blank right) (h : Spells depth value text) : Spells depth value (left ++ (text ++ right))

/-! ### Readers pass over gaps -/

theorem skipsBlanks_readValue (bound depth : Nat) : (readValue bound depth).SkipsBlanks := by
  intro text
  unfold readValue
  rw [skipBlanks_skipBlanks]

theorem skipsBlanks_readString : readString.SkipsBlanks := by
  intro text
  unfold readString
  rw [skipBlanks_skipBlanks]

theorem skipsBlanks_readString? : readString?.SkipsBlanks := by
  intro text
  unfold readString?
  rw [skipBlanks_skipBlanks]

theorem skipsBlanks_readObject (bound depth : Nat) : (readObject bound depth).SkipsBlanks := by
  intro text
  unfold readObject
  rw [skipBlanks_skipBlanks]

/-! ### Values of one part -/

variable {bound depth : Nat}

/-- A spelled value begins with none of the marks that stand between values. -/
theorem Spells.begins {value : Json} {text : List Char} (h : Spells depth value text) :
    Begins text := by
  induction h with
  | null => exact begins_of_isBlank (by decide) (by decide) _
  | boolean value => cases value <;> exact begins_of_isBlank (by decide) (by decide) _
  | integer => exact (spellsNumeral_write _).begins
  | float spelled => exact spelled.begins
  | string => exact begins_of_isBlank (by decide) (by decide) _
  | array => exact begins_of_isBlank (by decide) (by decide) _
  | object => exact begins_of_isBlank (by decide) (by decide) _
  | padded hl _ _ ih => exact ih.padded hl _

theorem SpellsNumeral.reads {numeral : Numeral} {text : List Char} {value : Number}
    (h : SpellsNumeral numeral text) (hv : numeral.value? = some value) :
    (readValue bound depth).Reads text (number value) := by
  apply Reader.reads_of_eq
  intro rest hr
  have hread := h.readNumber hv hr.endsNumeral
  obtain ⟨c, tail, rfl, hc⟩ := h.exists_cons
  rw [List.cons_append] at hread ⊢
  unfold readValue
  rw [skipBlanks_cons (isBlank_of_begins_numeral hc)]
  dsimp only
  rw [if_neg (ne_of_begins_numeral hc (by decide)), if_neg (ne_of_begins_numeral hc (by decide)),
    if_neg (ne_of_begins_numeral hc (by decide)), if_neg (ne_of_begins_numeral hc (by decide)),
    if_pos hc, hread]
  rfl

theorem quoted_append (letters rest : List Char) :
    '"' :: (letters ++ ['"']) ++ rest = '"' :: (letters ++ '"' :: rest) := by
  simp

theorem reads_quoted {text : String} {letters : List Char} (h : SpellsChars text.toList letters) :
    (readValue bound depth).Reads ('"' :: (letters ++ ['"'])) (string text) := by
  apply Reader.reads_of_eq
  intro rest _
  rw [quoted_append]
  unfold readValue
  show (readText (letters ++ '"' :: rest) >>= _) = _
  rw [readText_of_spells h]
  rfl

/-! ### Objects -/

theorem readsMembers_object {value : Reader Json} {pieces : List (Json × Piece)}
    (spelled : ∀ piece ∈ pieces, piece.2.Spelled)
    (values : ∀ piece ∈ pieces, value.Reads piece.2.text piece.1) :
    Reader.ReadsMembers (addMember value) .empty (pieces.map fun piece => piece.2.part)
      (Piece.object pieces) := by
  have hfrom : ∀ front : Object, Reader.ReadsMembers (addMember value) front
      (pieces.map fun piece => piece.2.part)
      (pieces.foldl (fun object piece => object.insert piece.2.name piece.1) front) := by
    induction pieces with
    | nil => exact fun front => .nil front
    | cons piece pieces ih =>
        intro front
        obtain ⟨hpiece, hpieces⟩ := List.forall_mem_cons.mp spelled
        obtain ⟨hvalue, hvalues⟩ := List.forall_mem_cons.mp values
        refine .cons hpiece ?_ (ih hpieces hvalues _)
        intro gap hg
        exact (hvalue.readNamed hg).map (front.insert piece.2.name)
  exact hfrom .empty

theorem length_piece_le {pieces : List (Json × Piece)} {piece : Json × Piece} {gap : List Char}
    (hm : piece ∈ pieces) (h : piece.2.Spelled) :
    piece.2.text.length ≤
      (bracketed '\x7b' '}' (pieces.map fun piece => piece.2.part) gap).length :=
  Nat.le_trans h.length_le (length_le_bracketed (List.mem_map_of_mem hm))

/-! ### Values -/

theorem Spells.reads {value : Json} {text : List Char} (h : Spells depth value text)
    (hb : text.length ≤ bound) : (readValue bound depth).Reads text value := by
  induction h with
  | null =>
      apply Reader.reads_of_eq
      intro rest _
      unfold readValue
      rfl
  | boolean value =>
      apply Reader.reads_of_eq
      intro rest _
      unfold readValue
      cases value <;> rfl
  | integer range => exact (spellsNumeral_write _).reads (value?_numeralOf range)
  | float spelled hv => exact spelled.reads hv
  | string spelled => exact reads_quoted spelled
  | @array depth pieces gap hg items ih =>
      have hitems : List.Forall₂
          (fun part value => Begins part ∧ (readValue bound depth).Reads part value)
          (pieces.map Prod.snd) (pieces.map Prod.fst) := by
        rw [List.forall₂_map_left_iff, List.forall₂_map_right_iff, List.forall₂_same]
        intro piece hp
        have hpart : piece.2 ∈ pieces.map Prod.snd := List.mem_map_of_mem hp
        exact ⟨(items piece hp).begins, ih piece hp (Nat.le_trans (length_le_bracketed hpart) hb)⟩
      have hread := Reader.reads_readItems (skipsBlanks_readValue bound depth) hitems hg hb
      exact fun rest hr => hread.map Json.array rest hr
  | @object depth pieces gap hg spelled values ih =>
      have hvalues : ∀ piece ∈ pieces, (readValue bound depth).Reads piece.2.text piece.1 :=
        fun piece hp => ih piece hp (Nat.le_trans (length_piece_le hp (spelled piece hp)) hb)
      have hread := (readsMembers_object spelled hvalues).readMembers hg hb
      exact fun rest hr => hread.map (fun found => Json.object found.members) rest hr
  | padded hl hr _ ih =>
      simp only [List.length_append] at hb
      exact (ih (by omega)).padded (skipsBlanks_readValue bound _) hl hr

/-! ### Values of one type -/

theorem Spells.reads_string {text : String} {spelling : List Char}
    (h : Spells depth (Json.string text) spelling) : readString.Reads spelling text := by
  generalize hv : Json.string text = value at h
  induction h with
  | string spelled =>
      cases hv
      apply Reader.reads_of_eq
      intro rest _
      rw [quoted_append]
      exact readText_of_spells spelled rest
  | padded hl hr _ ih => exact (ih hv).padded skipsBlanks_readString hl hr
  | _ => cases hv

/-- The value of a string that may be missing. -/
def ofString? : Option String → Json
  | some text => string text
  | none => null

theorem ofString?_injective : Function.Injective ofString? := by
  intro a b h
  cases a <;> cases b <;> simp_all [ofString?]

theorem Spells.reads_string? {text : Option String} {spelling : List Char}
    (h : Spells depth (ofString? text) spelling) : readString?.Reads spelling text := by
  generalize hv : ofString? text = value at h
  induction h with
  | null =>
      cases text with
      | some text => cases hv
      | none => exact Reader.reads_of_eq fun rest _ => rfl
  | string spelled =>
      cases text with
      | none => cases hv
      | some text =>
          cases hv
          apply Reader.reads_of_eq
          intro rest _
          rw [quoted_append]
          show (readText _ >>= _) = _
          rw [readText_of_spells spelled]
          rfl
  | padded hl hr _ ih => exact (ih hv).padded skipsBlanks_readString? hl hr
  | _ => cases text <;> cases hv

theorem Spells.reads_object {found : Object} {text : List Char}
    (h : Spells depth (Json.object found.members) text) (hb : text.length ≤ bound) :
    (readObject bound depth).Reads text found := by
  generalize hv : Json.object found.members = value at h
  induction h with
  | @object depth pieces gap hg spelled values =>
      have hfound : found = Piece.object pieces := Object.ext (Json.object.inj hv)
      subst hfound
      have hvalues : ∀ piece ∈ pieces, (readValue bound depth).Reads piece.2.text piece.1 :=
        fun piece hp =>
          (values piece hp).reads (Nat.le_trans (length_piece_le hp (spelled piece hp)) hb)
      exact (readsMembers_object spelled hvalues).readMembers hg hb
  | padded hl hr _ ih =>
      simp only [List.length_append] at hb
      exact (ih (by omega) hv).padded (skipsBlanks_readObject bound _) hl hr
  | _ => cases hv

end UrlRouting.Json
