import UrlRouting.Definition.Writer
import UrlRouting.Proofs.Skipping
import UrlRouting.Proofs.Values

/-! # Spelled definitions

`RouteDefinition.Spells` relates a definition to its texts. One is an object that gives the fields
in any order, each at most once, with any other members among them; the other is the list of the
fields in order. A field that equals its default may be left out, in a list only at the end.

* `DefinitionFields.reads_seen`: one more member of the object leads from the fields seen before to
  those and the one that is given.
* `RouteDefinition.Lists.readField`: one more field of the list is read, or the list has ended and
  the field has its default.
* `RouteDefinition.Spells.reads`: from each of its texts a definition is read.
* `RouteDefinition.ofJson_spelled`: so it is from a whole text, and each definition without
  floating-point numbers has texts of both kinds. -/

namespace UrlRouting

variable {bound depth : Nat}

namespace Json.Reader

variable {α : Type} {text : List Char} {value : α}

theorem skipsBlanks_readRecord (depth : Nat) (named listed : Nat → Reader α) :
    (readRecord depth named listed).SkipsBlanks := by
  intro text
  unfold readRecord
  rw [skipBlanks_skipBlanks]

theorem Reads.readRecord {named : Nat → Reader α} (h : (named depth).Reads text value)
    (listed : Nat → Reader α) :
    (Json.readRecord (depth + 1) named listed).Reads ('\x7b' :: text) value :=
  h

end Json.Reader

namespace RouteDefinition

/-! ### Spellings -/

/-- The names of the fields in the order of declaration. -/
def fieldNames : List String := ["name", "type", "pattern", "parameters"]

/-- The value of a field; none if no field has this name. -/
def field? (definition : RouteDefinition) (name : String) : Option Json :=
  if name = "name" then some (.string definition.name)
  else if name = "type" then some (.string definition.kind)
  else if name = "pattern" then some (Json.ofString? definition.pattern)
  else if name = "parameters" then some (.object definition.parameters.members)
  else none

/-- The value of a field that is left out; none if it cannot be left out. -/
def omitted? (name : String) : Option Json :=
  if name = "type" then some (.string defaultKind)
  else if name = "pattern" then some .null
  else if name = "parameters" then some (.object [])
  else none

/-- The text is a spelling of the field of this name. A name that is no field's goes with any
value. -/
def Gives (definition : RouteDefinition) (depth : Nat) (name : String) (text : List Char) : Prop :=
  match definition.field? name with
  | some value => Json.Spells depth value text
  | none => Json.WellFormed text

/-- The texts are spellings of the fields of these names in order, and the fields behind them equal
their defaults. -/
inductive Lists (definition : RouteDefinition) (depth : Nat) :
    List String → List (List Char) → Prop
  | omitted {names : List String} (h : ∀ name ∈ names, definition.field? name = omitted? name) :
    Lists definition depth names []
  | given {name : String} {names : List String} {part : List Char} {parts : List (List Char)}
    (first : definition.Gives depth name part) (others : Lists definition depth names parts) :
    Lists definition depth (name :: names) (part :: parts)

/-- How a definition may be spelled if at most `depth` containers are nested in it, its own
included. -/
inductive Spells (definition : RouteDefinition) : Nat → List Char → Prop
  | object {depth : Nat} {pieces : List Json.Piece} {gap : List Char} (hg : Json.Blank gap)
    (spelled : ∀ piece ∈ pieces, piece.Spelled)
    (given : ∀ piece ∈ pieces, definition.Gives depth piece.name piece.text)
    (once : ((pieces.map Json.Piece.name).filter (· ∈ fieldNames)).Nodup)
    (omitted : ∀ name ∈ fieldNames, name ∉ pieces.map Json.Piece.name →
      definition.field? name = omitted? name) :
    Spells definition (depth + 1) (Json.bracketed '\x7b' '}' (pieces.map Json.Piece.part) gap)
  | list {depth : Nat} {parts : List (List Char)} {gap : List Char} (hg : Json.Blank gap)
    (listed : definition.Lists depth fieldNames parts) :
    Spells definition (depth + 1) (Json.bracketed '[' ']' parts gap)
  | padded {depth : Nat} {left text right : List Char} (hl : Json.Blank left)
    (hr : Json.Blank right) (h : Spells definition depth text) :
    Spells definition depth (left ++ (text ++ right))

variable {definition : RouteDefinition}

variable {text : List Char}

theorem Gives.begins {name : String} (h : definition.Gives depth name text) : Json.Begins text := by
  unfold Gives at h
  split at h
  · exact h.begins
  · exact h.begins

theorem field?_of_notMem {name : String} (h : name ∉ fieldNames) :
    definition.field? name = none := by
  simp only [fieldNames, List.mem_cons, List.not_mem_nil, or_false, not_or] at h
  simp [field?, h]

end RouteDefinition

/-! ### Fields -/

/-- The fields of a definition that have these names. -/
def DefinitionFields.seen (definition : RouteDefinition) (names : List String) :
    DefinitionFields where
  name := if "name" ∈ names then some definition.name else none
  kind := if "type" ∈ names then some definition.kind else none
  pattern := if "pattern" ∈ names then some definition.pattern else none
  parameters := if "parameters" ∈ names then some definition.parameters else none

namespace RouteDefinition

/-- A field of definitions: its value in a definition and as JSON, how it is read, and where it is
kept while the members of an object are read. -/
structure Field (α : Type) where
  name : String
  value : RouteDefinition → α
  json : α → Json
  /-- The value if the field is left out; none if it cannot be left out. -/
  default : Option α
  reader : (bound depth : Nat) → Json.Reader α
  found : DefinitionFields → Option α
  keep : DefinitionFields → α → DefinitionFields
  json_injective : Function.Injective json
  field?_name (definition : RouteDefinition) :
    definition.field? name = some (json (value definition))
  omitted?_name : omitted? name = default.map json
  skipsBlanks (bound depth : Nat) : (reader bound depth).SkipsBlanks
  reads_spelled {bound depth : Nat} {found : α} {text : List Char}
    (h : Json.Spells depth (json found) text) (hb : text.length ≤ bound) :
    (reader bound depth).Reads text found
  read_name (bound depth : Nat) (fields : DefinitionFields) :
    fields.read bound depth name =
      Json.readInto (found fields) (reader bound depth) (keep fields)
  found_seen (definition : RouteDefinition) (names : List String) :
    found (.seen definition names) = if name ∈ names then some (value definition) else none
  keep_seen (definition : RouteDefinition) (names : List String) :
    keep (.seen definition names) (value definition) = .seen definition (names ++ [name])

/-- The name of a definition. -/
def nameField : Field String where
  name := "name"
  value := RouteDefinition.name
  json := .string
  default := none
  reader _ _ := Json.readString
  found := DefinitionFields.name
  keep fields found := { fields with name := some found }
  json_injective _ _ h := Json.string.inj h
  field?_name _ := rfl
  omitted?_name := rfl
  skipsBlanks _ _ := Json.skipsBlanks_readString
  reads_spelled h _ := h.reads_string
  read_name _ _ _ := rfl
  found_seen _ _ := rfl
  keep_seen _ _ := by simp [DefinitionFields.seen]

/-- The kind of a definition. -/
def kindField : Field String where
  name := "type"
  value := RouteDefinition.kind
  json := .string
  default := some defaultKind
  reader _ _ := Json.readString
  found := DefinitionFields.kind
  keep fields found := { fields with kind := some found }
  json_injective _ _ h := Json.string.inj h
  field?_name _ := rfl
  omitted?_name := rfl
  skipsBlanks _ _ := Json.skipsBlanks_readString
  reads_spelled h _ := h.reads_string
  read_name _ _ _ := rfl
  found_seen _ _ := rfl
  keep_seen _ _ := by simp [DefinitionFields.seen]

/-- The pattern of a definition. -/
def patternField : Field (Option String) where
  name := "pattern"
  value := RouteDefinition.pattern
  json := Json.ofString?
  default := some none
  reader _ _ := Json.readString?
  found := DefinitionFields.pattern
  keep fields found := { fields with pattern := some found }
  json_injective := Json.ofString?_injective
  field?_name _ := rfl
  omitted?_name := rfl
  skipsBlanks _ _ := Json.skipsBlanks_readString?
  reads_spelled h _ := h.reads_string?
  read_name _ _ _ := rfl
  found_seen _ _ := rfl
  keep_seen _ _ := by simp [DefinitionFields.seen]

/-- The parameters of a definition. -/
def parametersField : Field Json.Object where
  name := "parameters"
  value := RouteDefinition.parameters
  json object := .object object.members
  default := some .empty
  reader := Json.readObject
  found := DefinitionFields.parameters
  keep fields found := { fields with parameters := some found }
  json_injective _ _ h := Json.Object.ext (Json.object.inj h)
  field?_name _ := rfl
  omitted?_name := rfl
  skipsBlanks := Json.skipsBlanks_readObject
  reads_spelled h hb := h.reads_object hb
  read_name _ _ _ := rfl
  found_seen _ _ := rfl
  keep_seen _ _ := by simp [DefinitionFields.seen]

theorem exists_field {name : String} (h : name ∈ fieldNames) :
    ∃ (α : Type) (field : Field α), field.name = name := by
  simp only [fieldNames, List.mem_cons, List.not_mem_nil, or_false] at h
  rcases h with rfl | rfl | rfl | rfl
  · exact ⟨_, nameField, rfl⟩
  · exact ⟨_, kindField, rfl⟩
  · exact ⟨_, patternField, rfl⟩
  · exact ⟨_, parametersField, rfl⟩

namespace Field

variable {α : Type} (field : Field α) {names : List String} {gap : List Char}

theorem reads (h : definition.Gives depth field.name text) (hb : text.length ≤ bound) :
    (field.reader bound depth).Reads text (field.value definition) := by
  rw [Gives, field.field?_name] at h
  exact field.reads_spelled h hb

/-- A field that equals what is left out has its default. -/
theorem default_of_omitted (h : definition.field? field.name = omitted? field.name) :
    field.default = some (field.value definition) := by
  rw [field.field?_name, field.omitted?_name] at h
  obtain ⟨value, hd, he⟩ := Option.map_eq_some_iff.mp h.symm
  rw [hd, field.json_injective he]

theorem reads_seen (given : definition.Gives depth field.name text) (fresh : field.name ∉ names)
    (hb : text.length ≤ bound) (hg : Json.Blank gap) :
    ((DefinitionFields.seen definition names).read bound depth field.name).Reads
      (gap ++ ':' :: text) (.seen definition (names ++ [field.name])) := by
  rw [field.read_name, field.found_seen, if_neg fresh, ← field.keep_seen]
  exact (field.reads given hb).readInto hg _

theorem getD_found_seen {default : α} (hd : field.default = some default)
    (h : field.name ∉ names → definition.field? field.name = omitted? field.name) :
    (field.found (.seen definition names)).getD default = field.value definition := by
  rw [field.found_seen]
  split
  · rfl
  · next hn => exact Option.some.inj (hd.symm.trans (field.default_of_omitted (h hn)))

end Field

end RouteDefinition

/-! ### Objects -/

namespace DefinitionFields

open RouteDefinition (fieldNames)

variable {definition : RouteDefinition} {names : List String} {name : String}
  {gap text : List Char}

/-- A member that is given leads to the fields with its name among those that are seen. -/
theorem reads_seen (given : definition.Gives depth name text)
    (fresh : name ∈ fieldNames → name ∉ names) (hb : text.length ≤ bound) (hg : Json.Blank gap) :
    (read bound depth (seen definition names) name).Reads (gap ++ ':' :: text)
      (seen definition (names ++ [name])) := by
  by_cases hfield : name ∈ fieldNames
  · obtain ⟨α, field, rfl⟩ := RouteDefinition.exists_field hfield
    exact field.reads_seen given (fresh hfield) hb hg
  · rw [RouteDefinition.Gives, RouteDefinition.field?_of_notMem hfield] at given
    simp only [fieldNames, List.mem_cons, List.not_mem_nil, or_false, not_or] at hfield
    obtain ⟨hname, hkind, hpattern, hparameters⟩ := hfield
    have hseen : seen definition (names ++ [name]) = seen definition names := by
      simp [seen, Ne.symm hname, Ne.symm hkind, Ne.symm hpattern, Ne.symm hparameters]
    rw [read, if_neg hname, if_neg hkind, if_neg hpattern, if_neg hparameters, hseen]
    exact given.skipMember hg _

theorem readsMembers_seen (names : List String) {pieces : List Json.Piece}
    (spelled : ∀ piece ∈ pieces, piece.Spelled)
    (given : ∀ piece ∈ pieces, definition.Gives depth piece.name piece.text)
    (once : ((names ++ pieces.map Json.Piece.name).filter (· ∈ fieldNames)).Nodup)
    (hb : ∀ piece ∈ pieces, piece.text.length ≤ bound) :
    Json.Reader.ReadsMembers (read bound depth) (seen definition names)
      (pieces.map Json.Piece.part) (seen definition (names ++ pieces.map Json.Piece.name)) := by
  induction pieces generalizing names with
  | nil =>
      rw [List.map_nil, List.map_nil, List.append_nil]
      exact .nil _
  | cons piece pieces ih =>
      obtain ⟨hpiece, hpieces⟩ := List.forall_mem_cons.mp spelled
      obtain ⟨hgiven, hgivens⟩ := List.forall_mem_cons.mp given
      obtain ⟨hlength, hlengths⟩ := List.forall_mem_cons.mp hb
      have hfresh : piece.name ∈ fieldNames → piece.name ∉ names := by
        intro hfield hmem
        rw [List.filter_append, List.nodup_append] at once
        have hleft : piece.name ∈ names.filter (· ∈ fieldNames) :=
          List.mem_filter.mpr ⟨hmem, decide_eq_true hfield⟩
        have hright : piece.name ∈
            ((piece :: pieces).map Json.Piece.name).filter (· ∈ fieldNames) :=
          List.mem_filter.mpr ⟨List.mem_cons_self, decide_eq_true hfield⟩
        exact once.2.2 _ hleft _ hright rfl
      rw [List.map_cons, List.append_cons] at once
      rw [List.map_cons, List.map_cons, List.append_cons]
      exact .cons hpiece (reads_seen hgiven hfresh hlength) (ih _ hpieces hgivens once hlengths)

/-- If the fields that are not seen equal their defaults, the fields make the definition. -/
theorem definition_seen
    (h : ∀ name ∈ fieldNames, name ∉ names →
      definition.field? name = RouteDefinition.omitted? name) :
    (seen definition names).definition = .ok definition := by
  have hname : "name" ∈ names := by
    by_contra hn
    exact nomatch RouteDefinition.nameField.default_of_omitted (h "name" (by decide) hn)
  have hkind : (seen definition names).kind.getD RouteDefinition.defaultKind = definition.kind :=
    RouteDefinition.kindField.getD_found_seen rfl (h "type" (by decide))
  have hpattern : (seen definition names).pattern.getD none = definition.pattern :=
    RouteDefinition.patternField.getD_found_seen rfl (h "pattern" (by decide))
  have hparameters : (seen definition names).parameters.getD .empty = definition.parameters :=
    RouteDefinition.parametersField.getD_found_seen rfl (h "parameters" (by decide))
  have hfound : (seen definition names).name = some definition.name := if_pos hname
  simp only [DefinitionFields.definition, hfound, hkind, hpattern, hparameters]

end DefinitionFields

namespace RouteDefinition

variable {definition : RouteDefinition}

theorem reads_object {pieces : List Json.Piece} {gap : List Char} (hg : Json.Blank gap)
    (spelled : ∀ piece ∈ pieces, piece.Spelled)
    (given : ∀ piece ∈ pieces, definition.Gives depth piece.name piece.text)
    (once : ((pieces.map Json.Piece.name).filter (· ∈ fieldNames)).Nodup)
    (omitted : ∀ name ∈ fieldNames, name ∉ pieces.map Json.Piece.name →
      definition.field? name = omitted? name)
    (hb : (Json.bracketed '\x7b' '}' (pieces.map Json.Piece.part) gap).length ≤ bound) :
    (read bound (depth + 1)).Reads (Json.bracketed '\x7b' '}' (pieces.map Json.Piece.part) gap)
      definition := by
  have hlengths : ∀ piece ∈ pieces, piece.text.length ≤ bound := by
    intro piece hp
    have hpart : piece.part ∈ pieces.map Json.Piece.part := List.mem_map_of_mem hp
    exact Nat.le_trans (spelled piece hp).length_le
      (Nat.le_trans (Json.length_le_bracketed hpart) hb)
  have hmembers : Json.Reader.ReadsMembers (DefinitionFields.read bound depth)
      DefinitionFields.unread (pieces.map Json.Piece.part)
      (DefinitionFields.seen definition (pieces.map Json.Piece.name)) :=
    DefinitionFields.readsMembers_seen [] spelled given once hlengths
  have hfields := hmembers.readMembers hg hb
  have hnamed : (readNamed bound depth).Reads
      (Json.commaSeparated (pieces.map Json.Piece.part) ++ (gap ++ ['}'])) definition := by
    intro rest hr
    obtain ⟨after, ha, hread⟩ := hfields rest hr
    refine ⟨after, ha, ?_⟩
    simp only [readNamed, hread, bind, Except.bind, DefinitionFields.definition_seen omitted, pure,
      Except.pure]
  exact hnamed.readRecord _

/-! ### Lists -/

variable {name : String} {names : List String} {parts : List (List Char)} {text : List Char}

/-- One more field is read from the list, or the list has ended and the field has its default. -/
theorem Lists.readField {α : Type} (field : Field α) {default : α}
    (hd : field.default = some default) (h : definition.Lists depth (field.name :: names) parts)
    (hb : ∀ part ∈ parts, part.length ≤ bound) {tail rest : List Char}
    (ht : Json.skipBlanks text = Json.skipBlanks (Json.separated false parts ++ tail))
    (hend : Json.skipBlanks tail = ']' :: rest) :
    ∃ after, Json.readField false (field.reader bound depth) default text =
        .ok (field.value definition, after) ∧
      Json.skipBlanks after = Json.skipBlanks (Json.separated false parts.tail ++ tail) ∧
      definition.Lists depth names parts.tail := by
  cases h with
  | omitted h =>
      obtain ⟨hfirst, hothers⟩ := List.forall_mem_cons.mp h
      have hclose : Json.skipBlanks text = ']' :: rest := ht.trans hend
      have hdefault : field.value definition = default :=
        Option.some.inj ((field.default_of_omitted hfirst).symm.trans hd)
      refine ⟨text, ?_, ht, .omitted hothers⟩
      rw [hdefault]
      exact Json.Reader.readField_end _ default false hclose
  | @given _ _ part parts first others =>
      have hread := field.reads first (hb part List.mem_cons_self)
      obtain ⟨after, ha, hfield⟩ :=
        hread.readField (field.skipsBlanks bound depth) first.begins default ht hend
      exact ⟨after, hfield, ha, others⟩

theorem Lists.eq_nil (h : definition.Lists depth [] parts) : parts = [] := by
  cases h
  rfl

theorem Lists.readListed (h : definition.Lists depth fieldNames parts)
    (hb : ∀ part ∈ parts, part.length ≤ bound) {tail rest : List Char}
    (hend : Json.skipBlanks tail = ']' :: rest) :
    ∃ after, Json.skipBlanks after = ']' :: rest ∧
      RouteDefinition.readListed bound depth (Json.separated true parts ++ tail) =
        .ok (definition, after) := by
  cases h with
  | omitted h => exact nomatch nameField.default_of_omitted (h "name" (by decide))
  | @given _ _ part parts first others =>
      obtain ⟨hpart, hb⟩ := List.forall_mem_cons.mp hb
      have hbtail : ∀ part ∈ parts.tail, part.length ≤ bound :=
        fun part hp => hb part (List.mem_of_mem_tail hp)
      have hbtail2 : ∀ part ∈ parts.tail.tail, part.length ≤ bound :=
        fun part hp => hbtail part (List.mem_of_mem_tail hp)
      obtain ⟨_, hskip, hname⟩ :=
        nameField.reads first hpart _ (Json.ends_separated parts (.inl rfl) hend)
      obtain ⟨_, hkind, hskip, others⟩ := others.readField kindField rfl hb hskip hend
      obtain ⟨_, hpattern, hskip, others⟩ := others.readField patternField rfl hbtail hskip hend
      obtain ⟨after, hparameters, hskip, others⟩ :=
        others.readField parametersField rfl hbtail2 hskip hend
      rw [others.eq_nil, Json.separated, List.nil_append, hend] at hskip
      refine ⟨after, hskip, ?_⟩
      dsimp only [nameField, kindField] at hname hkind
      dsimp only [patternField, parametersField] at hpattern hparameters
      rw [RouteDefinition.readListed, Json.Reader.nextItem_separated first.begins rfl]
      simp only [bind, Except.bind, Json.skipsBlanks_readString _, hname, hkind, hpattern,
        hparameters, pure, Except.pure]

theorem reads_list {gap : List Char} (hg : Json.Blank gap)
    (h : definition.Lists depth fieldNames parts)
    (hb : (Json.bracketed '[' ']' parts gap).length ≤ bound) :
    (read bound (depth + 1)).Reads (Json.bracketed '[' ']' parts gap) definition := by
  apply Json.Reader.reads_of_eq
  intro rest _
  have hlengths : ∀ part ∈ parts, part.length ≤ bound :=
    fun part hp => Nat.le_trans (Json.length_le_bracketed hp) hb
  have hend := @Json.skipBlanks_append_cons gap hg ']' (by decide) rest
  obtain ⟨after, ha, hread⟩ := h.readListed hlengths hend
  rw [Json.bracketed, List.cons_append, Json.closed_append]
  show (readListed bound depth _ >>= _) = _
  simp only [hread, bind, Except.bind, Json.afterMark_of_skipBlanks ha]
  rfl

/-! ### Definitions -/

theorem skipsBlanks_read (bound depth : Nat) : (read bound depth).SkipsBlanks :=
  Json.Reader.skipsBlanks_readRecord depth _ _

theorem Spells.reads (h : definition.Spells depth text) (hb : text.length ≤ bound) :
    (read bound depth).Reads text definition := by
  induction h with
  | object hg spelled given once omitted => exact reads_object hg spelled given once omitted hb
  | list hg listed => exact reads_list hg listed hb
  | padded hl hr _ ih =>
      simp only [List.length_append] at hb
      exact (ih (by omega)).padded (skipsBlanks_read bound _) hl hr

/-! ### Written definitions -/

/-- No floating-point number stands anywhere in the parameters. -/
def FloatFree (definition : RouteDefinition) : Prop :=
  ∀ member ∈ definition.parameters.members, ¬ member.2.HasFloat

/-- If the parameters of the first hold no floating-point number, definitions are the same only if
they are equal. -/
theorem beq_iff (a b : RouteDefinition) (he : a.FloatFree) : (a == b) = true ↔ a = b := by
  obtain ⟨name, kind, pattern, parameters⟩ := a
  obtain ⟨name', kind', pattern', parameters'⟩ := b
  show same _ _ = true ↔ _
  simp [same, Json.sameMembers_iff parameters.members parameters'.members he, and_assoc,
    Json.Object.ext_iff]

/-- The members that are written. -/
def pieces (definition : RouteDefinition) : List Json.Piece :=
  [.written "name" (Json.writeText definition.name.toList),
    .written "type" (Json.writeText definition.kind.toList)] ++
  (match definition.pattern with
    | some pattern => [.written "pattern" (Json.writeText pattern.toList)]
    | none => []) ++
  (if definition.parameters.members.isEmpty then []
    else [.written "parameters" (Json.write (.object definition.parameters.members))])

theorem map_part_pieces (definition : RouteDefinition) :
    definition.pieces.map Json.Piece.part = definition.members := by
  obtain ⟨name, kind, pattern, members, sorted⟩ := definition
  cases pattern <;> cases members <;> rfl

variable {value : Json}

theorem fits_field? (hf : definition.parameters.Fits depth)
    (h : definition.field? name = some value) : value.Fits (depth + 1) := by
  unfold field? at h
  split at h
  · cases h
    exact .string _
  split at h
  · cases h
    exact .string _
  split at h
  · cases h
    cases definition.pattern with
    | none => exact .null
    | some pattern => exact .string pattern
  split at h
  · cases h
    exact .object definition.parameters.sorted hf
  · cases h

theorem FloatFree.field? (he : definition.FloatFree) (h : definition.field? name = some value) :
    ¬ value.HasFloat := by
  unfold RouteDefinition.field? at h
  split at h
  · cases h
    exact Json.not_hasFloat_string _
  split at h
  · cases h
    exact Json.not_hasFloat_string _
  split at h
  · cases h
    cases definition.pattern with
    | none => exact Json.not_hasFloat_null
    | some pattern => exact Json.not_hasFloat_string pattern
  split at h
  · cases h
    rw [Json.hasFloat_object_iff]
    exact fun ⟨member, hm, hfloat⟩ => he member hm hfloat
  · cases h

theorem gives_write (hf : definition.parameters.Fits depth) (he : definition.FloatFree)
    (h : definition.field? name = some value) :
    definition.Gives (depth + 1) name (Json.write value) := by
  rw [Gives, h]
  exact Json.spells_write (fits_field? hf h) (he.field? h)

theorem exists_of_mem_pieces {piece : Json.Piece} (h : piece ∈ definition.pieces) :
    ∃ name value, definition.field? name = some value ∧
      piece = .written name (Json.write value) := by
  simp only [pieces, List.mem_append, List.mem_cons, List.not_mem_nil, or_false] at h
  rcases h with ((rfl | rfl) | h) | h
  · exact ⟨"name", .string definition.name, rfl, rfl⟩
  · exact ⟨"type", .string definition.kind, rfl, rfl⟩
  · split at h
    · next pattern hp =>
      rw [List.mem_singleton] at h
      refine ⟨"pattern", .string pattern, ?_, h⟩
      simp [field?, hp, Json.ofString?]
    · cases h
  · split at h
    · cases h
    · rw [List.mem_singleton] at h
      exact ⟨"parameters", .object definition.parameters.members, rfl, h⟩

/-- What is left out when a definition is written equals its default. -/
theorem omitted_of_not_mem_pieces (hfield : name ∈ fieldNames)
    (h : name ∉ definition.pieces.map Json.Piece.name) :
    definition.field? name = omitted? name := by
  simp only [fieldNames, List.mem_cons, List.not_mem_nil, or_false] at hfield
  obtain ⟨_, _, pattern, members, sorted⟩ := definition
  rcases hfield with rfl | rfl | rfl | rfl
  · simp [pieces, Json.Piece.written] at h
  · simp [pieces, Json.Piece.written] at h
  · cases pattern with
    | none => rfl
    | some pattern => simp [pieces, Json.Piece.written] at h
  · cases members with
    | nil => rfl
    | cons member members => simp [pieces, Json.Piece.written] at h

theorem nodup_pieces (definition : RouteDefinition) :
    ((definition.pieces.map Json.Piece.name).filter (· ∈ fieldNames)).Nodup := by
  obtain ⟨_, _, pattern, members, sorted⟩ := definition
  apply List.Pairwise.filter
  show List.Nodup _
  cases pattern <;> cases members <;> simp [pieces, Json.Piece.written]

theorem spells_write (hf : definition.parameters.Fits depth) (he : definition.FloatFree) :
    definition.Spells (depth + 2) definition.write := by
  have hspelled : ∀ piece ∈ definition.pieces, piece.Spelled := by
    intro piece hp
    obtain ⟨name, value, -, rfl⟩ := exists_of_mem_pieces hp
    exact Json.Piece.spelled_written name _
  have hgiven : ∀ piece ∈ definition.pieces,
      definition.Gives (depth + 1) piece.name piece.text := by
    intro piece hp
    obtain ⟨name, value, hfield, rfl⟩ := exists_of_mem_pieces hp
    exact gives_write hf he hfield
  rw [write, Json.writeObject_eq, ← map_part_pieces]
  exact .object Json.blank_nil hspelled hgiven definition.nodup_pieces
    fun _ hfield hnot => omitted_of_not_mem_pieces hfield hnot

/-- The fields written as a list. -/
def listed (definition : RouteDefinition) : List (List Char) :=
  fieldNames.filterMap fun name => (definition.field? name).map Json.write

theorem spells_listed (hf : definition.parameters.Fits depth) (he : definition.FloatFree) :
    definition.Spells (depth + 2) (Json.writeList definition.listed) := by
  rw [Json.writeList_eq]
  refine .list Json.blank_nil ?_
  exact .given (gives_write hf he rfl) (.given (gives_write hf he rfl)
    (.given (gives_write hf he rfl) (.given (gives_write hf he rfl) (.omitted (by simp)))))

/-- **A definition is read from each of its spellings.** If the parameters nest no deeper than a
reader follows them and hold no floating-point number, every text that gives the fields is read as
the definition: an object with the fields in any order, each at most once, and with any other
members among them, or the list of the fields in order, where fields that equal their defaults may
be left out; and there are texts of both kinds. -/
theorem ofJson_spelled (hf : definition.parameters.Fits (Json.nestingLimit - 2))
    (he : definition.FloatFree) :
    (∀ text : String, definition.Spells Json.nestingLimit text.toList →
      ofJson text = .ok definition ∧ (definition == definition) = true) ∧
    definition.Spells Json.nestingLimit definition.write ∧
    definition.Spells Json.nestingLimit (Json.writeList definition.listed) := by
  refine ⟨?_, spells_write hf he, spells_listed hf he⟩
  intro text h
  have hread : Json.readWhole (fun bound => read bound Json.nestingLimit)
      (String.ofList text.toList) = .ok definition :=
    Json.readWhole_of_reads (h.reads (Nat.le_refl _))
  rw [String.ofList_toList] at hread
  exact ⟨hread, (beq_iff definition definition he).mpr rfl⟩

/-- A definition with a parameter, of the default kind and without a pattern. -/
def unordered : RouteDefinition :=
  ⟨"r", "pattern", none, ⟨[("b", .number (.integer 7))], by decide⟩⟩

/-- The members of a text of the definition: one of another name with half a pair of code units, the
parameters, and the name with an escape. -/
def unorderedPieces : List Json.Piece :=
  [⟨"x", " \"\\ud800\" ".toList, "\"x\": \"\\ud800\" ".toList⟩,
    ⟨"parameters", "\x7b\"b\" : 7\x7d".toList, " \"parameters\" :\x7b\"b\" : 7\x7d".toList⟩,
    ⟨"name", "\"r\"".toList, "\"n\\u0061me\":\"r\"".toList⟩]

/-- A text of the definition. -/
def unorderedText : String :=
  " \x7b\"x\": \"\\ud800\" , \"parameters\" :\x7b\"b\" : 7\x7d,\"n\\u0061me\":\"r\"\x7d\n"

theorem spelled_unorderedPieces : ∀ piece ∈ unorderedPieces, piece.Spelled := by
  have hx : Json.SpellsChars "x".toList "x".toList := Json.spellsChars_flatMap_writeChar "x".toList
  have hparameters : Json.SpellsChars "parameters".toList "parameters".toList :=
    Json.spellsChars_flatMap_writeChar _
  have hname : Json.SpellsChars "name".toList ("n".toList ++ ("\\u0061".toList ++ "me".toList)) :=
    .cons (.plain (by decide) (by decide) (by decide))
      (.cons (@Json.SpellsChar.unit _ _ _ _ 97 (by decide) (by decide))
        (Json.spellsChars_flatMap_writeChar _))
  intro piece hp
  simp only [unorderedPieces, List.mem_cons, List.not_mem_nil, or_false] at hp
  rcases hp with rfl | rfl | rfl
  · exact @Json.SpellsMember.mk _ _ [] _ [] (by decide) hx (by decide)
  · exact @Json.SpellsMember.mk _ _ [' '] _ [' '] (by decide) hparameters (by decide)
  · exact @Json.SpellsMember.mk _ _ [] _ [] (by decide) hname (by decide)

theorem gives_unorderedPieces :
    ∀ piece ∈ unorderedPieces, unordered.Gives 126 piece.name piece.text := by
  intro piece hp
  simp only [unorderedPieces, List.mem_cons, List.not_mem_nil, or_false] at hp
  rcases hp with rfl | rfl | rfl
  · have hunit : Json.IsCharText "\\ud800".toList := .unit (by decide)
    have hletters : Json.IsStringText "\\ud800".toList :=
      ⟨["\\ud800".toList], by simpa using hunit, rfl⟩
    exact @Json.WellFormed.padded [' '] _ [' '] (by decide) (by decide) (.string hletters)
  · have hwrite : (Json.Number.integer 7).write.toList = "7".toList := by decide
    have hseven : Json.Spells 125 (.number (.integer 7)) "7".toList := hwrite ▸ .integer (by decide)
    have hvalue : Json.Spells 125 (.number (.integer 7)) " 7".toList :=
      @Json.Spells.padded _ _ [' '] _ [] (by decide) (by decide) hseven
    have hname : Json.SpellsMember "b" " 7".toList "\"b\" : 7".toList :=
      @Json.SpellsMember.mk _ _ [] _ [' '] (by decide) (Json.spellsChars_flatMap_writeChar _)
        (by decide)
    exact @Json.Spells.object _ [(.number (.integer 7), ⟨"b", " 7".toList, "\"b\" : 7".toList⟩)] []
      (by decide) (List.forall_mem_singleton.mpr hname) (List.forall_mem_singleton.mpr hvalue)
  · exact .string (Json.spellsChars_flatMap_writeChar _)

/-- The definition is read from the text. -/
theorem ofJson_unordered : unordered.parameters.Fits (Json.nestingLimit - 2) ∧ unordered.FloatFree ∧
    unordered.Spells Json.nestingLimit unorderedText.toList ∧
    ofJson unorderedText = .ok unordered ∧ (unordered == unordered) = true := by
  have hfit : unordered.parameters.Fits (Json.nestingLimit - 2) := by
    intro member hm
    rw [List.mem_singleton.mp hm]
    exact .number (by decide)
  have hfree : unordered.FloatFree := by
    intro member hm
    rw [List.mem_singleton.mp hm]
    simp
  have homitted : ∀ name ∈ fieldNames, name ∉ unorderedPieces.map Json.Piece.name →
      unordered.field? name = omitted? name := by
    intro name hfield hnot
    simp only [fieldNames, List.mem_cons, List.not_mem_nil, or_false] at hfield
    rcases hfield with rfl | rfl | rfl | rfl
    · exact absurd hnot (by decide)
    · rfl
    · rfl
    · exact absurd hnot (by decide)
  have hobject : unordered.Spells 127 _ :=
    .object Json.blank_nil spelled_unorderedPieces gives_unorderedPieces (by decide) homitted
  have htext : unordered.Spells Json.nestingLimit unorderedText.toList :=
    @Spells.padded _ _ [' '] _ ['\n'] (by decide) (by decide) hobject
  exact ⟨hfit, hfree, htext, (ofJson_spelled hfit hfree).1 _ htext⟩

end RouteDefinition

end UrlRouting
