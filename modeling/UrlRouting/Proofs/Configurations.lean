import UrlRouting.Proofs.Fields

/-! # Written tables are read back

What is left out when a table is written is what is assumed when it is read: no pattern, and no
parameters.

* `RouteDefinition.reads_write` and `RouteTable.reads_write`: definitions and tables are read back.
* `RouteTable.ofJson_toJson`: so are the tables that come from a JSON text, if their parameters hold
  no floating-point number. -/

namespace UrlRouting

variable {bound depth : Nat}

/-! ### Definitions -/

namespace RouteDefinition

theorem reads_write {definition : RouteDefinition} (hf : definition.parameters.Fits depth)
    (he : definition.FloatFree) (hb : definition.write.length ≤ bound) :
    (read bound (depth + 2)).Reads definition.write definition :=
  (spells_write hf he).reads hb

theorem beq_list_iff (a b : List RouteDefinition) (he : ∀ definition ∈ a, definition.FloatFree) :
    (a == b) = true ↔ a = b := by
  induction a generalizing b with
  | nil => cases b <;> simp
  | cons first rest ih =>
      obtain ⟨hfirst, hrest⟩ := List.forall_mem_cons.mp he
      cases b with
      | nil => simp
      | cons other others =>
          rw [List.cons_beq_cons, Bool.and_eq_true, beq_iff first other hfirst, ih others hrest,
            List.cons.injEq]

end RouteDefinition

/-! ### Tables -/

namespace RouteTable

/-- The written text of a table. -/
def write (table : RouteTable) : List Char :=
  Json.writeObject
    [Json.writeMember "routes" (Json.writeList (table.routes.map RouteDefinition.write))]

theorem reads_write {table : RouteTable}
    (hf : ∀ definition ∈ table.routes, definition.parameters.Fits depth)
    (he : ∀ definition ∈ table.routes, definition.FloatFree)
    (hb : table.write.length ≤ bound) :
    (read bound (depth + 4)).Reads table.write table := by
  rw [write, Json.writeObject_eq] at hb ⊢
  have hspelled := Json.spellsMember_writeMember "routes"
    (Json.writeList (table.routes.map RouteDefinition.write))
  have hlist : (Json.writeList (table.routes.map RouteDefinition.write)).length ≤ bound :=
    Nat.le_trans hspelled.length_le
      (Nat.le_trans (Json.length_le_bracketed (List.mem_singleton_self _)) hb)
  rw [Json.writeList_eq] at hlist
  have hdefinitions : List.Forall₂ (fun part definition => Json.Begins part ∧
      (RouteDefinition.read bound (depth + 2)).Reads part definition)
      (table.routes.map RouteDefinition.write) table.routes := by
    rw [List.forall₂_map_left_iff, List.forall₂_same]
    intro definition hd
    have hpart : definition.write ∈ table.routes.map RouteDefinition.write :=
      List.mem_map_of_mem hd
    have hlength := Nat.le_trans (Json.length_le_bracketed hpart) hlist
    refine ⟨Json.begins_of_isBlank (by decide) (by decide) _, ?_⟩
    exact RouteDefinition.reads_write (hf definition hd) (he definition hd) hlength
  have hroutes : (readRoutes bound (depth + 3)).Reads
      (Json.writeList (table.routes.map RouteDefinition.write)) table.routes := by
    rw [Json.writeList_eq]
    exact Json.Reader.reads_readItems (RouteDefinition.skipsBlanks_read bound (depth + 2))
      hdefinitions Json.blank_nil hlist
  have hmember {gap : List Char} (hg : Json.Blank gap) :
      (readMember bound (depth + 3) none "routes").Reads
        (gap ++ ':' :: Json.writeList (table.routes.map RouteDefinition.write))
        (some table.routes) := by
    rw [readMember, if_pos rfl]
    exact hroutes.readInto hg some
  have hmembers := (Json.Reader.ReadsMembers.cons hspelled hmember (.nil _)).readMembers
    Json.blank_nil hb
  have hnamed : (readNamed bound (depth + 3)).Reads _ table :=
    hmembers.map fun routes => RouteTable.mk (routes.getD [])
  exact hnamed.readRecord _

/-- If the parameters of the first hold no floating-point number, tables are the same only if they
are equal. -/
theorem beq_iff (a b : RouteTable) (he : ∀ definition ∈ a.routes, definition.FloatFree) :
    (a == b) = true ↔ a = b := by
  obtain ⟨routes⟩ := a
  obtain ⟨others⟩ := b
  rw [RouteTable.mk.injEq]
  exact RouteDefinition.beq_list_iff routes others he

/-- **Written tables are read back.** If no floating-point number stands anywhere in its parameters,
a table that comes from a JSON text gives a JSON text from which the same table comes: the same
definitions in the same order, with the patterns and parameters that were left out. -/
theorem ofJson_toJson {text : String} {table : RouteTable} (h : ofJson text = .ok table)
    (he : ∀ definition ∈ table.routes, definition.FloatFree) :
    ofJson table.toJson = .ok table ∧ (table == table) = true := by
  have hfit : ∀ definition ∈ table.routes, definition.parameters.Fits 123 := by
    refine of_ofJson (Json.Object.fits_empty 123) ?_ h
    intro bound inner hi
    have hinner : inner = 124 := Nat.add_right_cancel hi
    rw [hinner]
    exact Json.yields_readObject bound 123
  have hread : (read table.write.length Json.nestingLimit).Reads table.write table :=
    reads_write hfit he (Nat.le_refl _)
  exact ⟨Json.readWhole_of_reads hread, (beq_iff table table he).mpr rfl⟩

/-- A table with nested parameters and with a definition that lacks what may be left out. -/
def nestedTable : RouteTable :=
  ⟨[⟨"\u00e9\x01\"", "pattern", some "/\x7bid\x7d",
      ⟨[("a", .number (.integer (-9223372036854775808))),
        ("\ud7ff", .array [.null, .object [("b", .boolean true)]])], by decide⟩⟩,
    ⟨"", "other", none, .empty⟩]⟩

/-- A text of the table with blanks, escapes, members out of order and one that is given twice. The
second definition is the list of its fields. -/
def nestedText : String :=
  "\x7b\"routes\": [\x7b\"parameters\": \x7b\"\ud7ff\": 1.5, " ++
    "\"\ud7ff\": [null, \x7b\"b\": true\x7d], \"a\": -9223372036854775808\x7d, " ++
    "\"name\": \"\\u00E9\\u0001\\\"\", \"pattern\": \"\\/\x7bid\x7d\"\x7d, " ++
    "[\"\", \"other\", null]]\x7d"

/-- The table is read from the text, and again from what is written. -/
theorem ofJson_toJson_nested :
    ofJson nestedText = .ok nestedTable ∧
      (∀ definition ∈ nestedTable.routes, definition.FloatFree) ∧
      ofJson nestedTable.toJson = .ok nestedTable ∧ (nestedTable == nestedTable) = true := by
  have he : ∀ definition ∈ nestedTable.routes, definition.FloatFree := by
    simp [nestedTable, RouteDefinition.FloatFree, or_imp, forall_and]
  have hsame : (match ofJson nestedText with
      | .ok table => nestedTable == table
      | .error _ => false) = true := by
    decide +kernel
  have hread : ofJson nestedText = .ok nestedTable := by
    split at hsame
    · next table ht => rw [ht, (beq_iff nestedTable table he).mp hsame]
    · cases hsame
  exact ⟨hread, he, ofJson_toJson hread he⟩

end RouteTable

end UrlRouting
