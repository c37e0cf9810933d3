import Std.Data.HashMap

/-! # Named parameters

Values by name, in the order in which the names were first set.

* `set` replaces the value of a present name in place and appends a new name.
* `mergedOver` lays one list over another: own values win, the names of the base come first.
* Two lists are equal (`==`) if they give the same value to every name, in whatever order.
-/

namespace UrlRouting

/-- Values by name. No name occurs twice. -/
@[ext]
structure Parameters where
  entries : List (String × String)
  distinct : (entries.map Prod.fst).Nodup
deriving Repr

namespace Parameters

/-- No parameters. -/
def empty : Parameters := ⟨[], List.nodup_nil⟩

instance : EmptyCollection Parameters := ⟨empty⟩

/-- The entries with one name set: in place if it is present, else at the end. -/
def setEntry (name value : String) : List (String × String) → List (String × String)
  | [] => [(name, value)]
  | entry :: rest =>
    if entry.1 = name then (name, value) :: rest else entry :: setEntry name value rest

theorem mem_map_fst_setEntry {name value other : String} {entries : List (String × String)} :
    other ∈ (setEntry name value entries).map Prod.fst ↔
      other = name ∨ other ∈ entries.map Prod.fst := by
  induction entries with
  | nil => exact List.mem_cons
  | cons entry rest ih =>
      rw [setEntry]
      split
      · next he =>
        subst he
        rw [List.map_cons, List.map_cons, List.mem_cons, ← or_assoc, or_self]
      · rw [List.map_cons, List.map_cons, List.mem_cons, List.mem_cons, ih, or_left_comm]

theorem nodup_setEntry {entries : List (String × String)} (h : (entries.map Prod.fst).Nodup)
    (name value : String) : ((setEntry name value entries).map Prod.fst).Nodup := by
  induction entries with
  | nil => exact List.pairwise_singleton _ _
  | cons entry rest ih =>
      rw [List.map_cons, List.nodup_cons] at h
      rw [setEntry]
      split
      · next he =>
        subst he
        exact List.nodup_cons.mpr h
      · next he =>
        rw [List.map_cons, List.nodup_cons, mem_map_fst_setEntry, not_or]
        exact ⟨⟨he, h.1⟩, ih h.2⟩

/-- The parameters with one name set. -/
def set (parameters : Parameters) (name value : String) : Parameters :=
  ⟨setEntry name value parameters.entries, nodup_setEntry parameters.distinct name value⟩

/-- The parameters with the pairs set in order. -/
def setAll (parameters : Parameters) (pairs : List (String × String)) : Parameters :=
  pairs.foldl (fun result pair => result.set pair.1 pair.2) parameters

/-- The parameters of a list of pairs; of two values of one name the later counts. -/
def ofList (pairs : List (String × String)) : Parameters := empty.setAll pairs

/-- The value of a name. -/
def get? (parameters : Parameters) (name : String) : Option String :=
  parameters.entries.lookup name

/-- The name has a value. -/
def contains (parameters : Parameters) (name : String) : Bool :=
  parameters.entries.any fun entry => entry.1 = name

/-- The value of a name, or `default` if it has none. -/
def getD (parameters : Parameters) (name default : String) : String :=
  (parameters.get? name).getD default

/-- The number of names. -/
def size (parameters : Parameters) : Nat := parameters.entries.length

/-- There are no parameters. -/
def isEmpty (parameters : Parameters) : Bool := parameters.entries.isEmpty

/-- The parameters laid over `base`. -/
def mergedOver (parameters base : Parameters) : Parameters := base.setAll parameters.entries

/-- Equality in any order: as many names, and each with the value it has on the other side. -/
def sameValues (a b : Parameters) : Bool :=
  a.size = b.size && a.entries.all fun entry => b.get? entry.1 = some entry.2

instance : BEq Parameters := ⟨sameValues⟩

/-! ### Maps -/

/-- The values as a map without order. -/
def toMap (parameters : Parameters) : Std.HashMap String String :=
  Std.HashMap.ofList parameters.entries

/-- The parameters of a map, in the order in which the map lists them. -/
def ofMap (values : Std.HashMap String String) : Parameters := ofList values.toList

/-- The entries sorted by name, in code point order. -/
def sortedEntries (parameters : Parameters) : List (String × String) :=
  parameters.entries.mergeSort fun a b => a.1 ≤ b.1

end Parameters

end UrlRouting
