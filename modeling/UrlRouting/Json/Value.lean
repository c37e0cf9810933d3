/-! # JSON values

* Numbers are integers or binary floating-point numbers; an integer never equals a floating-point
  number.
* The members of an object are sorted by name in code point order, and no name occurs twice.
  `Object` carries that, and `Object.insert` keeps it.
-/

namespace UrlRouting

namespace Json

/-- A number. -/
inductive Number where
  | integer (value : Int)
  | float (value : Float)
deriving Repr

/-- Equality of numbers; floating-point numbers compare as numbers, so the two zeros are equal. -/
def Number.same : Number → Number → Bool
  | .integer a, .integer b => a = b
  | .float a, .float b => a == b
  | _, _ => false

instance : BEq Number := ⟨Number.same⟩

end Json

/-- A JSON value. -/
inductive Json where
  | null
  | boolean (value : Bool)
  | number (value : Json.Number)
  | string (value : String)
  | array (items : List Json)
  | object (members : List (String × Json))

namespace Json

/-- Named values. -/
abbrev Members := List (String × Json)

namespace Members

/-- The names increase from each member to the next. -/
def Sorted (members : Members) : Prop := members.Pairwise fun a b => a.1 < b.1

instance (members : Members) : Decidable members.Sorted :=
  inferInstanceAs (Decidable (members.Pairwise fun a b => a.1 < b.1))

/-- The members with one name set. -/
def insert (name : String) (value : Json) : Members → Members
  | [] => [(name, value)]
  | member :: rest =>
    if name < member.1 then (name, value) :: member :: rest
    else if name = member.1 then (name, value) :: rest
    else member :: insert name value rest

theorem mem_of_mem_insert {members : Members} {name : String} {value : Json}
    {member : String × Json} (h : member ∈ members.insert name value) :
    member = (name, value) ∨ member ∈ members := by
  induction members with
  | nil => exact .inl (List.mem_singleton.mp h)
  | cons first rest ih =>
      rw [insert] at h
      split at h
      · exact List.mem_cons.mp h
      split at h
      · exact (List.mem_cons.mp h).imp_right (List.mem_cons_of_mem first)
      · rcases List.mem_cons.mp h with rfl | h
        · exact .inr List.mem_cons_self
        · exact (ih h).imp_right (List.mem_cons_of_mem first)

theorem Sorted.insert {members : Members} (h : members.Sorted) (name : String) (value : Json) :
    (members.insert name value).Sorted := by
  unfold Sorted at *
  induction members with
  | nil => exact List.pairwise_singleton _ _
  | cons first rest ih =>
      obtain ⟨hfirst, hrest⟩ := List.pairwise_cons.mp h
      rw [Members.insert]
      split
      · next hlt =>
        refine List.pairwise_cons.mpr ⟨?_, h⟩
        intro member hm
        rcases List.mem_cons.mp hm with rfl | hm
        · exact hlt
        · exact String.lt_trans hlt (hfirst member hm)
      split
      · next he =>
        subst he
        exact List.pairwise_cons.mpr ⟨hfirst, hrest⟩
      · next hlt hne =>
        have hgt : first.1 < name :=
          Std.lt_of_le_of_ne (String.not_lt.mp hlt) (Ne.symm hne)
        refine List.pairwise_cons.mpr ⟨?_, ih hrest⟩
        intro member hm
        rcases mem_of_mem_insert hm with rfl | hm
        · exact hgt
        · exact hfirst member hm

end Members

/-- The members of an object, sorted by name. -/
@[ext]
structure Object where
  members : Members
  sorted : members.Sorted

namespace Object

/-- An object without members. -/
def empty : Object := ⟨[], List.Pairwise.nil⟩

@[simp] theorem members_empty : empty.members = [] := rfl

/-- The object with one name set. -/
def insert (object : Object) (name : String) (value : Json) : Object :=
  ⟨object.members.insert name value, object.sorted.insert name value⟩

end Object

mutual

/-- Equality of values. -/
def same : Json → Json → Bool
  | null, null => true
  | boolean a, boolean b => a = b
  | number a, number b => a == b
  | string a, string b => a = b
  | array a, array b => sameItems a b
  | object a, object b => sameMembers a b
  | _, _ => false

/-- Equality of items one by one. -/
def sameItems : List Json → List Json → Bool
  | [], [] => true
  | a :: as, b :: bs => same a b && sameItems as bs
  | _, _ => false

/-- Equality of members one by one. -/
def sameMembers : List (String × Json) → List (String × Json) → Bool
  | [], [] => true
  | (name, a) :: as, (name', b) :: bs => name = name' && same a b && sameMembers as bs
  | _, _ => false

end

instance : BEq Json := ⟨same⟩

end Json

end UrlRouting
