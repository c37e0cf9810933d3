import UrlRouting.Proofs.Yields
import UrlRouting.Proofs.Spellings

/-! # Values that are read

* `Json.Fits` is the invariant of the values that are read: objects are sorted, integers are in
  range, and at most so many containers are nested (`Json.yields_readValue`).
* `Json.spells_write`: what is written for a value that fits and holds no floating-point number is
  one of its spellings; so it is read back.
* `Json.same_iff`: without floating-point numbers, values are the same only if they are equal. -/

namespace UrlRouting.Json

/-! ### What values that are read are like -/

/-- In the value at most `depth` containers are nested, integers are in range and the members of
objects are sorted. -/
inductive Fits : Nat → Json → Prop
  | null {depth : Nat} : Fits depth null
  | boolean {depth : Nat} (value : Bool) : Fits depth (boolean value)
  | number {depth : Nat} {value : Number} (range : value.InRange) : Fits depth (number value)
  | string {depth : Nat} (value : String) : Fits depth (string value)
  | array {depth : Nat} {items : List Json} (items_fit : ∀ item ∈ items, Fits depth item) :
    Fits (depth + 1) (array items)
  | object {depth : Nat} {members : Members} (sorted : members.Sorted)
    (members_fit : ∀ member ∈ members, Fits depth member.2) : Fits (depth + 1) (object members)

/-- The members of an object fit. -/
def Object.Fits (depth : Nat) (object : Object) : Prop :=
  ∀ member ∈ object.members, member.2.Fits depth

theorem Object.fits_empty (depth : Nat) : Object.empty.Fits depth := fun _ hm => nomatch hm

theorem Object.Fits.insert {depth : Nat} {object : Object} (h : object.Fits depth) (name : String)
    {value : Json} (hv : value.Fits depth) : (object.insert name value).Fits depth := by
  intro member hm
  rcases Members.mem_of_mem_insert hm with rfl | hm
  · exact hv
  · exact h member hm

theorem yields_readMembers_addMember {bound depth : Nat} {value : Reader Json}
    (h : value.Yields (Fits depth)) :
    (readMembers bound (addMember value) .empty).Yields (Object.Fits depth) := by
  refine Reader.yields_readMembers ?_ (Object.fits_empty depth) bound
  intro state name hs start after changed hm
  obtain ⟨⟨found, _⟩, hv, hm⟩ := bind_eq_ok.mp hm
  cases hm
  exact hs.insert name (h.readNamed hv)

theorem fits_of_readValue {bound depth : Nat}
    (h : ∀ inner, depth = inner + 1 → (readValue bound inner).Yields (Fits inner)) :
    (readValue bound depth).Yields (Fits depth) := by
  intro text rest value hr
  unfold readValue at hr
  split at hr
  · cases hr
  split at hr
  · obtain ⟨_, _, hr⟩ := bind_eq_ok.mp hr
    cases hr
    exact .null
  split at hr
  · obtain ⟨_, _, hr⟩ := bind_eq_ok.mp hr
    cases hr
    exact .boolean true
  split at hr
  · obtain ⟨_, _, hr⟩ := bind_eq_ok.mp hr
    cases hr
    exact .boolean false
  split at hr
  · obtain ⟨⟨found, _⟩, _, hr⟩ := bind_eq_ok.mp hr
    cases hr
    exact .string found
  split at hr
  · obtain ⟨⟨found, _⟩, hn, hr⟩ := bind_eq_ok.mp hr
    cases hr
    exact .number (inRange_of_readNumber hn)
  split at hr
  · split at hr
    · cases hr
    · obtain ⟨⟨items, _⟩, hitems, hr⟩ := bind_eq_ok.mp hr
      cases hr
      exact .array ((h _ rfl).readItems bound hitems)
  split at hr
  · split at hr
    · cases hr
    · obtain ⟨⟨found, _⟩, hfound, hr⟩ := bind_eq_ok.mp hr
      cases hr
      exact .object found.sorted (yields_readMembers_addMember (h _ rfl) hfound)
  · cases hr

theorem yields_readValue (bound depth : Nat) : (readValue bound depth).Yields (Fits depth) := by
  induction depth with
  | zero => exact fits_of_readValue fun _ h => nomatch h
  | succ depth ih =>
      apply fits_of_readValue
      rintro _ ⟨⟩
      exact ih

theorem yields_readObject (bound depth : Nat) :
    (readObject bound (depth + 1)).Yields (Object.Fits depth) := by
  apply Reader.yields_readObject_of_members
  intro inner hd
  have hinner : depth = inner := Nat.succ.inj hd
  rw [← hinner]
  exact yields_readMembers_addMember (yields_readValue bound depth)

/-! ### Written values -/

namespace Members

/-- A member whose name is greater than all others becomes the last. -/
theorem insert_of_forall_lt {members : Members} {name : String} (value : Json)
    (h : ∀ member ∈ members, member.1 < name) :
    members.insert name value = members ++ [(name, value)] := by
  induction members with
  | nil => rfl
  | cons first rest ih =>
      obtain ⟨hfirst, hrest⟩ := List.forall_mem_cons.mp h
      have hnot : ¬ name < first.1 := fun hlt => String.lt_irrefl _ (String.lt_trans hlt hfirst)
      have hne : ¬ name = first.1 := fun he => String.lt_irrefl _ (he ▸ hfirst)
      rw [insert, if_neg hnot, if_neg hne, ih hrest, List.cons_append]

/-- The pieces of the text of written members. -/
def pieces (members : Members) : List (Json × Piece) :=
  members.map fun member => (member.2, .written member.1 (write member.2))

theorem map_part_pieces (members : Members) :
    (members.pieces.map fun piece => piece.2.part) = writeMembers members := by
  induction members with
  | nil => rfl
  | cons member rest ih =>
      obtain ⟨name, value⟩ := member
      rw [writeMembers, ← ih]
      rfl

theorem Sorted.members_object_pieces {members : Members} (h : members.Sorted) :
    (Piece.object members.pieces).members = members := by
  have hfrom : ∀ (front : Object) (rest : Members), Sorted (front.members ++ rest) →
      (rest.pieces.foldl (fun object piece => object.insert piece.2.name piece.1) front).members =
        front.members ++ rest := by
    intro front rest
    induction rest generalizing front with
    | nil => exact fun _ => (List.append_nil front.members).symm
    | cons member rest ih =>
        intro hs
        obtain ⟨name, value⟩ := member
        have hlt : ∀ member ∈ front.members, member.1 < name :=
          fun member hm => (List.pairwise_append.mp hs).2.2 member hm _ List.mem_cons_self
        have hinsert : (front.insert name value).members = front.members ++ [(name, value)] :=
          insert_of_forall_lt value hlt
        rw [List.append_cons, ← hinsert] at hs ⊢
        exact ih _ hs
  exact hfrom .empty members h

end Members

theorem writeEach_eq_map (items : List Json) : writeEach items = items.map write := by
  induction items with
  | nil => rfl
  | cons item rest ih => rw [writeEach, ih, List.map_cons]

/-- In the value is a floating-point number. -/
inductive HasFloat : Json → Prop
  | number (value : Float) : HasFloat (number (.float value))
  | item {items : List Json} {item : Json} (mem : item ∈ items) (h : HasFloat item) :
    HasFloat (array items)
  | member {members : Members} {member : String × Json} (mem : member ∈ members)
    (h : HasFloat member.2) : HasFloat (object members)

@[simp] theorem not_hasFloat_null : ¬ null.HasFloat := nofun

@[simp] theorem not_hasFloat_boolean (value : Bool) : ¬ (boolean value).HasFloat := nofun

@[simp] theorem not_hasFloat_integer (n : Int) : ¬ (number (.integer n)).HasFloat := nofun

@[simp] theorem not_hasFloat_string (value : String) : ¬ (string value).HasFloat := nofun

@[simp] theorem hasFloat_array_iff {items : List Json} :
    (array items).HasFloat ↔ ∃ item ∈ items, item.HasFloat := by
  constructor
  · intro h
    cases h with
    | item mem h => exact ⟨_, mem, h⟩
  · intro ⟨_, hm, h⟩
    exact .item hm h

@[simp] theorem hasFloat_object_iff {members : Members} :
    (object members).HasFloat ↔ ∃ member ∈ members, member.2.HasFloat := by
  constructor
  · intro h
    cases h with
    | member mem h => exact ⟨_, mem, h⟩
  · intro ⟨_, hm, h⟩
    exact .member hm h

theorem spells_write {depth : Nat} {value : Json} (hf : value.Fits depth) (he : ¬ value.HasFloat) :
    Spells depth value (write value) := by
  induction hf with
  | null => exact .null
  | boolean value => exact .boolean value
  | @number depth value range =>
      cases value with
      | integer n => exact .integer range
      | float x => exact absurd (.number x) he
  | string value => exact .string (spellsChars_flatMap_writeChar value.toList)
  | @array depth items _ ih =>
      have hpieces : ∀ piece ∈ items.map fun item => (item, write item),
          Spells depth piece.1 piece.2 := by
        intro piece hp
        obtain ⟨item, hm, rfl⟩ := List.mem_map.mp hp
        exact ih item hm fun h => he (.item hm h)
      have hspelled := Spells.array blank_nil hpieces
      rw [write, writeEach_eq_map, writeList_eq]
      simpa [Function.comp_def] using hspelled
  | @object depth members sorted _ ih =>
      have hpieces : ∀ piece ∈ members.pieces, Spells depth piece.1 piece.2.text := by
        intro piece hp
        obtain ⟨member, hm, rfl⟩ := List.mem_map.mp hp
        exact ih member hm fun h => he (.member hm h)
      have hnames : ∀ piece ∈ members.pieces, piece.2.Spelled := by
        intro piece hp
        obtain ⟨member, _, rfl⟩ := List.mem_map.mp hp
        exact Piece.spelled_written _ _
      have hspelled := Spells.object blank_nil hnames hpieces
      rwa [sorted.members_object_pieces, members.map_part_pieces, ← writeObject_eq] at hspelled

/-! ### Equality -/

mutual

/-- If the first holds no floating-point number, values are the same only if they are equal. -/
theorem same_iff (a b : Json) (he : ¬ a.HasFloat) : same a b = true ↔ a = b := by
  match a with
  | null => cases b <;> simp [same]
  | boolean value => cases b <;> simp [same]
  | number (.float x) => exact absurd (.number x) he
  | number (.integer n) =>
      cases b with
      | number other => cases other <;> simp [same, BEq.beq, Number.same]
      | _ => simp [same]
  | string value => cases b <;> simp [same]
  | array items =>
      cases b with
      | array others =>
          rw [same, sameItems_iff items others fun item hm h => he (.item hm h), array.injEq]
      | _ => simp [same]
  | object members =>
      cases b with
      | object others =>
          rw [same, sameMembers_iff members others fun member hm h => he (.member hm h),
            object.injEq]
      | _ => simp [same]

theorem sameItems_iff (a b : List Json) (he : ∀ item ∈ a, ¬ item.HasFloat) :
    sameItems a b = true ↔ a = b := by
  match a, b with
  | [], [] => simp [sameItems]
  | [], _ :: _ => simp [sameItems]
  | _ :: _, [] => simp [sameItems]
  | first :: rest, other :: others =>
      obtain ⟨hfirst, hrest⟩ := List.forall_mem_cons.mp he
      rw [sameItems, Bool.and_eq_true, same_iff first other hfirst, sameItems_iff rest others hrest,
        List.cons.injEq]

theorem sameMembers_iff (a b : List (String × Json)) (he : ∀ member ∈ a, ¬ member.2.HasFloat) :
    sameMembers a b = true ↔ a = b := by
  match a, b with
  | [], [] => simp [sameMembers]
  | [], _ :: _ => simp [sameMembers]
  | _ :: _, [] => simp [sameMembers]
  | (name, value) :: rest, (other, found) :: others =>
      obtain ⟨hfirst, hrest⟩ := List.forall_mem_cons.mp he
      rw [sameMembers, Bool.and_eq_true, Bool.and_eq_true, decide_eq_true_eq,
        same_iff value found hfirst, sameMembers_iff rest others hrest, List.cons.injEq,
        Prod.mk.injEq]

end

end UrlRouting.Json
