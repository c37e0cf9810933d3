import Mathlib.Data.List.Perm.Subperm
import UrlRouting.Proofs.Entries

/-! # Equality of parameters

Equality compares the numbers of entries and looks the entries of one side up in the other.

* `perm_of_beq`: no name occurs twice, so this finds every entry of the other side as well, and the
  entries are the same up to their order.
* `beq_iff_get?`, `beq_iff_perm`, `beq_iff_equiv_toMap`: hence parameters are equal if they give the
  same value to every name, if their entries are the same in some order, or if they make the same
  map.
* `equality_laws`: so equality is an equivalence, and the way through a map leads back to equal
  parameters, in whatever order the map lists its values. -/

namespace UrlRouting.Parameters

variable {a b c : Parameters}

/-- No entry of the other side is missed: there are as many of them as were found. -/
theorem perm_of_beq (h : (a == b) = true) : a.entries.Perm b.entries := by
  obtain ⟨hsize, hall⟩ := Bool.and_eq_true_iff.mp h
  have hsub : a.entries ⊆ b.entries := by
    intro entry hm
    have hv := List.all_eq_true.mp hall entry hm
    exact get?_eq_some_iff.mp (of_decide_eq_true hv)
  have hnodup : a.entries.Nodup := .of_map _ a.nodup_names
  have hle : b.entries.length ≤ a.entries.length := (of_decide_eq_true hsize).ge
  exact (List.subperm_of_subset hnodup hsub).perm_of_length_le hle

theorem beq_iff_get? : (a == b) = true ↔ ∀ name, a.get? name = b.get? name := by
  constructor
  · intro h
    exact get?_eq_of_perm (perm_of_beq h)
  · exact sameValues_of_get?

theorem beq_iff_perm : (a == b) = true ↔ b.entries.Perm a.entries := by
  constructor
  · intro h
    exact (perm_of_beq h).symm
  · intro hp
    apply beq_iff_get?.mpr
    exact get?_eq_of_perm hp.symm

theorem beq_iff_equiv_toMap : (a == b) = true ↔ a.toMap.Equiv b.toMap := by
  rw [beq_iff_get?]
  constructor
  · intro h
    apply Std.HashMap.Equiv.of_forall_getElem?_eq
    intro name
    rw [getElem?_toMap, getElem?_toMap, h]
  · intro he name
    rw [← getElem?_toMap, ← getElem?_toMap, he.getElem?_eq]

theorem beq_ofList_listing {listing : List (String × String)} (hl : listing.Perm a.toMap.toList) :
    (ofList listing == a) = true := by
  have hp : listing.Perm a.entries := hl.trans a.perm_toList_toMap
  have hnodup : (listing.map Prod.fst).Nodup := (hp.map Prod.fst).nodup_iff.mpr a.distinct
  rw [ofList_of_nodup hnodup, beq_iff_perm]
  exact hp.symm

/-- **Equality of parameters.** Parameters are equal if and only if they give the same value to every
name, if and only if their entries are permutations of each other, if and only if they make the same
map. So equality is reflexive, symmetric and transitive. A map that is made of parameters makes equal
parameters again, whatever the order in which it lists its values. -/
theorem equality_laws (a b c : Parameters) :
    ((a == b) = true ↔ ∀ name, a.get? name = b.get? name) ∧
      ((a == b) = true ↔ b.entries.Perm a.entries) ∧
      ((a == b) = true ↔ a.toMap.Equiv b.toMap) ∧
      (a == a) = true ∧ ((a == b) = true → (b == a) = true) ∧
      ((a == b) = true → (b == c) = true → (a == c) = true) ∧
      (ofMap a.toMap == a) = true ∧
      ∀ listing : List (String × String), listing.Perm a.toMap.toList →
        (ofList listing == a) = true := by
  refine ⟨beq_iff_get?, beq_iff_perm, beq_iff_equiv_toMap, ?_, ?_, ?_, ?_, ?_⟩
  · exact beq_iff_perm.mpr (.refl _)
  · rw [beq_iff_perm, beq_iff_perm]
    exact List.Perm.symm
  · rw [beq_iff_perm, beq_iff_perm, beq_iff_perm]
    exact fun hab hbc => hbc.trans hab
  · exact beq_ofList_listing (.refl _)
  · intro listing hl
    exact beq_ofList_listing hl

/-- Two orders of the same values, the second of which comes about by other operations, and parameters
that differ from both in one value. -/
theorem equality_laws_reordered :
    (ofList [("a", "1"), ("b", "0"), ("b", "2")] == (empty.set "b" "2").set "a" "1") = true ∧
      (ofList [("a", "1"), ("b", "0"), ("b", "2")]).toMap.Equiv
        ((empty.set "b" "2").set "a" "1").toMap ∧
      ((empty.set "b" "2").set "a" "1" == ofList [("b", "2"), ("a", "3")]) = false ∧
      [("b", "2"), ("a", "1")].Perm (ofList [("a", "1"), ("b", "0"), ("b", "2")]).toMap.toList ∧
      (ofList [("b", "2"), ("a", "1")] == ofList [("a", "1"), ("b", "0"), ("b", "2")]) = true := by
  obtain ⟨-, hperm, hmap, -, -, -, -, hback⟩ :=
    equality_laws (ofList [("a", "1"), ("b", "0"), ("b", "2")]) ((empty.set "b" "2").set "a" "1")
      (ofList [("b", "2"), ("a", "3")])
  have hab : (ofList [("a", "1"), ("b", "0"), ("b", "2")] == (empty.set "b" "2").set "a" "1") =
      true := by decide
  have hlisting : [("b", "2"), ("a", "1")].Perm
      (ofList [("a", "1"), ("b", "0"), ("b", "2")]).toMap.toList :=
    (hperm.mp hab).trans (perm_toList_toMap _).symm
  exact ⟨hab, hmap.mp hab, by decide, hlisting, hback _ hlisting⟩

end UrlRouting.Parameters
