import UrlRouting.Proofs.Escapes
import UrlRouting.Proofs.IllFormed

/-! # What a segment stands for

The reader of segments replaces escapes in one pass and reads the resulting bytes as UTF-8.

* `Percent.IsEscape` and `Percent.Scans` are the rule for escapes without the reader: a `%` and two
  hexadecimal digits of either case stand for a byte, and every other byte stands for itself.
* `Percent.scans_iff`: the reader computes this rule, and one text has one result.
* `Segment.decode_reads`: a segment is read as the lossy reading of the bytes that it stands for. -/

namespace UrlRouting

namespace Percent

variable {b high low : UInt8} {rest input output : List UInt8}

/-! ### The rule -/

/-- The byte is the hexadecimal digit of a number, of either case. -/
def IsHexDigit (b : UInt8) (n : Nat) : Prop :=
  n < 16 ∧ (b.toNat = (Nat.digitChar n).toNat ∨ b.toNat = (Nat.digitChar n).toUpper.toNat)

/-- The byte that `%` and two digits stand for. -/
def IsEscape (high low b : UInt8) : Prop :=
  ∃ h l, IsHexDigit high h ∧ IsHexDigit low l ∧ b.toNat = 16 * h + l

/-- The second bytes are the first with each escape replaced by its byte, in one pass from left to
right: what an escape stands for is not looked at again. -/
inductive Scans : List UInt8 → List UInt8 → Prop
  | nil : Scans [] []
  | escape {high low b : UInt8} {rest output : List UInt8} (he : IsEscape high low b)
      (h : Scans rest output) : Scans (0x25 :: high :: low :: rest) (b :: output)
  | byte {b : UInt8} {rest output : List UInt8}
      (hb : ∀ high low after value, b :: rest = 0x25 :: high :: low :: after →
        ¬ IsEscape high low value)
      (h : Scans rest output) : Scans (b :: rest) (b :: output)

/-! ### The reader -/

instance (b : UInt8) (n : Nat) : Decidable (IsHexDigit b n) := inferInstanceAs (Decidable (_ ∧ _))

theorem hexValue?_ofNat : ∀ n < 256, (∀ v ∈ hexValue? (UInt8.ofNat n), v.toNat < 16) ∧
    ∀ v < 16, hexValue? (UInt8.ofNat n) = some (UInt8.ofNat v) ↔ IsHexDigit (UInt8.ofNat n) v := by
  decide +kernel

theorem hexValue?_eq_some_iff {v : UInt8} : hexValue? b = some v ↔ IsHexDigit b v.toNat := by
  obtain ⟨hlt, htable⟩ := hexValue?_ofNat b.toNat b.toNat_lt
  rw [UInt8.ofNat_toNat] at hlt htable
  constructor
  · intro h
    rw [← htable v.toNat (hlt v h), UInt8.ofNat_toNat]
    exact h
  · intro h
    rw [← htable v.toNat h.1, UInt8.ofNat_toNat] at h
    exact h

theorem escaped?_eq_some_iff : escaped? high low = some b ↔ IsEscape high low b := by
  have hvalue : ∀ h l : UInt8, hexValue? high = some h → hexValue? low = some l →
      (escaped? high low = some b ↔ b.toNat = 16 * h.toNat + l.toNat) := by
    intro h l hh hl
    have hhigh := (hexValue?_eq_some_iff.mp hh).1
    have hlow := (hexValue?_eq_some_iff.mp hl).1
    have hsum : (16 * h + l).toNat = 16 * h.toNat + l.toNat := by
      simp only [UInt8.toNat_add, UInt8.toNat_mul, UInt8.reduceToNat]
      omega
    unfold escaped?
    rw [hh, hl, ← hsum, UInt8.toNat_inj]
    simp [eq_comm]
  constructor
  · intro he
    cases hh : hexValue? high with
    | none => simp [escaped?, hh] at he
    | some h =>
        cases hl : hexValue? low with
        | none => simp [escaped?, hl] at he
        | some l =>
            exact ⟨h.toNat, l.toNat, hexValue?_eq_some_iff.mp hh, hexValue?_eq_some_iff.mp hl,
              (hvalue h l hh hl).mp he⟩
  · rintro ⟨h, l, hh, hl, hb⟩
    have hhigh : (UInt8.ofNat h).toNat = h :=
      UInt8.toNat_ofNat_of_lt' (Nat.lt_trans hh.1 (by decide))
    have hlow : (UInt8.ofNat l).toNat = l :=
      UInt8.toNat_ofNat_of_lt' (Nat.lt_trans hl.1 (by decide))
    refine (hvalue (.ofNat h) (.ofNat l) ?_ ?_).mpr ?_
    · rwa [hexValue?_eq_some_iff, hhigh]
    · rwa [hexValue?_eq_some_iff, hlow]
    · rwa [hhigh, hlow]

theorem unescape_byte (hb : ∀ high low after value, b :: rest = 0x25 :: high :: low :: after →
    ¬ IsEscape high low value) : unescape (b :: rest) = b :: unescape rest := by
  by_cases h : b = 0x25 ∧ ∃ high low after, rest = high :: low :: after
  · obtain ⟨rfl, high, low, after, rfl⟩ := h
    rw [unescape]
    cases he : escaped? high low with
    | none => rfl
    | some value => exact absurd (escaped?_eq_some_iff.mp he) (hb high low after value rfl)
  · rw [unescape]
    intro high low after hpercent hrest
    exact h ⟨hpercent, high, low, after, hrest⟩

/-- The reader replaces the escapes, and there is no other result. -/
theorem scans_iff : Scans input output ↔ unescape input = output := by
  constructor
  · intro h
    induction h with
    | nil => rfl
    | escape he _ ih => rw [unescape, escaped?_eq_some_iff.mpr he, ih]
    | byte hb _ ih => rw [unescape_byte hb, ih]
  · rintro rfl
    fun_induction unescape input with
    | case1 => exact .nil
    | case2 high low rest b he ih => exact .escape (escaped?_eq_some_iff.mp he) ih
    | case3 high low rest he ih =>
        refine .byte ?_ ih
        rintro _ _ after value heq hv
        cases heq
        rw [← escaped?_eq_some_iff, he] at hv
        cases hv
    | case4 b rest hb ih =>
        refine .byte ?_ ih
        rintro high low after value heq
        cases heq
        exact absurd rfl (hb high low after rfl)

end Percent

theorem Utf8.bytes_toList (text : String) : Utf8.bytes text.toList = text.toUTF8.data.toList := by
  obtain ⟨chars, rfl⟩ : ∃ chars, String.ofList chars = text := ⟨text.toList, String.ofList_toList⟩
  rw [String.toUTF8_eq_toByteArray, String.toByteArray_ofList, String.toList_ofList]
  simp [List.utf8Encode, Utf8.bytes]

namespace Segment

/-- **What a segment stands for.** One pass over the UTF-8 form of a segment that replaces each
escape by its byte gives one byte sequence, and the segment is read as the lossy reading of that
sequence: each character of it in its place, and one replacement character for each maximal
ill-formed part. The sequence itself is the form of what is read if and only if it is the form of
some text. -/
theorem decode_reads (segment : String) :
    ∃ input, (∀ output, Percent.Scans segment.toUTF8.data.toList output ↔ output = input) ∧
      (∀ text, Utf8.Lossy input text ↔ text = (decode segment).toList) ∧
      ((decode segment).toUTF8.data.toList = input ↔
        ∃ text : String, text.toUTF8.data.toList = input) := by
  have hread : (decode segment).toList =
      Utf8.readLossy (Percent.unescape segment.toUTF8.data.toList) := by
    rw [decode, String.toList_ofList, Percent.decode, Utf8.bytes_toList]
  refine ⟨Percent.unescape segment.toUTF8.data.toList, ?_, ?_, ?_⟩
  · intro output
    rw [Percent.scans_iff, eq_comm]
  · intro text
    rw [Utf8.lossy_iff, hread, eq_comm]
  · refine ⟨fun h => ⟨_, h⟩, ?_⟩
    rintro ⟨text, ht⟩
    rw [← Utf8.bytes_toList, hread, ← ht, ← Utf8.bytes_toList, Utf8.readLossy_bytes]

/-- An escaped `%` begins no escape, and three bytes of a form of four are one ill-formed part. -/
example : decode "%2541%F0%9F%98a" = "%41\uFFFDa" := rfl

end Segment

end UrlRouting
