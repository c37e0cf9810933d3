import UrlRouting.Proofs.Utf8
import UrlRouting.Url.Segment

/-! # Escapes of path segments

A value written as a segment is read back, alone and in front of any other text.

* `Percent.unescape_bytes_encode`: removing the escapes from an escaped text leaves the UTF-8 form
  of the text, so `Percent.decode_encode_append` reads the text back.
* `Percent.upperDigits`: the digits that escapes are written with.
* `Segment.value_of_encode`, `Segment.decode_inverts_encode`: reading inverts writing, for every
  value and in front of every text. -/

namespace UrlRouting

namespace Percent

/-! ### One byte -/

theorem hexDigit_lt : ∀ n : Fin 16, (hexDigit n).val.toNat ≤ 0x7F := by decide

theorem hexValue?_hexDigit :
    ∀ n : Fin 16, hexValue? (UInt8.ofNat (hexDigit n).val.toNat) = some (UInt8.ofNat n) := by decide

theorem utf8EncodeChar_of_le {c : Char} (h : c.val.toNat ≤ 0x7F) :
    String.utf8EncodeChar c = [UInt8.ofNat c.val.toNat] := by
  unfold String.utf8EncodeChar
  exact if_pos h

/-- The two digits of a byte, as numbers below 16. -/
def digits (b : UInt8) : Fin 16 × Fin 16 :=
  (⟨b.toNat / 16, by have := b.toNat_lt; omega⟩, ⟨b.toNat % 16, by omega⟩)

theorem escape_eq (b : UInt8) : escape b = ['%', hexDigit (digits b).1, hexDigit (digits b).2] := rfl

theorem bytes_escape (b : UInt8) :
    Utf8.bytes (escape b) = [0x25, UInt8.ofNat (hexDigit (digits b).1).val.toNat,
      UInt8.ofNat (hexDigit (digits b).2).val.toNat] := by
  rw [escape_eq, Utf8.bytes, List.flatMap_cons, List.flatMap_cons, List.flatMap_cons,
    utf8EncodeChar_of_le (hexDigit_lt _), utf8EncodeChar_of_le (hexDigit_lt _)]
  rfl

theorem escaped?_digits (b : UInt8) :
    escaped? (UInt8.ofNat (hexDigit (digits b).1).val.toNat)
      (UInt8.ofNat (hexDigit (digits b).2).val.toNat) = some b := by
  unfold escaped?
  rw [hexValue?_hexDigit, hexValue?_hexDigit]
  have hb := b.toNat_lt
  have hhigh : b.toNat / 16 < 256 := by omega
  have hlow : b.toNat % 16 < 256 := by omega
  have hsum : (16 * UInt8.ofNat (b.toNat / 16) + UInt8.ofNat (b.toNat % 16)).toNat = b.toNat := by
    rw [UInt8.toNat_add, UInt8.toNat_mul, UInt8.toNat_ofNat_of_lt' hhigh,
      UInt8.toNat_ofNat_of_lt' hlow]
    show (16 * (b.toNat / 16) % 256 + b.toNat % 16) % 256 = b.toNat
    omega
  exact congrArg some (UInt8.toNat_inj.mp hsum)

theorem unescape_escape (b : UInt8) (rest : List UInt8) :
    unescape (Utf8.bytes (escape b) ++ rest) = b :: unescape rest := by
  rw [bytes_escape]
  simp only [List.cons_append, List.nil_append]
  rw [unescape, escaped?_digits]

theorem unescape_cons_of_ne {b : UInt8} (h : b ≠ 0x25) (rest : List UInt8) :
    unescape (b :: rest) = b :: unescape rest := by
  rw [unescape]
  intro high low tail hb
  exact absurd hb h

/-! ### Texts -/

theorem bytes_append (first second : List Char) :
    Utf8.bytes (first ++ second) = Utf8.bytes first ++ Utf8.bytes second := List.flatMap_append

theorem unescape_flatMap_escape (input rest : List UInt8) :
    unescape (Utf8.bytes (input.flatMap escape) ++ rest) = input ++ unescape rest := by
  induction input with
  | nil => rfl
  | cons b input ih =>
      rw [List.flatMap_cons, bytes_append, List.append_assoc, unescape_escape, ih, List.cons_append]

/-- Removing the escapes from an escaped text leaves the UTF-8 form of the text, provided that the
characters that stand as they are belong to ASCII and are no `%`. -/
theorem unescape_bytes_encode {keeps : Char → Bool}
    (hk : ∀ c, keeps c = true → c.val.toNat ≤ 0x7F ∧ c ≠ '%') (text : List Char)
    (rest : List UInt8) :
    unescape (Utf8.bytes (encode keeps text) ++ rest) = Utf8.bytes text ++ unescape rest := by
  induction text with
  | nil => rfl
  | cons c text ih =>
      have hcons : encode keeps (c :: text) =
          (if keeps c then [c] else escapeChar c) ++ encode keeps text := List.flatMap_cons
      have hbytes : Utf8.bytes (c :: text) = String.utf8EncodeChar c ++ Utf8.bytes text :=
        List.flatMap_cons
      rw [hcons, hbytes, bytes_append, List.append_assoc, List.append_assoc, ← ih]
      split
      · next h =>
          obtain ⟨hle, hne⟩ := hk c h
          have hb : UInt8.ofNat c.val.toNat ≠ 0x25 := by
            intro he
            have hlt : c.val.toNat < 256 := by omega
            have ht := congrArg UInt8.toNat he
            rw [UInt8.toNat_ofNat_of_lt' hlt] at ht
            exact hne (Char.ext (UInt32.toNat_inj.mp ht))
          rw [Utf8.bytes, List.flatMap_cons, utf8EncodeChar_of_le hle]
          exact unescape_cons_of_ne hb _
      · exact unescape_flatMap_escape (String.utf8EncodeChar c) _

theorem decode_encode_append {keeps : Char → Bool}
    (hk : ∀ c, keeps c = true → c.val.toNat ≤ 0x7F ∧ c ≠ '%') (text rest : List Char) :
    decode (encode keeps text ++ rest) = text ++ decode rest := by
  unfold decode
  rw [bytes_append, unescape_bytes_encode hk, Utf8.readLossy_bytes_append]

theorem decode_encode {keeps : Char → Bool}
    (hk : ∀ c, keeps c = true → c.val.toNat ≤ 0x7F ∧ c ≠ '%') (text : List Char) :
    decode (encode keeps text) = text := by
  have h := decode_encode_append hk text []
  rwa [List.append_nil, show decode [] = [] from rfl, List.append_nil] at h

/-! ### The digits of escapes -/

/-- The digits of written escapes. -/
def upperDigits : List Char := "0123456789ABCDEF".toList

theorem hexDigit_mem_upperDigits : ∀ n : Fin 16, hexDigit n ∈ upperDigits := by decide

/-! ### Kept characters -/

theorem bounds_of_isAlphanum {c : Char} (h : c.isAlphanum = true) :
    c.val.toNat ≤ 0x7F ∧ c ≠ '%' := by
  have hp : ('%').isAlphanum = false := by decide
  refine ⟨?_, fun hc => ?_⟩
  · delta Char.isAlphanum Char.isAlpha Char.isUpper Char.isLower Char.isDigit at h
    simp only [Bool.or_eq_true, Bool.and_eq_true, decide_eq_true_eq, ge_iff_le,
      UInt32.le_iff_toNat_le] at h
    have hz : 'Z'.val.toNat = 90 := rfl
    have hz' : 'z'.val.toNat = 122 := rfl
    have h9 : '9'.val.toNat = 57 := rfl
    omega
  · rw [hc, hp] at h
    cases h

/-- ASCII letters and digits and some marks belong to ASCII and are no `%`, if the marks are so. -/
theorem bounds_of_keeps {marks : List Char} {c : Char}
    (hm : (marks.all fun d => d.val.toNat ≤ 0x7F && d != '%') = true)
    (h : (c.isAlphanum || marks.contains c) = true) : c.val.toNat ≤ 0x7F ∧ c ≠ '%' := by
  rw [Bool.or_eq_true] at h
  rcases h with h | h
  · exact bounds_of_isAlphanum h
  · have hc := List.all_eq_true.mp hm c (List.contains_iff_mem.mp h)
    rw [Bool.and_eq_true, decide_eq_true_eq, bne_iff_ne] at hc
    exact hc

end Percent

namespace Segment

theorem bounds_of_keeps (c : Char) (h : keeps c = true) : c.val.toNat ≤ 0x7F ∧ c ≠ '%' :=
  Percent.bounds_of_keeps (by decide) h

theorem value_of_encode (value : String) : decode (encode value) = value := by
  unfold decode encode
  rw [String.toList_ofList, Percent.decode_encode bounds_of_keeps, String.ofList_toList]

/-- **A written value is read back**, alone and in front of any other text: no escape of the value
takes in a byte of what follows, and none of its bytes is joined with a byte behind it. -/
theorem decode_inverts_encode (value : String) :
    decode (encode value) = value ∧
      ∀ rest, decode (encode value ++ rest) = value ++ decode rest := by
  refine ⟨value_of_encode value, ?_⟩
  intro rest
  unfold decode encode
  rw [String.toList_append, String.toList_ofList, Percent.decode_encode_append bounds_of_keeps,
    String.ofList_append, String.ofList_toList]

end Segment

end UrlRouting
