import UrlRouting.Text.Utf8

/-! # Reading back UTF-8

The reader of arbitrary bytes gives every text back from its UTF-8 form (`Utf8.readLossy_bytes`).

The proof follows the transducer byte by byte: `lead_ofNat` is the table of first bytes over natural
numbers, `readFrom_opens`, `readFrom_more` and `readFrom_last` are its steps inside one character,
and `readFrom_utf8EncodeChar` runs it over the form of one character of one to four bytes. -/

namespace UrlRouting.Utf8

/-! ### Bytes as numbers -/

theorem lead_ofNat {n : Nat} (h : n < 256) :
    lead (UInt8.ofNat n) =
      if n ≤ 0x7F then .single (Char.ofNat n)
      else if n < 0xC2 then .illFormed
      else if n ≤ 0xDF then .opens ⟨n - 0xC0, .continuation, 0⟩
      else if n = 0xE0 then .opens ⟨0, ⟨0xA0, 0xBF⟩, 1⟩
      else if n = 0xED then .opens ⟨0x0D, ⟨0x80, 0x9F⟩, 1⟩
      else if n ≤ 0xEF then .opens ⟨n - 0xE0, .continuation, 1⟩
      else if n = 0xF0 then .opens ⟨0, ⟨0x90, 0xBF⟩, 2⟩
      else if n ≤ 0xF3 then .opens ⟨n - 0xF0, .continuation, 2⟩
      else if n = 0xF4 then .opens ⟨4, ⟨0x80, 0x8F⟩, 2⟩
      else .illFormed := by
  simp only [lead, UInt8.le_iff_toNat_le, UInt8.lt_iff_toNat_lt, ← UInt8.toNat_inj,
    UInt8.toNat_ofNat_of_lt' h, UInt8.toNat_ofNat, Nat.reduceMod, Nat.reducePow]

theorem contains_ofNat {n : Nat} (h : n < 256) (range : ByteRange) :
    range.contains (UInt8.ofNat n) = true ↔ range.low.toNat ≤ n ∧ n ≤ range.high.toNat := by
  rw [ByteRange.contains, Bool.and_eq_true, decide_eq_true_iff, decide_eq_true_iff,
    UInt8.le_iff_toNat_le, UInt8.le_iff_toNat_le, UInt8.toNat_ofNat_of_lt' h]

/-! ### Steps inside one character -/

theorem readFrom_single {b : UInt8} {c : Char} (h : lead b = .single c) (rest : List UInt8) :
    readFrom none (b :: rest) = c :: readFrom none rest := by
  rw [readFrom, step, start, h]
  rfl

theorem readFrom_opens {b : UInt8} {pending : Unfinished} (h : lead b = .opens pending)
    (rest : List UInt8) : readFrom none (b :: rest) = readFrom (some pending) rest := by
  rw [readFrom, step, start, h]
  rfl

section admitted

variable {bits further : Nat} {range : ByteRange}

theorem readFrom_admitted {b : UInt8} (hb : range.contains b = true) (rest : List UInt8) :
    readFrom (some ⟨bits, range, further + 1⟩) (b :: rest) =
      readFrom (some ⟨64 * bits + b.toNat % 64, .continuation, further⟩) rest := by
  rw [readFrom, step, if_pos hb]
  rfl

theorem readFrom_more {n : Nat} (h : n < 256) (hr : range.low.toNat ≤ n ∧ n ≤ range.high.toNat)
    (rest : List UInt8) :
    readFrom (some ⟨bits, range, further + 1⟩) (UInt8.ofNat n :: rest) =
      readFrom (some ⟨64 * bits + n % 64, .continuation, further⟩) rest := by
  rw [readFrom_admitted ((contains_ofNat h range).mpr hr), UInt8.toNat_ofNat_of_lt' h]

theorem readFrom_last {n : Nat} (h : n < 256) (hr : range.low.toNat ≤ n ∧ n ≤ range.high.toNat)
    (rest : List UInt8) :
    readFrom (some ⟨bits, range, 0⟩) (UInt8.ofNat n :: rest) =
      Char.ofNat (64 * bits + n % 64) :: readFrom none rest := by
  rw [readFrom, step, if_pos ((contains_ofNat h range).mpr hr)]
  simp only [Unfinished.extend, UInt8.toNat_ofNat_of_lt' h, List.cons_append, List.nil_append]

end admitted

theorem continuation_bounds {n : Nat} :
    ByteRange.continuation.low.toNat ≤ n % 64 + 0x80 ∧
      n % 64 + 0x80 ≤ ByteRange.continuation.high.toNat := by
  rw [show ByteRange.continuation.low.toNat = 0x80 from rfl,
    show ByteRange.continuation.high.toNat = 0xBF from rfl]
  omega

/-! ### Characters of one to four bytes -/

theorem readFrom_two {v : Nat} (hl : 0x80 ≤ v) (hh : v < 0x800) (rest : List UInt8) :
    readFrom none (UInt8.ofNat (v / 64 % 0x20 + 0xC0) :: UInt8.ofNat (v % 0x40 + 0x80) :: rest) =
      Char.ofNat v :: readFrom none rest := by
  have hn : v / 64 % 0x20 + 0xC0 < 256 := by omega
  have hlead : lead (UInt8.ofNat (v / 64 % 0x20 + 0xC0)) = .opens ⟨v / 64, .continuation, 0⟩ := by
    rw [lead_ofNat hn, if_neg (by omega), if_neg (by omega), if_pos (by omega),
      show v / 64 % 0x20 + 0xC0 - 0xC0 = v / 64 by omega]
  rw [readFrom_opens hlead, readFrom_last (by omega) continuation_bounds]
  congr 2
  omega

theorem readFrom_three {v : Nat} (hl : 0x800 ≤ v) (hh : v < 0x10000)
    (hv : v < 0xD800 ∨ 0xDFFF < v) (rest : List UInt8) :
    readFrom none (UInt8.ofNat (v / 4096 % 0x10 + 0xE0) :: UInt8.ofNat (v / 64 % 0x40 + 0x80) ::
        UInt8.ofNat (v % 0x40 + 0x80) :: rest) =
      Char.ofNat v :: readFrom none rest := by
  have hn : v / 4096 % 0x10 + 0xE0 < 256 := by omega
  -- the second byte is restricted after `E0` and `ED`
  obtain ⟨range, hlead, hr⟩ : ∃ range : ByteRange,
      lead (UInt8.ofNat (v / 4096 % 0x10 + 0xE0)) = .opens ⟨v / 4096, range, 1⟩ ∧
        range.low.toNat ≤ v / 64 % 0x40 + 0x80 ∧ v / 64 % 0x40 + 0x80 ≤ range.high.toNat := by
    rw [lead_ofNat hn, if_neg (by omega), if_neg (by omega), if_neg (by omega)]
    by_cases h0 : v / 4096 = 0
    · rw [if_pos (by omega), h0]
      refine ⟨_, rfl, ?_⟩
      show 0xA0 ≤ _ ∧ _ ≤ 0xBF
      omega
    · rw [if_neg (by omega)]
      by_cases hd : v / 4096 = 0x0D
      · rw [if_pos (by omega), hd]
        refine ⟨_, rfl, ?_⟩
        show 0x80 ≤ _ ∧ _ ≤ 0x9F
        omega
      · rw [if_neg (by omega), if_pos (by omega),
          show v / 4096 % 0x10 + 0xE0 - 0xE0 = v / 4096 by omega]
        exact ⟨_, rfl, continuation_bounds⟩
  rw [readFrom_opens hlead, readFrom_more (by omega) hr,
    readFrom_last (by omega) continuation_bounds]
  congr 2
  omega

theorem readFrom_four {v : Nat} (hl : 0x10000 ≤ v) (hh : v < 0x110000) (rest : List UInt8) :
    readFrom none (UInt8.ofNat (v / 262144 % 0x08 + 0xF0) ::
        UInt8.ofNat (v / 4096 % 0x40 + 0x80) :: UInt8.ofNat (v / 64 % 0x40 + 0x80) ::
        UInt8.ofNat (v % 0x40 + 0x80) :: rest) =
      Char.ofNat v :: readFrom none rest := by
  have hn : v / 262144 % 0x08 + 0xF0 < 256 := by omega
  -- the second byte is restricted after `F0` and `F4`
  obtain ⟨range, hlead, hr⟩ : ∃ range : ByteRange,
      lead (UInt8.ofNat (v / 262144 % 0x08 + 0xF0)) = .opens ⟨v / 262144, range, 2⟩ ∧
        range.low.toNat ≤ v / 4096 % 0x40 + 0x80 ∧
        v / 4096 % 0x40 + 0x80 ≤ range.high.toNat := by
    rw [lead_ofNat hn, if_neg (by omega), if_neg (by omega), if_neg (by omega), if_neg (by omega),
      if_neg (by omega), if_neg (by omega)]
    by_cases h0 : v / 262144 = 0
    · rw [if_pos (by omega), h0]
      refine ⟨_, rfl, ?_⟩
      show 0x90 ≤ _ ∧ _ ≤ 0xBF
      omega
    · rw [if_neg (by omega)]
      by_cases h4 : v / 262144 = 4
      · rw [if_neg (by omega), if_pos (by omega), h4]
        refine ⟨_, rfl, ?_⟩
        show 0x80 ≤ _ ∧ _ ≤ 0x8F
        omega
      · rw [if_pos (by omega), show v / 262144 % 0x08 + 0xF0 - 0xF0 = v / 262144 by omega]
        exact ⟨_, rfl, continuation_bounds⟩
  rw [readFrom_opens hlead, readFrom_more (by omega) hr,
    readFrom_more (by omega) continuation_bounds, readFrom_last (by omega) continuation_bounds]
  congr 2
  omega

theorem readFrom_utf8EncodeChar (c : Char) (rest : List UInt8) :
    readFrom none (String.utf8EncodeChar c ++ rest) = c :: readFrom none rest := by
  have hc : Char.ofNat c.val.toNat = c := Char.ofNat_toNat c
  have hvalid : c.val.toNat < 0xD800 ∨ (0xDFFF < c.val.toNat ∧ c.val.toNat < 0x110000) := c.valid
  unfold String.utf8EncodeChar
  dsimp only
  split
  · next h =>
      refine readFrom_single ?_ rest
      rw [lead_ofNat (by omega), if_pos h, hc]
  split
  · exact (readFrom_two (by omega) (by omega) rest).trans (by rw [hc])
  split
  · exact (readFrom_three (by omega) (by omega) (by omega) rest).trans (by rw [hc])
  · exact (readFrom_four (by omega) (by omega) rest).trans (by rw [hc])

/-- A text is read as it is, whatever bytes follow its form. -/
theorem readLossy_bytes_append (text : List Char) (rest : List UInt8) :
    readLossy (bytes text ++ rest) = text ++ readLossy rest := by
  unfold readLossy bytes
  induction text with
  | nil => rfl
  | cons c text ih =>
      rw [List.flatMap_cons, List.append_assoc, readFrom_utf8EncodeChar, ih, List.cons_append]

theorem readLossy_bytes (text : List Char) : readLossy (bytes text) = text := by
  have h := readLossy_bytes_append text []
  rwa [List.append_nil, show readLossy [] = [] from rfl, List.append_nil] at h

end UrlRouting.Utf8
