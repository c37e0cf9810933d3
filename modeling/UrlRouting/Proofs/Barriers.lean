import UrlRouting.Proofs.Decoding

/-! # Raw characters between escapes

A character that takes part in no escape divides a segment: what stands before it and what stands
behind it are read on their own, and the character itself stays between them.

* `Percent.unescape_append`: no escape reaches over a byte that is no digit.
* `Utf8.Unfinished.Continues` is the invariant of the reader of bytes. Between two bytes it waits
  for continuation bytes alone (`continues_of_step`), and no character begins with one
  (`exists_first_byte`).
* `Utf8.readFrom_append_char`: so the form of a character is read as that character after any bytes,
  those of an unfinished character included.
* `Segment.decode_append_iff`: the characters that divide every segment are those outside
  `Percent.alphabet`. -/

namespace UrlRouting

namespace Percent

variable {b : UInt8} {n : Nat} {c : Char}

/-- The characters of escapes: the percent sign and the hexadecimal digits of either case. -/
def alphabet : List Char := '%' :: (upperDigits ++ upperDigits.map Char.toLower)

/-! ### Bytes that end every escape -/

/-- No escape reaches over a byte that is no digit. -/
theorem unescape_append (hb : ∀ n, ¬ IsHexDigit b n) (front rest : List UInt8) :
    unescape (front ++ b :: rest) = unescape front ++ unescape (b :: rest) := by
  fun_induction unescape front with
  | case1 => rfl
  | case2 high low front value he ih =>
      simp only [List.cons_append]
      rw [unescape, he, ih]
  | case3 high low front he ih =>
      simp only [List.cons_append] at ih ⊢
      rw [unescape, he, ih]
  | case4 first front hfirst ih =>
      rw [List.cons_append, List.cons_append, ← ih]
      apply unescape_byte
      intro high low after value heq hescape
      obtain ⟨h, l, hhigh, hlow, -⟩ := hescape
      -- the byte `b` would be one of the two digits
      cases front with
      | nil =>
          cases heq
          exact hb h hhigh
      | cons second front =>
          cases front with
          | nil =>
              cases heq
              exact hb l hlow
          | cons third front =>
              cases heq
              exact hfirst _ _ _ rfl rfl

theorem unescape_append_of_ne {run : List UInt8} (h : ∀ b ∈ run, b ≠ 0x25) (rest : List UInt8) :
    unescape (run ++ rest) = run ++ unescape rest := by
  induction run with
  | nil => rfl
  | cons b run ih =>
      rw [List.cons_append, unescape_cons_of_ne (h b List.mem_cons_self),
        ih fun other hm => h other (List.mem_cons_of_mem b hm), List.cons_append]

/-! ### Bytes of raw characters -/

theorem digitChar_mem_alphabet : ∀ n < 16,
    Nat.digitChar n ∈ alphabet ∧ (Nat.digitChar n).toUpper ∈ alphabet ∧
      (Nat.digitChar n).toNat < 0x80 ∧ (Nat.digitChar n).toUpper.toNat < 0x80 := by
  decide

theorem lt_of_isHexDigit (h : IsHexDigit b n) : b.toNat < 0x80 := by
  obtain ⟨-, -, hlower, hupper⟩ := digitChar_mem_alphabet n h.1
  have := h.2
  omega

theorem le_of_mem_utf8EncodeChar (hc : 0x7F < c.val.toNat) (hb : b ∈ String.utf8EncodeChar c) :
    0x80 ≤ b.toNat := by
  unfold String.utf8EncodeChar at hb
  dsimp only at hb
  rw [if_neg (Nat.not_le_of_lt hc)] at hb
  have hlarge : ∀ n, 0x80 ≤ n → n < 256 → b = UInt8.ofNat n → 0x80 ≤ b.toNat := by
    intro n hn hlt he
    rwa [he, UInt8.toNat_ofNat_of_lt' hlt]
  split at hb
  · simp only [List.mem_cons, List.not_mem_nil, or_false] at hb
    rcases hb with h | h <;> exact hlarge _ (by omega) (by omega) h
  split at hb
  · simp only [List.mem_cons, List.not_mem_nil, or_false] at hb
    rcases hb with h | h | h <;> exact hlarge _ (by omega) (by omega) h
  · simp only [List.mem_cons, List.not_mem_nil, or_false] at hb
    rcases hb with h | h | h | h <;> exact hlarge _ (by omega) (by omega) h

/-- The bytes of a character outside the alphabet of escapes are neither `%` nor digits. -/
theorem bytes_of_notMem_alphabet (hc : c ∉ alphabet) (hb : b ∈ String.utf8EncodeChar c) :
    b ≠ 0x25 ∧ ∀ n, ¬ IsHexDigit b n := by
  by_cases hle : c.val.toNat ≤ 0x7F
  · -- the character is its own byte
    rw [utf8EncodeChar_of_le hle, List.mem_singleton] at hb
    have htoNat : b.toNat = c.toNat := by
      rw [hb]
      exact UInt8.toNat_ofNat_of_lt' (Nat.lt_of_le_of_lt hle (by decide))
    have hne : ∀ d ∈ alphabet, b.toNat ≠ d.toNat := by
      intro d hd he
      rw [htoNat] at he
      exact hc (Char.toNat_inj.mp he ▸ hd)
    refine ⟨?_, ?_⟩
    · intro he
      exact hne '%' (by decide) (congrArg UInt8.toNat he)
    · intro n h
      obtain ⟨hlower, hupper, -⟩ := digitChar_mem_alphabet n h.1
      exact h.2.elim (hne _ hlower) (hne _ hupper)
  · have hge := le_of_mem_utf8EncodeChar (Nat.lt_of_not_le hle) hb
    refine ⟨?_, ?_⟩
    · intro he
      rw [he] at hge
      exact absurd hge (by decide)
    · intro n h
      have := lt_of_isHexDigit h
      omega

end Percent

namespace Utf8

variable {b : UInt8} {pending : Unfinished} {state : Option Unfinished}

/-! ### What the reader waits for -/

/-- The bytes that may come next are continuation bytes. -/
def Unfinished.Continues (pending : Unfinished) : Prop :=
  ∀ b, pending.next.contains b = true → ByteRange.continuation.contains b = true

theorem continues_of_lead (h : lead b = .opens pending) : pending.Continues := by
  obtain ⟨hlow, -, hhigh, -⟩ := admits_of_lead h
  intro b hb
  rw [contains_iff] at hb ⊢
  have hl : ByteRange.continuation.low.toNat = 0x80 := rfl
  have hh : ByteRange.continuation.high.toNat = 0xBF := rfl
  omega

theorem continues_of_start {out : List Char} (h : start b = (out, some pending)) :
    pending.Continues := by
  unfold start at h
  cases hl : lead b with
  | single c => simp [hl] at h
  | illFormed => simp [hl] at h
  | opens next =>
      simp only [hl, Prod.mk.injEq, Option.some.injEq] at h
      exact h.2 ▸ continues_of_lead hl

/-- After each byte the reader waits for a continuation byte, if for any. -/
theorem continues_of_step {out : List Char} (h : step state b = (out, some pending)) :
    pending.Continues := by
  cases state with
  | none => exact continues_of_start h
  | some before =>
      simp only [step] at h
      split at h
      · split at h
        · simp at h
        · simp only [Prod.mk.injEq, Option.some.injEq] at h
          intro next hnext
          rwa [← h.2] at hnext
      · simp only [Prod.mk.injEq] at h
        exact continues_of_start (Prod.ext rfl h.2)

/-- No character begins with a continuation byte. -/
theorem exists_first_byte (c : Char) : ∃ b tail,
    String.utf8EncodeChar c = b :: tail ∧ ByteRange.continuation.contains b = false := by
  obtain ⟨b, tail, hc⟩ := List.exists_cons_of_ne_nil (String.utf8EncodeChar_ne_nil (c := c))
  refine ⟨b, tail, hc, ?_⟩
  by_contra hb
  rw [Bool.not_eq_false] at hb
  have hbounds := contains_continuation hb
  have hlead : lead b = .illFormed := by
    rw [← UInt8.ofNat_toNat (x := b), lead_ofNat b.toNat_lt, if_neg (by omega), if_pos (by omega)]
  exact not_begins_of_illFormed hlead ⟨c, tail, hc.symm⟩

/-! ### A whole character after any bytes -/

/-- The form of a character is read as that character, whatever bytes stand before it. -/
theorem readFrom_append_char (c : Char) (front rest : List UInt8)
    (hs : ∀ pending ∈ state, pending.Continues) :
    readFrom state (front ++ (String.utf8EncodeChar c ++ rest)) =
      readFrom state front ++ c :: readFrom none rest := by
  induction front generalizing state with
  | nil =>
      have hanew := readFrom_utf8EncodeChar c rest
      cases state with
      | none => exact hanew
      | some pending =>
          -- the first byte of the character ends the pending one
          obtain ⟨b, tail, hc, hfirst⟩ := exists_first_byte c
          have hb : pending.next.contains b ≠ true := by
            intro hb
            rw [hs pending rfl b hb] at hfirst
            cases hfirst
          rw [hc, List.cons_append] at hanew ⊢
          rw [List.nil_append, readFrom_breaks hb, hanew]
          rfl
  | cons b front ih =>
      cases hstep : step state b with
      | mk out after =>
          have hafter : ∀ pending ∈ after, pending.Continues := by
            intro pending hp
            cases hp
            exact continues_of_step hstep
          rw [List.cons_append, readFrom, readFrom, hstep]
          simp only [ih hafter, List.append_assoc]

theorem readLossy_append_char (c : Char) (front rest : List UInt8) :
    readLossy (front ++ (String.utf8EncodeChar c ++ rest)) =
      readLossy front ++ c :: readLossy rest := by
  apply readFrom_append_char
  intro pending hp
  cases hp

end Utf8

/-! ### Whole segments -/

namespace Percent

theorem decode_append {c : Char} (hc : c ∉ alphabet) (front rest : List Char) :
    decode (front ++ c :: rest) = decode front ++ c :: decode rest := by
  have hbytes : Utf8.bytes (front ++ c :: rest) =
      Utf8.bytes front ++ (String.utf8EncodeChar c ++ Utf8.bytes rest) := by
    rw [bytes_append]
    rfl
  have hform : unescape (String.utf8EncodeChar c ++ Utf8.bytes rest) =
      String.utf8EncodeChar c ++ unescape (Utf8.bytes rest) :=
    unescape_append_of_ne (fun b hb => (bytes_of_notMem_alphabet hc hb).1) _
  obtain ⟨b, tail, hb, -⟩ := Utf8.exists_first_byte c
  have hfirst : ∀ n, ¬ IsHexDigit b n :=
    (bytes_of_notMem_alphabet hc (hb ▸ List.mem_cons_self)).2
  have hdivided : unescape (Utf8.bytes front ++ (String.utf8EncodeChar c ++ Utf8.bytes rest)) =
      unescape (Utf8.bytes front) ++ unescape (String.utf8EncodeChar c ++ Utf8.bytes rest) := by
    rw [hb]
    exact unescape_append hfirst _ _
  unfold decode
  rw [hbytes, hdivided, hform, Utf8.readLossy_append_char]

theorem decode_append_ne {c : Char} (hc : c ∈ alphabet) :
    decode ("%4".toList ++ c :: "41".toList) ≠ decode "%4".toList ++ c :: decode "41".toList := by
  have hall : (alphabet.all fun c => decode ("%4".toList ++ c :: "41".toList) !=
      decode "%4".toList ++ c :: decode "41".toList) = true := by decide
  exact bne_iff_ne.mp (List.all_eq_true.mp hall c hc)

end Percent

namespace Segment

/-- **Raw characters divide a segment.** What stands before and behind a character is read on its
own, and the character stays as it is between the two, whatever they end and begin with; this holds
of all characters but the percent sign and the hexadecimal digits. -/
theorem decode_append_iff (c : Char) :
    (∀ front rest : String, decode (front ++ String.singleton c ++ rest) =
      decode front ++ String.singleton c ++ decode rest) ↔ c ∉ Percent.alphabet := by
  have hlists : ∀ front rest : String,
      decode (front ++ String.singleton c ++ rest) =
          decode front ++ String.singleton c ++ decode rest ↔
        Percent.decode (front.toList ++ c :: rest.toList) =
          Percent.decode front.toList ++ c :: Percent.decode rest.toList := by
    intro front rest
    unfold decode
    rw [← String.toList_inj]
    simp
  constructor
  · intro h hc
    exact Percent.decode_append_ne hc ((hlists "%4" "41").mp (h "%4" "41"))
  · intro hc front rest
    exact (hlists front rest).mpr (Percent.decode_append hc front.toList rest.toList)

/-- The three bytes of a character do not meet over the raw character between them. -/
example : decode "%E2%82z%AC" = "\uFFFDz\uFFFD" := rfl

end Segment

end UrlRouting
