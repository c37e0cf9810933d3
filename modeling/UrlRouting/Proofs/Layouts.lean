import UrlRouting.Proofs.Intervals
import UrlRouting.Proofs.Numerals
import UrlRouting.Scalar

/-! # Numbers from their texts

* `Decimal.bits?_of_spellsNumeral`: the text of a numeral is read as the value nearest to its
  decimal.
* `Decimal.Layout.writes_write`: what a layout writes for a decimal is a numeral of the same value.
* `Decimal.Layout.bits?_writeSigned`: so the text of every bit pattern is read as this pattern, or
  as no number if it is none. -/

namespace UrlRouting

open Json (Numeral IsDigits IsWhole SpellsNumeral SpellsFraction SpellsSign SpellsExponent)

namespace Decimal

/-! ### Rows of digits -/

theorem natOfDigits_eq (digits : List Char) : natOfDigits digits = Nat.ofDigitChars 10 digits 0 :=
  Nat.ofDigitChars_eq_foldl.symm

theorem natOfDigits_toDigits (n : ℕ) : natOfDigits (Nat.toDigits 10 n) = n := by
  rw [natOfDigits_eq, Nat.ofDigitChars_ten_toDigits]

theorem natOfDigits_append_zeros (digits : List Char) (count : ℕ) :
    natOfDigits (digits ++ List.replicate count '0') = natOfDigits digits * 10 ^ count := by
  rw [natOfDigits_eq, natOfDigits_eq, Nat.ofDigitChars_append, Nat.ofDigitChars_replicate_zero,
    Nat.mul_comm]

theorem natOfDigits_zeros_append (count : ℕ) (digits : List Char) :
    natOfDigits (List.replicate count '0' ++ digits) = natOfDigits digits := by
  rw [natOfDigits_eq, natOfDigits_eq, Nat.ofDigitChars_append, Nat.ofDigitChars_replicate_zero,
    Nat.mul_zero]

end Decimal

/-- The decimal of a numeral without its sign. -/
def Json.Numeral.decimal (numeral : Numeral) : Decimal :=
  ⟨Decimal.natOfDigits (numeral.whole ++ numeral.fraction),
    numeral.exponent.getD 0 - numeral.fraction.length⟩

namespace Decimal

variable {format : Format}

/-! ### Reading -/

theorem wholeNat?_of_isDigits {digits : List Char} (h : IsDigits digits) :
    wholeNat? digits = some (natOfDigits digits) := by
  have hall : digits.all Char.isDigit = true := List.all_eq_true.mpr h.2
  rw [wholeNat?, hall, Bool.and_true, if_pos]
  simpa using h.1

theorem integer?_of_spellsSign {negative : Bool} {sign digits : List Char}
    (h : SpellsSign negative sign) (hd : IsDigits digits) :
    integer? (sign ++ digits) =
      some (if negative then -(natOfDigits digits : ℤ) else natOfDigits digits) := by
  have hsign := h.takeSign hd []
  rw [List.append_nil] at hsign
  rw [integer?, hsign]
  dsimp only
  rw [wholeNat?_of_isDigits hd]
  rfl

theorem exponent?_of_spellsExponent {exponent : Option ℤ} {raised : List Char}
    (h : SpellsExponent exponent raised) : exponent? raised = some (exponent.getD 0) := by
  cases h with
  | absent => rfl
  | present hletter signed hd =>
      rw [exponent?, if_pos hletter, integer?_of_spellsSign signed hd]
      rfl

theorem head_of_spellsExponent {exponent : Option ℤ} {raised : List Char}
    (h : SpellsExponent exponent raised) : ∀ c ∈ raised.head?, c.isDigit = false ∧ c ≠ '.' := by
  cases h with
  | absent => exact fun _ hc => nomatch hc
  | present hletter _ _ =>
      rintro c ⟨⟩
      rcases hletter with rfl | rfl <;> exact ⟨by decide, by decide⟩

theorem takePointed_of_spells {fraction pointed raised : List Char}
    (h : SpellsFraction fraction pointed)
    (hr : ∀ c ∈ raised.head?, c.isDigit = false ∧ c ≠ '.') :
    takePointed (pointed ++ raised) = (fraction, raised) := by
  cases h with
  | absent =>
      rw [List.nil_append]
      unfold takePointed
      split
      · exact absurd rfl (hr '.' rfl).2
      · rfl
  | present hd =>
      obtain ⟨htake, hdrop⟩ :=
        Token.takeWhile_dropWhile_eq_iff.mpr ⟨rfl, hd.2, fun c hc => (hr c hc).1⟩
      rw [List.cons_append, takePointed, htake, hdrop]

theorem head_of_spellsFraction {fraction pointed raised : List Char}
    (h : SpellsFraction fraction pointed) (hr : ∀ c ∈ raised.head?, c.isDigit = false ∧ c ≠ '.') :
    ∀ c ∈ (pointed ++ raised).head?, c.isDigit = false := by
  cases h with
  | absent => exact fun c hc => (hr c hc).1
  | present _ =>
      rintro c ⟨⟩
      rfl

theorem unsignedBits?_of_spells (format : Format) {whole fraction pointed raised : List Char}
    {exponent : Option ℤ} (hw : IsDigits whole) (hf : SpellsFraction fraction pointed)
    (he : SpellsExponent exponent raised) :
    unsignedBits? format (whole ++ (pointed ++ raised)) =
      some (nearestBits format (natOfDigits (whole ++ fraction))
        (exponent.getD 0 - fraction.length)) := by
  have hhead := head_of_spellsExponent he
  obtain ⟨htake, hdrop⟩ :=
    Token.takeWhile_dropWhile_eq_iff.mpr ⟨rfl, hw.2, head_of_spellsFraction hf hhead⟩
  have hne : (whole ++ fraction).isEmpty = false := by simp [hw.1]
  rw [unsignedBits?, htake, hdrop, takePointed_of_spells hf hhead]
  dsimp only
  rw [hne, if_neg Bool.false_ne_true, exponent?_of_spellsExponent he]
  rfl

/-! ### Signs -/

theorem toLower_of_isDigit {c : Char} (h : c.isDigit = true) : c.toLower = c := by
  simp only [Char.isDigit, Bool.and_eq_true, decide_eq_true_eq, ge_iff_le,
    UInt32.le_iff_toNat_le] at h
  have hnine : '9'.val.toNat < 'A'.val.toNat := by decide
  apply dif_neg
  rw [ge_iff_le, UInt32.le_iff_toNat_le]
  omega

/-- What begins with a digit is no name of a special value. -/
theorem map_toLower_ne {c : Char} {tail word : List Char} (hc : c.isDigit = true)
    (hw : ∃ d ∈ word.head?, d.isDigit = false) : (c :: tail).map Char.toLower ≠ word := by
  rintro rfl
  obtain ⟨d, hd, hnot⟩ := hw
  rw [List.map_cons, toLower_of_isDigit hc, List.head?_cons, Option.mem_some_iff] at hd
  rw [hd, hnot] at hc
  cases hc

/-- A numeral is read as the value nearest to its decimal, with its sign. -/
theorem bits?_of_spellsNumeral (format : Format) {numeral : Numeral} {text : List Char}
    (h : SpellsNumeral numeral text) :
    bits? format (String.ofList text) =
      some ((if numeral.negative then format.signBit else 0) +
        nearestBits format numeral.decimal.digits numeral.decimal.exponent) := by
  obtain ⟨⟨hw, -⟩, hf, he⟩ := h
  rename_i negative whole fraction exponent pointed raised
  have hsign : SpellsSign negative (if negative then ['-'] else []) := by
    cases negative
    · exact .absent
    · exact .minus
  obtain ⟨c, tail, htail, hc⟩ := hw.exists_cons
  have hword {word : List Char} (hd : ∃ d ∈ word.head?, d.isDigit = false) :
      (whole ++ (pointed ++ raised)).map Char.toLower ≠ word := by
    rw [htail]
    exact map_toLower_ne hc hd
  rw [bits?, String.toList_ofList, hsign.takeSign hw]
  dsimp only
  rw [if_neg (not_or.mpr ⟨hword ⟨'i', rfl, rfl⟩, hword ⟨'i', rfl, rfl⟩⟩),
    if_neg (hword ⟨'n', rfl, rfl⟩), unsignedBits?_of_spells format hw hf he]
  cases negative <;> simp [Json.Numeral.decimal]

/-! ### Writing -/

/-- The text is a numeral without a sign that has the value. -/
def Writes (text : List Char) (x : ℚ) : Prop :=
  ∃ numeral : Numeral, numeral.negative = false ∧ SpellsNumeral numeral text ∧
    numeral.decimal.value = x

theorem writes_parts {whole fraction pointed raised : List Char} {exponent : Option ℤ} {x : ℚ}
    (hw : IsWhole whole) (hf : SpellsFraction fraction pointed)
    (he : SpellsExponent exponent raised)
    (hx : value ⟨natOfDigits (whole ++ fraction), exponent.getD 0 - fraction.length⟩ = x) :
    Writes (whole ++ (pointed ++ raised)) x :=
  ⟨⟨false, whole, fraction, exponent⟩, rfl, .mk hw hf he, hx⟩

theorem isDigits_append {digits more : List Char} (h : IsDigits digits)
    (hm : ∀ c ∈ more, c.isDigit = true) : IsDigits (digits ++ more) :=
  ⟨List.append_ne_nil_of_left_ne_nil h.1 more,
    fun c hc => (List.mem_append.mp hc).elim (h.2 c) (hm c)⟩

theorem isDigit_of_mem_zeros {count : ℕ} {c : Char} (h : c ∈ List.replicate count '0') :
    c.isDigit = true := by
  rw [List.eq_of_mem_replicate h]
  rfl

theorem isWhole_of_ne {digits : List Char} (h : IsDigits digits)
    (hz : ∀ tail, digits ≠ '0' :: tail) : IsWhole digits :=
  ⟨h, fun c rest => hz (c :: rest)⟩

theorem spellsExponent_write (exponent : ℤ) :
    SpellsExponent (some exponent)
      ('e' :: ((if exponent < 0 then ['-'] else ['+']) ++ Nat.toDigits 10 exponent.natAbs)) := by
  by_cases hn : exponent < 0
  · have hspells :=
      SpellsExponent.present (.inl rfl) .minus (Json.isDigits_toDigits exponent.natAbs)
    have hvalue : -(natOfDigits (Nat.toDigits 10 exponent.natAbs) : ℤ) = exponent := by
      rw [natOfDigits_toDigits]
      omega
    rw [if_pos rfl, hvalue] at hspells
    rwa [if_pos hn]
  · have hspells := SpellsExponent.present (.inl rfl) .plus (Json.isDigits_toDigits exponent.natAbs)
    have hvalue : (natOfDigits (Nat.toDigits 10 exponent.natAbs) : ℤ) = exponent := by
      rw [natOfDigits_toDigits]
      omega
    rw [if_neg Bool.false_ne_true, hvalue] at hspells
    rwa [if_neg hn]

/-- The bit pattern that is read where this one is written: there is one text for no number. -/
def rereadBits (format : Format) (pattern : ℕ) : ℕ :=
  if format.infinity < pattern % format.signBit then format.infinity + format.leastNormal / 2
  else pattern

namespace Layout

variable {layout : Layout}

/-- A whole number is marked by nothing or by a zero behind the point. -/
def MarksWhole (layout : Layout) : Prop := layout.wholeMark = "" ∨ layout.wholeMark = ".0"

theorem MarksWhole.exists_fraction (h : layout.MarksWhole) :
    ∃ count, SpellsFraction (List.replicate count '0') layout.wholeMark.toList := by
  rcases h with h | h
  · exact ⟨0, h ▸ .absent⟩
  · exact ⟨1, h ▸ .present ⟨List.cons_ne_nil _ _, fun _ => isDigit_of_mem_zeros⟩⟩

theorem writes_whole (h : layout.MarksWhole) {n count : ℕ} (hn : 0 < n ∨ count = 0) :
    Writes (Nat.toDigits 10 n ++ List.replicate count '0' ++ layout.wholeMark.toList)
      (n * 10 ^ count) := by
  obtain ⟨marked, hmark⟩ := h.exists_fraction
  have hwhole : IsWhole (Nat.toDigits 10 n ++ List.replicate count '0') := by
    rcases hn with hn | rfl
    · apply isWhole_of_ne
        (isDigits_append (Json.isDigits_toDigits n) fun c hc => isDigit_of_mem_zeros hc)
      intro tail ht
      obtain ⟨first, others, hd, -⟩ := Json.exists_toDigits n
      rw [hd, List.cons_append] at ht
      have hfirst : first = '0' := (List.cons.inj ht).1
      exact Json.toDigits_ne_zero hn others (hfirst ▸ hd)
    · rw [List.replicate_zero, List.append_nil]
      exact Json.isWhole_toDigits n
  rw [← List.append_nil layout.wholeMark.toList]
  refine writes_parts hwhole hmark .absent ?_
  rw [natOfDigits_append_zeros, natOfDigits_append_zeros, natOfDigits_toDigits, value]
  push_cast
  rw [List.length_replicate, Option.getD_none, zero_sub, zpow_neg, zpow_natCast]
  field_simp

theorem writes_pointed {whole fraction : List Char} (hw : IsWhole whole) (hf : IsDigits fraction) :
    Writes (whole ++ '.' :: fraction)
      (value ⟨natOfDigits (whole ++ fraction), -fraction.length⟩) := by
  rw [← List.append_nil ('.' :: fraction)]
  exact writes_parts hw (.present hf) .absent (by rw [Option.getD_none, zero_sub])

theorem writes_plain (h : layout.MarksWhole) {n : ℕ} (hn : 0 < n) (point : ℤ) :
    Writes (layout.writePlain (Nat.toDigits 10 n) point).toList
      (value ⟨n, point - digitCount n⟩) := by
  have hdigits := Json.isDigits_toDigits n
  have hcount : (Nat.toDigits 10 n).length = digitCount n := rfl
  unfold writePlain zeros
  split
  · next hp =>
    have hfraction : IsDigits (List.replicate (-point).toNat '0' ++ Nat.toDigits 10 n) := by
      refine ⟨List.append_ne_nil_of_right_ne_nil _ hdigits.1, fun c hc => ?_⟩
      exact (List.mem_append.mp hc).elim isDigit_of_mem_zeros (hdigits.2 c)
    have hwrites := writes_pointed (Json.isWhole_toDigits 0) hfraction
    have hvalue : natOfDigits (Nat.toDigits 10 0 ++
        (List.replicate (-point).toNat '0' ++ Nat.toDigits 10 n)) = n := by
      rw [← List.append_assoc]
      exact (natOfDigits_zeros_append ((-point).toNat + 1) _).trans (natOfDigits_toDigits n)
    have hexponent : (-(List.replicate (-point).toNat '0' ++ Nat.toDigits 10 n).length : ℤ) =
        point - digitCount n := by
      rw [List.length_append, List.length_replicate, hcount]
      omega
    rw [hvalue, hexponent] at hwrites
    simpa using hwrites
  split
  · next hp hlength =>
    have hwrites := @writes_whole _ h n (point - digitCount n).toNat (.inl hn)
    have hexponent : ((point - digitCount n).toNat : ℤ) = point - digitCount n :=
      Int.toNat_of_nonneg (sub_nonneg.mpr (hcount ▸ hlength))
    rw [← zpow_natCast, hexponent] at hwrites
    simpa [hcount, value] using hwrites
  · next hp hlength =>
    have hwhole : IsWhole ((Nat.toDigits 10 n).take point.toNat) := by
      refine isWhole_of_ne ⟨?_, fun c hc => hdigits.2 c (List.mem_of_mem_take hc)⟩ fun tail ht => ?_
      · rw [Ne, List.take_eq_nil_iff, not_or]
        exact ⟨by omega, hdigits.1⟩
      · have hsplit := List.take_append_drop point.toNat (Nat.toDigits 10 n)
        rw [ht, List.cons_append] at hsplit
        exact Json.toDigits_ne_zero hn _ hsplit.symm
    have hfraction : IsDigits ((Nat.toDigits 10 n).drop point.toNat) := by
      refine ⟨?_, fun c hc => hdigits.2 c (List.mem_of_mem_drop hc)⟩
      rw [Ne, List.drop_eq_nil_iff]
      omega
    have hwrites := writes_pointed hwhole hfraction
    have hexponent :
        (-((Nat.toDigits 10 n).drop point.toNat).length : ℤ) = point - digitCount n := by
      rw [List.length_drop, hcount]
      omega
    rw [List.take_append_drop, natOfDigits_toDigits, hexponent] at hwrites
    simpa using hwrites

theorem writes_exponent (n : ℕ) (exponent : ℤ) :
    Writes (writeExponent (Nat.toDigits 10 n) exponent).toList
      (value ⟨n, exponent + 1 - digitCount n⟩) := by
  have hraised := spellsExponent_write exponent
  have hdigits := Json.isDigits_toDigits n
  have hvalue := natOfDigits_toDigits n
  have hcount : (Nat.toDigits 10 n).length = digitCount n := rfl
  have htext : (toString exponent.natAbs).toList = Nat.toDigits 10 exponent.natAbs := by simp
  have hsign :
      (if exponent < 0 then "-" else "+").toList = if exponent < 0 then ['-'] else ['+'] := by
    split <;> rfl
  generalize Nat.toDigits 10 n = digits at hdigits hvalue hcount
  cases digits with
  | nil => exact absurd rfl hdigits.1
  | cons first tail =>
      have hfirst : IsWhole [first] := by
        refine ⟨⟨List.cons_ne_nil _ _, ?_⟩, fun c rest h => nomatch h⟩
        exact List.forall_mem_singleton.mpr (hdigits.2 first List.mem_cons_self)
      have htail : ∀ c ∈ tail, c.isDigit = true :=
        fun c hc => hdigits.2 c (List.mem_cons_of_mem _ hc)
      have hexponent : exponent - tail.length = exponent + 1 - digitCount n := by
        rw [← hcount, List.length_cons]
        omega
      have hwrites {pointed : List Char} (hf : SpellsFraction tail pointed) :=
        writes_parts hfirst hf hraised rfl
      simp only [List.singleton_append, hvalue, Option.getD_some, hexponent] at hwrites
      cases tail with
      | nil => simpa [writeExponent, htext, hsign] using hwrites .absent
      | cons second rest =>
          simpa [writeExponent, htext, hsign] using
            hwrites (.present ⟨List.cons_ne_nil _ _, htail⟩)

/-- What is written for a decimal is a numeral of its value. -/
theorem writes_write (h : layout.MarksWhole) (decimal : Decimal) :
    Writes (layout.write decimal).toList decimal.value := by
  unfold write
  split
  · next hz =>
    have hzero : decimal.value = (0 : ℕ) * 10 ^ 0 := by rw [value, hz]; simp
    have hwrites := @writes_whole _ h 0 0 (.inr rfl)
    rw [hzero, String.toList_append]
    exact hwrites
  · next hz =>
    have hn : 0 < decimal.digits := Nat.pos_of_ne_zero hz
    have hcount : (Nat.toDigits 10 decimal.digits).length = digitCount decimal.digits := rfl
    dsimp only
    split
    · have hwrites := writes_plain h hn
        ((Nat.toDigits 10 decimal.digits).length + decimal.exponent)
      rwa [hcount, add_sub_cancel_left] at hwrites
    · have hwrites := writes_exponent decimal.digits
        ((Nat.toDigits 10 decimal.digits).length + decimal.exponent - 1)
      rwa [hcount, sub_add_cancel, add_sub_cancel_left] at hwrites

/-! ### Bit patterns -/

variable {bits pattern : ℕ}

theorem nearestBits_of_value_eq_zero {digits : ℕ} {exponent : ℤ}
    (h : value ⟨digits, exponent⟩ = 0) : nearestBits format digits exponent = 0 := by
  have hpow : (10 : ℚ) ^ exponent ≠ 0 := zpow_ne_zero _ (by norm_num)
  have hzero : digits = 0 := Nat.cast_eq_zero.mp ((mul_eq_zero.mp h).resolve_right hpow)
  exact if_pos (.inl hzero)

theorem eq_zero_of_significand (h : (format.binary bits).significand = 0) : bits = 0 := by
  have hholds := format.holds_binary bits
  rw [← format.pack_binary bits, Format.pack, h, Nat.add_zero]
  have hleast : (format.binary bits).exponent ≤ format.leastExponent := by
    by_contra hlt
    have hle := hholds.normal (not_le.mp hlt)
    have hpos := format.leastNormal_pos
    omega
  have hfield : ((format.binary bits).exponent - format.leastExponent).toNat = 0 := by omega
  rw [hfield, Nat.zero_mul]

theorem exists_numeral_writeBits (hf : format.Regular) (h : layout.MarksWhole)
    (hb : bits < format.infinity) :
    ∃ numeral : Numeral, numeral.negative = false ∧
      SpellsNumeral numeral (layout.writeBits format bits).toList ∧
      nearestBits format numeral.decimal.digits numeral.decimal.exponent = bits := by
  obtain ⟨numeral, hn, hs, hv⟩ :=
    writes_write h ((format.binary bits).shortest format layout.tie)
  refine ⟨numeral, hn, ?_, ?_⟩
  · rwa [writeBits, if_pos hb]
  · by_cases hz : (format.binary bits).significand = 0
    · have hzero : ((format.binary bits).shortest format layout.tie).value = 0 := by
        rw [Binary.shortest, if_pos hz, value, Nat.cast_zero, zero_mul]
      rw [eq_zero_of_significand hz]
      exact nearestBits_of_value_eq_zero (hv.trans hzero)
    · have hpos := Nat.pos_of_ne_zero hz
      have hround := Binary.roundsTo_shortest hf.precision_pos (format.holds_binary bits) hpos
        layout.tie
      exact nearestBits_eq hf hb hpos (hv ▸ hround)

theorem sign_add_mod (hp : pattern < 2 * format.signBit) :
    (if pattern < format.signBit then 0 else format.signBit) + pattern % format.signBit =
      pattern := by
  split
  · next hlt => rw [Nat.mod_eq_of_lt hlt, Nat.zero_add]
  · next hge =>
    rw [Nat.mod_eq_sub_mod (not_lt.mp hge), Nat.mod_eq_of_lt (by omega)]
    omega

theorem spellsNumeral_minus {numeral : Numeral} {text : List Char} (hn : numeral.negative = false)
    (h : SpellsNumeral numeral text) :
    SpellsNumeral { numeral with negative := true } ('-' :: text) := by
  obtain ⟨hw, hf, he⟩ := h
  dsimp only at hn
  rw [hn]
  exact .mk hw hf he

/-- What is written for a finite bit pattern is a numeral that is read as the pattern. -/
theorem exists_numeral_writeSigned (hf : format.Regular) (h : layout.MarksWhole)
    (hp : pattern < 2 * format.signBit) (hb : pattern % format.signBit < format.infinity) :
    ∃ numeral : Numeral, SpellsNumeral numeral (layout.writeSigned format pattern).toList ∧
      (if numeral.negative then format.signBit else 0) +
        nearestBits format numeral.decimal.digits numeral.decimal.exponent = pattern := by
  have hsplit := sign_add_mod hp
  obtain ⟨numeral, hn, hs, hread⟩ := exists_numeral_writeBits hf h hb
  rw [writeSigned, if_neg hb.not_gt]
  split
  · next hlt =>
    rw [if_pos hlt] at hsplit
    refine ⟨numeral, hs, ?_⟩
    rw [hn, if_neg Bool.false_ne_true, hread, hsplit]
  · next hge =>
    rw [if_neg hge] at hsplit
    refine ⟨{ numeral with negative := true }, ?_, hread ▸ hsplit⟩
    rw [String.toList_append]
    exact spellsNumeral_minus hn hs

/-- **Numbers are read back.** The text that is written for a bit pattern is read as the pattern, or
as no number if it is none. -/
theorem bits?_writeSigned (hf : format.Regular) (h : layout.MarksWhole)
    (hp : pattern < 2 * format.signBit) :
    bits? format (layout.writeSigned format pattern) =
      some (rereadBits format pattern) := by
  rcases lt_trichotomy (pattern % format.signBit) format.infinity with hb | hb | hb
  · obtain ⟨numeral, hs, hread⟩ := exists_numeral_writeSigned hf h hp hb
    have hbits := bits?_of_spellsNumeral format hs
    rw [String.ofList_toList, hread] at hbits
    rw [hbits, rereadBits, if_neg hb.not_gt]
  · have hsplit := sign_add_mod hp
    rw [hb] at hsplit
    rw [rereadBits, writeSigned, hb, if_neg (lt_irrefl _), if_neg (lt_irrefl _), writeBits,
      if_neg (lt_irrefl _)]
    split
    · next hlt =>
      rw [if_pos hlt, Nat.zero_add] at hsplit
      exact congrArg some hsplit
    · next hge =>
      rw [if_neg hge] at hsplit
      exact congrArg some hsplit
  · rw [rereadBits, writeSigned, if_pos hb, if_pos hb]
    rfl

end Layout

end Decimal

/-! ### Numbers of both widths -/

namespace Decimal

theorem Format.regular_double : Format.double.Regular := ⟨by decide, by decide⟩

theorem Format.regular_single : Format.single.Regular := ⟨by decide, by decide⟩

namespace Layout

variable {layout : Layout}

theorem bits?_writeDouble (h : layout.MarksWhole) (x : Float) :
    bits? .double (layout.writeDouble x) = some (rereadBits .double x.toBits.toNat) :=
  bits?_writeSigned Format.regular_double h x.toBits.toNat_lt

theorem bits?_writeSingle (h : layout.MarksWhole) (x : Float32) :
    bits? .single (layout.writeSingle x) = some (rereadBits .single x.toBits.toNat) :=
  bits?_writeSigned Format.regular_single h x.toBits.toNat_lt

end Layout

end Decimal

theorem Json.marksWhole_numberLayout : numberLayout.MarksWhole := .inr rfl

theorem Scalar.marksWhole_layout : layout.MarksWhole := .inl rfl

namespace Json.Number

/-- A written integer is read back, whatever its size. -/
theorem integer?_write (n : ℤ) : Decimal.integer? (Number.integer n).write.toList = some n := by
  have hsign : SpellsSign (decide (n < 0)) (if decide (n < 0) then ['-'] else []) := by
    cases decide (n < 0)
    · exact .absent
    · exact .minus
  rw [toList_write_integer, Decimal.integer?_of_spellsSign hsign (isDigits_toDigits _),
    Decimal.natOfDigits_toDigits]
  congr 1
  split
  · next hn =>
    rw [decide_eq_true_eq] at hn
    omega
  · next hn =>
    rw [decide_eq_true_eq] at hn
    omega

theorem bits?_write (x : Float) :
    Decimal.bits? .double (Number.float x).write =
      some (Decimal.rereadBits .double x.toBits.toNat) :=
  Decimal.Layout.bits?_writeDouble marksWhole_numberLayout x

end Json.Number

/-- The text of a number that a parameter is given as is read as the number. -/
theorem Scalar.reads_toText :
    (∀ n : ℤ, Decimal.integer? (integer n).toText.toList = some n) ∧
      (∀ x : Float, Decimal.bits? .double (double x).toText =
        some (Decimal.rereadBits .double x.toBits.toNat)) ∧
      ∀ x : Float32, Decimal.bits? .single (single x).toText =
        some (Decimal.rereadBits .single x.toBits.toNat) :=
  ⟨Json.Number.integer?_write, Decimal.Layout.bits?_writeDouble marksWhole_layout,
    Decimal.Layout.bits?_writeSingle marksWhole_layout⟩

end UrlRouting
