import Mathlib.Algebra.Order.Field.Power
import Mathlib.Tactic.FieldSimp
import Mathlib.Tactic.Linarith
import Mathlib.Tactic.Positivity
import Mathlib.Tactic.Ring
import UrlRouting.Decimal.Reading
import UrlRouting.Decimal.Shortest

/-! # Rounding to binary values

Which value of a binary format a decimal is read as.

* `zpow_magnitude`: the magnitude of a fraction is the exponent of its leading bit.
* `nearestNat_eq`: rounding to an integer, with ties to the even one.
* `Format.RoundsTo` is the interval of the fractions that round to a value. It reaches half way to
  the neighbours, of which the lower one of a power of two is nearer.
* `Format.nearest_eq` and `nearestBits_eq`: fractions and decimals are rounded to the value of whose
  interval they are elements. -/

namespace UrlRouting.Decimal

theorem powTen_pos (n : ℕ) : 0 < powTen n := Nat.pow_pos (by decide)

theorem zpow_eq_div {base : ℚ} (hb : base ≠ 0) (exponent : ℤ) :
    base ^ exponent = base ^ exponent.toNat / base ^ (-exponent).toNat := by
  have hsplit : exponent = exponent.toNat - (-exponent).toNat := by omega
  conv_lhs => rw [hsplit]
  rw [zpow_sub₀ hb, zpow_natCast, zpow_natCast]

theorem two_zpow (exponent : ℤ) :
    (2 : ℚ) ^ exponent = (powTwo exponent.toNat : ℕ) / (powTwo (-exponent).toNat : ℕ) := by
  rw [zpow_eq_div two_ne_zero, powTwo, powTwo, Nat.pow_eq, Nat.pow_eq]
  push_cast
  rfl

theorem ten_zpow (exponent : ℤ) :
    (10 : ℚ) ^ exponent = (powTen exponent.toNat : ℕ) / (powTen (-exponent).toNat : ℕ) := by
  rw [zpow_eq_div (by norm_num), powTen, powTen, Nat.pow_eq, Nat.pow_eq]
  push_cast
  rfl

/-! ### Scaled fractions -/

variable {numerator denominator : ℕ}

theorem scaled_div (numerator denominator : ℕ) (exponent : ℤ) :
    ((scaled numerator denominator exponent).1 : ℚ) / (scaled numerator denominator exponent).2 =
      numerator / denominator / 2 ^ exponent := by
  rw [two_zpow, scaled]
  push_cast
  rw [div_div_div_eq]

theorem scaled_pos (numerator : ℕ) (hd : 0 < denominator) (exponent : ℤ) :
    0 < (scaled numerator denominator exponent).2 :=
  Nat.mul_pos hd (Nat.pow_pos Nat.two_pos)

/-- The magnitude of a fraction is the exponent of its leading bit. -/
theorem zpow_magnitude (hn : 0 < numerator) (hd : 0 < denominator) :
    (2 : ℚ) ^ magnitude numerator denominator ≤ numerator / denominator ∧
      (numerator / denominator : ℚ) < 2 ^ (magnitude numerator denominator + 1) := by
  have hn1 : (2 : ℚ) ^ numerator.log2 ≤ numerator := mod_cast Nat.log2_self_le hn.ne'
  have hn2 : (numerator : ℚ) < 2 ^ (numerator.log2 + 1) := mod_cast Nat.lt_log2_self
  have hd1 : (2 : ℚ) ^ denominator.log2 ≤ denominator := mod_cast Nat.log2_self_le hd.ne'
  have hd2 : (denominator : ℚ) < 2 ^ (denominator.log2 + 1) := mod_cast Nat.lt_log2_self
  have hd0 : (0 : ℚ) < denominator := mod_cast hd
  set guess : ℤ := numerator.log2 - denominator.log2 with hguess
  have htwo : (2 : ℚ) ≠ 0 := two_ne_zero
  have hupper : (numerator / denominator : ℚ) < 2 ^ (guess + 1) := by
    have hpow : (2 : ℚ) ^ (guess + 1) * 2 ^ denominator.log2 = 2 ^ (numerator.log2 + 1) := by
      rw [← zpow_natCast, ← zpow_natCast, ← zpow_add₀ htwo]
      congr 1
      omega
    rw [div_lt_iff₀ hd0]
    calc (numerator : ℚ) < 2 ^ (guess + 1) * 2 ^ denominator.log2 := hpow ▸ hn2
      _ ≤ 2 ^ (guess + 1) * denominator := by gcongr
  have hlower : (2 : ℚ) ^ (guess - 1) ≤ numerator / denominator := by
    have hpow : (2 : ℚ) ^ (guess - 1) * 2 ^ (denominator.log2 + 1) = 2 ^ numerator.log2 := by
      rw [← zpow_natCast, ← zpow_natCast, ← zpow_add₀ htwo]
      congr 1
      omega
    rw [le_div_iff₀ hd0]
    calc (2 : ℚ) ^ (guess - 1) * denominator ≤ 2 ^ (guess - 1) * 2 ^ (denominator.log2 + 1) := by
          gcongr
      _ ≤ numerator := hpow ▸ hn1
  have hreaches : (scaled numerator denominator guess).2 ≤ (scaled numerator denominator guess).1 ↔
      (2 : ℚ) ^ guess ≤ numerator / denominator := by
    have hunit : (0 : ℚ) < (scaled numerator denominator guess).2 :=
      mod_cast scaled_pos numerator hd guess
    rw [← Nat.cast_le (α := ℚ), ← one_le_div hunit, scaled_div, one_le_div (by positivity)]
  have hmagnitude : magnitude numerator denominator =
      if (scaled numerator denominator guess).2 ≤ (scaled numerator denominator guess).1 then guess
      else guess - 1 := rfl
  rw [hmagnitude]
  split
  · next h => exact ⟨hreaches.mp h, hupper⟩
  · next h =>
    rw [sub_add_cancel]
    exact ⟨hlower, not_le.mp (mt hreaches.mpr h)⟩

/-! ### Rounding to integers -/

/-- The fraction is rounded to the integer: it is half way to a neighbour at most, and less far from
an odd integer. -/
def RoundsTo (x : ℚ) (n : ℕ) : Prop :=
  if n % 2 = 0 then n - 1 / 2 ≤ x ∧ x ≤ n + 1 / 2 else n - 1 / 2 < x ∧ x < n + 1 / 2

theorem roundsTo_div_iff {n : ℕ} (hd : 0 < denominator) :
    RoundsTo (numerator / denominator) n ↔
      if n % 2 = 0 then
        2 * (denominator * n) ≤ 2 * numerator + denominator ∧
          2 * numerator ≤ 2 * (denominator * n) + denominator
      else
        2 * (denominator * n) < 2 * numerator + denominator ∧
          2 * numerator < 2 * (denominator * n) + denominator := by
  have hd0 : (0 : ℚ) < denominator := mod_cast hd
  unfold RoundsTo
  rw [le_div_iff₀ hd0, div_le_iff₀ hd0, lt_div_iff₀ hd0, div_lt_iff₀ hd0]
  simp only [← Nat.cast_le (α := ℚ), ← Nat.cast_lt (α := ℚ), Nat.cast_add, Nat.cast_mul,
    Nat.cast_ofNat]
  split
  · constructor <;> rintro ⟨h, h'⟩ <;> constructor <;> linarith
  · constructor <;> rintro ⟨h, h'⟩ <;> constructor <;> linarith

theorem nearestNat_eq {n : ℕ} (hd : 0 < denominator) (h : RoundsTo (numerator / denominator) n) :
    nearestNat numerator denominator = n := by
  rw [roundsTo_div_iff hd] at h
  have hsplit := Nat.div_add_mod numerator denominator
  have hrest := Nat.mod_lt numerator hd
  set below := numerator / denominator
  set rest := numerator % denominator
  have hbelow : below = n ∨ below + 1 = n := by
    have hle : denominator * below < denominator * (n + 1) := by
      rw [Nat.mul_add_one]
      split at h <;> omega
    have hge : denominator * n < denominator * (below + 2) := by
      rw [Nat.mul_add]
      split at h <;> omega
    have := Nat.lt_of_mul_lt_mul_left hle
    have := Nat.lt_of_mul_lt_mul_left hge
    omega
  have hnearest : nearestNat numerator denominator =
      if denominator < 2 * rest ∨ (denominator = 2 * rest ∧ below % 2 = 1) then below + 1
      else below := by
    simp [nearestNat, below, rest]
  rw [hnearest]
  rcases hbelow with rfl | rfl
  · rw [if_neg]
    split at h <;> omega
  · rw [if_pos]
    rw [Nat.mul_add_one] at h
    split at h <;> omega

/-! ### Bit patterns -/

namespace Format

variable {format : Format} {bits : ℕ} {binary : Binary}

theorem leastNormal_pos (format : Format) : 0 < format.leastNormal := Nat.pow_pos Nat.two_pos

theorem two_mul_leastNormal (hp : 0 < format.precision) :
    2 * format.leastNormal = powTwo format.precision := by
  obtain ⟨n, hn⟩ := Nat.exists_eq_succ_of_ne_zero hp.ne'
  rw [leastNormal, hn]
  exact Nat.pow_succ'.symm

theorem cast_leastNormal (hp : 0 < format.precision) :
    (format.leastNormal : ℚ) = 2 ^ ((format.precision : ℤ) - 1) := by
  have hone : 1 ≤ format.precision := hp
  rw [leastNormal, powTwo, Nat.pow_eq, Nat.cast_pow, Nat.cast_ofNat, ← zpow_natCast,
    Nat.cast_sub hone, Nat.cast_one]

/-- The bit pattern of a value. -/
def pack (format : Format) (binary : Binary) : ℕ :=
  (binary.exponent - format.leastExponent).toNat * format.leastNormal + binary.significand

/-- The values of a format: only those with the least exponent may lack the leading bit. -/
structure Holds (format : Format) (binary : Binary) : Prop where
  least_le : format.leastExponent ≤ binary.exponent
  significand_lt : binary.significand < 2 * format.leastNormal
  normal : format.leastExponent < binary.exponent → format.leastNormal ≤ binary.significand

theorem holds_binary (format : Format) (bits : ℕ) : format.Holds (format.binary bits) := by
  have hfraction : bits % format.leastNormal < format.leastNormal :=
    Nat.mod_lt _ format.leastNormal_pos
  unfold binary
  dsimp only
  split
  · exact ⟨le_rfl, by dsimp only; omega, fun h => absurd h (lt_irrefl _)⟩
  · exact ⟨by dsimp only; omega, by dsimp only; omega, fun _ => Nat.le_add_right _ _⟩

theorem pack_binary (format : Format) (bits : ℕ) : format.pack (format.binary bits) = bits := by
  have hsplit := Nat.div_add_mod' bits format.leastNormal
  unfold binary
  dsimp only
  split
  · next h =>
    rw [h, Nat.zero_mul] at hsplit
    simpa [pack] using hsplit
  · next h =>
    obtain ⟨field, hf⟩ := Nat.exists_eq_succ_of_ne_zero h
    rw [hf, Nat.succ_mul] at hsplit
    simp only [pack, hf, Nat.succ_sub_one, add_sub_cancel_left, Int.toNat_natCast]
    omega

/-- How far below a value the interval of the fractions that round to it begins, in units of the
last bit: half way to the next smaller value. -/
def lowerGap (format : Format) (binary : Binary) : ℚ :=
  if binary.significand = format.leastNormal ∧ format.leastExponent < binary.exponent then 1 / 4
  else 1 / 2

theorem le_lowerGap (format : Format) (binary : Binary) : 1 / 4 ≤ format.lowerGap binary := by
  unfold lowerGap
  split <;> norm_num

theorem lowerGap_le (format : Format) (binary : Binary) : format.lowerGap binary ≤ 1 / 2 := by
  unfold lowerGap
  split <;> norm_num

/-- The fraction is rounded to the value: it is half way to the neighbours at most, and less far
from a value with an odd significand. -/
def RoundsTo (format : Format) (x : ℚ) (binary : Binary) : Prop :=
  if binary.significand % 2 = 0 then
    (binary.significand - format.lowerGap binary) * 2 ^ binary.exponent ≤ x ∧
      x ≤ (binary.significand + 1 / 2) * (2 : ℚ) ^ binary.exponent
  else
    (binary.significand - format.lowerGap binary) * 2 ^ binary.exponent < x ∧
      x < (binary.significand + 1 / 2) * (2 : ℚ) ^ binary.exponent

variable {x : ℚ}

theorem RoundsTo.bounds (h : format.RoundsTo x binary) :
    (binary.significand - format.lowerGap binary) * 2 ^ binary.exponent ≤ x ∧
      x ≤ (binary.significand + 1 / 2) * (2 : ℚ) ^ binary.exponent := by
  unfold RoundsTo at h
  split at h
  · exact h
  · exact ⟨h.1.le, h.2.le⟩

/-- In units of the last bit the fraction is rounded to the significand. -/
theorem RoundsTo.div_zpow (h : format.RoundsTo x binary) :
    Decimal.RoundsTo (x / 2 ^ binary.exponent) binary.significand := by
  have hpow : (0 : ℚ) < 2 ^ binary.exponent := zpow_pos two_pos _
  have hlow := mul_le_mul_of_nonneg_right
    (sub_le_sub_left (format.lowerGap_le binary) (binary.significand : ℚ)) hpow.le
  unfold RoundsTo at h
  unfold Decimal.RoundsTo
  rw [le_div_iff₀ hpow, div_le_iff₀ hpow, lt_div_iff₀ hpow, div_lt_iff₀ hpow]
  split at h
  · next heven =>
    rw [if_pos heven]
    exact ⟨hlow.trans h.1, h.2⟩
  · next hodd =>
    rw [if_neg hodd]
    exact ⟨hlow.trans_lt h.1, h.2⟩

/-- Where a fraction that is rounded to a value lies below it, the value is a power of two. -/
theorem RoundsTo.eq_leastNormal (h : format.RoundsTo x binary) (hb : format.Holds binary)
    (he : format.leastExponent < binary.exponent)
    (hx : x < format.leastNormal * 2 ^ binary.exponent) :
    binary.significand = format.leastNormal := by
  have hpow : (0 : ℚ) < 2 ^ binary.exponent := zpow_pos two_pos _
  have hlt := lt_of_mul_lt_mul_right (h.bounds.1.trans_lt hx) hpow.le
  have hgap := format.lowerGap_le binary
  have hle : (binary.significand : ℚ) < format.leastNormal + 1 := by linarith
  exact le_antisymm (Nat.lt_add_one_iff.mp (mod_cast hle)) (hb.normal he)

/-- A fraction below a power of two that is rounded to it is rounded to it with the next smaller
exponent too. -/
theorem RoundsTo.div_zpow_below (h : format.RoundsTo x binary)
    (hs : binary.significand = format.leastNormal) (he : format.leastExponent < binary.exponent)
    (hx : x < format.leastNormal * 2 ^ binary.exponent) :
    (2 * format.leastNormal - 1 / 2) * 2 ^ (binary.exponent - 1) ≤ x ∧
      x < 2 * format.leastNormal * 2 ^ (binary.exponent - 1) ∧
      Decimal.RoundsTo (x / 2 ^ (binary.exponent - 1)) (2 * format.leastNormal) := by
  have hgap : format.lowerGap binary = 1 / 4 := if_pos ⟨hs, he⟩
  have hhalf : (2 : ℚ) ^ binary.exponent = 2 * 2 ^ (binary.exponent - 1) := by
    rw [zpow_sub_one₀ two_ne_zero]
    field_simp
  have hpow : (0 : ℚ) < 2 ^ (binary.exponent - 1) := zpow_pos two_pos _
  have hlow := h.bounds.1
  rw [hgap, hs, hhalf] at hlow
  rw [hhalf] at hx
  refine ⟨by linarith, by linarith, ?_⟩
  unfold Decimal.RoundsTo
  rw [if_pos (Nat.mul_mod_right _ _), le_div_iff₀ hpow, div_le_iff₀ hpow]
  push_cast
  constructor <;> linarith

theorem pack_carry (format : Format) {exponent : ℤ} (he : format.leastExponent < exponent) :
    format.pack ⟨2 * format.leastNormal, exponent - 1⟩ =
      format.pack ⟨format.leastNormal, exponent⟩ := by
  have hfield : (exponent - format.leastExponent).toNat =
      (exponent - 1 - format.leastExponent).toNat + 1 := by omega
  rw [pack, pack, hfield]
  ring

variable {numerator denominator : ℕ}

/-- The exponent for rounding is the least one for which the significand is not too great. -/
theorem max_magnitude_eq (hp : 0 < format.precision) (hn : 0 < numerator) (hd : 0 < denominator)
    {exponent : ℤ} (hleast : format.leastExponent ≤ exponent)
    (hlt : (numerator / denominator : ℚ) < 2 * format.leastNormal * 2 ^ exponent)
    (hle : format.leastExponent < exponent →
      (format.leastNormal : ℚ) * 2 ^ exponent ≤ numerator / denominator) :
    max format.leastExponent (magnitude numerator denominator - (format.precision - 1 : ℕ)) =
      exponent := by
  obtain ⟨hm1, hm2⟩ := zpow_magnitude hn hd
  have htwo : (2 : ℚ) ≠ 0 := two_ne_zero
  have hone : (1 : ℚ) < 2 := one_lt_two
  rw [cast_leastNormal hp, ← zpow_one_add₀ htwo, ← zpow_add₀ htwo] at hlt
  rw [cast_leastNormal hp, ← zpow_add₀ htwo] at hle
  have hupper := (zpow_lt_zpow_iff_right₀ hone).mp (hm1.trans_lt hlt)
  rcases hleast.eq_or_lt with he | he
  · omega
  · have hlower := (zpow_lt_zpow_iff_right₀ hone).mp ((hle he).trans_lt hm2)
    omega

theorem nearest_of_exponent (hp : 0 < format.precision) (hn : 0 < numerator) (hd : 0 < denominator)
    {exponent : ℤ} {significand : ℕ} (hleast : format.leastExponent ≤ exponent)
    (hlt : (numerator / denominator : ℚ) < 2 * format.leastNormal * 2 ^ exponent)
    (hle : format.leastExponent < exponent →
      (format.leastNormal : ℚ) * 2 ^ exponent ≤ numerator / denominator)
    (hr : Decimal.RoundsTo (numerator / denominator / 2 ^ exponent) significand) :
    format.nearest numerator denominator =
      min (format.pack ⟨significand, exponent⟩) format.infinity := by
  have hnearest : nearestNat (scaled numerator denominator exponent).1
      (scaled numerator denominator exponent).2 = significand := by
    apply nearestNat_eq (scaled_pos numerator hd exponent)
    rwa [scaled_div]
  rw [nearest]
  dsimp only
  rw [max_magnitude_eq hp hn hd hleast hlt hle, hnearest, pack]

/-- **Rounding to the nearest value.** A fraction is rounded to the value of whose interval it is
an element. -/
theorem nearest_eq (hp : 0 < format.precision) (hn : 0 < numerator) (hd : 0 < denominator)
    (hb : bits < format.infinity)
    (h : format.RoundsTo (numerator / denominator) (format.binary bits)) :
    format.nearest numerator denominator = bits := by
  have hholds := format.holds_binary bits
  have hpack := format.pack_binary bits
  generalize format.binary bits = binary at h hholds hpack
  by_cases hlow : format.leastExponent < binary.exponent ∧
      (numerator / denominator : ℚ) < format.leastNormal * 2 ^ binary.exponent
  · -- Below the least significand the next smaller exponent is taken.
    obtain ⟨he, hx⟩ := hlow
    have hs := h.eq_leastNormal hholds he hx
    obtain ⟨hlow, hhigh, hround⟩ := h.div_zpow_below hs he hx
    have hone : (1 : ℚ) ≤ format.leastNormal := mod_cast format.leastNormal_pos
    have hnormal : format.leastExponent < binary.exponent - 1 →
        (format.leastNormal : ℚ) * 2 ^ (binary.exponent - 1) ≤ numerator / denominator := by
      refine fun _ => le_trans ?_ hlow
      gcongr
      linarith
    have hpacked : format.pack ⟨format.leastNormal, binary.exponent⟩ = bits := by
      rw [← hs]
      exact hpack
    rw [nearest_of_exponent hp hn hd (by omega) hhigh hnormal hround, pack_carry format he, hpacked,
      min_eq_left hb.le]
  · have hhigh : (numerator / denominator : ℚ) < 2 * format.leastNormal * 2 ^ binary.exponent := by
      have hsignificand : (binary.significand : ℚ) + 1 ≤ 2 * format.leastNormal :=
        mod_cast hholds.significand_lt
      calc _ ≤ (binary.significand + 1 / 2) * (2 : ℚ) ^ binary.exponent := h.bounds.2
        _ < 2 * format.leastNormal * 2 ^ binary.exponent := by gcongr; linarith
    have hnot : format.leastExponent < binary.exponent →
        (format.leastNormal : ℚ) * 2 ^ binary.exponent ≤ numerator / denominator :=
      fun he => not_lt.mp fun hx => hlow ⟨he, hx⟩
    rw [nearest_of_exponent hp hn hd hholds.least_le hhigh hnot h.div_zpow, hpack,
      min_eq_left hb.le]

end Format

/-! ### Digits -/

theorem digitCount_pos (n : ℕ) : 0 < digitCount n := Nat.length_toDigits_pos

theorem digitCount_le_iff {n count : ℕ} (hc : 0 < count) : digitCount n ≤ count ↔ n < 10 ^ count :=
  Nat.length_toDigits_le_iff (by decide) hc

theorem lt_pow_digitCount (n : ℕ) : n < 10 ^ digitCount n :=
  (digitCount_le_iff (digitCount_pos n)).mp le_rfl

theorem pow_digitCount_le {n : ℕ} (h : 0 < n) : 10 ^ (digitCount n - 1) ≤ n := by
  by_contra hlt
  rcases Nat.eq_zero_or_pos (digitCount n - 1) with hzero | hpos
  · rw [hzero] at hlt
    omega
  · have hle := (digitCount_le_iff hpos).mpr (not_le.mp hlt)
    omega

/-- The value of a decimal. -/
def value (decimal : Decimal) : ℚ := decimal.digits * 10 ^ decimal.exponent

theorem value_le_value {exponent : ℤ} {m n : ℕ} (h : m ≤ n) :
    value ⟨m, exponent⟩ ≤ value ⟨n, exponent⟩ := by
  unfold value
  gcongr

theorem value_succ {exponent : ℤ} (n : ℕ) :
    value ⟨n + 1, exponent⟩ = value ⟨n, exponent⟩ + 10 ^ exponent := by
  unfold value
  push_cast
  ring

theorem value_bounds {digits : ℕ} (h : 0 < digits) (exponent : ℤ) :
    (10 : ℚ) ^ (digitCount digits + exponent - 1) ≤ value ⟨digits, exponent⟩ ∧
      value ⟨digits, exponent⟩ < 10 ^ (digitCount digits + exponent) := by
  have hten : (10 : ℚ) ≠ 0 := by norm_num
  have hpow : (0 : ℚ) < 10 ^ exponent := by positivity
  have hcount := digitCount_pos digits
  have hlow : (10 : ℚ) ^ (digitCount digits - 1) ≤ digits := mod_cast pow_digitCount_le h
  have hhigh : (digits : ℚ) < 10 ^ digitCount digits := mod_cast lt_pow_digitCount digits
  constructor
  · have hsplit :
        (digitCount digits + exponent - 1 : ℤ) = (digitCount digits - 1 : ℕ) + exponent := by omega
    rw [hsplit, zpow_add₀ hten, zpow_natCast, value]
    exact mul_le_mul_of_nonneg_right hlow hpow.le
  · rw [zpow_add₀ hten, zpow_natCast, value]
    exact mul_lt_mul_of_pos_right hhigh hpow

/-! ### Rounding decimals -/

/-- A format has a leading bit, and its exponents reach as far as its significands are long. -/
structure Format.Regular (format : Format) : Prop where
  precision_pos : 0 < format.precision
  precision_le : format.precision ≤ powTwo format.exponentBits

variable {format : Format} {bits : ℕ}

theorem Format.RoundsTo.zpow_le {x : ℚ} {binary : Binary} (h : format.RoundsTo x binary)
    (hs : 0 < binary.significand) : (2 : ℚ) ^ (binary.exponent - 1) ≤ x := by
  have hone : (1 : ℚ) ≤ binary.significand := mod_cast hs
  have hgap := format.lowerGap_le binary
  have hpow : (0 : ℚ) < 2 ^ binary.exponent := zpow_pos two_pos _
  rw [zpow_sub_one₀ two_ne_zero]
  exact le_trans (by nlinarith) h.bounds.1

theorem Format.RoundsTo.lt_zpow {x : ℚ} {binary : Binary} (hp : 0 < format.precision)
    (h : format.RoundsTo x binary) (hb : format.Holds binary) :
    x < 2 ^ (binary.exponent + format.precision) := by
  have hsignificand : (binary.significand : ℚ) + 1 ≤ 2 * format.leastNormal :=
    mod_cast hb.significand_lt
  have hpow : (2 : ℚ) ^ (binary.exponent + format.precision) =
      2 * format.leastNormal * 2 ^ binary.exponent := by
    rw [cast_leastNormal hp, ← zpow_one_add₀ two_ne_zero, ← zpow_add₀ two_ne_zero]
    congr 1
    omega
  rw [hpow]
  calc x ≤ (binary.significand + 1 / 2) * (2 : ℚ) ^ binary.exponent := h.bounds.2
    _ < 2 * format.leastNormal * 2 ^ binary.exponent := by gcongr; linarith

theorem Format.exponent_binary_le (hb : bits < format.infinity) :
    (format.binary bits).exponent + format.precision ≤ powTwo format.exponentBits := by
  have hholds := format.holds_binary bits
  have hpack := format.pack_binary bits
  generalize format.binary bits = binary at hholds hpack
  obtain ⟨hleast, -, hnormal⟩ := hholds
  obtain ⟨half, hhalf, hpos, hbound⟩ : ∃ half, powTwo (format.exponentBits - 1) = half ∧
      0 < half ∧ powTwo format.exponentBits = 2 * half := by
    cases he : format.exponentBits with
    | zero =>
        rw [infinity, he] at hb
        exact absurd hb (by simp [powTwo])
    | succ n => exact ⟨2 ^ n, rfl, Nat.pow_pos two_pos, Nat.pow_succ'⟩
  rw [← hpack, pack, infinity, hbound] at hb
  have hfield := Nat.lt_of_mul_lt_mul_right (lt_of_le_of_lt (Nat.le_add_right _ _) hb)
  rw [hbound]
  have hleastExponent : format.leastExponent = 3 - half - format.precision := by
    rw [leastExponent, hhalf]
  rcases hleast.eq_or_lt with he | he
  · omega
  · have hnext : ((binary.exponent - format.leastExponent).toNat + 1) * format.leastNormal <
        (2 * half - 1) * format.leastNormal := by
      rw [Nat.add_one_mul]
      exact lt_of_le_of_lt (Nat.add_le_add_left (hnormal he) _) hb
    have := Nat.lt_of_mul_lt_mul_right hnext
    omega

/-- A decimal that is rounded to a value is neither too great nor too small to be looked at. -/
theorem Format.RoundsTo.size_bounds (hf : format.Regular) (hb : bits < format.infinity)
    (hs : 0 < (format.binary bits).significand) {digits : ℕ} (hd : 0 < digits) {exponent : ℤ}
    (h : format.RoundsTo (value ⟨digits, exponent⟩) (format.binary bits)) :
    -(powTwo format.exponentBits : ℤ) ≤ digitCount digits + exponent ∧
      digitCount digits + exponent ≤ powTwo format.exponentBits := by
  have hlow := h.zpow_le hs
  have hhigh := h.lt_zpow hf.precision_pos (format.holds_binary bits)
  obtain ⟨hvlow, hvhigh⟩ := value_bounds hd exponent
  set bound : ℤ := ↑(powTwo format.exponentBits) with hbound
  have hpos : 0 ≤ bound := Int.natCast_nonneg _
  constructor
  · by_contra hlt
    have hcount : (10 : ℚ) ^ (digitCount digits + exponent : ℤ) ≤ 10 ^ (-bound) :=
      zpow_le_zpow_right₀ (by norm_num) (not_le.mp hlt).le
    have hbase : (10 : ℚ) ^ (-bound) ≤ 4 ^ (-bound) := by
      rw [zpow_neg, zpow_neg]
      exact inv_anti₀ (by positivity) (zpow_le_zpow_left₀ hpos (by norm_num) (by norm_num))
    have hfour : (4 : ℚ) ^ (-bound) = 2 ^ (-(2 * bound)) := by
      have htwo : (4 : ℚ) = 2 ^ (2 : ℤ) := by norm_num
      rw [htwo, ← zpow_mul, mul_neg]
    have hexponent : (2 : ℚ) ^ (-(2 * bound)) ≤ 2 ^ ((format.binary bits).exponent - 1) := by
      apply zpow_le_zpow_right₀ one_le_two
      have hleast := (format.holds_binary bits).least_le
      have hprecision := hf.precision_le
      have hhalf : powTwo (format.exponentBits - 1) ≤ powTwo format.exponentBits :=
        Nat.pow_le_pow_right two_pos (Nat.sub_le _ _)
      rw [Format.leastExponent] at hleast
      omega
    linarith
  · by_contra hlt
    have hbase : (2 : ℚ) ^ bound ≤ 10 ^ bound :=
      zpow_le_zpow_left₀ hpos (by norm_num) (by norm_num)
    have hcount : (10 : ℚ) ^ bound ≤ 10 ^ (digitCount digits + exponent - 1) :=
      zpow_le_zpow_right₀ (by norm_num) (by omega)
    have hexponent : (2 : ℚ) ^ ((format.binary bits).exponent + format.precision) ≤ 2 ^ bound :=
      zpow_le_zpow_right₀ one_le_two (Format.exponent_binary_le hb)
    linarith

/-- **Reading rounds.** A decimal in the interval of a value is read as this value. -/
theorem nearestBits_eq (hf : format.Regular) (hb : bits < format.infinity)
    (hs : 0 < (format.binary bits).significand) {digits : ℕ} {exponent : ℤ}
    (h : format.RoundsTo (value ⟨digits, exponent⟩) (format.binary bits)) :
    nearestBits format digits exponent = bits := by
  have hdigits : 0 < digits := by
    have hpos : (0 : ℚ) < 2 ^ ((format.binary bits).exponent - 1) := zpow_pos two_pos _
    have hlow := h.zpow_le hs
    rw [Nat.pos_iff_ne_zero]
    rintro rfl
    rw [value, Nat.cast_zero, zero_mul] at hlow
    linarith
  obtain ⟨hlower, hupper⟩ := h.size_bounds hf hb hs hdigits
  have hratio : ((digits * powTen exponent.toNat : ℕ) : ℚ) / (powTen (-exponent).toNat : ℕ) =
      value ⟨digits, exponent⟩ := by
    rw [value, ten_zpow, Nat.cast_mul, mul_div_assoc]
  have hnearest : nearestBits format digits exponent =
      if digits = 0 ∨ (digitCount digits + exponent : ℤ) < -(powTwo format.exponentBits : ℤ) then 0
      else if (powTwo format.exponentBits : ℤ) < digitCount digits + exponent then format.infinity
      else format.nearest (digits * powTen exponent.toNat) (powTen (-exponent).toNat) := rfl
  rw [hnearest, if_neg (not_or.mpr ⟨hdigits.ne', not_lt.mpr hlower⟩), if_neg (not_lt.mpr hupper)]
  exact Format.nearest_eq hf.precision_pos (Nat.mul_pos hdigits (powTen_pos _)) (powTen_pos _) hb
    (hratio ▸ h)

end UrlRouting.Decimal
