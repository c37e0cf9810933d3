import Mathlib.Algebra.Order.Group.Unbundled.Abs
import UrlRouting.Proofs.Intervals

/-! # Shortest decimals are shortest

* `Reach.exists_on_grid`: a decimal in the interval of a value is on the grid with as many digits
  as it has, or that grid has a decimal in the interval that is at least as near.
* `digitCount_trimmed_le`: what is found on the grid with so many digits has no more.
* `Binary.shortest_minimal`: so no decimal with fewer digits than the shortest one is rounded to the
  value, and none with as many is nearer to it. -/

namespace UrlRouting.Decimal

/-! ### Numbers of digits -/

theorem digits_trimmed_le (digits : ℕ) (exponent : ℤ) :
    (trimmed digits exponent).digits ≤ digits := by
  fun_induction trimmed digits exponent with
  | case1 digits exponent h ih => exact ih.trans (Nat.div_le_self digits 10)
  | case2 => exact le_rfl

theorem digitCount_trimmed_le {digits count : ℕ} (hc : 0 < count) (h : digits ≤ 10 ^ count)
    (exponent : ℤ) : digitCount (trimmed digits exponent).digits ≤ count := by
  rw [digitCount_le_iff hc]
  rcases h.eq_or_lt with rfl | hlt
  · -- The power of ten behind the numbers with so many digits loses a zero at least.
    obtain ⟨zeros, rfl⟩ := Nat.exists_eq_succ_of_ne_zero hc.ne'
    have hzero : 0 < 10 ^ (zeros + 1) ∧ 10 ^ (zeros + 1) % 10 = 0 :=
      ⟨by positivity, Nat.mod_eq_zero_of_dvd (dvd_pow_self 10 (Nat.succ_ne_zero zeros))⟩
    rw [trimmed, if_pos hzero]
    calc (trimmed (10 ^ (zeros + 1) / 10) (exponent + 1)).digits
        ≤ 10 ^ (zeros + 1) / 10 := digits_trimmed_le _ _
      _ < 10 ^ (zeros + 1) := Nat.div_lt_self hzero.1 (by decide)
  · exact (digits_trimmed_le digits exponent).trans_lt hlt

namespace Reach

variable {reach : Reach} {tie : Tie}

theorem lt_zpow_pointPosition (h : reach.Proper) :
    reach.fraction < (10 : ℚ) ^ reach.pointPosition := by
  have hv : 0 < reach.value := Nat.zero_lt_of_lt h.low_lt
  rw [fraction, div_lt_iff₀ h.cast_denominator_pos]
  unfold pointPosition
  dsimp only
  split
  · next hle =>
    have hwhole := Nat.lt_mul_div_succ reach.value h.denominator_pos
    have hcount : reach.value / reach.denominator + 1 ≤
        10 ^ digitCount (reach.value / reach.denominator) := lt_pow_digitCount _
    rw [zpow_natCast, mul_comm]
    exact_mod_cast hwhole.trans_le (Nat.mul_le_mul_left _ hcount)
  · next hlt =>
    have hquotient : 0 < reach.denominator / reach.value := Nat.div_pos (not_le.mp hlt).le hv
    have hlow := pow_digitCount_le hquotient
    set zeros := digitCount (reach.denominator / reach.value)
    have hcount : 0 < zeros := digitCount_pos _
    have hle : reach.value * 10 ^ (zeros - 1) ≤ reach.denominator :=
      (Nat.mul_le_mul_left _ hlow).trans (Nat.mul_div_le _ _)
    split
    · have hexponent : (2 - zeros : ℤ) = 1 + -(zeros - 1 : ℕ) := by omega
      rw [hexponent, zpow_add₀ (by norm_num), zpow_neg, zpow_natCast, zpow_one, mul_assoc,
        ← div_eq_inv_mul, ← mul_div_assoc, lt_div_iff₀ (by positivity)]
      exact_mod_cast (by omega : reach.value * 10 ^ (zeros - 1) < 10 * reach.denominator)
    · next hnot =>
      have hexponent : (1 - zeros : ℤ) = -(zeros - 1 : ℕ) := by omega
      rw [hexponent, zpow_neg, zpow_natCast, ← div_eq_inv_mul, lt_div_iff₀ (by positivity)]
      exact_mod_cast not_le.mp hnot

theorem neighbour_le_pow (h : reach.Proper) (count : ℕ)
    (hit : (reach.neighbour tie (reach.pointPosition - count)).2 = true) :
    (reach.neighbour tie (reach.pointPosition - count)).1 ≤ 10 ^ count := by
  have hstep : (0 : ℚ) < 10 ^ (reach.pointPosition - count) := by positivity
  have hlow := value_below_le h.denominator_pos (reach.pointPosition - count)
  have hsplit : (10 : ℚ) ^ reach.pointPosition =
      (10 ^ count : ℕ) * 10 ^ (reach.pointPosition - count) := by
    rw [Nat.cast_pow, Nat.cast_ofNat, ← zpow_natCast, ← zpow_add₀ (by norm_num)]
    congr 1
    omega
  have hlt := hlow.trans_lt (lt_zpow_pointPosition h)
  rw [hsplit, Decimal.value] at hlt
  have hbelow : reach.below (reach.pointPosition - count) < 10 ^ count :=
    Nat.cast_lt.mp (lt_of_mul_lt_mul_right hlt hstep.le)
  obtain ⟨hdigits, -⟩ | ⟨hdigits, -⟩ := neighbour_cases h hit
  · exact hdigits ▸ hbelow.le
  · exact hdigits ▸ hbelow

/-- A decimal in the interval is on the grid with as many digits, or else that grid has the power of
ten before the value in the interval. -/
theorem exists_on_grid (h : reach.Proper) {digits : ℕ} {exponent : ℤ}
    (hx : reach.Contains (Decimal.value ⟨digits, exponent⟩)) :
    ∃ n : ℕ, reach.Contains (Decimal.value ⟨n, reach.pointPosition - digitCount digits⟩) ∧
      |Decimal.value ⟨n, reach.pointPosition - digitCount digits⟩ - reach.fraction| ≤
        |Decimal.value ⟨digits, exponent⟩ - reach.fraction| := by
  have hten : (10 : ℚ) ≠ 0 := by norm_num
  set grid : ℤ := reach.pointPosition - digitCount digits with hgrid
  rcases lt_or_ge exponent grid with hlt | hle
  · -- The decimal is less than the leading power of ten, which is not above the value.
    have hcount := digitCount_pos digits
    have hpower : Decimal.value ⟨10 ^ (digitCount digits - 1), grid⟩ =
        10 ^ (reach.pointPosition - 1) := by
      rw [Decimal.value, Nat.cast_pow, Nat.cast_ofNat, ← zpow_natCast, ← zpow_add₀ hten]
      congr 1
      dsimp only
      omega
    have hlow : Decimal.value ⟨digits, exponent⟩ ≤ 10 ^ (reach.pointPosition - 1) := by
      have hdigits : (digits : ℚ) ≤ 10 ^ digitCount digits := mod_cast (lt_pow_digitCount digits).le
      calc Decimal.value ⟨digits, exponent⟩
          ≤ 10 ^ digitCount digits * 10 ^ exponent := by
            rw [Decimal.value]
            gcongr
        _ = (10 : ℚ) ^ (digitCount digits + exponent) := by rw [zpow_add₀ hten, zpow_natCast]
        _ ≤ 10 ^ (reach.pointPosition - 1) := zpow_le_zpow_right₀ (by norm_num) (by omega)
    have hhigh := zpow_pointPosition_le h
    refine ⟨10 ^ (digitCount digits - 1), ?_, ?_⟩
    · rw [hpower]
      exact hx.between h.contains_fraction hlow hhigh
    · rw [hpower, abs_of_nonpos (sub_nonpos.mpr hhigh),
        abs_of_nonpos (sub_nonpos.mpr (hlow.trans hhigh))]
      linarith
  · have hsame : Decimal.value ⟨digits * 10 ^ (exponent - grid).toNat, grid⟩ =
        Decimal.value ⟨digits, exponent⟩ := by
      have hexponent : exponent = (exponent - grid).toNat + grid := by omega
      conv_rhs => rw [Decimal.value, hexponent, zpow_add₀ hten, zpow_natCast]
      rw [Decimal.value, Nat.cast_mul, Nat.cast_pow, Nat.cast_ofNat, mul_assoc]
    exact ⟨_, hsame ▸ hx, hsame ▸ le_rfl⟩

end Reach

/-- **Shortest decimals are shortest.** No decimal with fewer digits than the shortest one is
rounded to the value, and none with as many is nearer to the value. -/
theorem Binary.shortest_minimal {format : Format} {binary : Binary} (hp : 0 < format.precision)
    (hb : format.Holds binary) (hs : 0 < binary.significand) (tie : Tie) {digits : ℕ} {exponent : ℤ}
    (h : format.RoundsTo (value ⟨digits, exponent⟩) binary) :
    digitCount (binary.shortest format tie).digits ≤ digitCount digits ∧
      (digitCount digits ≤ digitCount (binary.shortest format tie).digits →
        |(binary.shortest format tie).value - binary.significand * 2 ^ binary.exponent| ≤
          |value ⟨digits, exponent⟩ - binary.significand * 2 ^ binary.exponent|) := by
  have hproper := proper_reach format hs
  obtain ⟨stop, ⟨hle, hit, hmisses⟩, hshortest⟩ := shortest_eq hp hb hs tie
  rw [← contains_reach_iff hs] at h
  rw [hshortest, value_trimmed, ← fraction_reach format]
  obtain ⟨n, hn, hnear⟩ := Reach.exists_on_grid hproper h
  have hfew := digitCount_trimmed_le hle (Reach.neighbour_le_pow hproper stop hit)
    ((binary.reach format).pointPosition - stop)
  have hstop : stop ≤ digitCount digits := by
    by_contra hlt
    have hmiss := hmisses _ (digitCount_pos digits) (not_le.mp hlt)
    rw [Reach.neighbour_hit hproper hn] at hmiss
    cases hmiss
  refine ⟨hfew.trans hstop, fun hmany => ?_⟩
  obtain rfl := le_antisymm hstop (hmany.trans hfew)
  exact (Reach.neighbour_nearest hproper hn).trans hnear

end UrlRouting.Decimal
