import Mathlib.Data.Nat.Cast.Field
import Mathlib.Data.Nat.Cast.Order.Field
import UrlRouting.Proofs.Rounding

/-! # Shortest decimals round-trip

* `Reach.admits_iff`: the test in integers asks whether a decimal lies in the interval of a value,
  and the interval is that of `Format.RoundsTo` (`Binary.contains_reach_iff`).
* `Reach.neighbour_cases` says what is found on a grid. It lies in the interval, no other decimal of
  the grid in the interval is nearer to the value (`Reach.neighbour_nearest`), and something is
  found if there is such a decimal (`Reach.neighbour_hit`).
* `Reach.search_eq`: the search takes the first grid on which something is found.
* `Binary.roundsTo_shortest`: so the shortest decimal of a value is rounded to this value. -/

namespace UrlRouting.Decimal

namespace Reach

variable {reach : Reach}

/-- The fraction lies in the interval. -/
def Contains (reach : Reach) (x : ℚ) : Prop :=
  if reach.closed then reach.low ≤ x * reach.denominator ∧ x * reach.denominator ≤ reach.high
  else reach.low < x * reach.denominator ∧ x * reach.denominator < reach.high

theorem admits_iff {digits : ℕ} {exponent : ℤ} :
    reach.admits digits exponent = true ↔ reach.Contains (Decimal.value ⟨digits, exponent⟩) := by
  have hpow : (0 : ℚ) < powTen (-exponent).toNat := mod_cast powTen_pos _
  have hvalue : Decimal.value ⟨digits, exponent⟩ * reach.denominator =
      (digits * powTen exponent.toNat * reach.denominator : ℕ) / powTen (-exponent).toNat := by
    rw [Decimal.value, ten_zpow]
    push_cast
    ring
  unfold admits Contains
  rw [hvalue, le_div_iff₀ hpow, div_le_iff₀ hpow, lt_div_iff₀ hpow, div_lt_iff₀ hpow]
  split
  · simp only [Bool.and_eq_true, decide_eq_true_eq]
    norm_cast
  · simp only [Bool.and_eq_true, decide_eq_true_eq]
    norm_cast

/-- The value as a fraction. -/
def fraction (reach : Reach) : ℚ := reach.value / reach.denominator

/-- The value lies inside the interval. -/
structure Proper (reach : Reach) : Prop where
  denominator_pos : 0 < reach.denominator
  low_lt : reach.low < reach.value
  lt_high : reach.value < reach.high

theorem Proper.cast_denominator_pos (h : reach.Proper) : (0 : ℚ) < reach.denominator :=
  mod_cast h.denominator_pos

theorem Contains.of_lt {x : ℚ} (hl : reach.low < x * reach.denominator)
    (hh : x * reach.denominator < reach.high) : reach.Contains x := by
  unfold Contains
  split
  · exact ⟨hl.le, hh.le⟩
  · exact ⟨hl, hh⟩

theorem Proper.contains_of_le (h : reach.Proper) {x : ℚ} (hl : reach.low < x * reach.denominator)
    (hx : x ≤ reach.fraction) : reach.Contains x := by
  have hd := h.cast_denominator_pos
  have hhigh : (reach.value : ℚ) < reach.high := mod_cast h.lt_high
  refine Contains.of_lt hl ?_
  rw [fraction, le_div_iff₀ hd] at hx
  exact hx.trans_lt hhigh

theorem Proper.contains_fraction (h : reach.Proper) : reach.Contains reach.fraction := by
  refine h.contains_of_le ?_ le_rfl
  rw [fraction, div_mul_cancel₀ _ h.cast_denominator_pos.ne']
  exact_mod_cast h.low_lt

theorem Contains.between {x y z : ℚ} (hx : reach.Contains x) (hz : reach.Contains z) (hxy : x ≤ y)
    (hyz : y ≤ z) : reach.Contains y := by
  have hd : (0 : ℚ) ≤ reach.denominator := Nat.cast_nonneg _
  have hlow := mul_le_mul_of_nonneg_right hxy hd
  have hhigh := mul_le_mul_of_nonneg_right hyz hd
  unfold Contains at hx hz ⊢
  split at hx
  · next hc =>
    rw [if_pos hc] at hz ⊢
    exact ⟨hx.1.trans hlow, hhigh.trans hz.2⟩
  · next hc =>
    rw [if_neg hc] at hz ⊢
    exact ⟨hx.1.trans_le hlow, hhigh.trans_lt hz.2⟩

/-! ### Grids -/

variable {tie : Tie} {exponent : ℤ}

theorem onGrid_pos (hd : 0 < reach.denominator) (exponent : ℤ) : 0 < (reach.onGrid exponent).2 :=
  Nat.mul_pos (powTen_pos _) hd

theorem onGrid_div (reach : Reach) (exponent : ℤ) :
    ((reach.onGrid exponent).1 : ℚ) / (reach.onGrid exponent).2 =
      reach.fraction / 10 ^ exponent := by
  rw [onGrid, fraction, ten_zpow]
  push_cast
  rw [div_div_div_eq, mul_comm (powTen exponent.toNat : ℚ)]

/-- How far the value is above its lower neighbour, in steps of the grid. -/
def excess (reach : Reach) (exponent : ℤ) : ℚ := reach.rest exponent / (reach.onGrid exponent).2

theorem excess_nonneg (reach : Reach) (exponent : ℤ) : 0 ≤ reach.excess exponent :=
  div_nonneg (Nat.cast_nonneg _) (Nat.cast_nonneg _)

theorem excess_lt_one (hd : 0 < reach.denominator) (exponent : ℤ) : reach.excess exponent < 1 := by
  have hunit : (0 : ℚ) < (reach.onGrid exponent).2 := mod_cast onGrid_pos hd exponent
  rw [excess, div_lt_one hunit]
  exact_mod_cast Nat.mod_lt _ (onGrid_pos hd exponent)

theorem fraction_eq (hd : 0 < reach.denominator) (exponent : ℤ) :
    reach.fraction = Decimal.value ⟨reach.below exponent, exponent⟩ +
      reach.excess exponent * 10 ^ exponent := by
  have hpow : (10 : ℚ) ^ exponent ≠ 0 := zpow_ne_zero _ (by norm_num)
  have hunit : ((reach.onGrid exponent).2 : ℚ) ≠ 0 := mod_cast (onGrid_pos hd exponent).ne'
  have hsplit := Nat.div_add_mod (reach.onGrid exponent).1 (reach.onGrid exponent).2
  have hgrid := reach.onGrid_div exponent
  rw [eq_div_iff hpow] at hgrid
  rw [← hgrid, Decimal.value, ← add_mul, excess, below, rest, eq_comm]
  congr 1
  rw [eq_div_iff hunit, add_mul, div_mul_cancel₀ _ hunit, mul_comm]
  exact_mod_cast hsplit

theorem value_below_le (hd : 0 < reach.denominator) (exponent : ℤ) :
    Decimal.value ⟨reach.below exponent, exponent⟩ ≤ reach.fraction := by
  rw [fraction_eq hd exponent]
  exact le_add_of_nonneg_right (mul_nonneg (reach.excess_nonneg exponent) (by positivity))

theorem lt_value_above (hd : 0 < reach.denominator) (exponent : ℤ) :
    reach.fraction < Decimal.value ⟨reach.below exponent + 1, exponent⟩ := by
  have hpow : (0 : ℚ) < 10 ^ exponent := by positivity
  rw [fraction_eq hd exponent, value_succ]
  exact add_lt_add_right (mul_lt_of_lt_one_left hpow (excess_lt_one hd exponent)) _

/-- What is found on a grid is one of the two neighbours of the value. It lies in the interval, and
the other one does not, or is at least as far away. -/
theorem neighbour_cases (h : reach.Proper) (hit : (reach.neighbour tie exponent).2 = true) :
    ((reach.neighbour tie exponent).1 = reach.below exponent ∧
        reach.Contains (Decimal.value ⟨reach.below exponent, exponent⟩) ∧
        (reach.Contains (Decimal.value ⟨reach.below exponent + 1, exponent⟩) →
          reach.excess exponent ≤ 1 / 2)) ∨
      ((reach.neighbour tie exponent).1 = reach.below exponent + 1 ∧
        reach.Contains (Decimal.value ⟨reach.below exponent + 1, exponent⟩) ∧
        (reach.Contains (Decimal.value ⟨reach.below exponent, exponent⟩) →
          1 / 2 ≤ reach.excess exponent)) := by
  have hunit : (0 : ℚ) < (reach.onGrid exponent).2 := mod_cast onGrid_pos h.denominator_pos exponent
  have hexact := fraction_eq h.denominator_pos exponent
  unfold neighbour at hit ⊢
  dsimp only at hit ⊢
  split at hit
  · next hrest =>
    have hzero : reach.excess exponent = 0 := by rw [excess, hrest, Nat.cast_zero, zero_div]
    rw [hzero, zero_mul, add_zero] at hexact
    rw [if_pos hrest, hzero]
    exact .inl ⟨rfl, hexact ▸ h.contains_fraction, fun _ => by norm_num⟩
  · next hrest =>
    rw [if_neg hrest]
    have hle : reach.excess exponent ≤ 1 / 2 ↔
        2 * reach.rest exponent ≤ (reach.onGrid exponent).2 := by
      rw [excess, div_le_iff₀ hunit, ← Nat.cast_le (α := ℚ)]
      push_cast
      constructor <;> intro hx <;> linarith
    have hge : 1 / 2 ≤ reach.excess exponent ↔
        (reach.onGrid exponent).2 ≤ 2 * reach.rest exponent := by
      rw [excess, le_div_iff₀ hunit, ← Nat.cast_le (α := ℚ)]
      push_cast
      constructor <;> intro hx <;> linarith
    rw [hle, hge, ← admits_iff, ← admits_iff]
    split at hit
    · next hbelow habove => exact .inl ⟨rfl, hbelow, fun hx => by rw [habove] at hx; cases hx⟩
    · next hbelow habove => exact .inr ⟨rfl, habove, fun hx => by rw [hbelow] at hx; cases hx⟩
    · next hnot _ =>
      have habove := Bool.of_not_eq_false (hnot hit)
      dsimp only
      split
      · next hlt => exact .inl ⟨rfl, hit, fun _ => hlt.le⟩
      split
      · next hlt => exact .inr ⟨rfl, habove, fun _ => hlt.le⟩
      split
      · exact .inl ⟨rfl, hit, fun _ => by omega⟩
      · exact .inr ⟨rfl, habove, fun _ => by omega⟩

theorem contains_neighbour (h : reach.Proper) (hit : (reach.neighbour tie exponent).2 = true) :
    reach.Contains (Decimal.value ⟨(reach.neighbour tie exponent).1, exponent⟩) := by
  obtain ⟨hdigits, hcontains, -⟩ | ⟨hdigits, hcontains, -⟩ := neighbour_cases h hit
  · rwa [hdigits]
  · rwa [hdigits]

variable {n : ℕ}

theorem Contains.of_le_below (h : reach.Proper) (hn : reach.Contains (Decimal.value ⟨n, exponent⟩))
    (hle : n ≤ reach.below exponent) :
    reach.Contains (Decimal.value ⟨reach.below exponent, exponent⟩) :=
  hn.between h.contains_fraction (value_le_value hle) (value_below_le h.denominator_pos exponent)

theorem Contains.of_below_lt (h : reach.Proper) (hn : reach.Contains (Decimal.value ⟨n, exponent⟩))
    (hlt : reach.below exponent < n) :
    reach.Contains (Decimal.value ⟨reach.below exponent + 1, exponent⟩) :=
  h.contains_fraction.between hn (lt_value_above h.denominator_pos exponent).le (value_le_value hlt)

/-- A grid of which some decimal lies in the interval has a hit. -/
theorem neighbour_hit (h : reach.Proper) (hn : reach.Contains (Decimal.value ⟨n, exponent⟩)) :
    (reach.neighbour tie exponent).2 = true := by
  unfold neighbour
  dsimp only
  split
  · rfl
  · rcases Nat.lt_or_ge (reach.below exponent) n with hlt | hle
    · rw [admits_iff.mpr (hn.of_below_lt h hlt)]
      cases reach.admits (reach.below exponent) exponent <;> rfl
    · rw [admits_iff.mpr (hn.of_le_below h hle)]
      cases reach.admits (reach.below exponent + 1) exponent <;> rfl

/-- Of the decimals of a grid in the interval, none is nearer to the value than the one found. -/
theorem neighbour_nearest (h : reach.Proper)
    (hn : reach.Contains (Decimal.value ⟨n, exponent⟩)) :
    |Decimal.value ⟨(reach.neighbour tie exponent).1, exponent⟩ - reach.fraction| ≤
      |Decimal.value ⟨n, exponent⟩ - reach.fraction| := by
  have hpow : (0 : ℚ) < 10 ^ exponent := by positivity
  have hfraction := fraction_eq h.denominator_pos exponent
  have hbelow := value_below_le h.denominator_pos exponent
  have habove := (lt_value_above h.denominator_pos exponent).le
  have hsucc := @value_succ exponent (reach.below exponent)
  have hit : (reach.neighbour tie exponent).2 = true := neighbour_hit h hn
  obtain ⟨hdigits, -, hother⟩ | ⟨hdigits, -, hother⟩ := neighbour_cases h hit
  · rw [hdigits, abs_of_nonpos (sub_nonpos.mpr hbelow)]
    rcases Nat.lt_or_ge (reach.below exponent) n with hlt | hle
    · have hnext := @value_le_value exponent _ _ hlt
      have hhalf := hother (hn.of_below_lt h hlt)
      rw [abs_of_nonneg (sub_nonneg.mpr (habove.trans hnext))]
      nlinarith
    · have hprevious := @value_le_value exponent _ _ hle
      rw [abs_of_nonpos (sub_nonpos.mpr (hprevious.trans hbelow))]
      linarith
  · rw [hdigits, abs_of_nonneg (sub_nonneg.mpr habove)]
    rcases Nat.lt_or_ge (reach.below exponent) n with hlt | hle
    · have hnext := @value_le_value exponent _ _ hlt
      rw [abs_of_nonneg (sub_nonneg.mpr (habove.trans hnext))]
      linarith
    · have hprevious := @value_le_value exponent _ _ hle
      have hhalf := hother (hn.of_le_below h hle)
      rw [abs_of_nonpos (sub_nonpos.mpr (hprevious.trans hbelow))]
      nlinarith

/-- A grid that is finer than the interval below the value has a decimal in it. -/
theorem exists_contains (h : reach.Proper)
    (hfine : (reach.low : ℚ) ≤ (reach.fraction - 10 ^ exponent) * reach.denominator) :
    ∃ n : ℕ, reach.Contains (Decimal.value ⟨n, exponent⟩) := by
  have habove := lt_value_above h.denominator_pos exponent
  rw [value_succ] at habove
  have hnear := mul_lt_mul_of_pos_right (sub_lt_iff_lt_add.mpr habove) h.cast_denominator_pos
  exact ⟨_, h.contains_of_le (hfine.trans_lt hnear) (value_below_le h.denominator_pos exponent)⟩

theorem zpow_pointPosition_le (h : reach.Proper) :
    (10 : ℚ) ^ (reach.pointPosition - 1) ≤ reach.fraction := by
  have hd := h.cast_denominator_pos
  have hv : 0 < reach.value := Nat.zero_lt_of_lt h.low_lt
  rw [fraction, le_div_iff₀ hd]
  unfold pointPosition
  dsimp only
  split
  · next hle =>
    have hwhole : 0 < reach.value / reach.denominator := Nat.div_pos hle h.denominator_pos
    have hcount := digitCount_pos (reach.value / reach.denominator)
    have hexponent : (digitCount (reach.value / reach.denominator) - 1 : ℤ) =
        (digitCount (reach.value / reach.denominator) - 1 : ℕ) := by omega
    rw [hexponent, zpow_natCast]
    exact_mod_cast
      (Nat.mul_le_mul_right _ (pow_digitCount_le hwhole)).trans (Nat.div_mul_le_self _ _)
  · next hlt =>
    set zeros := digitCount (reach.denominator / reach.value) with hzeros
    have hcount : 0 < zeros := digitCount_pos _
    split
    · next hle =>
      have hexponent : (2 - zeros - 1 : ℤ) = -(zeros - 1 : ℕ) := by omega
      rw [hexponent, zpow_neg, zpow_natCast, inv_mul_le_iff₀ (by positivity), mul_comm]
      exact_mod_cast hle
    · have hexponent : (1 - zeros - 1 : ℤ) = -(zeros : ℕ) := by omega
      have hle : reach.denominator ≤ reach.value * 10 ^ zeros := by
        have hnext := Nat.lt_mul_div_succ reach.denominator hv
        have hpow : reach.denominator / reach.value + 1 ≤ 10 ^ zeros := lt_pow_digitCount _
        exact hnext.le.trans (Nat.mul_le_mul_left _ hpow)
      rw [hexponent, zpow_neg, zpow_natCast, inv_mul_le_iff₀ (by positivity), mul_comm]
      exact_mod_cast hle

end Reach

/-- Zeros taken off the end of the digits leave the value. -/
theorem value_trimmed (digits : ℕ) (exponent : ℤ) :
    (trimmed digits exponent).value = value ⟨digits, exponent⟩ := by
  fun_induction trimmed digits exponent with
  | case1 digits exponent h ih =>
      have hten : (digits : ℚ) = (digits / 10 : ℕ) * 10 := by
        exact_mod_cast (Nat.div_mul_cancel (Nat.dvd_of_mod_eq_zero h.2)).symm
      rw [ih, value, value, hten, zpow_add_one₀ (by norm_num)]
      ring
  | case2 => rfl

namespace Reach

variable {reach : Reach} {tie : Tie}

/-- The grid with `stop` digits is the first from `count` digits on that has a hit. -/
structure Stops (reach : Reach) (tie : Tie) (count stop : ℕ) : Prop where
  le : count ≤ stop
  hit : (reach.neighbour tie (reach.pointPosition - stop)).2 = true
  misses : ∀ tried, count ≤ tried → tried < stop →
    (reach.neighbour tie (reach.pointPosition - tried)).2 = false

/-- The search takes the first grid with a hit, if the last one is fine enough. -/
theorem search_eq (h : reach.Proper) (tie : Tie) (attempts count : ℕ)
    (hfine : (reach.low : ℚ) ≤
      (reach.fraction - 10 ^ (reach.pointPosition - (attempts + count : ℕ))) * reach.denominator) :
    ∃ stop, reach.Stops tie count stop ∧ reach.search tie attempts count =
      trimmed (reach.neighbour tie (reach.pointPosition - stop)).1 (reach.pointPosition - stop) := by
  induction attempts generalizing count with
  | zero =>
      rw [Nat.zero_add] at hfine
      obtain ⟨n, hn⟩ := exists_contains h hfine
      exact ⟨count, ⟨le_rfl, neighbour_hit h hn, fun tried hle hlt => absurd hlt hle.not_gt⟩, rfl⟩
  | succ attempts ih =>
      cases hn : reach.neighbour tie (reach.pointPosition - count) with
      | mk digits hit =>
          cases hit with
          | true =>
              refine ⟨count, ⟨le_rfl, by rw [hn], fun tried hle hlt => absurd hlt hle.not_gt⟩, ?_⟩
              rw [search, hn]
          | false =>
              rw [Nat.add_assoc, Nat.add_comm 1] at hfine
              obtain ⟨stop, ⟨hle, hhit, hmisses⟩, hsearch⟩ := ih (count + 1) hfine
              refine ⟨stop, ⟨Nat.le_of_succ_le hle, hhit, ?_⟩, by rw [search, hn, hsearch]⟩
              intro tried htried hlt
              rcases htried.eq_or_lt with rfl | htried
              · rw [hn]
              · exact hmisses tried htried hlt

end Reach

namespace Binary

variable {format : Format} {binary : Binary}

theorem scale_div (binary : Binary) :
    (powTwo (binary.exponent - 2).toNat : ℚ) / powTwo (2 - binary.exponent).toNat =
      2 ^ binary.exponent / 4 := by
  rw [← neg_sub binary.exponent 2, ← two_zpow, zpow_sub₀ two_ne_zero]
  norm_num

theorem fraction_reach (format : Format) (binary : Binary) :
    (binary.reach format).fraction = binary.significand * 2 ^ binary.exponent := by
  rw [Reach.fraction, reach]
  dsimp only
  rw [Nat.cast_mul, mul_div_assoc, scale_div]
  push_cast
  ring

theorem low_div (format : Format) (hs : 0 < binary.significand) :
    ((binary.reach format).low : ℚ) / (binary.reach format).denominator =
      (binary.significand - format.lowerGap binary) * 2 ^ binary.exponent := by
  unfold reach Format.lowerGap
  dsimp only
  rw [Nat.cast_mul, mul_div_assoc, scale_div]
  split
  · rw [Nat.cast_sub (by omega)]
    push_cast
    ring
  · rw [Nat.cast_sub (by omega)]
    push_cast
    ring

theorem high_div (format : Format) (binary : Binary) :
    ((binary.reach format).high : ℚ) / (binary.reach format).denominator =
      (binary.significand + 1 / 2) * 2 ^ binary.exponent := by
  rw [reach]
  dsimp only
  rw [Nat.cast_mul, mul_div_assoc, scale_div]
  push_cast
  ring

theorem proper_reach (format : Format) (hs : 0 < binary.significand) :
    (binary.reach format).Proper := by
  have hscale (n : ℕ) : 0 < powTwo n := Nat.pow_pos two_pos
  refine ⟨hscale _, Nat.mul_lt_mul_of_pos_right ?_ (hscale _),
    Nat.mul_lt_mul_of_pos_right ?_ (hscale _)⟩
  · split <;> omega
  · omega

/-- The interval of a value holds the fractions that are rounded to it. -/
theorem contains_reach_iff (hs : 0 < binary.significand) {x : ℚ} :
    (binary.reach format).Contains x ↔ format.RoundsTo x binary := by
  have hd := (proper_reach format hs).cast_denominator_pos
  have hclosed : (binary.reach format).closed = true ↔ binary.significand % 2 = 0 :=
    decide_eq_true_iff
  unfold Reach.Contains Format.RoundsTo
  rw [← div_le_iff₀ hd, ← le_div_iff₀ hd, ← div_lt_iff₀ hd, ← lt_div_iff₀ hd, low_div format hs,
    high_div]
  simp only [hclosed]

/-- With two digits more than the largest significand has, the grid is finer than the interval. -/
theorem grid_step_le (hp : 0 < format.precision) (hb : format.Holds binary)
    (hs : 0 < binary.significand) :
    (10 : ℚ) ^ ((binary.reach format).pointPosition -
        (digitCount (powTwo format.precision) + 2 : ℕ)) ≤ 2 ^ binary.exponent / 10 := by
  have hposition := Reach.zpow_pointPosition_le (proper_reach format hs)
  rw [fraction_reach] at hposition
  set position := (binary.reach format).pointPosition
  set limit := powTwo format.precision with hlimit
  have hsplit : (position - 1 : ℤ) =
      position - (digitCount limit + 2 : ℕ) + (1 + digitCount limit : ℕ) := by omega
  have hsignificand : (binary.significand : ℚ) ≤ limit := by
    have hlt := hb.significand_lt
    rw [Format.two_mul_leastNormal hp] at hlt
    exact_mod_cast hlt.le
  have hlimit_pos : (0 : ℚ) < limit := mod_cast (Nat.pow_pos two_pos : 0 < powTwo format.precision)
  have hcount : (limit : ℚ) ≤ 10 ^ digitCount limit := mod_cast (lt_pow_digitCount limit).le
  have hpow : (0 : ℚ) < 2 ^ binary.exponent := zpow_pos two_pos _
  rw [hsplit, zpow_add₀ (by norm_num), zpow_natCast, pow_add, pow_one] at hposition
  set step : ℚ := 10 ^ (position - (digitCount limit + 2 : ℕ))
  have hstep : 0 < step := zpow_pos (by norm_num) _
  rw [le_div_iff₀ (by norm_num)]
  refine le_of_mul_le_mul_right ?_ hlimit_pos
  calc step * 10 * limit ≤ step * 10 * 10 ^ digitCount limit := by gcongr
    _ ≤ binary.significand * 2 ^ binary.exponent := by rwa [mul_assoc]
    _ ≤ 2 ^ binary.exponent * limit := by rw [mul_comm]; gcongr

theorem shortest_eq (hp : 0 < format.precision) (hb : format.Holds binary)
    (hs : 0 < binary.significand) (tie : Tie) :
    ∃ stop, (binary.reach format).Stops tie 1 stop ∧ binary.shortest format tie =
      trimmed ((binary.reach format).neighbour tie ((binary.reach format).pointPosition - stop)).1
        ((binary.reach format).pointPosition - stop) := by
  have hproper := proper_reach format hs
  have hpow : (0 : ℚ) < 2 ^ binary.exponent := zpow_pos two_pos _
  have hstep := grid_step_le hp hb hs
  have hgap := mul_le_mul_of_nonneg_right (format.le_lowerGap binary) hpow.le
  rw [shortest, if_neg hs.ne']
  apply Reach.search_eq hproper
  rw [← div_le_iff₀ hproper.cast_denominator_pos, low_div format hs, fraction_reach, Nat.add_assoc]
  linarith

/-- **Shortest decimals round-trip.** The shortest decimal of a value of a format is rounded to the
value. -/
theorem roundsTo_shortest (hp : 0 < format.precision) (hb : format.Holds binary)
    (hs : 0 < binary.significand) (tie : Tie) :
    format.RoundsTo (binary.shortest format tie).value binary := by
  obtain ⟨stop, ⟨-, hit, -⟩, hshortest⟩ := shortest_eq hp hb hs tie
  rw [← contains_reach_iff hs, hshortest, value_trimmed]
  exact Reach.contains_neighbour (proper_reach format hs) hit

end Binary

end UrlRouting.Decimal
