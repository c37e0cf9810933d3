import UrlRouting.Decimal.Binary

/-! # Shortest decimals

The decimal with the fewest digits that still reads back to a given binary value, and of those the
nearest one.

* A decimal reads back if it lies in the interval of fractions that round to the value (`Reach`);
  the ends belong to it if the significand is even.
* On the decimal grids with one, two, and more digits, the two neighbours of the value are tested
  in exact arithmetic. The first grid with a hit is taken, and of two hits the nearer; `Tie` says
  which of two equally near ones.
-/

namespace UrlRouting

/-- The value `digits · 10 ^ exponent`. -/
structure Decimal where
  digits : Nat
  exponent : Int
deriving DecidableEq, Repr

namespace Decimal

/-- Which of two equally near decimals is taken. -/
inductive Tie where
  | even
  | greater
deriving DecidableEq, Repr

/-- The same decimal with no zero at the end of its digits; zero digits stay as they are. -/
def trimmed (digits : Nat) (exponent : Int) : Decimal :=
  if 0 < digits ∧ digits % 10 = 0 then trimmed (digits / 10) (exponent + 1)
  else ⟨digits, exponent⟩
termination_by digits
decreasing_by omega

/-- The number of decimal digits. -/
def digitCount (n : Nat) : Nat := (Nat.toDigits 10 n).length

/-- A positive value and the ends of the interval that rounds to it, as multiples of one common
fraction: `value / denominator`, and so on. -/
structure Reach where
  low : Nat
  value : Nat
  high : Nat
  denominator : Nat
  /-- The ends round to the value. -/
  closed : Bool
deriving DecidableEq, Repr

/-- The interval of a positive value of a format. It reaches half way to the neighbours; the lower
neighbour of a power of two is half as far away as the upper one. -/
def Binary.reach (format : Format) (binary : Binary) : Reach :=
  let scale := powTwo (binary.exponent - 2).toNat
  let lowerGap :=
    if binary.significand = format.leastNormal ∧ format.leastExponent < binary.exponent then 1
    else 2
  { low := (4 * binary.significand - lowerGap) * scale
    value := 4 * binary.significand * scale
    high := (4 * binary.significand + 2) * scale
    denominator := powTwo (2 - binary.exponent).toNat
    closed := binary.significand % 2 = 0 }

namespace Reach

variable (reach : Reach)

/-- The number of digits before the point of a value from one on; for a smaller value, the number
of zeros after the point, negated. -/
def pointPosition : Int :=
  if reach.denominator ≤ reach.value then digitCount (reach.value / reach.denominator)
  else
    let zeros := digitCount (reach.denominator / reach.value)
    if reach.denominator ≤ reach.value * powTen (zeros - 1) then 2 - zeros else 1 - zeros

/-- The decimal `digits · 10 ^ exponent` rounds to the value. -/
def admits (digits : Nat) (exponent : Int) : Bool :=
  let decimal := digits * powTen exponent.toNat * reach.denominator
  let scale := powTen (-exponent).toNat
  if reach.closed then reach.low * scale ≤ decimal && decimal ≤ reach.high * scale
  else reach.low * scale < decimal && decimal < reach.high * scale

/-- The value in units of `10 ^ exponent`, as a numerator and a denominator. -/
def onGrid (exponent : Int) : Nat × Nat :=
  (reach.value * powTen (-exponent).toNat, powTen exponent.toNat * reach.denominator)

/-- The greatest multiple of `10 ^ exponent` that is not above the value. -/
def below (exponent : Int) : Nat := (reach.onGrid exponent).1 / (reach.onGrid exponent).2

/-- What the value has above that multiple. -/
def rest (exponent : Int) : Nat := (reach.onGrid exponent).1 % (reach.onGrid exponent).2

/-- The nearer of the two neighbours of the value on the grid of multiples of `10 ^ exponent`, and
whether one of them rounds to the value; of two such the nearer is given. -/
def neighbour (tie : Tie) (exponent : Int) : Nat × Bool :=
  let below := reach.below exponent
  let rest := reach.rest exponent
  let unit := (reach.onGrid exponent).2
  if rest = 0 then (below, true)
  else
    let nearer :=
      if 2 * rest < unit then below
      else if unit < 2 * rest then below + 1
      else if tie = .even ∧ below % 2 = 0 then below
      else below + 1
    match reach.admits below exponent, reach.admits (below + 1) exponent with
    | true, false => (below, true)
    | false, true => (below + 1, true)
    | both, _ => (nearer, both)

/-- The first hit on the grids with `count` digits and more; after `attempts` grids without one,
the nearer neighbour on the next. -/
def search (tie : Tie) : (attempts count : Nat) → Decimal
  | 0, count =>
    let exponent := reach.pointPosition - count
    trimmed (reach.neighbour tie exponent).1 exponent
  | attempts + 1, count =>
    let exponent := reach.pointPosition - count
    match reach.neighbour tie exponent with
    | (digits, true) => trimmed digits exponent
    | (_, false) => search tie attempts (count + 1)

end Reach

/-- The shortest decimal of a value of a format. The digits of the largest significand and one more
always suffice. -/
def Binary.shortest (format : Format) (tie : Tie) (binary : Binary) : Decimal :=
  if binary.significand = 0 then ⟨0, 0⟩
  else (binary.reach format).search tie (digitCount (powTwo format.precision) + 1) 1

end Decimal

end UrlRouting
