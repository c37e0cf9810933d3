/-! # Binary floating-point values

A finite value of a binary format without its sign is `significand · 2 ^ exponent`.

* `Format.binary` reads such a value off its bit pattern.
* `Format.nearest` is the bit pattern of the value nearest to a fraction, the one with the even
  significand if two are equally near; fractions beyond the largest value become infinite.
-/

namespace UrlRouting.Decimal

/-- A power of two. -/
def powTwo (n : Nat) : Nat := Nat.pow 2 n

/-- A power of ten. -/
def powTen (n : Nat) : Nat := Nat.pow 10 n

/-- The fraction `numerator / denominator` divided by a power of two. -/
def scaled (numerator denominator : Nat) (exponent : Int) : Nat × Nat :=
  (numerator * powTwo (-exponent).toNat, denominator * powTwo exponent.toNat)

/-- The exponent of the greatest power of two up to `numerator / denominator`, both positive. -/
def magnitude (numerator denominator : Nat) : Int :=
  let guess : Int := numerator.log2 - denominator.log2
  let (numerator, denominator) := scaled numerator denominator guess
  if denominator ≤ numerator then guess else guess - 1

/-- The integer nearest to `numerator / denominator`; of two equally near ones the even one. -/
def nearestNat (numerator denominator : Nat) : Nat :=
  let below := numerator / denominator
  let rest := numerator % denominator
  let up := denominator < 2 * rest || (denominator = 2 * rest && below % 2 = 1)
  if up then below + 1 else below

/-- The finite value `significand · 2 ^ exponent`. -/
structure Binary where
  significand : Nat
  exponent : Int
deriving DecidableEq, Repr

/-- A binary format: the bits of a significand, the leading one included, and the bits of the
exponent field. -/
structure Format where
  precision : Nat
  exponentBits : Nat
deriving DecidableEq, Repr

namespace Format

/-- The format of 64 bits. -/
def double : Format := ⟨53, 11⟩

/-- The format of 32 bits. -/
def single : Format := ⟨24, 8⟩

variable (format : Format)

/-- The least significand of a value with a full set of bits. -/
def leastNormal : Nat := powTwo (format.precision - 1)

/-- The exponent of the smallest values. -/
def leastExponent : Int := 3 - powTwo (format.exponentBits - 1) - format.precision

/-- The bit pattern of positive infinity; greater ones are no numbers. -/
def infinity : Nat := (powTwo format.exponentBits - 1) * format.leastNormal

/-- The weight of the sign bit. -/
def signBit : Nat := powTwo (format.precision - 1 + format.exponentBits)

/-- The value of a bit pattern below infinity. -/
def binary (bits : Nat) : Binary :=
  let field := bits / format.leastNormal
  let fraction := bits % format.leastNormal
  if field = 0 then ⟨fraction, format.leastExponent⟩
  else ⟨format.leastNormal + fraction, format.leastExponent + (field - 1 : Nat)⟩

/-- The bit pattern of the value nearest to `numerator / denominator`, both positive. -/
def nearest (numerator denominator : Nat) : Nat :=
  let exponent :=
    max format.leastExponent (magnitude numerator denominator - (format.precision - 1 : Nat))
  let (numerator, denominator) := scaled numerator denominator exponent
  let significand := nearestNat numerator denominator
  let bits := (exponent - format.leastExponent).toNat * format.leastNormal + significand
  min bits format.infinity

end Format

end UrlRouting.Decimal
