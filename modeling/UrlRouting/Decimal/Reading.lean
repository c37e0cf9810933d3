import UrlRouting.Decimal.Binary

/-! # Reading decimals

The binary value nearest to a decimal, and the texts of decimals: a sign, digits with a point among
them, and an exponent; or the name of an infinity or of no number, in either case. -/

namespace UrlRouting.Decimal

/-- The value of a row of digits. -/
def natOfDigits (digits : List Char) : Nat :=
  digits.foldl (fun value c => 10 * value + (c.toNat - '0'.toNat)) 0

/-- The bit pattern of the value nearest to `digits · 10 ^ exponent`. Exponents far out of range
give zero or infinity at once. -/
def nearestBits (format : Format) (digits : Nat) (exponent : Int) : Nat :=
  let size := (Nat.toDigits 10 digits).length + exponent
  let bound : Int := powTwo format.exponentBits
  if digits = 0 ∨ size < -bound then 0
  else if bound < size then format.infinity
  else format.nearest (digits * powTen exponent.toNat) (powTen (-exponent).toNat)

/-- A text with its sign taken off, and whether that was a minus. -/
def takeSign : List Char → Bool × List Char
  | '-' :: rest => (true, rest)
  | '+' :: rest => (false, rest)
  | rest => (false, rest)

/-- A row of one or more digits that is the whole text. -/
def wholeNat? (text : List Char) : Option Nat :=
  if !text.isEmpty && text.all Char.isDigit then some (natOfDigits text) else none

/-- The integer of a text: a sign, which may be missing, and digits. -/
def integer? (text : List Char) : Option Int :=
  let (negative, digits) := takeSign text
  (wholeNat? digits).map fun n => if negative then -n else n

/-- The exponent at the end of a number; zero if there is none. -/
def exponent? : List Char → Option Int
  | [] => some 0
  | c :: rest => if c = 'e' ∨ c = 'E' then integer? rest else none

/-- The digits after a point, if one comes next, and what follows. -/
def takePointed : List Char → List Char × List Char
  | '.' :: rest => (rest.takeWhile Char.isDigit, rest.dropWhile Char.isDigit)
  | rest => ([], rest)

/-- The bit pattern of a number without a sign: digits, a point and more digits, and an exponent;
at least one digit is needed. -/
def unsignedBits? (format : Format) (text : List Char) : Option Nat := do
  let whole := text.takeWhile Char.isDigit
  let (fraction, rest) := takePointed (text.dropWhile Char.isDigit)
  let digits := whole ++ fraction
  if digits.isEmpty then none
  else
    let exponent ← exponent? rest
    return nearestBits format (natOfDigits digits) (exponent - fraction.length)

/-- The bit pattern of the number that a text stands for. -/
def bits? (format : Format) (text : String) : Option Nat := do
  let (negative, rest) := takeSign text.toList
  let word := rest.map Char.toLower
  let bits ←
    if word = "inf".toList ∨ word = "infinity".toList then some format.infinity
    else if word = "nan".toList then some (format.infinity + format.leastNormal / 2)
    else unsignedBits? format rest
  return if negative then format.signBit + bits else bits

/-- The number of 64 bits that a text stands for. -/
def double? (text : String) : Option Float :=
  (bits? .double text).map fun bits => Float.ofBits (UInt64.ofNat bits)

/-- The number of 32 bits that a text stands for. -/
def single? (text : String) : Option Float32 :=
  (bits? .single text).map fun bits => Float32.ofBits (UInt32.ofNat bits)

end UrlRouting.Decimal
