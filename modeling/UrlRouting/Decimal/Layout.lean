import UrlRouting.Decimal.Shortest

/-! # Layouts of a decimal

How a decimal is written: with its point among the digits, or with an exponent. The choices of an
output format are the fields of one record. -/

namespace UrlRouting.Decimal

/-- The choices of an output format. -/
structure Layout where
  /-- The numbers of digits before the point, least and greatest, that are written without an
  exponent; without bounds, all are. -/
  pointRange : Option (Int × Int)
  /-- What follows the digits of a whole number that is written without an exponent. -/
  wholeMark : String
  /-- Which of two equally near shortest decimals is written. -/
  tie : Tie
deriving DecidableEq, Repr

namespace Layout

variable (layout : Layout)

/-- The number of digits before the point allows writing without an exponent. -/
def isPlain (point : Int) : Bool :=
  match layout.pointRange with
  | none => true
  | some (least, greatest) => least ≤ point && point ≤ greatest

/-- A run of zeros. -/
def zeros (count : Nat) : String := String.ofList (List.replicate count '0')

/-- Digits with the point after the first `point` of them. -/
def writePlain (digits : List Char) (point : Int) : String :=
  if point ≤ 0 then "0." ++ zeros (-point).toNat ++ String.ofList digits
  else if digits.length ≤ point then
    String.ofList digits ++ zeros (point - digits.length).toNat ++ layout.wholeMark
  else
    String.ofList (digits.take point.toNat) ++ "." ++ String.ofList (digits.drop point.toNat)

/-- Digits with the point after the first of them, and an exponent with its sign. -/
def writeExponent (digits : List Char) (exponent : Int) : String :=
  let sign := if exponent < 0 then "-" else "+"
  let mantissa :=
    match digits with
    | first :: second :: rest => String.ofList (first :: '.' :: second :: rest)
    | short => String.ofList short
  mantissa ++ "e" ++ sign ++ toString exponent.natAbs

/-- A decimal without a sign. -/
def write (decimal : Decimal) : String :=
  if decimal.digits = 0 then "0" ++ layout.wholeMark
  else
    let digits := Nat.toDigits 10 decimal.digits
    let point := digits.length + decimal.exponent
    if layout.isPlain point then layout.writePlain digits point
    else writeExponent digits (point - 1)

/-- The number of a bit pattern without its sign bit. -/
def writeBits (format : Format) (bits : Nat) : String :=
  if bits < format.infinity then layout.write ((format.binary bits).shortest format layout.tie)
  else "inf"

/-- The number of a bit pattern with its sign bit. No number has no sign. -/
def writeSigned (format : Format) (pattern : Nat) : String :=
  let bits := pattern % format.signBit
  if format.infinity < bits then "NaN"
  else if pattern < format.signBit then layout.writeBits format bits
  else "-" ++ layout.writeBits format bits

/-- A number of 64 bits. -/
def writeDouble (x : Float) : String := layout.writeSigned .double x.toBits.toNat

/-- A number of 32 bits. -/
def writeSingle (x : Float32) : String := layout.writeSigned .single x.toBits.toNat

end Layout

end UrlRouting.Decimal
