import UrlRouting.Text.Utf8

/-! # Percent escapes

A byte that may not stand in a URL as it is is written `%` and two hexadecimal digits.

* `encode keeps` writes each character as itself or as the escapes of its UTF-8 bytes; the
  digits are upper case.
* `decode` reads escapes of either case in one pass over the bytes of the text, leaves a `%` that
  begins no escape in place, and reads the resulting bytes as UTF-8 (`Utf8.readLossy`).
-/

namespace UrlRouting.Percent

/-! ### Writing -/

/-- The upper-case hexadecimal digit of a number below 16. -/
def hexDigit (n : Nat) : Char :=
  if n < 10 then Char.ofNat (0x30 + n) else Char.ofNat (0x41 + (n - 10))

/-- The escape of one byte. -/
def escape (b : UInt8) : List Char := ['%', hexDigit (b.toNat / 16), hexDigit (b.toNat % 16)]

/-- The escapes of the bytes of one character. -/
def escapeChar (c : Char) : List Char := (String.utf8EncodeChar c).flatMap escape

/-- The text with every character that is not kept escaped. -/
def encode (keeps : Char → Bool) (text : List Char) : List Char :=
  text.flatMap fun c => if keeps c then [c] else escapeChar c

/-! ### Reading -/

/-- The value of a byte that is a hexadecimal digit of either case. -/
def hexValue? (b : UInt8) : Option UInt8 :=
  if 0x30 ≤ b && b ≤ 0x39 then some (b - 0x30)
  else if 0x41 ≤ b && b ≤ 0x46 then some (b - 0x37)
  else if 0x61 ≤ b && b ≤ 0x66 then some (b - 0x57)
  else none

/-- The byte that an escape with these digits stands for. -/
def escaped? (high low : UInt8) : Option UInt8 := do
  return 16 * (← hexValue? high) + (← hexValue? low)

/-- The bytes with each escape replaced by the byte it stands for, in one pass from the left. -/
def unescape : List UInt8 → List UInt8
  | [] => []
  | 0x25 :: high :: low :: rest =>
    match escaped? high low with
    | some b => b :: unescape rest
    | none => 0x25 :: unescape (high :: low :: rest)
  | b :: rest => b :: unescape rest

/-- The text that a text with escapes stands for. -/
def decode (text : List Char) : List Char := Utf8.readLossy (unescape (Utf8.bytes text))

end UrlRouting.Percent
