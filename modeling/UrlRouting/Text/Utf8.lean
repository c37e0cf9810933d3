/-! # UTF-8

Texts as byte sequences, and the reading of arbitrary bytes.

* `bytes` is the UTF-8 form of a text.
* `readLossy` reads any bytes: each well-formed character stands for itself, and each maximal
  ill-formed part (the longest beginning of some well-formed character, or else one byte) stands
  for one replacement character.
* The reader is a transducer with one step per byte (`step`); between bytes it remembers at most
  one character read in part (`Unfinished`).
-/

namespace UrlRouting.Utf8

/-- The UTF-8 form of a text. -/
def bytes (text : List Char) : List UInt8 := text.flatMap String.utf8EncodeChar

/-- The character that stands for bytes that form no character. -/
def replacement : Char := Char.ofNat 0xFFFD

/-- An interval of bytes, both ends included. -/
structure ByteRange where
  low : UInt8
  high : UInt8
deriving DecidableEq, Repr

namespace ByteRange

/-- The byte lies between the ends. -/
def contains (range : ByteRange) (b : UInt8) : Bool := range.low ≤ b && b ≤ range.high

/-- The continuation bytes `80` to `BF`. -/
def continuation : ByteRange := ⟨0x80, 0xBF⟩

end ByteRange

/-- A character of several bytes, read in part: the code point bits so far, the bytes that may
come next, and how many continuation bytes follow that one. -/
structure Unfinished where
  bits : Nat
  next : ByteRange
  further : Nat
deriving DecidableEq, Repr

/-- What a byte begins when no character is pending. -/
inductive Lead where
  | single (c : Char)
  | opens (pending : Unfinished)
  | illFormed
deriving DecidableEq, Repr

/-- The table of first bytes. The second byte is restricted after `E0` and `F0` (no longer form
than needed), `ED` (no surrogate) and `F4` (nothing above `10FFFF`). -/
def lead (b : UInt8) : Lead :=
  if b ≤ 0x7F then .single (Char.ofNat b.toNat)
  else if b < 0xC2 then .illFormed
  else if b ≤ 0xDF then .opens ⟨b.toNat - 0xC0, .continuation, 0⟩
  else if b = 0xE0 then .opens ⟨0, ⟨0xA0, 0xBF⟩, 1⟩
  else if b = 0xED then .opens ⟨0x0D, ⟨0x80, 0x9F⟩, 1⟩
  else if b ≤ 0xEF then .opens ⟨b.toNat - 0xE0, .continuation, 1⟩
  else if b = 0xF0 then .opens ⟨0, ⟨0x90, 0xBF⟩, 2⟩
  else if b ≤ 0xF3 then .opens ⟨b.toNat - 0xF0, .continuation, 2⟩
  else if b = 0xF4 then .opens ⟨4, ⟨0x80, 0x8F⟩, 2⟩
  else .illFormed

/-- The characters finished by a byte that begins anew, and what is pending after it. -/
def start (b : UInt8) : List Char × Option Unfinished :=
  match lead b with
  | .single c => ([c], none)
  | .opens pending => ([], some pending)
  | .illFormed => ([replacement], none)

/-- The bits of a pending character with those of a continuation byte added. -/
def Unfinished.extend (pending : Unfinished) (b : UInt8) : Nat :=
  64 * pending.bits + b.toNat % 64

/-- One byte: the characters it finishes, and what is pending after it. A byte that cannot
continue the pending character ends that one as ill-formed and begins anew. -/
def step : Option Unfinished → UInt8 → List Char × Option Unfinished
  | none, b => start b
  | some pending, b =>
    if pending.next.contains b then
      match pending.further with
      | 0 => ([Char.ofNat (pending.extend b)], none)
      | further + 1 => ([], some ⟨pending.extend b, .continuation, further⟩)
    else
      let (out, after) := start b
      (replacement :: out, after)

/-- The characters of a byte sequence, given what is pending before it. -/
def readFrom : Option Unfinished → List UInt8 → List Char
  | none, [] => []
  | some _, [] => [replacement]
  | pending, b :: rest =>
    let (out, after) := step pending b
    out ++ readFrom after rest

/-- The characters of any byte sequence, ill-formed parts replaced. -/
def readLossy (input : List UInt8) : List Char := readFrom none input

end UrlRouting.Utf8
