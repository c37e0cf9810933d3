import UrlRouting.Decimal.Layout
import UrlRouting.Decimal.Reading
import UrlRouting.Json.Fault
import UrlRouting.Json.Value

/-! # JSON numbers

* A number is a sign, whole digits without a needless zero in front, digits after a point, and an
  exponent (`Numeral`).
* Whole numbers within 64 bits, negative ones with their sign, are integers; all others are
  floating-point numbers.
* A floating-point number is its leading digits as a significand of 64 bits, once multiplied or
  divided by a power of ten. So it is not in every case the nearest number to its text.
-/

namespace UrlRouting.Json

/-! ### Numerals -/

/-- The parts of a written number. -/
structure Numeral where
  negative : Bool
  whole : List Char
  fraction : List Char
  exponent : Option Int
deriving DecidableEq, Repr

/-- One or more digits, and what follows them. `early` is the fault of a text that has ended. -/
def takeDigits (early : Fault) (text : List Char) : Except Fault (List Char × List Char) :=
  if text.takeWhile Char.isDigit ≠ [] then
    .ok (text.takeWhile Char.isDigit, text.dropWhile Char.isDigit)
  else if text = [] then .error early
  else .error .malformed

/-- The digits before the point; a zero stands alone. -/
def takeWhole (early : Fault) (text : List Char) : Except Fault (List Char × List Char) := do
  let (digits, rest) ← takeDigits early text
  match digits with
  | '0' :: _ :: _ => .error .malformed
  | _ => .ok (digits, rest)

/-- The digits after a point, if one comes next. -/
def takeFraction (early : Fault) : List Char → Except Fault (List Char × List Char)
  | '.' :: text => takeDigits early text
  | text => .ok ([], text)

/-- The exponent after its letter. -/
def takeSignedDigits (early : Fault) (text : List Char) : Except Fault (Int × List Char) := do
  let (digits, rest) ← takeDigits early (Decimal.takeSign text).2
  let magnitude := Decimal.natOfDigits digits
  return (if (Decimal.takeSign text).1 then -magnitude else magnitude, rest)

/-- The exponent, if its letter comes next. -/
def takeExponent (early : Fault) : List Char → Except Fault (Option Int × List Char)
  | [] => .ok (none, [])
  | c :: text =>
    if c = 'e' ∨ c = 'E' then do
      let (exponent, rest) ← takeSignedDigits early text
      return (some exponent, rest)
    else .ok (none, c :: text)

/-- A written number and what follows it. -/
def takeNumeral (early : Fault) (text : List Char) : Except Fault (Numeral × List Char) := do
  let (negative, text) := match text with
    | '-' :: rest => (true, rest)
    | _ => (false, text)
  let (whole, text) ← takeWhole early text
  let (fraction, text) ← takeFraction early text
  let (exponent, text) ← takeExponent early text
  return (⟨negative, whole, fraction, exponent⟩, text)

/-! ### Numerals take characters -/

theorem length_lt_of_takeDigits {early : Fault} {text digits rest : List Char}
    (h : takeDigits early text = .ok (digits, rest)) : rest.length < text.length := by
  have hsplit : (text.takeWhile Char.isDigit ++ text.dropWhile Char.isDigit).length = text.length :=
    congrArg List.length List.takeWhile_append_dropWhile
  rw [List.length_append] at hsplit
  unfold takeDigits at h
  split at h
  · next hne =>
      cases h
      have := List.length_pos_iff.mpr hne
      omega
  · split at h <;> cases h

theorem length_lt_of_takeWhole {early : Fault} {text digits rest : List Char}
    (h : takeWhole early text = .ok (digits, rest)) : rest.length < text.length := by
  obtain ⟨⟨taken, after⟩, ht, h⟩ := bind_eq_ok.mp h
  have h1 := length_lt_of_takeDigits ht
  dsimp only at h
  split at h
  · cases h
  · cases h
    exact h1

theorem length_le_of_takeFraction {early : Fault} {text digits rest : List Char}
    (h : takeFraction early text = .ok (digits, rest)) : rest.length ≤ text.length := by
  unfold takeFraction at h
  split at h
  · have := length_lt_of_takeDigits h
    simp only [List.length_cons]
    omega
  · cases h
    exact Nat.le_refl _

theorem length_lt_of_takeSignedDigits {early : Fault} {text rest : List Char} {exponent : Int}
    (h : takeSignedDigits early text = .ok (exponent, rest)) : rest.length < text.length := by
  obtain ⟨⟨taken, after⟩, ht, h⟩ := bind_eq_ok.mp h
  have h1 := length_lt_of_takeDigits ht
  have h2 : (Decimal.takeSign text).2.length ≤ text.length := by
    unfold Decimal.takeSign
    split <;> simp only [List.length_cons] <;> omega
  have hr : after = rest := (Prod.mk.inj (Except.ok.inj h)).2
  rw [← hr]
  omega

theorem length_le_of_takeExponent {early : Fault} {text rest : List Char} {exponent : Option Int}
    (h : takeExponent early text = .ok (exponent, rest)) : rest.length ≤ text.length := by
  unfold takeExponent at h
  split at h
  · cases h
    exact Nat.le_refl _
  · split at h
    · obtain ⟨⟨taken, after⟩, ht, h⟩ := bind_eq_ok.mp h
      have h1 := length_lt_of_takeSignedDigits ht
      have hr : after = rest := (Prod.mk.inj (Except.ok.inj h)).2
      rw [← hr, List.length_cons]
      omega
    · cases h
      exact Nat.le_refl _

theorem length_lt_of_takeNumeral {early : Fault} {text rest : List Char} {numeral : Numeral}
    (h : takeNumeral early text = .ok (numeral, rest)) : rest.length < text.length := by
  obtain ⟨⟨whole, afterWhole⟩, hw, h⟩ := bind_eq_ok.mp h
  obtain ⟨⟨fraction, afterFraction⟩, hf, h⟩ := bind_eq_ok.mp h
  obtain ⟨⟨exponent, afterExponent⟩, he, h⟩ := bind_eq_ok.mp h
  have h1 := length_lt_of_takeWhole hw
  have h2 := length_le_of_takeFraction hf
  have h3 := length_le_of_takeExponent he
  have hr : afterExponent = rest := (Prod.mk.inj (Except.ok.inj h)).2
  have h0 : (match text with
      | '-' :: rest => (true, rest)
      | _ => (false, text)).2.length ≤ text.length := by
    split <;> simp only [List.length_cons] <;> omega
  rw [← hr]
  omega

/-! ### Values -/

/-- The digits of a row that fit into a significand of 64 bits after those in `significand`, and
the digits from the first that does not fit. -/
def takeFitting (significand : Nat) : List Char → Nat × List Char
  | [] => (significand, [])
  | c :: rest =>
    let next := 10 * significand + (c.toNat - '0'.toNat)
    if next < Decimal.powTwo 64 then takeFitting next rest else (significand, c :: rest)

/-- The greatest power of ten that scales in one step. -/
def greatestPower : Nat := 308

/-- A power of ten as a floating-point number. -/
def powerOfTen (exponent : Nat) : Float :=
  Float.ofBits (UInt64.ofNat (Decimal.nearestBits .double 1 exponent))

/-- A number divided by a power of ten, by the greatest power as long as the exponent is beyond
it. -/
def scaleDown (x : Float) (exponent : Nat) : Float :=
  if exponent ≤ greatestPower then x / powerOfTen exponent
  else if x == 0 then x
  else scaleDown (x / powerOfTen greatestPower) (exponent - greatestPower)
termination_by exponent
decreasing_by
  simp only [greatestPower] at *
  omega

/-- A number multiplied by a power of ten; none if the result is infinite. -/
def scaleUp? (x : Float) (exponent : Nat) : Option Float :=
  if exponent ≤ greatestPower then
    let product := x * powerOfTen exponent
    if product.isInf then none else some product
  else if x == 0 then some x
  else none

/-- The floating-point number of a significand and an exponent; none if it is infinite. -/
def float? (negative : Bool) (significand : Nat) (exponent : Int) : Option Float :=
  let x := (UInt64.ofNat significand).toFloat
  let scaled :=
    if exponent < 0 then some (scaleDown x exponent.natAbs) else scaleUp? x exponent.natAbs
  scaled.map fun x => if negative then -x else x

/-- The integer of a significand if it is in range: zero has no negative, and the least negative
integer is `-2 ^ 63`. -/
def integer? (negative : Bool) (significand : Nat) : Option Int :=
  if !negative then some significand
  else if 0 < significand ∧ significand ≤ Decimal.powTwo 63 then some (-significand)
  else none

/-- The value of a written number; none if it is infinite. -/
def Numeral.value? (numeral : Numeral) : Option Number :=
  let (wholePart, dropped) := takeFitting 0 numeral.whole
  let (significand, ignored) := takeFitting wholePart numeral.fraction
  let taken := numeral.fraction.length - ignored.length
  let isWhole := dropped.isEmpty && numeral.fraction.isEmpty && numeral.exponent.isNone
  match if isWhole then integer? numeral.negative significand else none with
  | some n => some (.integer n)
  | none =>
    let exponent := dropped.length - taken + numeral.exponent.getD 0
    (float? numeral.negative significand exponent).map .float

/-- A number. One that is infinite is malformed. -/
def readNumber : Reader Number := fun text => do
  let (numeral, rest) ← takeNumeral .endsEarly text
  match numeral.value? with
  | some value => .ok (value, rest)
  | none => .error .malformed

/-- What follows a number. Its size does not matter, and a number that ends early is malformed. -/
def skipNumber (text : List Char) : Except Fault (List Char) :=
  (takeNumeral .malformed text).map Prod.snd

/-! ### Writing -/

/-- Floating-point numbers from `0.00001` up to `10 ^ 16` are written without an exponent; whole
ones end in `.0`, and of two equally near shortest decimals the even one is taken. -/
def numberLayout : Decimal.Layout := ⟨some (-4, 16), ".0", .even⟩

/-- The text of a number. -/
def Number.write : Number → String
  | integer value => toString value
  | float value => numberLayout.writeDouble value

end UrlRouting.Json
