import UrlRouting.Json.Number
import UrlRouting.Proofs.Scanning

/-! # Numerals and integers

* `Json.Number.InRange`: the integers that are kept as integers are those of 64 bits, and
  `Json.inRange_of_readNumber` says that no other is read.
* `Json.takeFitting_of_lt`: the digits of a number within 64 bits are its significand.
* `Json.SpellsNumeral` relates the parts of a number to its texts, and
  `Json.SpellsNumeral.takeNumeral`: they are taken off any text that does not continue them.
* `Json.spellsNumeral_write`, `Json.value?_numeralOf`: the digits of an integer are such a text, and
  within 64 bits their value is the integer. -/

namespace UrlRouting.Json

/-- An integer is within 64 bits, a negative one with its sign. -/
def Number.InRange : Number → Prop
  | .integer n => -(Decimal.powTwo 63 : Int) ≤ n ∧ n < Decimal.powTwo 64
  | .float _ => True

instance : (value : Number) → Decidable value.InRange
  | .integer n =>
    inferInstanceAs (Decidable (-(Decimal.powTwo 63 : Int) ≤ n ∧ n < Decimal.powTwo 64))
  | .float _ => .isTrue trivial

/-! ### Numbers that are read -/

theorem takeFitting_lt {digits : List Char} {significand : Nat}
    (h : significand < Decimal.powTwo 64) :
    (takeFitting significand digits).1 < Decimal.powTwo 64 := by
  induction digits generalizing significand with
  | nil => exact h
  | cons c rest ih =>
      simp only [takeFitting]
      split
      · next hn => exact ih hn
      · exact h

theorem inRange_of_integer? {negative : Bool} {significand : Nat} {n : Int}
    (hs : significand < Decimal.powTwo 64) (h : integer? negative significand = some n) :
    (Number.integer n).InRange := by
  have h63 : Decimal.powTwo 63 = 9223372036854775808 := rfl
  have h64 : Decimal.powTwo 64 = 18446744073709551616 := rfl
  unfold integer? at h
  split at h
  · cases h
    constructor <;> omega
  split at h
  · next hr =>
    cases h
    constructor <;> omega
  · cases h

theorem inRange_of_value? {numeral : Numeral} {value : Number} (h : numeral.value? = some value) :
    value.InRange := by
  have hzero : 0 < Decimal.powTwo 64 := by decide
  have hwhole : (takeFitting 0 numeral.whole).1 < Decimal.powTwo 64 := takeFitting_lt hzero
  have hall := @takeFitting_lt numeral.fraction _ hwhole
  unfold Numeral.value? at h
  dsimp only at h
  split at h
  · next n hn =>
    cases h
    split at hn
    · exact inRange_of_integer? hall hn
    · cases hn
  · obtain ⟨x, -, rfl⟩ := Option.map_eq_some_iff.mp h
    trivial

theorem inRange_of_readNumber {text rest : List Char} {value : Number}
    (h : readNumber text = .ok (value, rest)) : value.InRange := by
  obtain ⟨⟨numeral, _⟩, -, h⟩ := bind_eq_ok.mp h
  dsimp only at h
  split at h
  · next found hv =>
    cases h
    exact inRange_of_value? hv
  · cases h

/-! ### Digits -/

theorem le_ofDigitChars (digits : List Char) (significand : Nat) :
    significand ≤ Nat.ofDigitChars 10 digits significand := by
  rw [Nat.ofDigitChars_eq_ofDigitChars_zero]
  have hpos : 0 < 10 ^ digits.length := Nat.pow_pos (by decide)
  have := Nat.le_mul_of_pos_left significand hpos
  omega

theorem takeFitting_of_lt {digits : List Char} {significand : Nat}
    (h : Nat.ofDigitChars 10 digits significand < Decimal.powTwo 64) :
    takeFitting significand digits = (Nat.ofDigitChars 10 digits significand, []) := by
  induction digits generalizing significand with
  | nil => rfl
  | cons c rest ih =>
      rw [Nat.ofDigitChars_cons] at h
      have hn := Nat.lt_of_le_of_lt (le_ofDigitChars rest _) h
      simp only [takeFitting]
      rw [if_pos hn, ih h, Nat.ofDigitChars_cons]

theorem takeFitting_toDigits {n : Nat} (h : n < Decimal.powTwo 64) :
    takeFitting 0 (Nat.toDigits 10 n) = (n, []) := by
  rw [takeFitting_of_lt] <;> rw [Nat.ofDigitChars_ten_toDigits]
  exact h

theorem exists_toDigits (n : Nat) :
    ∃ c tail, Nat.toDigits 10 n = c :: tail ∧ c.isDigit = true := by
  cases hd : Nat.toDigits 10 n with
  | nil => exact absurd hd Nat.toDigits_ne_nil
  | cons c tail =>
      have hc : c ∈ Nat.toDigits 10 n := hd ▸ List.mem_cons_self
      exact ⟨c, tail, rfl, Nat.isDigit_of_mem_toDigits (by decide) (by decide) hc⟩

/-- The digits of a positive number do not begin with a zero: those behind it would be the digits of
the number without its last one. -/
theorem toDigits_ne_zero {n : Nat} (hn : 0 < n) (tail : List Char) :
    Nat.toDigits 10 n ≠ '0' :: tail := by
  intro h
  induction n using Nat.strongRecOn generalizing tail with
  | ind n ih =>
      by_cases hlt : n < 10
      · rw [Nat.toDigits_of_lt_base hlt] at h
        have hzero : n.digitChar = '0' := (List.cons.inj h).1
        rw [Nat.digitChar_eq_zero] at hzero
        omega
      · rw [Nat.toDigits_of_base_le (by decide) (by omega)] at h
        obtain ⟨first, others, hd, -⟩ := exists_toDigits (n / 10)
        rw [hd, List.cons_append] at h
        have hfirst : first = '0' := (List.cons.inj h).1
        exact ih (n / 10) (by omega) (by omega) others (hfirst ▸ hd)

/-! ### Spelled numerals -/

/-- One or more digits. -/
def IsDigits (digits : List Char) : Prop := digits ≠ [] ∧ ∀ c ∈ digits, c.isDigit = true

/-- How the digits after a point are spelled. -/
inductive SpellsFraction : List Char → List Char → Prop
  | absent : SpellsFraction [] []
  | present {digits : List Char} (h : IsDigits digits) : SpellsFraction digits ('.' :: digits)

/-- How the sign of an exponent is spelled. -/
inductive SpellsSign : Bool → List Char → Prop
  | absent : SpellsSign false []
  | plus : SpellsSign false ['+']
  | minus : SpellsSign true ['-']

/-- How an exponent is spelled. -/
inductive SpellsExponent : Option Int → List Char → Prop
  | absent : SpellsExponent none []
  | present {letter : Char} {negative : Bool} {sign digits : List Char}
    (exponent : letter = 'e' ∨ letter = 'E') (signed : SpellsSign negative sign)
    (h : IsDigits digits) :
    SpellsExponent (some (if negative then -(Decimal.natOfDigits digits : Int)
      else Decimal.natOfDigits digits)) (letter :: (sign ++ digits))

/-- The digits before the point of a numeral have no needless zero in front. -/
def IsWhole (digits : List Char) : Prop := IsDigits digits ∧ ∀ c rest, digits ≠ '0' :: c :: rest

/-- How the parts of a number are spelled. -/
inductive SpellsNumeral : Numeral → List Char → Prop
  | mk {negative : Bool} {whole fraction : List Char} {exponent : Option Int}
    {pointed raised : List Char} (isWhole : IsWhole whole) (hf : SpellsFraction fraction pointed)
    (he : SpellsExponent exponent raised) :
    SpellsNumeral ⟨negative, whole, fraction, exponent⟩
      ((if negative then ['-'] else []) ++ (whole ++ (pointed ++ raised)))

/-- What follows does not continue a numeral. -/
def EndsNumeral (rest : List Char) : Prop :=
  ∀ c ∈ rest.head?, c.isDigit = false ∧ c ≠ '.' ∧ c ≠ 'e' ∧ c ≠ 'E'

variable {early : Fault} {digits rest : List Char}

theorem IsDigits.exists_cons (h : IsDigits digits) :
    ∃ c tail, digits = c :: tail ∧ c.isDigit = true := by
  obtain ⟨hne, hd⟩ := h
  obtain ⟨c, tail, rfl⟩ := List.exists_cons_of_ne_nil hne
  exact ⟨c, tail, rfl, hd c List.mem_cons_self⟩

theorem SpellsNumeral.exists_cons {numeral : Numeral} {text : List Char}
    (h : SpellsNumeral numeral text) :
    ∃ c tail, text = c :: tail ∧ (c = '-' ∨ c.isDigit = true) := by
  obtain ⟨⟨hdigits, -⟩, hf, he⟩ := h
  rename_i negative whole fraction exponent pointed raised
  obtain ⟨c, tail, rfl, hc⟩ := hdigits.exists_cons
  cases negative with
  | true => exact ⟨'-', _, rfl, .inl rfl⟩
  | false => exact ⟨c, _, rfl, .inr hc⟩

theorem takeDigits_append (h : IsDigits digits) (hr : ∀ c ∈ rest.head?, c.isDigit = false) :
    takeDigits early (digits ++ rest) = .ok (digits, rest) := by
  obtain ⟨htake, hdrop⟩ := Token.takeWhile_dropWhile_eq_iff.mpr ⟨rfl, h.2, hr⟩
  rw [takeDigits, htake, hdrop, if_pos h.1]

theorem takeWhole_append (h : IsWhole digits) (hr : ∀ c ∈ rest.head?, c.isDigit = false) :
    takeWhole early (digits ++ rest) = .ok (digits, rest) := by
  rw [takeWhole, takeDigits_append h.1 hr]
  simp only [bind, Except.bind]
  split
  · exact absurd rfl (h.2 _ _)
  · rfl

theorem SpellsFraction.takeFraction {fraction pointed : List Char}
    (h : SpellsFraction fraction pointed) (hr : ∀ c ∈ rest.head?, c.isDigit = false ∧ c ≠ '.') :
    Json.takeFraction early (pointed ++ rest) = .ok (fraction, rest) := by
  cases h with
  | absent =>
      rw [List.nil_append]
      unfold Json.takeFraction
      split
      · next tail => exact absurd rfl (hr '.' rfl).2
      · rfl
  | present hd =>
      rw [List.cons_append]
      exact takeDigits_append hd fun c hc => (hr c hc).1

theorem SpellsSign.takeSign {negative : Bool} {sign : List Char} (h : SpellsSign negative sign)
    (hd : IsDigits digits) (rest : List Char) :
    Decimal.takeSign (sign ++ (digits ++ rest)) = (negative, digits ++ rest) := by
  cases h with
  | plus => rfl
  | minus => rfl
  | absent =>
      obtain ⟨c, tail, rfl, hc⟩ := hd.exists_cons
      rw [List.nil_append, List.cons_append]
      unfold Decimal.takeSign
      split
      · next hm => cases hm; cases hc
      · next hm => cases hm; cases hc
      · rfl

theorem SpellsExponent.takeExponent {exponent : Option Int} {raised : List Char}
    (h : SpellsExponent exponent raised) (hr : EndsNumeral rest) :
    Json.takeExponent early (raised ++ rest) = .ok (exponent, rest) := by
  cases h with
  | absent =>
      rw [List.nil_append]
      unfold Json.takeExponent
      split
      · rfl
      · next c tail =>
        obtain ⟨-, -, he, hE⟩ := hr c rfl
        rw [if_neg (not_or.mpr ⟨he, hE⟩)]
  | @present letter negative sign digits hletter signed hd =>
      have hsign := signed.takeSign hd rest
      have hdigits : takeDigits early (digits ++ rest) = .ok (digits, rest) :=
        takeDigits_append hd fun c hc => (hr c hc).1
      rw [List.cons_append, List.append_assoc, Json.takeExponent, if_pos hletter, takeSignedDigits,
        hsign]
      simp only [hdigits, bind, Except.bind, pure, Except.pure]

/-- A numeral is taken off a text that does not continue it. -/
theorem SpellsNumeral.takeNumeral {numeral : Numeral} {text : List Char}
    (h : SpellsNumeral numeral text) (hr : EndsNumeral rest) :
    Json.takeNumeral early (text ++ rest) = .ok (numeral, rest) := by
  obtain ⟨isWhole, hf, he⟩ := h
  rename_i negative whole fraction exponent pointed raised
  have hexponent : Json.takeExponent early (raised ++ rest) = .ok (exponent, rest) :=
    he.takeExponent hr
  have hraised : ∀ c ∈ (raised ++ rest).head?, c.isDigit = false ∧ c ≠ '.' := by
    intro c hc
    cases he with
    | absent => exact ⟨(hr c hc).1, (hr c hc).2.1⟩
    | present hletter =>
        cases hc
        rcases hletter with rfl | rfl <;> decide
  have hfraction : Json.takeFraction early (pointed ++ (raised ++ rest)) =
      .ok (fraction, raised ++ rest) := hf.takeFraction hraised
  have hpointed : ∀ c ∈ (pointed ++ (raised ++ rest)).head?, c.isDigit = false := by
    intro c hc
    cases hf with
    | absent => exact (hraised c hc).1
    | present =>
        cases hc
        decide
  have hwhole : takeWhole early (whole ++ (pointed ++ (raised ++ rest))) =
      .ok (whole, pointed ++ (raised ++ rest)) := takeWhole_append isWhole hpointed
  rw [List.append_assoc, List.append_assoc, List.append_assoc]
  cases negative with
  | true =>
      simp only [if_true, List.cons_append, List.nil_append, Json.takeNumeral]
      simp only [hwhole, hfraction, hexponent, bind, Except.bind, pure, Except.pure]
  | false =>
      obtain ⟨c, tail, hw, hc⟩ := isWhole.1.exists_cons
      rw [hw, List.cons_append] at hwhole
      rw [if_neg Bool.false_ne_true, List.nil_append, hw, List.cons_append, Json.takeNumeral]
      · simp only [hwhole, hfraction, hexponent, bind, Except.bind, pure, Except.pure]
      · rintro other hm
        rw [(List.cons.inj hm).1] at hc
        cases hc

theorem SpellsNumeral.readNumber {numeral : Numeral} {text : List Char}
    (h : SpellsNumeral numeral text) {value : Number} (hv : numeral.value? = some value)
    (hr : EndsNumeral rest) : Json.readNumber (text ++ rest) = .ok (value, rest) := by
  rw [Json.readNumber, h.takeNumeral hr]
  simp only [bind, Except.bind, hv]

theorem SpellsNumeral.skipNumber {numeral : Numeral} {text : List Char}
    (h : SpellsNumeral numeral text) (hr : EndsNumeral rest) :
    Json.skipNumber (text ++ rest) = .ok rest := by
  rw [Json.skipNumber, h.takeNumeral hr]
  rfl

/-! ### Integers -/

/-- The parts of a written integer. -/
def numeralOf (n : Int) : Numeral := ⟨decide (n < 0), Nat.toDigits 10 n.natAbs, [], none⟩

theorem isDigits_toDigits (n : Nat) : IsDigits (Nat.toDigits 10 n) :=
  ⟨Nat.toDigits_ne_nil, fun _ hc => Nat.isDigit_of_mem_toDigits (by decide) (by decide) hc⟩

theorem isWhole_toDigits (n : Nat) : IsWhole (Nat.toDigits 10 n) := by
  refine ⟨isDigits_toDigits n, fun c rest h => ?_⟩
  rcases Nat.eq_zero_or_pos n with rfl | hn
  · cases h
  · exact toDigits_ne_zero hn _ h

theorem value?_numeralOf {n : Int} (h : (Number.integer n).InRange) :
    (numeralOf n).value? = some (.integer n) := by
  have h63 : Decimal.powTwo 63 = 9223372036854775808 := rfl
  have h64 : Decimal.powTwo 64 = 18446744073709551616 := rfl
  obtain ⟨hlow, hhigh⟩ := h
  have hfit : takeFitting 0 (Nat.toDigits 10 n.natAbs) = (n.natAbs, []) :=
    takeFitting_toDigits (by omega)
  have hint : integer? (decide (n < 0)) n.natAbs = some n := by
    unfold integer?
    by_cases hn : n < 0
    · have hr : 0 < n.natAbs ∧ n.natAbs ≤ Decimal.powTwo 63 := by omega
      have habs : -(n.natAbs : Int) = n := by omega
      rw [decide_eq_true hn, if_neg (by decide), if_pos hr, habs]
    · have habs : (n.natAbs : Int) = n := by omega
      rw [decide_eq_false hn, if_pos (by decide), habs]
  simp [numeralOf, Numeral.value?, hfit, takeFitting, hint]

theorem toList_write_integer (n : Int) :
    (Number.integer n).write.toList =
      (if decide (n < 0) then ['-'] else []) ++ Nat.toDigits 10 n.natAbs := by
  rw [Number.write, Int.toString_eq_repr, Int.repr_eq_if]
  by_cases hn : n < 0
  · have habs : (-n).toNat = n.natAbs := by omega
    rw [if_neg (by omega), habs]
    simp [hn]
  · have habs : n.toNat = n.natAbs := by omega
    rw [if_pos (by omega), habs]
    simp [hn]

theorem spellsNumeral_write (n : Int) :
    SpellsNumeral (numeralOf n) (Number.integer n).write.toList := by
  rw [toList_write_integer, ← List.append_nil (Nat.toDigits 10 n.natAbs)]
  exact .mk (isWhole_toDigits _) .absent .absent

end UrlRouting.Json
