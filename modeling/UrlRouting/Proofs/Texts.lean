import UrlRouting.Json.Text

/-! # Spelled strings

A character of a string may be spelled in several ways: as it is, by an escape with a letter, or by
the escapes of its code units.

* `Json.SpellsChars` relates the characters of a string to the text between its quotes, and
  `Json.readText_of_spells`: from every such text the string is read, whatever follows it.
* `Json.spellsChars_flatMap_writeChar`: what is written is one of the spellings.
* `Json.IsStringText`: the texts between quotes that are passed over
  (`Json.IsStringText.skipChars`); in them halves of code unit pairs stand for themselves. -/

namespace UrlRouting.Json

/-! ### Spellings -/

/-- How a character may be spelled. -/
inductive SpellsChar : Char → List Char → Prop
  /-- As it is. -/
  | plain {c : Char} (quote : c ≠ '"') (backslash : c ≠ '\\') (visible : 0x20 ≤ c.toNat) :
    SpellsChar c [c]
  /-- By a letter that stands for it. -/
  | letter {c letter : Char} (h : escapedChar? letter = some c) : SpellsChar c ['\\', letter]
  /-- By its code unit. -/
  | unit {a b c d : Char} {unit : Nat} (digits : unitOf? a b c d = some unit)
    (whole : unit < 0xD800 ∨ 0xDFFF < unit) :
    SpellsChar (Char.ofNat unit) ['\\', 'u', a, b, c, d]
  /-- By the pair of its code units. -/
  | pair {a b c d e f g h : Char} {leading trailing : Nat} (first : unitOf? a b c d = some leading)
    (second : unitOf? e f g h = some trailing) (above : 0xD800 ≤ leading) (below : leading < 0xDC00)
    (above' : 0xDC00 ≤ trailing) (below' : trailing ≤ 0xDFFF) :
    SpellsChar (Char.ofNat (0x10000 + 0x400 * (leading - 0xD800) + (trailing - 0xDC00)))
      ['\\', 'u', a, b, c, d, '\\', 'u', e, f, g, h]

/-- How the characters of a string may be spelled between its quotes. -/
inductive SpellsChars : List Char → List Char → Prop
  | nil : SpellsChars [] []
  | cons {c : Char} {spelling chars letters : List Char} (first : SpellsChar c spelling)
    (others : SpellsChars chars letters) : SpellsChars (c :: chars) (spelling ++ letters)

/-- The text of one character, or of a half of a pair of code units. -/
inductive IsCharText : List Char → Prop
  | plain {c : Char} (quote : c ≠ '"') (backslash : c ≠ '\\') (visible : 0x20 ≤ c.toNat) :
    IsCharText [c]
  | letter {letter : Char} (h : (escapedChar? letter).isSome) : IsCharText ['\\', letter]
  | unit {a b c d : Char} (digits : (unitOf? a b c d).isSome) :
    IsCharText ['\\', 'u', a, b, c, d]

/-- A text that may stand between quotes if halves of pairs are let pass. -/
def IsStringText (letters : List Char) : Prop :=
  ∃ pieces : List (List Char), (∀ piece ∈ pieces, IsCharText piece) ∧ letters = pieces.flatten

/-! ### Escapes -/

theorem ne_u_of_isSome_escapedChar? {letter : Char} (h : (escapedChar? letter).isSome) :
    letter ≠ 'u' := by
  rintro rfl
  exact absurd h (by decide)

theorem readUnit_of_digits {a b c d : Char} {unit : Nat} (h : unitOf? a b c d = some unit)
    (rest : List Char) : readUnit (a :: b :: c :: d :: rest) = .ok (unit, rest) := by
  simp only [readUnit, h]

theorem readEscape_letter {c letter : Char} (h : escapedChar? letter = some c)
    (rest : List Char) : readEscape (letter :: rest) = .ok (c, rest) := by
  have hsome : (escapedChar? letter).isSome = true := by rw [h, Option.isSome_some]
  rw [readEscape, if_neg (ne_u_of_isSome_escapedChar? hsome), h]

theorem readEscape_unit {a b c d : Char} {unit : Nat} (h : unitOf? a b c d = some unit)
    (whole : unit < 0xD800 ∨ 0xDFFF < unit) (rest : List Char) :
    readEscape ('u' :: a :: b :: c :: d :: rest) = .ok (Char.ofNat unit, rest) := by
  rw [readEscape, if_pos rfl, readCodePoint, readUnit_of_digits h]
  simp only [bind, Except.bind]
  rw [if_pos whole]

theorem readEscape_pair {a b c d e f g h : Char} {leading trailing : Nat}
    (first : unitOf? a b c d = some leading) (second : unitOf? e f g h = some trailing)
    (above : 0xD800 ≤ leading) (below : leading < 0xDC00) (above' : 0xDC00 ≤ trailing)
    (below' : trailing ≤ 0xDFFF) (rest : List Char) :
    readEscape ('u' :: a :: b :: c :: d :: '\\' :: 'u' :: e :: f :: g :: h :: rest) =
      .ok (Char.ofNat (0x10000 + 0x400 * (leading - 0xD800) + (trailing - 0xDC00)), rest) := by
  have htrailing : readTrailing ('\\' :: 'u' :: e :: f :: g :: h :: rest) =
      .ok (trailing, rest) := by
    have hword : afterWord ['\\', 'u'] ('\\' :: 'u' :: e :: f :: g :: h :: rest) =
        .ok (e :: f :: g :: h :: rest) := rfl
    rw [readTrailing, hword]
    simp only [bind, Except.bind, readUnit_of_digits second]
    rw [if_pos ⟨above', below'⟩]
  have hwhole : ¬ (leading < 0xD800 ∨ 0xDFFF < leading) := by omega
  rw [readEscape, if_pos rfl, readCodePoint, readUnit_of_digits first]
  simp only [bind, Except.bind]
  rw [if_neg hwhole, if_neg (Nat.not_le.mpr below), htrailing]
  rfl

/-! ### Reading -/

theorem readChars_cons_escape {text after chars rest : List Char} {c : Char}
    (he : readEscape text = .ok (c, after)) (h : readChars after = .ok (chars, rest)) :
    readChars ('\\' :: text) = .ok (c :: chars, rest) := by
  have hq : ¬ '\\' = '"' := by decide
  rw [readChars, if_neg hq, if_pos rfl]
  split
  · next fault hf => rw [he] at hf; cases hf
  · next other tail ho =>
    rw [he] at ho
    cases ho
    simp [bind, Except.bind, h, pure, Except.pure]

theorem readChars_cons_plain {text chars rest : List Char} {c : Char} (hq : c ≠ '"')
    (hb : c ≠ '\\') (hc : 0x20 ≤ c.toNat) (h : readChars text = .ok (chars, rest)) :
    readChars (c :: text) = .ok (c :: chars, rest) := by
  rw [readChars, if_neg hq, if_neg hb, if_neg (Nat.not_lt.mpr hc), h]
  rfl

theorem SpellsChar.readChars {c : Char} {spelling : List Char} (hs : SpellsChar c spelling)
    {text chars rest : List Char} (h : readChars text = .ok (chars, rest)) :
    Json.readChars (spelling ++ text) = .ok (c :: chars, rest) := by
  cases hs with
  | plain quote backslash visible => exact readChars_cons_plain quote backslash visible h
  | letter hl => exact readChars_cons_escape (readEscape_letter hl text) h
  | unit digits whole => exact readChars_cons_escape (readEscape_unit digits whole text) h
  | pair first second above below above' below' =>
      exact readChars_cons_escape (readEscape_pair first second above below above' below' text) h

theorem SpellsChars.readChars {chars letters : List Char} (h : SpellsChars chars letters)
    (rest : List Char) : Json.readChars (letters ++ '"' :: rest) = .ok (chars, rest) := by
  induction h with
  | nil => rw [List.nil_append, Json.readChars, if_pos rfl]
  | cons first _ ih =>
      rw [List.append_assoc]
      exact first.readChars ih

theorem readText_of_spells {text : String} {letters : List Char}
    (h : SpellsChars text.toList letters) (rest : List Char) :
    readText (letters ++ '"' :: rest) = .ok (text, rest) := by
  rw [readText, h.readChars rest]
  show Except.ok (String.ofList text.toList, rest) = _
  rw [String.ofList_toList]

/-! ### Writing -/

/-- A character that has a letter is what the letter stands for. -/
theorem escapedChar?_of_escapeLetter? {c letter : Char} (h : escapeLetter? c = some letter) :
    escapedChar? letter = some c := by
  unfold escapeLetter? at h
  split at h
  · next hc =>
    cases h
    simp only [Bool.or_eq_true, decide_eq_true_eq] at hc
    rcases hc with rfl | rfl <;> rfl
  split at h
  · next hc => subst hc; cases h; rfl
  split at h
  · next hc => subst hc; cases h; rfl
  split at h
  · next hc => subst hc; cases h; rfl
  split at h
  · next hc => subst hc; cases h; rfl
  split at h
  · next hc => subst hc; cases h; rfl
  · cases h

theorem hexValue?_digitChar {n : Nat} (h : n < 16) : hexValue? (Nat.digitChar n) = some n := by
  have hall : ∀ n < 16, hexValue? (Nat.digitChar n) = some n := by decide
  exact hall n h

/-- The two digits of a control character are its code unit. -/
theorem unitOf?_control {n : Nat} (h : n < 0x20) :
    unitOf? '0' '0' (Nat.digitChar (n / 16)) (Nat.digitChar (n % 16)) = some n := by
  have hhigh : hexValue? (Nat.digitChar (n / 16)) = some (n / 16) :=
    hexValue?_digitChar (by omega)
  have hlow : hexValue? (Nat.digitChar (n % 16)) = some (n % 16) :=
    hexValue?_digitChar (by omega)
  have hzero : hexValue? '0' = some 0 := by decide
  have hsum : 16 * (n / 16) + n % 16 = n := by omega
  simp [unitOf?, hhigh, hlow, hzero, hsum]

theorem spellsChar_writeChar (c : Char) : SpellsChar c (writeChar c) := by
  unfold writeChar
  cases hl : escapeLetter? c with
  | some letter => exact .letter (escapedChar?_of_escapeLetter? hl)
  | none =>
      dsimp only
      split
      · next hc =>
        have hspelled := SpellsChar.unit (unitOf?_control hc) (.inl (by omega))
        rwa [Char.ofNat_toNat] at hspelled
      · next hc =>
        have hq : c ≠ '"' := by rintro rfl; cases hl
        have hb : c ≠ '\\' := by rintro rfl; cases hl
        exact .plain hq hb (Nat.not_lt.mp hc)

theorem spellsChars_flatMap_writeChar (chars : List Char) :
    SpellsChars chars (chars.flatMap writeChar) := by
  induction chars with
  | nil => exact .nil
  | cons c chars ih =>
      rw [List.flatMap_cons]
      exact .cons (spellsChar_writeChar c) ih

/-! ### Passing over -/

theorem skipChars_cons_escape {text after : List Char} (h : skipEscape text = .ok after) :
    skipChars ('\\' :: text) = skipChars after := by
  have hq : ¬ '\\' = '"' := by decide
  rw [skipChars, if_neg hq, if_pos rfl]
  split
  · next fault hf => rw [h] at hf; cases hf
  · next other ho =>
    rw [h] at ho
    cases ho
    rfl

theorem IsCharText.skipChars {piece : List Char} (h : IsCharText piece) (text : List Char) :
    Json.skipChars (piece ++ text) = Json.skipChars text := by
  cases h with
  | @plain c quote backslash visible =>
      rw [List.singleton_append, Json.skipChars.eq_def (c :: text)]
      dsimp only
      rw [if_neg quote, if_neg backslash, if_neg (Nat.not_lt.mpr visible)]
  | @letter letter h =>
      refine skipChars_cons_escape ?_
      show skipEscape (letter :: text) = _
      rw [skipEscape, if_neg (ne_u_of_isSome_escapedChar? h), if_pos h]
  | @unit a b c d digits =>
      obtain ⟨unit, hu⟩ := Option.isSome_iff_exists.mp digits
      refine skipChars_cons_escape ?_
      show skipEscape ('u' :: a :: b :: c :: d :: text) = _
      rw [skipEscape, if_pos rfl, readUnit_of_digits hu]
      rfl

theorem IsStringText.skipChars {letters : List Char} (h : IsStringText letters)
    (rest : List Char) : Json.skipChars (letters ++ '"' :: rest) = .ok rest := by
  obtain ⟨pieces, hpieces, rfl⟩ := h
  induction pieces with
  | nil => rw [List.flatten_nil, List.nil_append, Json.skipChars, if_pos rfl]
  | cons piece pieces ih =>
      obtain ⟨hpiece, hothers⟩ := List.forall_mem_cons.mp hpieces
      rw [List.flatten_cons, List.append_assoc, hpiece.skipChars, ih hothers]

end UrlRouting.Json
