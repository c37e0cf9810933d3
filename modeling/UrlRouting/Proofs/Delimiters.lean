import UrlRouting.Proofs.Escapes

/-! # The characters of written values

A value is written with letters, digits, a few marks and escapes, in a segment as in a query. So no
delimiter of a URL comes from a value, and values can be written piece by piece.

* `Percent.Written`: the texts made of characters that may stand in them and of escapes.
* `Percent.DelimiterSafe`: the laws of a writer of values. They hold of every writer that goes from
  character to character and writes no two values alike (`DelimiterSafe.of_flatMap`).
* `Segment.delimiterSafe_encode`: the writer of segments is safe, so a segment can stand between two
  slashes and only the empty value has an empty one. -/

namespace UrlRouting

namespace Percent

variable {marks : String} {c : Char} {text : List Char}

/-! ### Written texts -/

/-- The character is an ASCII letter or digit, or one of the marks. -/
def Stands (marks : String) (c : Char) : Prop := c.isAlphanum = true ∨ c ∈ marks.toList

instance (marks : String) (c : Char) : Decidable (Stands marks c) :=
  inferInstanceAs (Decidable (_ ∨ _))

/-- The text is made of characters that may stand in it and of escapes, each a `%` and two
upper-case digits. -/
inductive Written (marks : String) : List Char → Prop
  | nil : Written marks []
  | stands {c : Char} {rest : List Char} (hc : Stands marks c) (h : Written marks rest) :
      Written marks (c :: rest)
  | escape {high low : Char} {rest : List Char} (hhigh : high ∈ upperDigits)
      (hlow : low ∈ upperDigits) (h : Written marks rest) :
      Written marks ('%' :: high :: low :: rest)

theorem Written.append {rest : List Char} (h : Written marks text) (hr : Written marks rest) :
    Written marks (text ++ rest) := by
  induction h with
  | nil => exact hr
  | stands hc _ ih => exact .stands hc ih
  | escape hhigh hlow _ ih => exact .escape hhigh hlow ih

theorem Written.flatMap {α : Type} {write : α → List Char} (h : ∀ a, Written marks (write a))
    (values : List α) : Written marks (values.flatMap write) := by
  induction values with
  | nil => exact .nil
  | cons a values ih => exact (h a).append ih

theorem written_escapeChar (marks : String) (c : Char) : Written marks (escapeChar c) := by
  apply Written.flatMap
  intro b
  rw [escape_eq]
  exact .escape (hexDigit_mem_upperDigits _) (hexDigit_mem_upperDigits _) .nil

theorem isAlphanum_of_mem_upperDigits (h : c ∈ upperDigits) : c.isAlphanum = true := by
  have hall : upperDigits.all Char.isAlphanum = true := by decide
  exact List.all_eq_true.mp hall c h

theorem Written.stands_of_mem (h : Written marks text) (hc : c ∈ text) :
    Stands marks c ∨ c = '%' := by
  induction h with
  | nil => cases hc
  | stands hd _ ih =>
      rcases List.mem_cons.mp hc with rfl | hc
      · exact .inl hd
      · exact ih hc
  | escape hhigh hlow _ ih =>
      simp only [List.mem_cons] at hc
      rcases hc with rfl | rfl | rfl | hc
      · exact .inr rfl
      · exact .inl (.inl (isAlphanum_of_mem_upperDigits hhigh))
      · exact .inl (.inl (isAlphanum_of_mem_upperDigits hlow))
      · exact ih hc

theorem Written.notMem (h : Written marks text) (hc : ¬ Stands marks c) (hp : c ≠ '%') :
    c ∉ text := by
  intro hm
  rcases h.stands_of_mem hm with hs | he
  · exact hc hs
  · exact hp he

/-! ### The laws of a writer -/

/-- The delimiters of paths and queries, and the space. -/
def delimiters : List Char := "/?#& ".toList

/-- A writer of values whose texts are written with these marks, hold no delimiter and nothing
beyond ASCII, and are put together as the values are; different values have different texts. -/
structure DelimiterSafe (marks : String) (write : String → String) : Prop where
  written : ∀ value, Written marks (write value).toList
  notMem : ∀ value, ∀ c ∈ delimiters, c ∉ (write value).toList
  ascii : ∀ value, ∀ c ∈ (write value).toList, c.val.toNat ≤ 0x7F
  empty_iff : ∀ value, write value = "" ↔ value = ""
  append : ∀ first second, write (first ++ second) = write first ++ write second
  injective : ∀ first second, write first = write second → first = second

theorem delimiters_apart (h : c ∈ delimiters) : c.isAlphanum = false ∧ c ≠ '%' := by
  have hall : (delimiters.all fun d => !d.isAlphanum && d != '%') = true := by decide
  simpa using List.all_eq_true.mp hall c h

/-- A writer that goes from character to character and writes no two values alike is safe, if its
marks are no delimiters and belong to ASCII. -/
theorem DelimiterSafe.of_flatMap {write : String → String} {writeChar : Char → List Char}
    (hwrite : ∀ value, (write value).toList = value.toList.flatMap writeChar)
    (hchar : ∀ c, Written marks (writeChar c))
    (hmarks : (marks.toList.all fun d => !delimiters.contains d && d.val.toNat ≤ 0x7F) = true)
    (hinjective : ∀ first second, write first = write second → first = second) :
    DelimiterSafe marks write := by
  have hwritten : ∀ value, Written marks (write value).toList := by
    intro value
    rw [hwrite]
    exact Written.flatMap hchar value.toList
  have happend : ∀ first second, write (first ++ second) = write first ++ write second := by
    intro first second
    apply String.toList_inj.mp
    rw [hwrite, String.toList_append, String.toList_append, List.flatMap_append, hwrite, hwrite]
  have hstands : ∀ c ∈ marks.toList, c ∉ delimiters ∧ c.val.toNat ≤ 0x7F := by
    intro c hc
    simpa using List.all_eq_true.mp hmarks c hc
  have hempty : write "" = "" := by
    apply String.toList_inj.mp
    rw [hwrite]
    rfl
  refine ⟨hwritten, ?_, ?_, ?_, happend, hinjective⟩
  · intro value c hc hm
    obtain ⟨halpha, hpercent⟩ := delimiters_apart hc
    rcases (hwritten value).stands_of_mem hm with (h | h) | h
    · rw [halpha] at h
      cases h
    · exact (hstands c h).1 hc
    · exact hpercent h
  · intro value c hm
    rcases (hwritten value).stands_of_mem hm with (h | h) | h
    · exact (bounds_of_isAlphanum h).1
    · exact (hstands c h).2
    · rw [h]
      decide
  · intro value
    constructor
    · intro h
      exact hinjective value "" (h.trans hempty.symm)
    · intro h
      rw [h, hempty]

theorem written_singleton {kept : String} (hk : (kept.toList.all marks.toList.contains) = true)
    (h : (c.isAlphanum || kept.toList.contains c) = true) : Written marks [c] := by
  rw [Bool.or_eq_true, List.contains_iff_mem] at h
  apply Written.stands _ .nil
  rcases h with h | h
  · exact .inl h
  · exact .inr (List.contains_iff_mem.mp (List.all_eq_true.mp hk c h))

end Percent

/-! ### Segments -/

namespace Segment

theorem written_char (c : Char) :
    Percent.Written "-._~@:;,=+!*|" (if keeps c then [c] else Percent.escapeChar c) := by
  split
  · next h => exact Percent.written_singleton (by decide) h
  · exact Percent.written_escapeChar _ c

theorem delimiterSafe_encode : Percent.DelimiterSafe "-._~@:;,=+!*|" encode := by
  apply Percent.DelimiterSafe.of_flatMap _ written_char (by decide)
  · intro first second h
    rw [← value_of_encode first, h, value_of_encode]
  · intro value
    unfold encode
    rw [String.toList_ofList]
    rfl

theorem slash_notMem_encode (value : String) : '/' ∉ (encode value).toList :=
  delimiterSafe_encode.notMem value '/' (by decide)

theorem encode_eq_empty_iff {value : String} : (encode value).toList = [] ↔ value = "" := by
  rw [String.toList_eq_nil_iff, delimiterSafe_encode.empty_iff]

end Segment

end UrlRouting
