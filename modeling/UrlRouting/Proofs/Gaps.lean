import UrlRouting.Proofs.Strays

/-! # Scanning from part to part

The brackets and placeholders of a pattern are its parts. A pattern can be scanned by going from one
part to the next and reading each gap between them as a literal; a brace that is left in a gap is
the fault.

* `Token.leftmost?_eq_some`, `Token.leftmost?_eq_none`: no part begins in the gap before the
  leftmost one, nor in a text without parts.
* `Token.scanFrom_gap`: the scanner crosses a gap as the gap is read.
* `Token.scanGaps_eq_scanFrom`: going from part to part gives the tokens, or the fault, of the
  scanner.
* `Token.scan_eq_error_iff`: the fault of a pattern is its leftmost stray brace, with its offset in
  bytes. -/

namespace UrlRouting.Token

/-! ### Parts and gaps -/

/-- The bracket or placeholder that begins a text, and what follows it. -/
def part? (text : List Char) : Option (Token × List Char) :=
  (first? text).filter fun found => !found.1.isLiteral

/-- The leftmost part of a text, with the gap before it and the rest behind it. -/
def leftmost? : List Char → Option (List Char × Token × List Char)
  | [] => none
  | c :: tail =>
    match part? (c :: tail) with
    | some (part, rest) => some ([], part, rest)
    | none => (leftmost? tail).map fun found => (c :: found.1, found.2)

/-- The character is a brace. -/
def isBrace (c : Char) : Bool := c = '{' || c = '}'

/-- The tokens of a text without parts and braces: one literal, or none for the empty text. -/
def literals (text : List Char) : List Token :=
  if text = [] then [] else [literal (String.ofList text)]

/-- The tokens of the gap that begins at a byte offset. Its first brace belongs to no placeholder. -/
def readGap (offset : Nat) (gap : List Char) : Except PatternError (List Token) :=
  match gap.dropWhile fun c => !isBrace c with
  | [] => .ok (literals gap)
  | _ :: _ =>
    .error (.malformedPlaceholder
      (offset + (String.ofList (gap.takeWhile fun c => !isBrace c)).utf8ByteSize))

theorem part?_eq_some_iff {text rest : List Char} {part : Token} :
    part? text = some (part, rest) ↔ first? text = some (part, rest) ∧ part.isLiteral = false := by
  rw [part?, Option.filter_eq_some_iff, Bool.not_eq_true']

theorem part?_eq_none_iff {text : List Char} :
    part? text = none ↔
      ∀ part rest, first? text = some (part, rest) → part.isLiteral = true := by
  rw [part?, Option.filter_eq_none_iff, Prod.forall]
  simp only [Bool.not_eq_true', Bool.not_eq_false]

/-- No part begins in the gap before the text `rest`. -/
def PartFree (gap rest : List Char) : Prop :=
  ∀ tail, tail <:+ gap → tail ≠ [] → part? (tail ++ rest) = none

theorem partFree_nil (rest : List Char) : PartFree [] rest :=
  fun _ hs hne => absurd (List.suffix_nil.mp hs) hne

theorem PartFree.cons {c : Char} {gap rest : List Char} (hc : part? (c :: gap ++ rest) = none)
    (h : PartFree gap rest) : PartFree (c :: gap) rest := by
  intro tail hs hne
  rcases List.suffix_cons_iff.mp hs with rfl | hs
  · exact hc
  · exact h tail hs hne

theorem leftmost?_eq_some {text gap rest : List Char} {part : Token}
    (h : leftmost? text = some (gap, part, rest)) :
    ∃ tail, text = gap ++ tail ∧ part? tail = some (part, rest) ∧ PartFree gap tail := by
  induction text generalizing gap with
  | nil => cases h
  | cons c text ih =>
      rw [leftmost?] at h
      split at h
      · next hp =>
        cases h
        exact ⟨c :: text, rfl, hp, partFree_nil _⟩
      · next hp =>
        obtain ⟨⟨between, found⟩, hf, he⟩ := Option.map_eq_some_iff.mp h
        cases he
        obtain ⟨tail, rfl, ht, hfree⟩ := ih hf
        exact ⟨tail, rfl, ht, hfree.cons hp⟩

theorem leftmost?_eq_none {text : List Char} (h : leftmost? text = none) : PartFree text [] := by
  induction text with
  | nil => exact partFree_nil []
  | cons c text ih =>
      rw [leftmost?] at h
      split at h
      · cases h
      · next hp =>
        refine (ih (Option.map_eq_none_iff.mp h)).cons ?_
        rwa [List.append_nil]

theorem length_lt_of_leftmost? {text gap rest : List Char} {part : Token}
    (h : leftmost? text = some (gap, part, rest)) : rest.length < text.length := by
  obtain ⟨tail, rfl, ht, -⟩ := leftmost?_eq_some h
  have hlt := length_lt_of_first? (part?_eq_some_iff.mp ht).1
  rw [List.length_append]
  omega

/-- The tokens of the part of a pattern that begins at a byte offset, found part by part. -/
def scanGaps (offset : Nat) (text : List Char) : Except PatternError (List Token) :=
  match _h : leftmost? text with
  | none => readGap offset text
  | some (gap, part, rest) => do
    let before ← readGap offset gap
    let later ←
      scanGaps (offset + (String.ofList gap).utf8ByteSize + part.write.utf8ByteSize) rest
    return before ++ part :: later
termination_by text.length
decreasing_by exact length_lt_of_leftmost? _h

/-! ### The scanner on a gap -/

/-- Where no part begins, a character that is not a brace belongs to a literal. -/
theorem isPlain_of_part?_eq_none {c : Char} {tail : List Char} (h : part? (c :: tail) = none) :
    isPlain c = !isBrace c := by
  rw [part?_eq_none_iff] at h
  have hopen : c ≠ '[' := by
    rintro rfl
    cases h groupOpen tail rfl
  have hclose : c ≠ ']' := by
    rintro rfl
    cases h groupClose tail rfl
  simp [isPlain, isBrace, hopen, hclose]

theorem first?_eq_none_of_isBrace {c : Char} {tail : List Char} (h : part? (c :: tail) = none)
    (hc : isBrace c = true) : first? (c :: tail) = none := by
  cases hf : first? (c :: tail) with
  | none => rfl
  | some found =>
      have hp := isPlain_of_part?_eq_none h
      obtain ⟨hw, ht, -⟩ := first?_eq_some_iff.mp hf
      have hl := part?_eq_none_iff.mp h found.1 found.2 hf
      cases hfound : found.1 with
      | literal text =>
          rw [hfound] at hw ht
          obtain ⟨d, run, rfl, hd, -⟩ := isText_iff.mp hw
          rw [write, String.toList_ofList, List.cons_append] at ht
          rw [(List.cons.inj ht).1, hd, ← (List.cons.inj ht).1, hc] at hp
          cases hp
      | _ => rw [hfound] at hl; cases hl

theorem scanFrom_run {run rest : List Char} (hrun : ∀ c ∈ run, isPlain c = true)
    (hrest : ∀ c ∈ rest.head?, isPlain c = false) (offset : Nat) :
    scanFrom offset (run ++ rest) =
      (scanFrom (offset + (String.ofList run).utf8ByteSize) rest).map (literals run ++ ·) := by
  cases run with
  | nil =>
      have hid : (literals [] ++ · : List Token → List Token) = id := rfl
      rw [hid, Except.map_id]
      rfl
  | cons c run =>
      have hw : (literal (String.ofList (c :: run))).WellFormed :=
        isText_iff.mpr ⟨c, run, rfl, List.forall_mem_cons.mp hrun⟩
      have hf : first? (c :: run ++ rest) = some (literal (String.ofList (c :: run)), rest) := by
        rw [first?_eq_some_iff, write, String.toList_ofList]
        exact ⟨hw, rfl, fun _ => hrest⟩
      rw [scanFrom_of_first? hf]
      rfl

theorem not_isPlain_of_part? {text rest : List Char} {part : Token}
    (h : part? text = some (part, rest)) : ∀ c ∈ text.head?, isPlain c = false := by
  intro c hc
  obtain ⟨tail, rfl⟩ := List.head?_eq_some_iff.mp hc
  obtain ⟨hf, hl⟩ := part?_eq_some_iff.mp h
  cases hp : isPlain c with
  | false => rfl
  | true =>
      rw [first?_plain hp] at hf
      cases hf
      cases hl

/-- The scanner crosses the gap before a part, or at the end, as the gap is read. -/
theorem scanFrom_gap {gap rest : List Char} (hfree : PartFree gap rest)
    (hrest : ∀ c ∈ rest.head?, isPlain c = false) (offset : Nat) :
    scanFrom offset (gap ++ rest) = do
      let before ← readGap offset gap
      let later ← scanFrom (offset + (String.ofList gap).utf8ByteSize) rest
      return before ++ later := by
  obtain ⟨run, hrun⟩ : ∃ run, gap.takeWhile (fun c => !isBrace c) = run := ⟨_, rfl⟩
  obtain ⟨behind, hbehind⟩ : ∃ behind, gap.dropWhile (fun c => !isBrace c) = behind := ⟨_, rfl⟩
  obtain ⟨hgap, hnot, hhead⟩ := takeWhile_dropWhile_eq_iff.mp ⟨hrun, hbehind⟩
  have hplain : ∀ c ∈ run, isPlain c = true := by
    intro c hc
    obtain ⟨front, between, rfl⟩ := List.append_of_mem hc
    have hsuffix : c :: between ++ behind <:+ gap := by
      rw [hgap, List.append_assoc]
      exact List.suffix_append front _
    rw [isPlain_of_part?_eq_none (hfree _ hsuffix (List.cons_ne_nil _ _))]
    exact hnot c hc
  rw [readGap, hbehind, hrun]
  cases behind with
  | nil =>
      -- the whole gap is a literal
      rw [List.append_nil] at hgap
      rw [hgap, scanFrom_run hplain hrest]
      cases scanFrom (offset + (String.ofList run).utf8ByteSize) rest <;> rfl
  | cons c behind =>
      have hc : isBrace c = true := by simpa using hhead c rfl
      have hne : c :: behind ++ rest ≠ [] := List.cons_ne_nil _ _
      have hnone : part? (c :: behind ++ rest) = none :=
        hfree _ (hgap ▸ List.suffix_append run _) (List.cons_ne_nil _ _)
      have hstop : ∀ d ∈ (c :: behind ++ rest).head?, isPlain d = false := by
        intro d hd
        cases hd
        rw [isPlain_of_part?_eq_none hnone, hc]
        rfl
      rw [hgap, List.append_assoc, scanFrom_run hplain hstop,
        scanFrom_of_first?_eq_none hne (first?_eq_none_of_isBrace hnone hc)]
      rfl

/-- Going from part to part gives what the scanner gives. -/
theorem scanGaps_eq_scanFrom (offset : Nat) (text : List Char) :
    scanGaps offset text = scanFrom offset text := by
  induction offset, text using scanGaps.induct with
  | case1 offset text hl =>
      have hgap := scanFrom_gap (leftmost?_eq_none hl) (by simp) offset
      rw [List.append_nil] at hgap
      rw [scanGaps, hgap]
      split
      · rw [scanFrom]
        cases readGap offset text with
        | error fault => rfl
        | ok before => exact congrArg Except.ok (List.append_nil before).symm
      · next h => rw [hl] at h; cases h
  | case2 offset text gap part rest hl ih =>
      obtain ⟨tail, rfl, ht, hfree⟩ := leftmost?_eq_some hl
      rw [scanFrom_gap hfree (not_isPlain_of_part? ht),
        scanFrom_of_first? (part?_eq_some_iff.mp ht).1, scanGaps]
      split
      · next h => rw [hl] at h; cases h
      · next h =>
        rw [hl] at h
        cases h
        rw [ih]
        cases readGap offset gap with
        | error fault => rfl
        | ok before =>
            cases scanFrom (offset + (String.ofList gap).utf8ByteSize + part.write.utf8ByteSize) rest
              <;> rfl

/-- **The fault of a pattern is its leftmost stray brace.** A pattern is refused if one of its
braces lies in no placeholder, and only then. The fault is the number of bytes before the leftmost
such brace, whatever brackets and placeholders stand around it. Going from part to part, where a
brace shows only as what is left in a gap, finds the same one. -/
theorem scan_eq_error_iff (pattern : String) :
    scanGaps 0 pattern.toList = scan pattern ∧
      ((∃ fault, scan pattern = .error fault) ↔ HasStray pattern.toList) ∧
      ∀ fault, scan pattern = .error fault ↔
        ∃ before c after, pattern.toList = before ++ c :: after ∧ FirstStray before c after ∧
          fault = .malformedPlaceholder (String.ofList before).utf8ByteSize := by
  have hfault : ∀ fault, scan pattern = .error fault ↔
      ∃ before c after, pattern.toList = before ++ c :: after ∧ FirstStray before c after ∧
        fault = .malformedPlaceholder (String.ofList before).utf8ByteSize := by
    intro fault
    unfold scan
    rw [scanFrom_eq_error_iff]
    simp only [Nat.zero_add]
  refine ⟨scanGaps_eq_scanFrom 0 _, ?_, hfault⟩
  rw [hasStray_iff]
  constructor
  · intro h
    obtain ⟨fault, hs⟩ := h
    obtain ⟨before, c, after, -, -, rfl⟩ := (hfault fault).mp hs
    exact ⟨_, hs⟩
  · intro h
    obtain ⟨offset, hs⟩ := h
    exact ⟨_, hs⟩

/-- The first `{` is stray although a name follows it; `é` has two bytes. -/
example : scan "é]{a{b[}c}" = .error (.malformedPlaceholder 3) := by cbv

end UrlRouting.Token
