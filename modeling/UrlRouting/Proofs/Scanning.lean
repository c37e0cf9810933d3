import UrlRouting.Pattern.Token

/-! # Scanning and writing

Scanning a text gives the one canonical token sequence that writes it, if there is one.

* `Token.Canonical`: the sequences in which literals are not empty, hold no brace or bracket and do
  not touch, and names are made of ASCII letters and digits.
* `Token.first?_eq_some_iff`: the first token of a text is the well-formed one that begins it, a
  literal being as long as possible.
* `Token.scanFrom_eq_ok_iff`: the scanner inverts the writer, on characters and from any offset.
* `Token.scan_eq_ok_iff`: the same for patterns. -/

namespace UrlRouting

namespace Token

/-! ### Canonical sequences -/

/-- The characters that do not occur in literals. -/
def reserved : List Char := ['{', '}', '[', ']']

/-- The name of a placeholder: one or more ASCII letters and digits. -/
def IsName (name : String) : Prop := name ≠ "" ∧ ∀ c ∈ name.toList, c.isAlphanum = true

/-- The text of a literal: one or more characters that are neither braces nor brackets. -/
def IsText (text : String) : Prop := text ≠ "" ∧ ∀ c ∈ text.toList, c ∉ reserved

/-- A token that can occur in a scanned pattern. -/
def WellFormed : Token → Prop
  | literal text => IsText text
  | placeholder name => IsName name
  | groupOpen => True
  | groupClose => True

/-- Well-formed tokens of which no two neighbours are literals. -/
structure Canonical (tokens : List Token) : Prop where
  wellFormed : ∀ token ∈ tokens, token.WellFormed
  apart : ∀ {front rest : List Token} {first second : String},
    tokens ≠ front ++ literal first :: literal second :: rest

/-- The token is a literal. -/
def isLiteral : Token → Bool
  | literal _ => true
  | _ => false

theorem canonical_nil : Canonical [] := by
  refine ⟨fun token hm => absurd hm List.not_mem_nil, ?_⟩
  intro front rest first second h
  cases front <;> cases h

theorem canonical_cons_iff {token : Token} {rest : List Token} :
    Canonical (token :: rest) ↔
      token.WellFormed ∧ (token.isLiteral = true → ∀ next ∈ rest.head?, next.isLiteral = false) ∧
        Canonical rest := by
  constructor
  · rintro ⟨hw, ha⟩
    refine ⟨hw token List.mem_cons_self, ?_, fun other hm => hw other (List.mem_cons_of_mem _ hm), ?_⟩
    · intro hl next hn
      cases token with
      | literal first =>
          cases next with
          | literal second =>
              obtain ⟨tail, rfl⟩ := List.head?_eq_some_iff.mp hn
              exact absurd (List.nil_append _).symm ha
          | _ => rfl
      | _ => cases hl
    · rintro front tail first second rfl
      exact ha (List.cons_append).symm
  · rintro ⟨ht, hl, hw, ha⟩
    refine ⟨List.forall_mem_cons.mpr ⟨ht, hw⟩, ?_⟩
    intro front tail first second h
    cases front with
    | nil =>
        rw [List.nil_append, List.cons.injEq] at h
        obtain ⟨rfl, rfl⟩ := h
        cases hl rfl _ rfl
    | cons other front =>
        rw [List.cons_append, List.cons.injEq] at h
        exact ha h.2

theorem canonical_append_close_iff {front rest : List Token} :
    Canonical (front ++ groupClose :: rest) ↔ Canonical front ∧ Canonical rest := by
  induction front with
  | nil => simp [canonical_cons_iff, canonical_nil, WellFormed, isLiteral]
  | cons token front ih =>
      rw [List.cons_append, canonical_cons_iff, canonical_cons_iff, ih]
      cases front with
      | nil => simp [isLiteral, and_assoc]
      | cons next front => simp only [List.cons_append, List.head?_cons, and_assoc]

/-! ### Characters -/

/-- The characters of a token sequence. -/
def chars (tokens : List Token) : List Char := tokens.flatMap fun token => token.write.toList

theorem toList_writeAll (tokens : List Token) : (writeAll tokens).toList = chars tokens := by
  rw [writeAll, String.toList_join, List.flatMap_map]
  rfl

theorem chars_cons (token : Token) (rest : List Token) :
    chars (token :: rest) = token.write.toList ++ chars rest := List.flatMap_cons

theorem chars_append (front rest : List Token) : chars (front ++ rest) = chars front ++ chars rest :=
  List.flatMap_append

theorem toList_write_placeholder (name : String) :
    (placeholder name).write.toList = '{' :: (name.toList ++ ['}']) := by
  rw [write, String.toList_append, String.toList_append, List.append_assoc]
  rfl

theorem isPlain_iff {c : Char} : isPlain c = true ↔ c ∉ reserved := by
  simp [isPlain, reserved, and_assoc]

/-- The longest start of a text that satisfies a condition, and the rest. -/
theorem takeWhile_dropWhile_eq_iff {α : Type} {p : α → Bool} {text run rest : List α} :
    (text.takeWhile p = run ∧ text.dropWhile p = rest) ↔
      text = run ++ rest ∧ (∀ c ∈ run, p c = true) ∧ ∀ c ∈ rest.head?, p c = false := by
  constructor
  · rintro ⟨rfl, rfl⟩
    refine ⟨List.takeWhile_append_dropWhile.symm, ?_, ?_⟩
    · exact List.all_eq_true.mp List.all_takeWhile
    · intro c hc
      have hnot := List.head?_dropWhile_not p text
      rwa [hc] at hnot
  · rintro ⟨rfl, hrun, hrest⟩
    rw [List.takeWhile_append_of_pos hrun, List.dropWhile_append_of_pos hrun]
    cases rest with
    | nil => exact ⟨List.append_nil run, rfl⟩
    | cons c rest => simp [hrest c rfl]

/-! ### The first token -/

theorem placeholderEnd?_eq_some_iff {text rest : List Char} {token : Token} :
    placeholderEnd? text = some (token, rest) ↔
      ∃ name, token = placeholder name ∧ IsName name ∧ text = name.toList ++ '}' :: rest := by
  constructor
  · intro h
    unfold placeholderEnd? at h
    split at h
    · cases h
    · next c after hd =>
      split at h
      · next hc =>
        cases h
        obtain ⟨ht, hname, -⟩ := takeWhile_dropWhile_eq_iff.mp ⟨rfl, hd⟩
        refine ⟨_, rfl, ⟨?_, ?_⟩, ?_⟩
        · rw [ne_eq, ← String.toList_eq_nil_iff, String.toList_ofList]
          exact hc.2
        · rwa [String.toList_ofList]
        · rw [String.toList_ofList, ← hc.1]
          exact ht
      · cases h
  · rintro ⟨name, rfl, ⟨hne, hname⟩, ht⟩
    have hend : ∀ c ∈ ('}' :: rest).head?, c.isAlphanum = false := by
      intro c hc
      cases hc
      rfl
    obtain ⟨hrun, hd⟩ := takeWhile_dropWhile_eq_iff.mpr ⟨ht, hname, hend⟩
    rw [ne_eq, ← String.toList_eq_nil_iff] at hne
    unfold placeholderEnd?
    rw [hd, hrun]
    simp [hne]

theorem first?_plain {c : Char} (hc : isPlain c = true) (tail : List Char) :
    first? (c :: tail) =
      some (literal (String.ofList (c :: tail.takeWhile isPlain)), tail.dropWhile isPlain) := by
  rw [isPlain_iff, reserved] at hc
  simp only [List.mem_cons, List.not_mem_nil, or_false, not_or] at hc
  obtain ⟨h1, h2, h3, h4⟩ := hc
  rw [first?, if_neg h3, if_neg h4, if_neg h1, if_neg h2]

theorem isText_iff {text : String} :
    IsText text ↔ ∃ c run, text = String.ofList (c :: run) ∧ isPlain c = true ∧
      ∀ d ∈ run, isPlain d = true := by
  rw [IsText, ne_eq, ← String.toList_eq_nil_iff]
  constructor
  · rintro ⟨hne, ht⟩
    obtain ⟨c, run, hl⟩ := List.exists_cons_of_ne_nil hne
    refine ⟨c, run, ?_, ?_⟩
    · rw [← hl, String.ofList_toList]
    · have hall : ∀ d ∈ c :: run, isPlain d = true :=
        fun d hd => isPlain_iff.mpr (ht d (hl ▸ hd))
      exact List.forall_mem_cons.mp hall
  · rintro ⟨c, run, rfl, hc, hrun⟩
    have hall : ∀ d ∈ c :: run, isPlain d = true := List.forall_mem_cons.mpr ⟨hc, hrun⟩
    rw [String.toList_ofList]
    exact ⟨List.cons_ne_nil c run, fun d hd => isPlain_iff.mp (hall d hd)⟩

/-- The first token is the well-formed one that begins the text; a literal ends where a brace, a
bracket or the end of the text follows. -/
theorem first?_eq_some_iff {text rest : List Char} {token : Token} :
    first? text = some (token, rest) ↔
      token.WellFormed ∧ text = token.write.toList ++ rest ∧
        (token.isLiteral = true → ∀ c ∈ rest.head?, isPlain c = false) := by
  constructor
  · intro h
    cases text with
    | nil => cases h
    | cons c tail =>
        by_cases hc : isPlain c = true
        · rw [first?_plain hc] at h
          cases h
          obtain ⟨ht, hrun, hend⟩ := takeWhile_dropWhile_eq_iff.mp
            (show tail.takeWhile isPlain = _ ∧ tail.dropWhile isPlain = _ from ⟨rfl, rfl⟩)
          refine ⟨isText_iff.mpr ⟨c, _, rfl, hc, hrun⟩, ?_, fun _ => hend⟩
          rw [write, String.toList_ofList, List.cons_append, ← ht]
        · rw [first?] at h
          split at h
          · next ho =>
            cases h
            exact ⟨trivial, ho ▸ rfl, fun hl => absurd hl Bool.false_ne_true⟩
          split at h
          · next ho =>
            cases h
            exact ⟨trivial, ho ▸ rfl, fun hl => absurd hl Bool.false_ne_true⟩
          split at h
          · next ho =>
            obtain ⟨name, rfl, hn, rfl⟩ := placeholderEnd?_eq_some_iff.mp h
            refine ⟨hn, ?_, fun hl => absurd hl Bool.false_ne_true⟩
            rw [toList_write_placeholder, ho]
            simp
          · split at h
            · cases h
            · next h1 h2 h3 h4 => exact absurd (by simp [isPlain, h1, h2, h3, h4]) hc
  · rintro ⟨hw, rfl, hend⟩
    cases token with
    | literal text =>
        obtain ⟨c, run, rfl, hc, hrun⟩ := isText_iff.mp hw
        obtain ⟨ht, hd⟩ := takeWhile_dropWhile_eq_iff.mpr ⟨rfl, hrun, hend rfl⟩
        rw [write, String.toList_ofList, List.cons_append, first?_plain hc, ht, hd]
    | placeholder name =>
        rw [toList_write_placeholder]
        exact placeholderEnd?_eq_some_iff.mpr ⟨name, rfl, hw, by simp⟩
    | groupOpen => rfl
    | groupClose => rfl

/-! ### Whole texts -/

theorem head?_chars {tokens : List Token} (h : Canonical tokens) :
    (∀ c ∈ (chars tokens).head?, isPlain c = false) ↔
      ∀ token ∈ tokens.head?, token.isLiteral = false := by
  cases tokens with
  | nil => simp [chars]
  | cons token rest =>
      obtain ⟨hw, -⟩ := canonical_cons_iff.mp h
      rw [chars_cons]
      cases token with
      | literal text =>
          obtain ⟨c, run, rfl, hc, -⟩ := isText_iff.mp hw
          simp [write, isLiteral, hc]
      | placeholder name =>
          rw [toList_write_placeholder]
          simp [isLiteral, isPlain]
      | groupOpen => simp [write, isLiteral, isPlain]
      | groupClose => simp [write, isLiteral, isPlain]

theorem scanFrom_of_first? {offset : Nat} {text rest : List Char} {token : Token}
    (h : first? text = some (token, rest)) :
    scanFrom offset text =
      (scanFrom (offset + token.write.utf8ByteSize) rest).map (token :: ·) := by
  cases text with
  | nil => cases h
  | cons c tail =>
      rw [scanFrom]
      split
      · next hn => rw [h] at hn; cases hn
      · next found after hs =>
        rw [h] at hs
        cases hs
        cases scanFrom (offset + token.write.utf8ByteSize) rest <;> rfl

theorem scanFrom_of_first?_eq_none {offset : Nat} {text : List Char} (hne : text ≠ [])
    (h : first? text = none) : scanFrom offset text = .error (.malformedPlaceholder offset) := by
  cases text with
  | nil => exact absurd rfl hne
  | cons c tail =>
      rw [scanFrom]
      split
      · rfl
      · next found after hs => rw [h] at hs; cases hs

theorem scanFrom_eq_ok_nil_iff {offset : Nat} {text : List Char} :
    scanFrom offset text = .ok [] ↔ text = [] := by
  constructor
  · intro h
    cases hf : first? text with
    | none =>
        by_cases ht : text = []
        · exact ht
        · rw [scanFrom_of_first?_eq_none ht hf] at h
          cases h
    | some found =>
        rw [scanFrom_of_first? hf] at h
        cases hs : scanFrom (offset + found.1.write.utf8ByteSize) found.2 with
        | error fault => rw [hs] at h; cases h
        | ok tokens => rw [hs] at h; cases h
  · rintro rfl
    rw [scanFrom]

theorem scanFrom_eq_ok_cons_iff {offset : Nat} {text : List Char} {token : Token}
    {later : List Token} :
    scanFrom offset text = .ok (token :: later) ↔
      ∃ rest, first? text = some (token, rest) ∧
        scanFrom (offset + token.write.utf8ByteSize) rest = .ok later := by
  constructor
  · intro h
    cases hf : first? text with
    | none =>
        by_cases ht : text = []
        · rw [ht, scanFrom] at h
          cases h
        · rw [scanFrom_of_first?_eq_none ht hf] at h
          cases h
    | some found =>
        obtain ⟨head, rest⟩ := found
        rw [scanFrom_of_first? hf] at h
        cases hs : scanFrom (offset + head.write.utf8ByteSize) rest with
        | error fault => rw [hs] at h; cases h
        | ok tokens =>
            rw [hs] at h
            cases h
            exact ⟨rest, rfl, hs⟩
  · rintro ⟨rest, hf, hs⟩
    rw [scanFrom_of_first? hf, hs]
    rfl

/-- The scanner inverts the writer: it finds the canonical sequence of a text. -/
theorem scanFrom_eq_ok_iff {offset : Nat} {text : List Char} {tokens : List Token} :
    scanFrom offset text = .ok tokens ↔ text = chars tokens ∧ Canonical tokens := by
  induction tokens generalizing offset text with
  | nil =>
      rw [scanFrom_eq_ok_nil_iff]
      exact ⟨fun h => ⟨h, canonical_nil⟩, And.left⟩
  | cons token later ih =>
      rw [scanFrom_eq_ok_cons_iff, canonical_cons_iff, chars_cons]
      constructor
      · rintro ⟨rest, hf, hs⟩
        obtain ⟨rfl, hc⟩ := ih.mp hs
        obtain ⟨hw, ht, hend⟩ := first?_eq_some_iff.mp hf
        exact ⟨ht, hw, fun hl => (head?_chars hc).mp (hend hl), hc⟩
      · rintro ⟨rfl, hw, hend, hc⟩
        refine ⟨chars later, first?_eq_some_iff.mpr ⟨hw, rfl, ?_⟩, ih.mpr ⟨rfl, hc⟩⟩
        exact fun hl => (head?_chars hc).mpr (hend hl)

/-- **Scanning inverts writing.** A pattern is scanned as the canonical token sequence that writes
it; in particular a canonical sequence is scanned from its own text. -/
theorem scan_eq_ok_iff {pattern : String} {tokens : List Token} :
    scan pattern = .ok tokens ↔ writeAll tokens = pattern ∧ Canonical tokens := by
  rw [scan, scanFrom_eq_ok_iff, ← toList_writeAll, String.toList_inj, eq_comm]

end Token

end UrlRouting
