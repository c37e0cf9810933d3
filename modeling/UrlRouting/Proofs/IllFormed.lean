import Mathlib.Data.List.Induction
import Mathlib.Tactic.ByContra
import Mathlib.Tactic.SplitIfs
import UrlRouting.Proofs.Utf8

/-! # Reading ill-formed bytes

The reader of arbitrary bytes keeps every character that the bytes hold and puts one replacement
character for each maximal ill-formed part.

* `Utf8.IsMaximalPart` and `Utf8.Lossy` say so without the reader, in terms of the forms of
  characters alone.
* `Utf8.exists_char_of_lead`: what the table of first bytes admits is the form of a character.
* `Utf8.Leaves` is the invariant of the reader inside a character. The bytes read so far begin some
  character (`Leaves.exists_char`), and every beginning of a character is read this way
  (`leaves_of_char`), so a byte that the reader does not admit ends a maximal part.
* `Utf8.lossy_iff`: the reader gives the one text that is the lossy reading of its input. -/

namespace UrlRouting.Utf8

variable {b : UInt8} {part rest tail : List UInt8} {pending : Unfinished} {c : Char}

/-! ### The rule -/

/-- The bytes begin the form of some character, or are all of it. -/
def Begins (part : List UInt8) : Prop := ∃ c, part <+: String.utf8EncodeChar c

/-- In front of `part ++ rest` there is no character, and `part` is the longest beginning of a
character there, or one byte if no character begins so. -/
structure IsMaximalPart (part rest : List UInt8) : Prop where
  ne_nil : part ≠ []
  noChar : ∀ c, ¬ String.utf8EncodeChar c <+: part ++ rest
  begins : Begins part ∨ part.length = 1
  longest : ∀ longer, longer <+: part ++ rest → part.length < longer.length → ¬ Begins longer

/-- The text is what the bytes hold, read from left to right: each character in its place, and one
replacement character in the place of each maximal ill-formed part. -/
inductive Lossy : List UInt8 → List Char → Prop
  | nil : Lossy [] []
  | char {rest : List UInt8} {text : List Char} (c : Char) (h : Lossy rest text) :
      Lossy (String.utf8EncodeChar c ++ rest) (c :: text)
  | illFormed {part rest : List UInt8} {text : List Char} (hp : IsMaximalPart part rest)
      (h : Lossy rest text) : Lossy (part ++ rest) (replacement :: text)

/-! ### What the table of first bytes admits -/

theorem contains_iff {range : ByteRange} :
    range.contains b = true ↔ range.low.toNat ≤ b.toNat ∧ b.toNat ≤ range.high.toNat := by
  simp [ByteRange.contains, UInt8.le_iff_toNat_le]

theorem toNat_val_ofNat {v : Nat} (h : v.isValidChar) : (Char.ofNat v).val.toNat = v := by
  rw [Char.ofNat, dif_pos h]
  rfl

theorem utf8EncodeChar_of_lead (h : lead b = .single c) : String.utf8EncodeChar c = [b] := by
  unfold lead at h
  split_ifs at h with hb
  cases h
  simp only [UInt8.le_iff_toNat_le, UInt8.reduceToNat] at hb
  unfold String.utf8EncodeChar
  rw [toNat_val_ofNat (by left; omega), if_pos hb, UInt8.ofNat_toNat]

section forms

variable {first second third fourth : UInt8}

theorem exists_char_two (hf : 0xC2 ≤ first.toNat ∧ first.toNat ≤ 0xDF)
    (hs : 0x80 ≤ second.toNat ∧ second.toNat ≤ 0xBF) :
    ∃ c, String.utf8EncodeChar c = [first, second] := by
  obtain ⟨v, hv⟩ : ∃ v, v = 64 * (first.toNat - 0xC0) + (second.toNat - 0x80) := ⟨_, rfl⟩
  refine ⟨Char.ofNat v, ?_⟩
  have hfirst : v / 64 % 0x20 + 0xC0 = first.toNat := by omega
  have hsecond : v % 0x40 + 0x80 = second.toNat := by omega
  unfold String.utf8EncodeChar
  rw [toNat_val_ofNat (by left; omega), if_neg (by omega), if_pos (by omega), hfirst, hsecond,
    UInt8.ofNat_toNat, UInt8.ofNat_toNat]

theorem exists_char_three (hf : 0xE0 ≤ first.toNat ∧ first.toNat ≤ 0xEF)
    (hs : 0x80 ≤ second.toNat ∧ second.toNat ≤ 0xBF)
    (hshort : first.toNat = 0xE0 → 0xA0 ≤ second.toNat)
    (hsurrogate : first.toNat = 0xED → second.toNat ≤ 0x9F)
    (ht : 0x80 ≤ third.toNat ∧ third.toNat ≤ 0xBF) :
    ∃ c, String.utf8EncodeChar c = [first, second, third] := by
  obtain ⟨v, hv⟩ : ∃ v, v =
    4096 * (first.toNat - 0xE0) + 64 * (second.toNat - 0x80) + (third.toNat - 0x80) := ⟨_, rfl⟩
  have hvalid : v.isValidChar := by
    unfold Nat.isValidChar
    omega
  refine ⟨Char.ofNat v, ?_⟩
  have hfirst : v / 4096 % 0x10 + 0xE0 = first.toNat := by omega
  have hsecond : v / 64 % 0x40 + 0x80 = second.toNat := by omega
  have hthird : v % 0x40 + 0x80 = third.toNat := by omega
  unfold String.utf8EncodeChar
  rw [toNat_val_ofNat hvalid, if_neg (by omega), if_neg (by omega), if_pos (by omega), hfirst,
    hsecond, hthird, UInt8.ofNat_toNat, UInt8.ofNat_toNat, UInt8.ofNat_toNat]

theorem exists_char_four (hf : 0xF0 ≤ first.toNat ∧ first.toNat ≤ 0xF4)
    (hs : 0x80 ≤ second.toNat ∧ second.toNat ≤ 0xBF)
    (hshort : first.toNat = 0xF0 → 0x90 ≤ second.toNat)
    (hlarge : first.toNat = 0xF4 → second.toNat ≤ 0x8F)
    (ht : 0x80 ≤ third.toNat ∧ third.toNat ≤ 0xBF)
    (hl : 0x80 ≤ fourth.toNat ∧ fourth.toNat ≤ 0xBF) :
    ∃ c, String.utf8EncodeChar c = [first, second, third, fourth] := by
  obtain ⟨v, hv⟩ : ∃ v, v = 262144 * (first.toNat - 0xF0) + 4096 * (second.toNat - 0x80) +
    64 * (third.toNat - 0x80) + (fourth.toNat - 0x80) := ⟨_, rfl⟩
  have hvalid : v.isValidChar := by
    unfold Nat.isValidChar
    omega
  refine ⟨Char.ofNat v, ?_⟩
  have hfirst : v / 262144 % 0x08 + 0xF0 = first.toNat := by omega
  have hsecond : v / 4096 % 0x40 + 0x80 = second.toNat := by omega
  have hthird : v / 64 % 0x40 + 0x80 = third.toNat := by omega
  have hfourth : v % 0x40 + 0x80 = fourth.toNat := by omega
  unfold String.utf8EncodeChar
  rw [toNat_val_ofNat hvalid, if_neg (by omega), if_neg (by omega), if_neg (by omega), hfirst,
    hsecond, hthird, hfourth, UInt8.ofNat_toNat, UInt8.ofNat_toNat, UInt8.ofNat_toNat,
    UInt8.ofNat_toNat]

end forms

/-- A first byte with the bounds of the second byte, by the number of bytes that follow that one. -/
def Admits (n low high : Nat) : Nat → Prop
  | 0 => 0xC2 ≤ n ∧ n ≤ 0xDF
  | 1 => 0xE0 ≤ n ∧ n ≤ 0xEF ∧ (n = 0xE0 → 0xA0 ≤ low) ∧ (n = 0xED → high ≤ 0x9F)
  | 2 => 0xF0 ≤ n ∧ n ≤ 0xF4 ∧ (n = 0xF0 → 0x90 ≤ low) ∧ (n = 0xF4 → high ≤ 0x8F)
  | _ => False

theorem admits_of_lead (h : lead b = .opens pending) :
    0x80 ≤ pending.next.low.toNat ∧ pending.next.low.toNat ≤ pending.next.high.toNat ∧
      pending.next.high.toNat ≤ 0xBF ∧
      Admits b.toNat pending.next.low.toNat pending.next.high.toNat pending.further := by
  obtain ⟨n, hn, rfl⟩ : ∃ n, n < 256 ∧ UInt8.ofNat n = b :=
    ⟨b.toNat, b.toNat_lt, UInt8.ofNat_toNat⟩
  rw [lead_ofNat hn] at h
  rw [UInt8.toNat_ofNat_of_lt' hn]
  -- the rows that open a character are left
  split_ifs at h <;> simp only [Lead.opens.injEq] at h
  all_goals
    subst h
    simp only [ByteRange.continuation, Admits, UInt8.reduceToNat]
    omega

theorem contains_continuation (hb : ByteRange.continuation.contains b = true) :
    0x80 ≤ b.toNat ∧ b.toNat ≤ 0xBF := contains_iff.mp hb

/-- A first byte, an admitted second byte and as many continuation bytes as are due form a
character. -/
theorem exists_char_of_lead {second : UInt8} (tail : List UInt8) (h : lead b = .opens pending)
    (hs : pending.next.contains second = true)
    (ht : ∀ next ∈ tail, ByteRange.continuation.contains next = true)
    (hl : tail.length = pending.further) : ∃ c, String.utf8EncodeChar c = b :: second :: tail := by
  obtain ⟨hlow, -, hhigh, ha⟩ := admits_of_lead h
  obtain ⟨hslow, hshigh⟩ := contains_iff.mp hs
  rw [← hl] at ha
  match tail, ht with
  | [], _ => exact exists_char_two ha (by omega)
  | [third], ht =>
      have hthird := contains_continuation (ht third (by simp))
      obtain ⟨hfirst, hlast, hshort, hsurrogate⟩ := ha
      exact exists_char_three ⟨hfirst, hlast⟩ (by omega) (by omega) (by omega) hthird
  | [third, fourth], ht =>
      have hthird := contains_continuation (ht third (by simp))
      have hfourth := contains_continuation (ht fourth (by simp))
      obtain ⟨hfirst, hlast, hshort, hlarge⟩ := ha
      exact exists_char_four ⟨hfirst, hlast⟩ (by omega) (by omega) (by omega) hthird hfourth
  | _ :: _ :: _ :: _, _ => exact ha.elim

/-! ### The reader inside a character -/

/-- Reading `part` from the start of a character finishes none and leaves `pending`. -/
inductive Leaves : List UInt8 → Unfinished → Prop
  | lead {b : UInt8} {pending : Unfinished} (h : Utf8.lead b = .opens pending) : Leaves [b] pending
  | more {part : List UInt8} {b : UInt8} {bits further : Nat} {range : ByteRange}
      (h : Leaves part ⟨bits, range, further + 1⟩) (hb : range.contains b = true) :
      Leaves (part ++ [b]) ⟨64 * bits + b.toNat % 64, .continuation, further⟩

theorem Leaves.ne_nil (h : Leaves part pending) : part ≠ [] := by
  cases h <;> simp

theorem Leaves.readFrom_append (h : Leaves part pending) (rest : List UInt8) :
    readFrom none (part ++ rest) = readFrom (some pending) rest := by
  induction h generalizing rest with
  | lead h => exact readFrom_opens h rest
  | more _ hb ih => rw [List.append_assoc, List.singleton_append, ih, readFrom_admitted hb]

theorem Leaves.exists_char (tail : List UInt8) (h : Leaves part pending)
    (hb : pending.next.contains b = true)
    (ht : ∀ next ∈ tail, ByteRange.continuation.contains next = true)
    (hl : tail.length = pending.further) : ∃ c, String.utf8EncodeChar c = part ++ b :: tail := by
  induction h generalizing b tail with
  | lead h => exact exists_char_of_lead tail h hb ht hl
  | more _ hmore ih =>
      rw [List.append_assoc, List.singleton_append]
      refine ih (b :: tail) hmore ?_ ?_
      · intro next hm
        rcases List.mem_cons.mp hm with rfl | hm
        · exact hb
        · exact ht next hm
      · rw [List.length_cons, hl]

theorem Leaves.begins_append (h : Leaves part pending) (hb : pending.next.contains b = true) :
    Begins (part ++ [b]) := by
  obtain ⟨c, hc⟩ := h.exists_char (List.replicate pending.further 0x80) hb
    (fun next hm => List.eq_of_mem_replicate hm ▸ rfl) List.length_replicate
  exact ⟨c, List.replicate pending.further 0x80, by rw [hc]; simp⟩

theorem Leaves.exists_contains (h : Leaves part pending) : ∃ b, pending.next.contains b = true := by
  cases h with
  | lead h => exact ⟨pending.next.low, contains_iff.mpr ⟨Nat.le_refl _, (admits_of_lead h).2.1⟩⟩
  | more => exact ⟨0x80, rfl⟩

theorem Leaves.begins (h : Leaves part pending) : Begins part := by
  obtain ⟨b, hb⟩ := h.exists_contains
  obtain ⟨c, hc⟩ := h.begins_append hb
  exact ⟨c, (List.prefix_append part [b]).trans hc⟩

/-! ### Forms of characters -/

theorem step_ne_nil_none (state : Option Unfinished) (b : UInt8) : step state b ≠ ([], none) := by
  have hstart : start b ≠ ([], none) := by
    unfold start
    cases lead b <;> simp
  cases state with
  | none => exact hstart
  | some pending =>
      simp only [step]
      split
      · cases pending.further <;> simp
      · simp

theorem readFrom_eq_nil {state : Option Unfinished} {input : List UInt8}
    (h : readFrom state input = []) : state = none ∧ input = [] := by
  induction input generalizing state with
  | nil =>
      cases state with
      | none => exact ⟨rfl, rfl⟩
      | some pending => cases h
  | cons b rest ih =>
      have hstep := step_ne_nil_none state b
      cases hs : step state b with
      | mk out after =>
          rw [readFrom, hs] at h
          obtain ⟨rfl, hrest⟩ := List.append_eq_nil_iff.mp h
          obtain ⟨rfl, -⟩ := ih hrest
          exact absurd hs hstep

/-- The form of a character is read as that character. If the reader gives a first character for
it, nothing is left. -/
theorem eq_of_readFrom_form {state : Option Unfinished} {d : Char}
    (h : String.utf8EncodeChar c = part) (hr : readFrom none part = d :: readFrom state rest) :
    d = c ∧ rest = [] := by
  have hc := readFrom_utf8EncodeChar c []
  rw [List.append_nil, h, hr] at hc
  obtain ⟨hd, hrest⟩ := List.cons.inj hc
  exact ⟨hd, (readFrom_eq_nil hrest).2⟩

/-- No form of a character is the beginning of another. -/
theorem eq_nil_of_utf8EncodeChar {d : Char}
    (h : String.utf8EncodeChar d = String.utf8EncodeChar c ++ rest) : rest = [] :=
  (eq_of_readFrom_form h (readFrom_utf8EncodeChar c rest)).2

theorem readFrom_illFormed (h : lead b = .illFormed) (rest : List UInt8) :
    readFrom none (b :: rest) = replacement :: readFrom none rest := by
  rw [readFrom, step, start, h]
  rfl

theorem readFrom_breaks (hb : pending.next.contains b ≠ true) (rest : List UInt8) :
    readFrom (some pending) (b :: rest) = replacement :: readFrom none (b :: rest) := by
  rw [readFrom, step, if_neg hb, readFrom, step]
  rfl

theorem Leaves.contains_of_char (h : Leaves part pending)
    (hc : String.utf8EncodeChar c = part ++ b :: rest) : pending.next.contains b = true := by
  by_contra hb
  have hread := h.readFrom_append (b :: rest)
  rw [readFrom_breaks hb] at hread
  cases (eq_of_readFrom_form hc hread).2

/-- Inside a character of which several bytes are left, the reader is in the middle of it. -/
theorem leaves_of_char (hne : part ≠ []) (hc : String.utf8EncodeChar c = part ++ b :: rest) :
    ∃ pending, Leaves part pending := by
  induction part using List.reverseRecOn generalizing b rest with
  | nil => exact absurd rfl hne
  | append_singleton front last ih =>
      rw [List.append_assoc, List.singleton_append] at hc
      by_cases hf : front = []
      · subst hf
        cases hl : lead last with
        | opens pending => exact ⟨pending, .lead hl⟩
        | single d => cases (eq_of_readFrom_form hc (readFrom_single hl (b :: rest))).2
        | illFormed => cases (eq_of_readFrom_form hc (readFrom_illFormed hl (b :: rest))).2
      · obtain ⟨⟨bits, range, further⟩, hleaves⟩ := ih hf hc
        have hlast := hleaves.contains_of_char hc
        cases further with
        | succ further => exact ⟨_, .more hleaves hlast⟩
        | zero =>
            -- the character would end before its last byte
            have hread := hleaves.readFrom_append (last :: b :: rest)
            rw [readFrom, step, if_pos hlast] at hread
            cases (eq_of_readFrom_form hc hread).2

theorem Leaves.not_prefix (h : Leaves part pending) (c : Char) :
    ¬ String.utf8EncodeChar c <+: part := by
  rintro ⟨more, rfl⟩
  obtain ⟨b, hb⟩ := h.exists_contains
  obtain ⟨d, tail, hd⟩ := h.begins_append hb
  rw [List.append_assoc, List.append_assoc] at hd
  have hnil := eq_nil_of_utf8EncodeChar hd.symm
  simp at hnil

/-! ### Maximal parts -/

/-- The bytes of an unfinished character are a maximal part if they end there or go on with a byte
that is not admitted. -/
theorem Leaves.isMaximalPart (h : Leaves part pending)
    (hr : ∀ b tail, rest = b :: tail → pending.next.contains b ≠ true) :
    IsMaximalPart part rest := by
  -- a beginning of a character that goes beyond the part goes on with an admitted byte
  have hlong : ∀ longer, longer <+: part ++ rest → part.length < longer.length →
      ¬ Begins longer := by
    rintro longer hp hlt ⟨c, more, hc⟩
    obtain ⟨beyond, rfl⟩ := List.prefix_of_prefix_length_le (List.prefix_append part rest) hp
      (Nat.le_of_lt hlt)
    cases beyond with
    | nil => simp at hlt
    | cons b tail =>
        rw [List.prefix_append_right_inj] at hp
        obtain ⟨after, rfl⟩ := hp
        rw [List.append_assoc, List.cons_append] at hc
        exact hr b _ rfl (h.contains_of_char hc.symm)
  refine ⟨h.ne_nil, ?_, .inl h.begins, hlong⟩
  intro c hp
  rcases Nat.lt_or_ge part.length (String.utf8EncodeChar c).length with hlt | hle
  · exact hlong _ hp hlt ⟨c, List.prefix_rfl⟩
  · exact h.not_prefix c (List.prefix_of_prefix_length_le hp (List.prefix_append part rest) hle)

theorem not_begins_of_illFormed (h : lead b = .illFormed) : ¬ Begins [b] := by
  rintro ⟨c, rest, hc⟩
  obtain ⟨rfl, rfl⟩ := eq_of_readFrom_form hc.symm (readFrom_illFormed h rest)
  -- the form of the replacement character itself has three bytes
  have hlength : 1 = 3 := congrArg List.length hc
  cases hlength

theorem Begins.of_prefix {longer : List UInt8} (h : Begins longer) (hp : part <+: longer) :
    Begins part := by
  obtain ⟨c, hc⟩ := h
  exact ⟨c, hp.trans hc⟩

theorem isMaximalPart_of_illFormed (h : lead b = .illFormed) (rest : List UInt8) :
    IsMaximalPart [b] rest := by
  have hno := not_begins_of_illFormed h
  have hfront : ∀ longer, longer <+: [b] ++ rest → longer ≠ [] → ¬ Begins longer := by
    intro longer hp hne hb
    rcases List.prefix_cons_iff.mp hp with rfl | ⟨tail, rfl, -⟩
    · exact hne rfl
    · exact hno (hb.of_prefix (List.prefix_append [b] tail))
  refine ⟨by simp, ?_, .inr rfl, ?_⟩
  · intro c hp
    exact hfront _ hp String.utf8EncodeChar_ne_nil ⟨c, List.prefix_rfl⟩
  · intro longer hp hlt
    refine hfront longer hp ?_
    rintro rfl
    simp at hlt

/-- The reader puts one replacement character for a maximal part and begins anew behind it. -/
theorem IsMaximalPart.readFrom_append (h : IsMaximalPart part rest) :
    readFrom none (part ++ rest) = replacement :: readFrom none rest := by
  by_cases hb : Begins part
  · obtain ⟨c, more, hc⟩ := hb
    cases more with
    | nil =>
        rw [List.append_nil] at hc
        exact absurd (hc ▸ List.prefix_append part rest) (h.noChar c)
    | cons next more =>
        obtain ⟨pending, hl⟩ := leaves_of_char h.ne_nil hc.symm
        rw [hl.readFrom_append]
        cases rest with
        | nil => rfl
        | cons b rest =>
            refine readFrom_breaks (fun hadmitted => ?_) rest
            refine h.longest (part ++ [b]) ⟨rest, ?_⟩ (by simp) (hl.begins_append hadmitted)
            rw [List.append_assoc, List.singleton_append]
  · obtain ⟨b, rfl⟩ := List.length_eq_one_iff.mp (h.begins.resolve_left hb)
    cases hl : lead b with
    | single c => exact absurd ⟨c, utf8EncodeChar_of_lead hl ▸ List.prefix_rfl⟩ hb
    | opens pending => exact absurd (Leaves.lead hl).begins hb
    | illFormed => exact readFrom_illFormed hl rest

/-! ### The whole reading -/

theorem lossy_readFrom (input : List UInt8) :
    Lossy input (readFrom none input) ∧
      ∀ part pending, Leaves part pending →
        Lossy (part ++ input) (readFrom (some pending) input) := by
  induction input with
  | nil =>
      refine ⟨.nil, ?_⟩
      intro part pending h
      refine .illFormed (h.isMaximalPart ?_) .nil
      intro b tail he
      cases he
  | cons b rest ih =>
      obtain ⟨hnone, hsome⟩ := ih
      have hanew : Lossy (b :: rest) (readFrom none (b :: rest)) := by
        cases hl : lead b with
        | single c =>
            rw [readFrom_single hl, ← List.singleton_append, ← utf8EncodeChar_of_lead hl]
            exact .char c hnone
        | opens pending =>
            rw [readFrom_opens hl]
            exact hsome [b] pending (.lead hl)
        | illFormed =>
            rw [readFrom_illFormed hl]
            exact .illFormed (isMaximalPart_of_illFormed hl rest) hnone
      refine ⟨hanew, ?_⟩
      rintro part ⟨bits, range, further⟩ h
      by_cases hb : range.contains b = true
      · cases further with
        | succ further =>
            have hmore := hsome _ _ (.more h hb)
            rwa [List.append_assoc, List.singleton_append, ← readFrom_admitted hb] at hmore
        | zero =>
            obtain ⟨c, hc⟩ := h.exists_char [] hb (List.forall_mem_nil _) rfl
            have hread := readFrom_utf8EncodeChar c rest
            rw [hc, List.append_assoc, List.cons_append, List.nil_append,
              h.readFrom_append] at hread
            rw [hread]
            have hchar := Lossy.char c hnone
            rwa [hc, List.append_assoc, List.cons_append, List.nil_append] at hchar
      · rw [readFrom_breaks hb]
        refine .illFormed (h.isMaximalPart ?_) hanew
        rintro next tail he
        cases he
        exact hb

/-- The reader gives the lossy reading of its input, and there is no other. -/
theorem lossy_iff {input : List UInt8} {text : List Char} :
    Lossy input text ↔ readLossy input = text := by
  constructor
  · intro h
    induction h with
    | nil => rfl
    | char c _ ih =>
        unfold readLossy at ih ⊢
        rw [readFrom_utf8EncodeChar, ih]
    | illFormed hp _ ih =>
        unfold readLossy at ih ⊢
        rw [hp.readFrom_append, ih]
  · rintro rfl
    exact (lossy_readFrom input).1

end UrlRouting.Utf8
