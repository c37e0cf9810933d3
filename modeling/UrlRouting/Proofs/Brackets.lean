import UrlRouting.Proofs.Balance
import UrlRouting.Proofs.Scanning

/-! # Brackets of a text

The check counts the brackets of a token sequence, and these are the brackets of its text.

* `Token.Overclosed`: some start of the text closes more groups than are open.
* `Token.overclosed_chars_iff`, `Token.count_chars`: the brackets of the text are those of the
  tokens.
* `Token.checkBracketsFrom_unopened_iff`, `Token.checkBracketsFrom_unclosed_iff`: the two faults of
  the check as conditions on the text. -/

namespace UrlRouting.Token

/-! ### Counting in a text -/

/-- Some start of the text closes more groups than are open, `level` groups being open before it. -/
def Overclosed (level : Nat) (text : List Char) : Prop :=
  ∃ front, front <+: text ∧ level + front.count '[' < front.count ']'

theorem not_overclosed_nil (level : Nat) : ¬ Overclosed level [] := by
  rintro ⟨front, hp, hlt⟩
  rw [List.prefix_nil.mp hp] at hlt
  exact Nat.not_lt_zero _ hlt

theorem overclosed_cons_iff {level : Nat} {c : Char} {text : List Char} :
    Overclosed level (c :: text) ↔
      ∃ front, front <+: text ∧ level + (c :: front).count '[' < (c :: front).count ']' := by
  constructor
  · rintro ⟨front, hp, hlt⟩
    rcases List.prefix_cons_iff.mp hp with rfl | ⟨tail, rfl, ht⟩
    · exact absurd hlt (Nat.not_lt_zero _)
    · exact ⟨tail, ht, hlt⟩
  · rintro ⟨front, hp, hlt⟩
    exact ⟨c :: front, List.cons_prefix_cons.mpr ⟨rfl, hp⟩, hlt⟩

theorem overclosed_open_iff {level : Nat} {text : List Char} :
    Overclosed level ('[' :: text) ↔ Overclosed (level + 1) text := by
  rw [overclosed_cons_iff, Overclosed]
  simp only [List.count_cons_self, List.count_cons_of_ne (show '[' ≠ ']' by decide),
    Nat.add_assoc, Nat.add_comm 1]

theorem overclosed_close (text : List Char) : Overclosed 0 (']' :: text) :=
  ⟨[']'], List.cons_prefix_cons.mpr ⟨rfl, List.nil_prefix⟩, by decide⟩

theorem overclosed_close_iff {level : Nat} {text : List Char} :
    Overclosed (level + 1) (']' :: text) ↔ Overclosed level text := by
  rw [overclosed_cons_iff, Overclosed]
  simp only [List.count_cons_self, List.count_cons_of_ne (show ']' ≠ '[' by decide),
    Nat.add_right_comm level 1, Nat.add_lt_add_iff_right]

theorem le_of_not_overclosed {level : Nat} {text : List Char} (h : ¬ Overclosed level text) :
    text.count ']' ≤ level + text.count '[' :=
  Nat.le_of_not_lt fun hlt => h ⟨text, List.prefix_rfl, hlt⟩

/-- There is no bracket among the characters. -/
def Bracketless (run : List Char) : Prop := '[' ∉ run ∧ ']' ∉ run

theorem overclosed_append_iff {level : Nat} {run text : List Char} (h : Bracketless run) :
    Overclosed level (run ++ text) ↔ Overclosed level text := by
  induction run with
  | nil => rfl
  | cons c run ih =>
      obtain ⟨ho, hc⟩ := h
      rw [List.mem_cons, not_or] at ho hc
      rw [List.cons_append, overclosed_cons_iff, ← ih ⟨ho.2, hc.2⟩, Overclosed]
      simp only [List.count_cons_of_ne (Ne.symm ho.1), List.count_cons_of_ne (Ne.symm hc.1)]

theorem count_open_append {run text : List Char} (h : Bracketless run) :
    (run ++ text).count '[' = text.count '[' := by
  rw [List.count_append, List.count_eq_zero.mpr h.1, Nat.zero_add]

theorem count_close_append {run text : List Char} (h : Bracketless run) :
    (run ++ text).count ']' = text.count ']' := by
  rw [List.count_append, List.count_eq_zero.mpr h.2, Nat.zero_add]

theorem bracketless_literal {text : String} (h : IsText text) :
    Bracketless (literal text).write.toList :=
  ⟨fun hm => h.2 _ hm (by decide), fun hm => h.2 _ hm (by decide)⟩

theorem bracketless_placeholder {name : String} (h : IsName name) :
    Bracketless (placeholder name).write.toList := by
  rw [toList_write_placeholder]
  constructor
  all_goals
    intro hm
    simp only [List.mem_cons, List.mem_append, List.not_mem_nil, or_false] at hm
    rcases hm with hc | hm | hc
    · cases hc
    · cases h.2 _ hm
    · cases hc

/-! ### The brackets of the tokens -/

/-- The text of a sequence closes too many groups where one of its tokens does. -/
theorem overclosed_chars_iff {tokens : List Token} (hw : ∀ token ∈ tokens, token.WellFormed)
    {level : Nat} : Overclosed level (chars tokens) ↔ ∃ i, ClosesTooMany level tokens i := by
  induction tokens generalizing level with
  | nil => simp [chars, not_overclosed_nil, not_closesTooMany_nil]
  | cons token rest ih =>
      obtain ⟨ht, hr⟩ := List.forall_mem_cons.mp hw
      rw [chars_cons]
      cases token with
      | literal text =>
          rw [overclosed_append_iff (bracketless_literal ht), ih hr,
            exists_closesTooMany_iff (by simp)]
          rfl
      | placeholder name =>
          rw [overclosed_append_iff (bracketless_placeholder ht), ih hr,
            exists_closesTooMany_iff (by simp)]
          rfl
      | groupOpen =>
          have ho : groupOpen.write.toList ++ chars rest = '[' :: chars rest := rfl
          rw [ho, overclosed_open_iff, ih hr, exists_closesTooMany_iff (by simp)]
          rfl
      | groupClose =>
          have hc : groupClose.write.toList ++ chars rest = ']' :: chars rest := rfl
          rw [hc]
          cases level with
          | zero =>
              have hzero := (closesTooMany_zero_iff rest).mpr ⟨rfl, rfl⟩
              exact iff_of_true (overclosed_close _) ⟨0, hzero⟩
          | succ level =>
              rw [overclosed_close_iff, ih hr, exists_closesTooMany_iff (by simp)]
              rfl

theorem count_chars {tokens : List Token} (hw : ∀ token ∈ tokens, token.WellFormed) :
    (chars tokens).count '[' = tokens.count groupOpen ∧
      (chars tokens).count ']' = tokens.count groupClose := by
  induction tokens with
  | nil => exact ⟨rfl, rfl⟩
  | cons token rest ih =>
      obtain ⟨ht, hr⟩ := List.forall_mem_cons.mp hw
      obtain ⟨hopens, hcloses⟩ := ih hr
      rw [chars_cons]
      cases token with
      | literal text =>
          have hb := bracketless_literal ht
          rw [count_open_append hb, count_close_append hb]
          simpa using ⟨hopens, hcloses⟩
      | placeholder name =>
          have hb := bracketless_placeholder ht
          rw [count_open_append hb, count_close_append hb]
          simpa using ⟨hopens, hcloses⟩
      | groupOpen => simp [write, hopens, hcloses]
      | groupClose => simp [write, hopens, hcloses]

/-! ### Faults of the check -/

theorem checkBracketsFrom_unopened_iff {tokens : List Token}
    (hw : ∀ token ∈ tokens, token.WellFormed) {index level : Nat} :
    (∃ found, checkBracketsFrom index level tokens = .error (.unopened found)) ↔
      Overclosed level (chars tokens) := by
  rw [exists_unopened_iff, overclosed_chars_iff hw]

/-- The check finds open groups at the end if the text never closes too many groups, and it opens
more than it closes. -/
theorem checkBracketsFrom_unclosed_iff {tokens : List Token}
    (hw : ∀ token ∈ tokens, token.WellFormed) {index level groups : Nat} :
    checkBracketsFrom index level tokens = .error (.unclosed groups) ↔
      ¬ Overclosed level (chars tokens) ∧ 0 < groups ∧
        level + (chars tokens).count '[' = (chars tokens).count ']' + groups := by
  rw [checkBracketsFrom_eq_unclosed_iff, overclosed_chars_iff hw, (count_chars hw).1,
    (count_chars hw).2]

theorem checkBrackets_unopened_iff {text : String} {tokens : List Token}
    (h : scan text = .ok tokens) :
    (∃ index, checkBrackets tokens = .error (.unopened index)) ↔ Overclosed 0 text.toList := by
  obtain ⟨ht, hc⟩ := scanFrom_eq_ok_iff.mp h
  rw [ht]
  exact checkBracketsFrom_unopened_iff hc.wellFormed

theorem checkBrackets_unclosed_iff {text : String} {tokens : List Token} {groups : Nat}
    (h : scan text = .ok tokens) :
    checkBrackets tokens = .error (.unclosed groups) ↔
      ¬ Overclosed 0 text.toList ∧ 0 < groups ∧
        text.toList.count '[' = text.toList.count ']' + groups := by
  obtain ⟨ht, hc⟩ := scanFrom_eq_ok_iff.mp h
  rw [ht, checkBrackets, checkBracketsFrom_unclosed_iff hc.wellFormed, Nat.zero_add]

end UrlRouting.Token
