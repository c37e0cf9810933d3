import Mathlib.Data.Nat.Find
import Mathlib.Logic.ExistsUnique
import Mathlib.Order.Bounds.Defs
import UrlRouting.Proofs.Compiled

/-! # Balance of a token sequence

The check of brackets in terms of the numbers of opens and closes, for every token sequence.

* `Token.openAfter`: the number of open groups behind a token. With it the check has one equation
  for all tokens (`checkBracketsFrom_cons`).
* `Token.ClosesTooMany`: the tokens up to an index hold more closes than there are groups to close.
* `Token.checkBracketsFrom_eq_unopened_iff`, `Token.checkBracketsFrom_eq_unclosed_iff`: the check
  reports the least such index, or else the groups left open.
* `Token.checkBrackets_eq_ok_iff`: the check accepts the sequences that trees write.
* `Token.checkBrackets_outcomes`: the three outcomes together. -/

namespace UrlRouting

theorem Tree.tokens_injective : Function.Injective Tree.tokens :=
  Function.LeftInverse.injective Tree.ofTokens_tokens

namespace Token

variable {token : Token} {rest tokens : List Token} {level index : Nat}

/-! ### One token -/

/-- The number of groups that are open behind a token. -/
def openAfter (level : Nat) : Token → Nat
  | groupOpen => level + 1
  | groupClose => level - 1
  | literal _ => level
  | placeholder _ => level

theorem checkBracketsFrom_close (index : Nat) (rest : List Token) :
    checkBracketsFrom index 0 (groupClose :: rest) = .error (.unopened index) := rfl

theorem checkBracketsFrom_cons (h : ¬ (token = groupClose ∧ level = 0)) (index : Nat)
    (rest : List Token) :
    checkBracketsFrom index level (token :: rest) =
      checkBracketsFrom (index + 1) (openAfter level token) rest := by
  cases token with
  | literal text => rfl
  | placeholder name => rfl
  | groupOpen => rfl
  | groupClose =>
      cases level with
      | zero => simp at h
      | succ level => rfl

theorem count_cons_openAfter (h : ¬ (token = groupClose ∧ level = 0)) (tokens : List Token) :
    level + (token :: tokens).count groupOpen + tokens.count groupClose =
      openAfter level token + tokens.count groupOpen + (token :: tokens).count groupClose := by
  cases token with
  | literal text => simp [openAfter]
  | placeholder name => simp [openAfter]
  | groupOpen =>
      simp [openAfter]
      omega
  | groupClose =>
      simp at h
      simp [openAfter]
      omega

/-! ### Indices at which too many groups are closed -/

/-- The tokens up to this index, it included, hold more closes than opens and the `level` groups
that are open before them. -/
def ClosesTooMany (level : Nat) (tokens : List Token) (index : Nat) : Prop :=
  index < tokens.length ∧
    level + (tokens.take (index + 1)).count groupOpen < (tokens.take (index + 1)).count groupClose

instance (level : Nat) (tokens : List Token) : DecidablePred (ClosesTooMany level tokens) :=
  fun _ => inferInstanceAs (Decidable (_ ∧ _))

theorem not_closesTooMany_nil (level index : Nat) : ¬ ClosesTooMany level [] index := by
  simp [ClosesTooMany]

theorem closesTooMany_zero_iff (rest : List Token) :
    ClosesTooMany level (token :: rest) 0 ↔ token = groupClose ∧ level = 0 := by
  cases token <;> simp [ClosesTooMany]

section passed

variable (h : ¬ (token = groupClose ∧ level = 0))
include h

theorem closesTooMany_succ_iff :
    ClosesTooMany level (token :: rest) (index + 1) ↔
      ClosesTooMany (openAfter level token) rest index := by
  have hcount := count_cons_openAfter h (rest.take (index + 1))
  unfold ClosesTooMany
  rw [List.length_cons, List.take_succ_cons]
  omega

theorem isLeast_closesTooMany_iff {found : Nat} :
    IsLeast {i | ClosesTooMany level (token :: rest) i} found ↔
      ∃ i, found = i + 1 ∧ IsLeast {i | ClosesTooMany (openAfter level token) rest i} i := by
  constructor
  · intro hf
    cases found with
    | zero => exact absurd ((closesTooMany_zero_iff rest).mp hf.1) h
    | succ i =>
        refine ⟨i, rfl, (closesTooMany_succ_iff h).mp hf.1, ?_⟩
        intro j hj
        exact Nat.le_of_succ_le_succ (hf.2 ((closesTooMany_succ_iff h).mpr hj))
  · intro hf
    obtain ⟨i, rfl, hi⟩ := hf
    refine ⟨(closesTooMany_succ_iff h).mpr hi.1, ?_⟩
    intro j hj
    cases j with
    | zero => exact absurd ((closesTooMany_zero_iff rest).mp hj) h
    | succ j => exact Nat.succ_le_succ (hi.2 ((closesTooMany_succ_iff h).mp hj))

theorem exists_closesTooMany_iff :
    (∃ i, ClosesTooMany level (token :: rest) i) ↔
      ∃ i, ClosesTooMany (openAfter level token) rest i := by
  constructor
  · intro he
    obtain ⟨i, hi⟩ := he
    cases i with
    | zero => exact absurd ((closesTooMany_zero_iff rest).mp hi) h
    | succ i => exact ⟨i, (closesTooMany_succ_iff h).mp hi⟩
  · intro he
    obtain ⟨i, hi⟩ := he
    exact ⟨i + 1, (closesTooMany_succ_iff h).mpr hi⟩

end passed

/-! ### Faults of the check -/

/-- The check finds a close without an open at the least index at which too many groups are
closed. -/
theorem checkBracketsFrom_eq_unopened_iff {found : Nat} :
    checkBracketsFrom index level tokens = .error (.unopened found) ↔
      ∃ i, IsLeast {i | ClosesTooMany level tokens i} i ∧ found = index + i := by
  induction tokens generalizing index level with
  | nil =>
      have hnone : ¬ ∃ i, IsLeast {i | ClosesTooMany level [] i} i ∧ found = index + i := by
        intro h
        obtain ⟨i, hleast, -⟩ := h
        exact not_closesTooMany_nil level i hleast.1
      rw [checkBracketsFrom, iff_false_right hnone]
      split <;> simp
  | cons token rest ih =>
      by_cases h : token = groupClose ∧ level = 0
      · have hzero := (closesTooMany_zero_iff rest).mpr h
        obtain ⟨rfl, rfl⟩ := h
        rw [checkBracketsFrom_close]
        simp only [Except.error.injEq, Imbalance.unopened.injEq]
        constructor
        · intro hi
          exact ⟨0, ⟨hzero, fun i _ => Nat.zero_le i⟩, hi.symm⟩
        · intro hi
          obtain ⟨i, hleast, rfl⟩ := hi
          have hle := hleast.2 hzero
          omega
      · rw [checkBracketsFrom_cons h, ih]
        simp only [isLeast_closesTooMany_iff h]
        constructor
        · intro hi
          obtain ⟨i, hleast, rfl⟩ := hi
          exact ⟨i + 1, ⟨i, rfl, hleast⟩, by omega⟩
        · intro hi
          obtain ⟨_, ⟨i, rfl, hleast⟩, rfl⟩ := hi
          exact ⟨i, hleast, by omega⟩

theorem exists_unopened_iff :
    (∃ found, checkBracketsFrom index level tokens = .error (.unopened found)) ↔
      ∃ i, ClosesTooMany level tokens i := by
  simp only [checkBracketsFrom_eq_unopened_iff]
  constructor
  · intro h
    obtain ⟨_, i, hleast, -⟩ := h
    exact ⟨i, hleast.1⟩
  · intro h
    exact ⟨_, Nat.find h, ⟨Nat.find_spec h, fun i hi => Nat.find_min' h hi⟩, rfl⟩

/-- The check finds groups left open if there is no such index and the opens outnumber the
closes. -/
theorem checkBracketsFrom_eq_unclosed_iff {groups : Nat} :
    checkBracketsFrom index level tokens = .error (.unclosed groups) ↔
      (¬ ∃ i, ClosesTooMany level tokens i) ∧ 0 < groups ∧
        level + tokens.count groupOpen = tokens.count groupClose + groups := by
  induction tokens generalizing index level with
  | nil =>
      rw [checkBracketsFrom]
      split <;> simp [not_closesTooMany_nil] <;> omega
  | cons token rest ih =>
      by_cases h : token = groupClose ∧ level = 0
      · have hzero := (closesTooMany_zero_iff rest).mpr h
        obtain ⟨rfl, rfl⟩ := h
        rw [checkBracketsFrom_close]
        constructor
        · intro hi
          simp at hi
        · intro hi
          exact absurd ⟨0, hzero⟩ hi.1
      · have hcount := count_cons_openAfter h rest
        rw [checkBracketsFrom_cons h, ih, exists_closesTooMany_iff h]
        constructor <;> intro hi <;> exact ⟨hi.1, hi.2.1, by omega⟩

/-! ### Sequences that pair up -/

theorem checkBracketsFrom_tokens_append (tree : Tree) (rest : List Token) (index level : Nat) :
    checkBracketsFrom index level (tree.tokens ++ rest) =
      checkBracketsFrom (index + tree.tokens.length) level rest := by
  induction tree generalizing rest index level with
  | done => rfl
  | literal text next ih =>
      rw [Tree.tokens, List.cons_append, checkBracketsFrom, ih, List.length_cons]
      congr 1
      omega
  | placeholder name next ih =>
      rw [Tree.tokens, List.cons_append, checkBracketsFrom, ih, List.length_cons]
      congr 1
      omega
  | group content next ihc ihn =>
      rw [Tree.tokens, List.cons_append, checkBracketsFrom, List.append_assoc, ihc,
        List.cons_append, checkBracketsFrom, ihn]
      congr 1
      simp only [List.length_cons, List.length_append]
      omega

/-- The check accepts the sequences that trees write. -/
theorem checkBrackets_eq_ok_iff {tokens : List Token} :
    checkBrackets tokens = .ok () ↔ ∃ tree : Tree, tree.tokens = tokens := by
  constructor
  · exact fun h => ⟨Tree.ofTokens tokens, Tree.tokens_ofTokens h⟩
  · rintro ⟨tree, rfl⟩
    have h := checkBracketsFrom_tokens_append tree [] 0 0
    rw [List.append_nil] at h
    exact h

/-- **What the check of brackets finds.** It accepts the sequences that some tree writes, and then
only one tree does. It reports a close without an open at the least index up to which there are more
closes than opens. If there is no such index, it reports the surplus of the opens, if there is
any. -/
theorem checkBrackets_outcomes (tokens : List Token) :
    (checkBrackets tokens = .ok () ↔ ∃! tree : Tree, tree.tokens = tokens) ∧
      (∀ index, checkBrackets tokens = .error (.unopened index) ↔
        IsLeast {i | i < tokens.length ∧
          (tokens.take (i + 1)).count groupOpen < (tokens.take (i + 1)).count groupClose} index) ∧
      ∀ groups, checkBrackets tokens = .error (.unclosed groups) ↔
        (∀ i < tokens.length,
          (tokens.take (i + 1)).count groupClose ≤ (tokens.take (i + 1)).count groupOpen) ∧
          0 < groups ∧ tokens.count groupOpen = tokens.count groupClose + groups := by
  have hcloses : ∀ i, ClosesTooMany 0 tokens i ↔ i < tokens.length ∧
      (tokens.take (i + 1)).count groupOpen < (tokens.take (i + 1)).count groupClose := by
    intro i
    rw [ClosesTooMany, Nat.zero_add]
  refine ⟨?_, ?_, ?_⟩
  · rw [checkBrackets_eq_ok_iff]
    constructor
    · intro h
      obtain ⟨tree, ht⟩ := h
      exact ⟨tree, ht, fun other ho => Tree.tokens_injective (ho.trans ht.symm)⟩
    · intro h
      exact h.exists
  · intro index
    unfold checkBrackets
    rw [checkBracketsFrom_eq_unopened_iff]
    simp only [hcloses, Nat.zero_add]
    constructor
    · intro h
      obtain ⟨i, hleast, rfl⟩ := h
      exact hleast
    · intro h
      exact ⟨index, h, rfl⟩
  · intro groups
    unfold checkBrackets
    rw [checkBracketsFrom_eq_unclosed_iff]
    simp only [hcloses, Nat.zero_add, not_exists, not_and, Nat.not_lt]

/-- A close without an open is reported before the groups that are left open. -/
example : checkBrackets [groupOpen, literal "/a", groupClose, groupClose, literal "/b", groupOpen] =
    .error (.unopened 3) := rfl

end Token

end UrlRouting
