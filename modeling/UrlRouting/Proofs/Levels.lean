import UrlRouting.Proofs.Groups
import UrlRouting.Proofs.Monotone

/-! # Levels and open groups

The walk over a sequence whose brackets pair up holds one level for each open group, and one outside
all groups.

* `Walk.operation` names what the walk does at a token, and `Walk.step_eq_perform` says that a step
  does it.
* `Walk.Aligned` is the invariant: the cursor is within the tokens, and as many groups are open as
  there are levels around the innermost. Each step keeps it (`Walk.Aligned.step`), jumps included.
* `Walk.levels_match_groups`: so no level is closed or abandoned outside all groups, every jump
  lands on the close that it looks for, and one level is left at the end. -/

namespace UrlRouting.Walk

variable {tokens : List Token} {values : Parameters} {walk next last : Walk} {token : Token}

/-! ### Operations -/

/-- What the walk does at a token. -/
inductive Operation where
  /-- A text goes to the innermost level. -/
  | write (text : String)
  /-- A value is missing outside every group. -/
  | fail (name : String)
  /-- The innermost group is discarded, and the cursor moves behind an index. -/
  | abandon (index : Nat)
  /-- A group is left out, and the cursor moves behind an index. -/
  | pass (index : Nat)
  /-- A group begins. -/
  | enter
  /-- The innermost group ends. -/
  | leave
deriving DecidableEq, Repr

/-- The operation at a token. -/
def operation (tokens : List Token) (values : Parameters) (walk : Walk) : Token → Operation
  | .literal text => .write text
  | .placeholder name =>
    match values.get? name with
    | some value => .write (Segment.encode value)
    | none =>
      if walk.depth = 0 then .fail name else .abandon (Token.groupEnd tokens (walk.cursor + 1))
  | .groupOpen =>
    if walk.level.dropped then .pass (Token.groupEnd tokens (walk.cursor + 1)) else .enter
  | .groupClose => .leave

namespace Operation

/-- The walk after an operation. -/
def perform (walk : Walk) : Operation → Except AssembleError Walk
  | write text => .ok ((walk.write text).movePast walk.cursor)
  | fail name => .error (.missingParameter name)
  | abandon index => .ok (walk.abandon.movePast index)
  | pass index => .ok (walk.movePast index)
  | enter => .ok (walk.enter.movePast walk.cursor)
  | leave => .ok (walk.leave.movePast walk.cursor)

/-- The operation finds what it works on: a level inside a group to close or to discard, and behind
the cursor the close at which the jump lands. -/
def Applies (tokens : List Token) (walk : Walk) : Operation → Prop
  | write _ => True
  | fail _ => walk.depth = 0
  | abandon index => 0 < walk.depth ∧ Token.EndsAt tokens (walk.cursor + 1) index
  | pass index => Token.EndsAt tokens (walk.cursor + 1) index
  | enter => True
  | leave => 0 < walk.depth

end Operation

theorem step_eq_perform (tokens : List Token) (values : Parameters) (walk : Walk) (token : Token) :
    walk.step tokens values token = (operation tokens values walk token).perform walk := by
  cases token with
  | literal text => rfl
  | groupClose => rfl
  | groupOpen =>
      simp only [step, operation]
      split <;> rfl
  | placeholder name =>
      simp only [step, operation]
      cases values.get? name with
      | some value => rfl
      | none =>
          dsimp only
          split <;> rfl

/-! ### The invariant -/

/-- The cursor is within the tokens or at their end, and as many groups are open before it as there
are levels around the innermost one. -/
structure Aligned (tokens : List Token) (walk : Walk) : Prop where
  cursor_le : walk.cursor ≤ tokens.length
  depth_eq : (walk.depth : Int) = Token.height tokens walk.cursor

theorem aligned_start (tokens : List Token) : Aligned tokens start :=
  ⟨Nat.zero_le _, rfl⟩

theorem aligned_movePast {index : Nat} (hi : index < tokens.length)
    (hd : (walk.depth : Int) = Token.height tokens (index + 1)) :
    Aligned tokens (walk.movePast index) :=
  ⟨hi, hd⟩

theorem depth_write (walk : Walk) (text : String) : (walk.write text).depth = walk.depth := rfl

theorem depth_enter (walk : Walk) : walk.enter.depth = walk.depth + 1 := rfl

theorem depth_leave (walk : Walk) : walk.leave.depth = walk.depth - 1 := by
  obtain ⟨cursor, level, outer⟩ := walk
  cases outer <;> rfl

theorem depth_abandon (walk : Walk) : walk.abandon.depth = walk.depth - 1 := by
  obtain ⟨cursor, level, outer⟩ := walk
  cases outer <;> rfl

section balanced

variable (hb : Token.checkBrackets tokens = .ok ())
include hb

theorem endsAt_groupEnd {start : Nat} (hs : start ≤ tokens.length)
    (h : 0 < Token.height tokens start) :
    Token.EndsAt tokens start (Token.groupEnd tokens start) :=
  (Token.groupEnd_isLeast (Token.exists_endsAt_of_height_pos hb hs h)).1

/-- At an aligned state the operation finds what it works on. -/
theorem Aligned.applies (h : Aligned tokens walk) (ht : tokens[walk.cursor]? = some token) :
    (operation tokens values walk token).Applies tokens walk := by
  have hlt : walk.cursor + 1 ≤ tokens.length := (List.getElem?_eq_some_iff.mp ht).1
  have hdepth := h.depth_eq
  have hrise := Token.height_succ ht
  cases token with
  | literal text => trivial
  | groupClose =>
      -- the height is not negative behind the close, so it was positive before
      have hnonneg := (Token.checkBrackets_eq_ok_iff_height.mp hb).1 _ hlt
      simp only [Token.rise] at hrise
      show 0 < walk.depth
      omega
  | groupOpen =>
      simp only [Token.rise] at hrise
      simp only [operation]
      split
      · exact endsAt_groupEnd hb hlt (by omega)
      · trivial
  | placeholder name =>
      simp only [Token.rise] at hrise
      simp only [operation]
      split
      · trivial
      split
      · next hzero => exact hzero
      · next hzero => exact ⟨Nat.pos_of_ne_zero hzero, endsAt_groupEnd hb hlt (by omega)⟩

/-- A step keeps the levels aligned with the groups. -/
theorem Aligned.step (h : Aligned tokens walk) (ht : tokens[walk.cursor]? = some token)
    (hs : walk.step tokens values token = .ok next) : Aligned tokens next := by
  have hlt : walk.cursor < tokens.length := (List.getElem?_eq_some_iff.mp ht).1
  have hdepth := h.depth_eq
  have hrise := Token.height_succ ht
  have happlies : (operation tokens values walk token).Applies tokens walk := h.applies hb ht
  rw [step_eq_perform] at hs
  cases token with
  | literal text =>
      simp only [Token.rise] at hrise
      cases hs
      exact aligned_movePast hlt (by rw [depth_write]; omega)
  | groupClose =>
      simp only [Token.rise] at hrise
      simp only [operation, Operation.Applies] at happlies
      cases hs
      exact aligned_movePast hlt (by rw [depth_leave]; omega)
  | groupOpen =>
      simp only [Token.rise] at hrise
      simp only [operation] at hs happlies
      split at hs
      · next hdropped =>
        rw [if_pos hdropped] at happlies
        cases hs
        have hends : Token.EndsAt tokens (walk.cursor + 1) _ := happlies
        have hbehind := hends.height_behind
        exact aligned_movePast hends.lt_length (by omega)
      · cases hs
        exact aligned_movePast hlt (by rw [depth_enter]; omega)
  | placeholder name =>
      simp only [Token.rise] at hrise
      simp only [operation] at hs happlies
      cases hv : values.get? name with
      | some value =>
          simp only [hv] at hs
          cases hs
          exact aligned_movePast hlt (by rw [depth_write]; omega)
      | none =>
          simp only [hv] at hs happlies
          split at hs
          · cases hs
          · next hdepth =>
            rw [if_neg hdepth] at happlies
            cases hs
            obtain ⟨hpos, hends⟩ := happlies
            have hbehind := hends.height_behind
            exact aligned_movePast hends.lt_length (by rw [depth_abandon]; omega)

/-- Wherever the walk comes, the levels are aligned with the groups. -/
theorem aligned_of_reaches (h : Aligned tokens walk) (hr : Reaches tokens values walk last) :
    Aligned tokens last := by
  induction hr with
  | refl => exact h
  | step ht hs _ ih => exact ih (h.step hb ht hs)

/-- **One level for each open group.** If the brackets of a token sequence pair up, then for all
values, at each state of the walk, the cursor is at most at the end, and the levels around the
innermost are as many as opens less closes before the cursor. What the walk does there finds what it
works on: only levels of groups are closed or discarded, and each jump lands on the close that ends
the group around the place behind the cursor. A walk that succeeds ends behind the last token with
one level left. -/
theorem levels_match_groups (values : Parameters) :
    (∀ walk, Reaches tokens values start walk →
      walk.cursor ≤ tokens.length ∧ (walk.depth : Int) = Token.height tokens walk.cursor ∧
        ∀ token, tokens[walk.cursor]? = some token →
          walk.step tokens values token = (operation tokens values walk token).perform walk ∧
            (operation tokens values walk token).Applies tokens walk) ∧
      ∀ last, run tokens values start = .ok last →
        last.cursor = tokens.length ∧ last.outer = [] := by
  constructor
  · intro walk hr
    have haligned := aligned_of_reaches hb (aligned_start tokens) hr
    refine ⟨haligned.cursor_le, haligned.depth_eq, ?_⟩
    intro token ht
    exact ⟨step_eq_perform tokens values walk token, haligned.applies hb ht⟩
  · intro last h
    obtain ⟨hr, hend⟩ := reaches_of_run h
    have haligned := aligned_of_reaches hb (aligned_start tokens) hr
    have hcursor := Nat.le_antisymm haligned.cursor_le hend
    have hzero := (Token.checkBrackets_eq_ok_iff_height.mp hb).2
    have hdepth := haligned.depth_eq
    rw [hcursor, hzero] at hdepth
    exact ⟨hcursor, List.length_eq_zero_iff.mp (Int.ofNat_eq_zero.mp hdepth)⟩

end balanced

/-- Without values for `y` and `z` the nested group and the group around it are dropped one after
the other, and the last group is passed over. -/
theorem levels_match_splitGroup :
    Token.checkBrackets splitGroup = .ok () ∧
      Reaches splitGroup (.ofList [("x", "1")]) start ⟨9, ⟨"/1/", true⟩, [⟨"/a", false⟩]⟩ ∧
      Token.height splitGroup 9 = 1 ∧
      operation splitGroup (.ofList [("x", "1")]) ⟨9, ⟨"/1/", true⟩, [⟨"/a", false⟩]⟩
        (.placeholder "z") = .abandon 10 ∧
      Token.EndsAt splitGroup 10 10 ∧
      run splitGroup (.ofList [("x", "1")]) start = .ok ⟨14, ⟨"/a", true⟩, []⟩ := by
  have hb : Token.checkBrackets splitGroup = .ok () := rfl
  have hr : Reaches splitGroup (.ofList [("x", "1")]) start ⟨9, ⟨"/1/", true⟩, [⟨"/a", false⟩]⟩ :=
    .step rfl rfl (.step rfl rfl (.step rfl rfl (.step rfl rfl (.step rfl rfl (.step rfl rfl
      (.step rfl rfl (.single rfl rfl)))))))
  have hrun : run splitGroup (.ofList [("x", "1")]) start = .ok ⟨14, ⟨"/a", true⟩, []⟩ := by
    with_unfolding_all rfl
  obtain ⟨hheads, -⟩ := levels_match_groups hb (.ofList [("x", "1")])
  obtain ⟨-, hdepth, hoperation⟩ := hheads _ hr
  obtain ⟨-, -, hends⟩ := hoperation (.placeholder "z") rfl
  exact ⟨hb, hr, hdepth.symm, rfl, hends, hrun⟩

end UrlRouting.Walk
