import Mathlib.Data.List.Forall2
import UrlRouting.Proofs.Dependence

/-! # More values write more

A walk that knows more values comes to every token that a walk with fewer values comes to, so it
writes everything that the other one writes.

* `Walk.completes_iff`: the walk completes a group that it comes to if no earlier group of the
  sequence was dropped and the placeholders directly in the group have values.
* `Walk.Nested` is the invariant of balanced brackets: what is left of the tokens is one sequence
  for each open group, and the sequence outside all groups.
* `Walk.Below` relates a walk to the one with more values at the same token: level by level the text
  is a subsequence, and a level with a dropped group has one in the walk with fewer values too.
* `Walk.Below.step` is the simulation. A jump of the walk with fewer values is matched by a run of
  the other through the tokens jumped over (`Walk.reaches_behind`), every other step by one step.
* `Walk.path_extends`: so an assembly with more values succeeds as well, keeps every group, and
  gives a path of which the former is a subsequence. -/

namespace UrlRouting

/-! ### Levels and walks compared -/

/-- The text of the first level is a subsequence of that of the second, and a group is dropped in
the first if one is in the second. -/
structure Level.Below (level other : Level) : Prop where
  text : level.text.toList.Sublist other.text.toList
  dropped : other.dropped = true → level.dropped = true

namespace Level.Below

variable {level other inner innerOther : Level}

theorem refl (level : Level) : level.Below level := ⟨List.Sublist.refl _, id⟩

theorem add (h : level.Below other) {text added : String}
    (ht : text.toList.Sublist added.toList) :
    Below ⟨level.text ++ text, level.dropped⟩ ⟨other.text ++ added, other.dropped⟩ := by
  refine ⟨?_, h.dropped⟩
  simp only [String.toList_append]
  exact h.text.append ht

theorem drop (h : level.Below other) (added : String) (dropped : Bool) :
    Below ⟨level.text, true⟩ ⟨other.text ++ added, dropped⟩ := by
  refine ⟨?_, fun _ => rfl⟩
  simp only [String.toList_append]
  exact h.text.trans (List.sublist_append_left _ _)

end Level.Below

theorem Token.eq_of_drop {tokens rest : List Token} {start : Nat} {first token : Token}
    (h : tokens.drop start = first :: rest) (ht : tokens[start]? = some token) : first = token :=
  Option.some.inj ((getElem?_of_drop h).symm.trans ht)

theorem Tree.drop_group {tokens rest : List Token} {start : Nat} {content later : Tree}
    (h : tokens.drop start = (group content later).tokens ++ rest) :
    tokens.drop start =
      .groupOpen :: (content.tokens ++ .groupClose :: (later.tokens ++ rest)) := by
  simpa [Tree.tokens] using h

namespace Walk

/-- The walks stand at the same token in equally many open groups, and each level of the first is
below that of the second. -/
structure Below (walk other : Walk) : Prop where
  cursor : walk.cursor = other.cursor
  level : walk.level.Below other.level
  outer : List.Forall₂ Level.Below walk.outer other.outer

variable {tokens rest : List Token} {values a b : Parameters} {cursor : Nat} {level parent : Level}
  {outer : List Level}

/-! ### Kept groups -/

/-- The walk comes to the token at `index`. -/
def Visits (tokens : List Token) (values : Parameters) (index : Nat) : Prop :=
  ∃ walk, Reaches tokens values start walk ∧ walk.cursor = index

/-- The walk comes to the close of the group that opens at `index`, where the text of the group is
added to the level around it. A group that is dropped or passed over is left by a jump behind its
close. -/
def Completes (tokens : List Token) (values : Parameters) (index : Nat) : Prop :=
  tokens[index]? = some .groupOpen ∧ Visits tokens values (Token.groupEnd tokens (index + 1))

/-- The group that opens at `index` is written into the path: the walk completes it and all groups
around it. -/
def Keeps (tokens : List Token) (values : Parameters) (index : Nat) : Prop :=
  tokens[index]? = some .groupOpen ∧
    ∀ around ≤ index, tokens[around]? = some .groupOpen →
      index < Token.groupEnd tokens (around + 1) → Completes tokens values around

/-! ### One walk passes every token at most once -/

section steps

variable {walk next last : Walk} {token : Token} (ht : tokens[walk.cursor]? = some token)
  (hs : walk.step tokens values token = .ok next)

include ht hs

theorem cursor_lt : walk.cursor < next.cursor :=
  cursor_lt_of_step (List.getElem?_eq_some_iff.mp ht).1 hs

/-- There is one step from a state, so whatever the walk comes to later it comes to by that step. -/
theorem Reaches.eq_or_reaches (h : Reaches tokens values walk last) :
    last = walk ∨ Reaches tokens values next last := by
  cases h with
  | refl => exact .inl rfl
  | step ht' hs' h =>
      rw [ht] at ht'
      cases ht'
      rw [hs] at hs'
      cases hs'
      exact .inr h

end steps

theorem Reaches.cursor_le {walk last : Walk} (h : Reaches tokens values walk last) :
    walk.cursor ≤ last.cursor := by
  induction h with
  | refl => exact Nat.le_refl _
  | step ht hs _ ih =>
      have hlt := cursor_lt ht hs
      omega

/-- Of two states that a walk comes to, it comes from the one with the lower cursor to the other. -/
theorem Reaches.resume {walk mid last : Walk} (h : Reaches tokens values walk mid)
    (hl : Reaches tokens values walk last) (hle : mid.cursor ≤ last.cursor) :
    Reaches tokens values mid last := by
  induction h with
  | refl => exact hl
  | step ht hs hmid ih =>
      rcases hl.eq_or_reaches ht hs with rfl | hl
      · have hlt := cursor_lt ht hs
        have := hmid.cursor_le
        omega
      · exact ih hl hle

theorem not_visits_of_jump {walk next : Walk} {token : Token} {index : Nat}
    (hr : Reaches tokens values start walk) (ht : tokens[walk.cursor]? = some token)
    (hs : walk.step tokens values token = .ok next) (hlt : walk.cursor < index)
    (hgt : index < next.cursor) : ¬ Visits tokens values index := by
  rintro ⟨last, hl, rfl⟩
  have hfrom := hr.resume hl (Nat.le_of_lt hlt)
  rcases hfrom.eq_or_reaches ht hs with rfl | hafter
  · exact Nat.lt_irrefl _ hlt
  · have := hafter.cursor_le
    omega

/-- A group that the walk comes to is completed if no earlier group of the same sequence was dropped
and every placeholder directly in it has a value. What happens to the groups in it does not
matter. -/
theorem completes_iff {content : Tree} (hr : Reaches tokens values start ⟨cursor, level, outer⟩)
    (h : tokens.drop cursor = .groupOpen :: (content.tokens ++ .groupClose :: rest)) :
    Completes tokens values cursor ↔ level.dropped = false ∧ content.isFilled values = true := by
  have hopen := Token.getElem?_of_drop h
  have hin : tokens.drop (cursor + 1) = content.tokens ++ .groupClose :: rest :=
    Token.drop_of_drop [.groupOpen] h
  have hclose := Token.groupEnd_of_drop hin
  obtain ⟨text, dropped⟩ := level
  rw [Completes, and_iff_right hopen, hclose]
  cases dropped with
  | true =>
      -- the group is passed over
      refine iff_of_false ?_ (fun hd => nomatch hd.1)
      refine not_visits_of_jump hr hopen rfl (by dsimp only; omega) ?_
      simp only [movePast, hclose]
      omega
  | false =>
      have hc := covers tokens values content
      have henter := hr.trans (reaches_enter h)
      rw [← Tree.firstMissing?_eq_none_iff, and_iff_right rfl]
      cases hm : content.firstMissing? values with
      | none =>
          obtain ⟨_, he⟩ := hc.ends .blank (⟨text, false⟩ :: outer) hin hm
          exact iff_of_true ⟨_, henter.trans he, rfl⟩ rfl
      | some name =>
          -- the walk jumps from the missing value behind the close
          obtain ⟨stop, inner, later, hs, hd, hv, hl⟩ :=
            hc.stops .blank (⟨text, false⟩ :: outer) hin hm
          have hlater : tokens.drop (stop + 1) = later.tokens ++ .groupClose :: rest :=
            Token.drop_of_drop [.placeholder name] hd
          have hjump : Walk.step tokens values ⟨stop, inner, ⟨text, false⟩ :: outer⟩
              (.placeholder name) =
                .ok ⟨Token.groupEnd tokens (stop + 1) + 1, ⟨text, true⟩, outer⟩ := by
            rw [Walk.step, hv]
            rfl
          refine iff_of_false ?_ (Option.some_ne_none name)
          refine not_visits_of_jump (henter.trans hs) (Token.getElem?_of_drop hd) hjump ?_ ?_
          · dsimp only
            omega
          · rw [Token.groupEnd_of_drop hlater]
            dsimp only
            omega

/-! ### What is left of the tokens -/

/-- Behind the cursor stand the rest of the current sequence and, for each open group, a close and
the rest of the sequence around it. -/
def Nested (tokens : List Token) (walk : Walk) : Prop :=
  ∃ (tree : Tree) (around : List Tree),
    tokens.drop walk.cursor = tree.tokens ++ Tree.closings around ∧
      around.length = walk.outer.length

theorem nested_start (hb : Token.checkBrackets tokens = .ok ()) : Nested tokens start := by
  refine ⟨Tree.ofTokens tokens, [], ?_, rfl⟩
  simp [start, Tree.closings, Tree.tokens_ofTokens hb]

theorem Nested.outer_eq_nil {walk : Walk} (h : Nested tokens walk)
    (hc : tokens.length ≤ walk.cursor) : walk.outer = [] := by
  obtain ⟨tree, around, hd, hl⟩ := h
  rw [List.drop_eq_nil_of_le hc] at hd
  cases around with
  | nil => exact List.length_eq_zero_iff.mp hl.symm
  | cons next around => simp [Tree.closings_cons] at hd

/-- However a group goes on, the walk comes out behind it, and the text before the group stays. -/
theorem reaches_behind (values : Parameters) (level parent : Level) (outer : List Level)
    {content : Tree}
    (h : tokens.drop cursor = content.tokens ++ .groupClose :: rest) :
    ∃ text dropped, Reaches tokens values ⟨cursor, level, parent :: outer⟩
      ⟨cursor + content.tokens.length + 1, ⟨parent.text ++ text, dropped⟩, outer⟩ := by
  have hc := covers tokens values content
  cases hm : content.firstMissing? values with
  | none =>
      obtain ⟨dropped, he⟩ := hc.ends level (parent :: outer) h hm
      exact ⟨_, _, he.trans (reaches_leave (Token.drop_of_drop _ h))⟩
  | some name =>
      obtain ⟨stop, inner, later, hr, hd, hv, hl⟩ := hc.stops level (parent :: outer) h hm
      refine ⟨"", true, ?_⟩
      rw [String.append_empty, ← hl]
      exact hr.trans (reaches_abandon hd hv)

/-- The walk comes to the end of a group that it enters or passes over, and the text before the
group stays. -/
theorem exists_reaches_group (values : Parameters) (level : Level) (outer : List Level)
    {content : Tree}
    (h : tokens.drop cursor = .groupOpen :: (content.tokens ++ .groupClose :: rest)) :
    ∃ text dropped, Reaches tokens values ⟨cursor, level, outer⟩
      ⟨cursor + 1 + content.tokens.length + 1, ⟨level.text ++ text, dropped⟩, outer⟩ := by
  obtain ⟨text, dropped⟩ := level
  cases dropped with
  | true =>
      refine ⟨"", true, ?_⟩
      rw [String.append_empty]
      exact reaches_pass h
  | false =>
      have hin : tokens.drop (cursor + 1) = content.tokens ++ .groupClose :: rest :=
        Token.drop_of_drop [.groupOpen] h
      obtain ⟨added, dropped, hr⟩ := reaches_behind values .blank ⟨text, false⟩ outer hin
      exact ⟨added, dropped, (reaches_enter h).trans hr⟩

/-! ### The simulation -/

/-- The brackets behind the state pair up, and with the values `b` the walk comes from `other` to a
state that the first one is below. -/
def Matched (tokens : List Token) (b : Parameters) (walk other : Walk) : Prop :=
  Nested tokens walk ∧ ∃ after, Reaches tokens b other after ∧ walk.Below after

section jumps

variable {levelOther parentOther : Level} {outerOther : List Level} {content later : Tree}
  {around : List Tree}

/-- The current group is dropped with the fewer values; with more values the walk comes out behind
it. -/
theorem matched_abandon {name : String}
    (hd : tokens.drop cursor = (Tree.placeholder name later).tokens ++ Tree.closings around)
    (hl : around.length = (parent :: outer).length) (hparent : parent.Below parentOther)
    (houter : List.Forall₂ Level.Below outer outerOther) :
    Matched tokens b
      ⟨Token.groupEnd tokens (cursor + 1) + 1, ⟨parent.text, true⟩, outer⟩
      ⟨cursor, levelOther, parentOther :: outerOther⟩ := by
  cases around with
  | nil => cases hl
  | cons sequence around =>
      rw [Tree.closings_cons] at hd
      have hlater : tokens.drop (cursor + 1) =
          later.tokens ++ .groupClose :: (sequence.tokens ++ Tree.closings around) :=
        Token.drop_of_drop [.placeholder name] hd
      have hend : Token.groupEnd tokens (cursor + 1) + 1 =
          cursor + (Tree.placeholder name later).tokens.length + 1 := by
        rw [Token.groupEnd_of_drop hlater, Tree.tokens, List.length_cons]
        omega
      obtain ⟨text, dropped, hr⟩ := reaches_behind b levelOther parentOther outerOther hd
      rw [hend]
      refine ⟨⟨sequence, around, ?_, Nat.succ.inj hl⟩, _, hr, rfl, ?_, houter⟩
      · exact Token.drop_of_drop [.groupClose] (Token.drop_of_drop _ hd)
      · exact hparent.drop text dropped

theorem matched_pass
    (hd : tokens.drop cursor = (Tree.group content later).tokens ++ Tree.closings around)
    (hl : around.length = outer.length) (hdropped : level.dropped = true)
    (hlevel : level.Below levelOther) (houter : List.Forall₂ Level.Below outer outerOther) :
    Matched tokens b ⟨Token.groupEnd tokens (cursor + 1) + 1, level, outer⟩
      ⟨cursor, levelOther, outerOther⟩ := by
  obtain ⟨text, dropped⟩ := level
  obtain rfl : dropped = true := hdropped
  have hgroup := Tree.drop_group hd
  have hin : tokens.drop (cursor + 1) =
      content.tokens ++ .groupClose :: (later.tokens ++ Tree.closings around) :=
    Token.drop_of_drop [.groupOpen] hgroup
  obtain ⟨added, dropped, hr⟩ := exists_reaches_group b levelOther outerOther hgroup
  rw [Token.groupEnd_of_drop hin]
  refine ⟨⟨later, around, ?_, hl⟩, _, hr, rfl, hlevel.drop added dropped, houter⟩
  exact Token.drop_of_drop [.groupClose] (Token.drop_of_drop _ hin)

theorem matched_enter
    (hd : tokens.drop cursor = (Tree.group content later).tokens ++ Tree.closings around)
    (hl : around.length = outer.length) (hdropped : level.dropped = false)
    (hlevel : level.Below levelOther) (houter : List.Forall₂ Level.Below outer outerOther) :
    Matched tokens b ⟨cursor + 1, .blank, level :: outer⟩ ⟨cursor, levelOther, outerOther⟩ := by
  obtain ⟨text, dropped⟩ := levelOther
  obtain rfl : dropped = false := by
    cases dropped with
    | false => rfl
    | true => rw [hlevel.dropped rfl] at hdropped; cases hdropped
  have hgroup := Tree.drop_group hd
  have hin : tokens.drop (cursor + 1) =
      content.tokens ++ .groupClose :: (later.tokens ++ Tree.closings around) :=
    Token.drop_of_drop [.groupOpen] hgroup
  refine ⟨⟨content, later :: around, hin, ?_⟩, _, reaches_enter hgroup, rfl, ?_, ?_⟩
  · exact congrArg Nat.succ hl
  · exact .refl _
  · exact .cons hlevel houter

end jumps

/-- A step with fewer values is matched by a run with more values. -/
theorem Below.step
    (hab : ∀ name ∈ Token.names tokens, ∀ value,
      a.get? name = some value → b.get? name = some value)
    {walk other next : Walk} {token : Token} (hn : Nested tokens walk) (h : walk.Below other)
    (ht : tokens[walk.cursor]? = some token) (hs : walk.step tokens a token = .ok next) :
    Matched tokens b next other := by
  obtain ⟨cursor, level, outer⟩ := walk
  obtain ⟨_, levelOther, outerOther⟩ := other
  obtain ⟨rfl, hlevel, houter⟩ := h
  obtain ⟨tree, around, hd, hl⟩ := hn
  dsimp only at hd hl ht hlevel houter
  cases tree with
  | done =>
      cases around with
      | nil =>
          have hnone : tokens[cursor]? = none :=
            List.getElem?_eq_none (List.drop_eq_nil_iff.mp hd)
          rw [hnone] at ht
          cases ht
      | cons sequence around =>
          rw [Tree.tokens, List.nil_append, Tree.closings_cons] at hd
          obtain rfl := Token.eq_of_drop hd ht
          cases houter with
          | nil => cases hl
          | cons hparent houter =>
              cases hs
              refine ⟨⟨sequence, around, Token.drop_of_drop [.groupClose] hd, Nat.succ.inj hl⟩, ?_⟩
              exact ⟨_, reaches_leave hd, rfl, hparent.add hlevel.text, houter⟩
  | literal text later =>
      obtain rfl := Token.eq_of_drop hd ht
      cases hs
      refine ⟨⟨later, around, Token.drop_of_drop [.literal text] hd, hl⟩, ?_⟩
      exact ⟨_, reaches_literal hd, rfl, hlevel.add (List.Sublist.refl _), houter⟩
  | placeholder name later =>
      obtain rfl := Token.eq_of_drop hd ht
      rw [Walk.step] at hs
      cases hv : a.get? name with
      | some value =>
          rw [hv] at hs
          cases hs
          have hb := hab name (Token.mem_names.mpr (List.mem_of_getElem? ht)) value hv
          refine ⟨⟨later, around, Token.drop_of_drop [.placeholder name] hd, hl⟩, ?_⟩
          exact ⟨_, reaches_placeholder hd hb, rfl, hlevel.add (List.Sublist.refl _), houter⟩
      | none =>
          rw [hv] at hs
          cases houter with
          | nil => cases hs
          | cons hparent houter =>
              cases hs
              exact matched_abandon hd hl hparent houter
  | group content later =>
      obtain rfl := Token.eq_of_drop hd ht
      rw [Walk.step] at hs
      split at hs
      · next hdropped =>
        cases hs
        exact matched_pass hd hl hdropped hlevel houter
      · next hdropped =>
        cases hs
        exact matched_enter hd hl (eq_false_of_ne_true hdropped) hlevel houter

/-- A run with fewer values is matched by a run with more values. -/
theorem Below.reaches
    (hab : ∀ name ∈ Token.names tokens, ∀ value,
      a.get? name = some value → b.get? name = some value)
    {walk other last : Walk} (hn : Nested tokens walk) (h : walk.Below other)
    (hr : Reaches tokens a walk last) : Matched tokens b last other := by
  induction hr generalizing other with
  | refl => exact ⟨hn, other, .refl other, h⟩
  | step ht hs _ ih =>
      obtain ⟨hnext, after, hafter, hbelow⟩ := h.step hab hn ht hs
      obtain ⟨hlast, final, hfinal, hb⟩ := ih hnext hbelow
      exact ⟨hlast, final, hafter.trans hfinal, hb⟩

/-! ### Whole walks -/

section whole

variable (hb : Token.checkBrackets tokens = .ok ())
  (hab : ∀ name ∈ Token.names tokens, ∀ value, a.get? name = some value → b.get? name = some value)

include hb hab

theorem matched_of_reaches {walk : Walk} (h : Reaches tokens a start walk) :
    Matched tokens b walk start :=
  Below.reaches hab (nested_start hb) ⟨rfl, .refl _, .nil⟩ h

theorem Visits.mono {index : Nat} (h : Visits tokens a index) : Visits tokens b index := by
  obtain ⟨walk, hr, rfl⟩ := h
  obtain ⟨-, after, hafter, hbelow⟩ := matched_of_reaches hb hab hr
  exact ⟨after, hafter, hbelow.cursor.symm⟩

theorem Completes.mono {index : Nat} (h : Completes tokens a index) : Completes tokens b index :=
  ⟨h.1, h.2.mono hb hab⟩

theorem Keeps.mono {index : Nat} (h : Keeps tokens a index) : Keeps tokens b index :=
  ⟨h.1, fun around hle ho hlt => (h.2 around hle ho hlt).mono hb hab⟩

end whole

theorem reaches_of_run {walk last : Walk} (h : run tokens values walk = .ok last) :
    Reaches tokens values walk last ∧ tokens.length ≤ last.cursor := by
  fun_induction run tokens values walk with
  | case1 walk hc fault hs => cases h
  | case2 walk hc after hs ih =>
      obtain ⟨hr, hl⟩ := ih h
      exact ⟨.step (List.getElem?_eq_getElem hc) hs hr, hl⟩
  | case3 walk hc =>
      cases h
      exact ⟨.refl _, Nat.le_of_not_lt hc⟩

theorem path_eq_ok_iff {path : String} :
    Walk.path tokens values = .ok path ↔
      ∃ last, Reaches tokens values start last ∧ tokens.length ≤ last.cursor ∧
        last.outermost.text = path := by
  unfold Walk.path
  constructor
  · intro h
    cases hr : run tokens values start with
    | error fault => rw [hr] at h; cases h
    | ok last =>
        rw [hr] at h
        obtain ⟨hreach, hend⟩ := reaches_of_run hr
        exact ⟨last, hreach, hend, Except.ok.inj h⟩
  · rintro ⟨last, hr, hend, rfl⟩
    rw [run_of_reaches hr, run, dif_neg (Nat.not_lt.mpr hend)]
    rfl

/-- **More values write more.** If every value that `a` gives to a placeholder of a compiled pattern
is its value in `b` too, and the path for `a` can be written, then the path for `b` can be written;
each group that the walk for `a` completes, or writes into the path, is completed or written for
`b`; and the path for `a` is a subsequence of the path for `b`. -/
theorem path_extends {text : String} {pattern : Pattern} (h : Pattern.compile text = .ok pattern)
    {a b : Parameters}
    (hab : ∀ name ∈ pattern.placeholders, ∀ value, a.get? name = some value →
      b.get? name = some value)
    {path : String} (ha : Walk.path pattern.tokens a = .ok path) :
    ∃ longer, Walk.path pattern.tokens b = .ok longer ∧
      (∀ index, Completes pattern.tokens a index → Completes pattern.tokens b index) ∧
      (∀ index, Keeps pattern.tokens a index → Keeps pattern.tokens b index) ∧
      path.toList.Sublist longer.toList := by
  obtain ⟨-, hb, -⟩ := Pattern.compile_eq_ok h
  rw [pattern.collected] at hab
  obtain ⟨last, hr, hend, rfl⟩ := path_eq_ok_iff.mp ha
  obtain ⟨hn, after, hafter, hbelow⟩ := matched_of_reaches hb hab hr
  refine ⟨after.outermost.text, ?_, fun _ => .mono hb hab, fun _ => .mono hb hab, ?_⟩
  · exact path_eq_ok_iff.mpr ⟨after, hafter, hbelow.cursor ▸ hend, rfl⟩
  · -- no group is open at the end, so the outermost levels are the current ones
    have hnil := hn.outer_eq_nil hend
    have hnilOther : after.outer = [] := List.forall₂_nil_left_iff.mp (hnil ▸ hbelow.outer)
    simp only [outermost, hnil, hnilOther, List.getLast?_nil, Option.getD_none]
    exact hbelow.level.text

/-- Without a value for `y` the outer group is written and the group in it is dropped; a value for
`y` adds the nested group and keeps the rest. -/
theorem path_extends_twoLevels :
    Pattern.compile (Route.twoLevels .empty).pattern.text = .ok (Route.twoLevels .empty).pattern ∧
      Walk.path (Route.twoLevels .empty).pattern.tokens (.ofList [("x", "1"), ("z", "3")]) =
        .ok "/a/1/3" ∧
      Keeps (Route.twoLevels .empty).pattern.tokens (.ofList [("x", "1"), ("z", "3")]) 1 ∧
      ¬ Completes (Route.twoLevels .empty).pattern.tokens (.ofList [("x", "1"), ("z", "3")]) 4 ∧
      Walk.path (Route.twoLevels .empty).pattern.tokens
        (.ofList [("z", "3"), ("y", "2"), ("x", "1")]) = .ok "/a/1/2/3" ∧
      Keeps (Route.twoLevels .empty).pattern.tokens
        (.ofList [("z", "3"), ("y", "2"), ("x", "1")]) 1 ∧
      "/a/1/3".toList.Sublist "/a/1/2/3".toList := by
  have hc := (Route.compile_eq_ok (Route.compile_twoLevels .empty)).1
  have ha : Walk.path (Route.twoLevels .empty).pattern.tokens (.ofList [("x", "1"), ("z", "3")]) =
      .ok "/a/1/3" := by
    with_unfolding_all rfl
  have hb : Walk.path (Route.twoLevels .empty).pattern.tokens
      (.ofList [("z", "3"), ("y", "2"), ("x", "1")]) = .ok "/a/1/2/3" := by
    with_unfolding_all rfl
  have houter : (Route.twoLevels .empty).pattern.tokens.drop 1 =
      .groupOpen :: ((Tree.literal "/" (.placeholder "x" (.group
        (.literal "/" (.placeholder "y" .done)) .done))).tokens ++
          .groupClose :: [.groupOpen, .literal "/", .placeholder "z", .groupClose]) := rfl
  have hinner : (Route.twoLevels .empty).pattern.tokens.drop 4 =
      .groupOpen :: ((Tree.literal "/" (.placeholder "y" .done)).tokens ++ .groupClose ::
        [.groupClose, .groupOpen, .literal "/", .placeholder "z", .groupClose]) := rfl
  have hfirst : Reaches (Route.twoLevels .empty).pattern.tokens (.ofList [("x", "1"), ("z", "3")])
      start ⟨1, ⟨"/a", false⟩, []⟩ := .single rfl rfl
  have hnested : Reaches (Route.twoLevels .empty).pattern.tokens (.ofList [("x", "1"), ("z", "3")])
      start ⟨4, ⟨"/1", false⟩, [⟨"/a", false⟩]⟩ :=
    hfirst.trans (.step rfl rfl (.step rfl rfl (.single rfl rfl)))
  have hk : Keeps (Route.twoLevels .empty).pattern.tokens (.ofList [("x", "1"), ("z", "3")]) 1 := by
    refine ⟨rfl, ?_⟩
    intro around hle ho _
    match around, hle with
    | 0, _ => cases ho
    | 1, _ => exact (completes_iff hfirst houter).mpr ⟨rfl, rfl⟩
  have hdropped : ¬ Completes (Route.twoLevels .empty).pattern.tokens
      (.ofList [("x", "1"), ("z", "3")]) 4 := by
    rw [completes_iff hnested hinner]
    decide
  obtain ⟨longer, hl, -, hkeeps, hsub⟩ :=
    path_extends (b := (.ofList [("z", "3"), ("y", "2"), ("x", "1")])) hc (by decide) ha
  rw [hb] at hl
  cases hl
  exact ⟨hc, ha, hk, hdropped, hb, hkeeps 1 hk, hsub⟩

end Walk

end UrlRouting
