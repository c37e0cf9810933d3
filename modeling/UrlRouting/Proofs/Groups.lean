import UrlRouting.Proofs.Balance

/-! # Groups of a token sequence

Where the groups of a token sequence begin and end, in terms of the numbers of opens and closes.

* `Token.height`: the opens less the closes before an index. The brackets between two indices pair
  up if the height does not fall below that at the first and is the same at both
  (`Token.checkBrackets_extract_iff`).
* `Token.EndsAt`, `Token.IsGroup`: a close that ends the group around a position, and the two
  brackets of a group.
* `Token.counter_of_le` is the invariant of the search for a close: its counter is the height gained
  since the start.
* `Token.groupEnd_outcome`: so the search finds the least close that ends the group, and this is the
  close of the innermost group around the start. -/

namespace UrlRouting.Token

variable {tokens : List Token} {token : Token} {start stop index first last : Nat}

/-! ### Heights -/

/-- The number of opens less the number of closes before an index. -/
def height (tokens : List Token) (index : Nat) : Int :=
  (tokens.take index).count groupOpen - (tokens.take index).count groupClose

/-- What a token adds to the height. -/
def rise : Token → Int
  | groupOpen => 1
  | groupClose => -1
  | literal _ => 0
  | placeholder _ => 0

theorem height_succ (h : tokens[index]? = some token) :
    height tokens (index + 1) = height tokens index + token.rise := by
  unfold height
  rw [List.take_add_one, h]
  cases token <;> simp [rise, List.count_append] <;> omega

theorem height_succ_cases (tokens : List Token) (index : Nat) :
    height tokens (index + 1) = height tokens index ∨
      (tokens[index]? = some groupOpen ∧
        height tokens (index + 1) = height tokens index + 1) ∨
      (tokens[index]? = some groupClose ∧
        height tokens (index + 1) = height tokens index - 1) := by
  cases ht : tokens[index]? with
  | none =>
      have hlen := List.getElem?_eq_none_iff.mp ht
      unfold height
      rw [List.take_of_length_le hlen, List.take_of_length_le (Nat.le_succ_of_le hlen)]
      exact .inl rfl
  | some token =>
      rw [height_succ ht]
      cases token with
      | literal text => exact .inl (Int.add_zero _)
      | placeholder name => exact .inl (Int.add_zero _)
      | groupOpen => exact .inr (.inl ⟨rfl, rfl⟩)
      | groupClose => exact .inr (.inr ⟨rfl, rfl⟩)

/-- The brackets pair up if no start closes more groups than it opens and as many are opened as
closed. -/
theorem checkBrackets_eq_ok_iff_height :
    checkBrackets tokens = .ok () ↔
      (∀ i ≤ tokens.length, 0 ≤ height tokens i) ∧ height tokens tokens.length = 0 := by
  have hcloses (i : Nat) :
      ClosesTooMany 0 tokens i ↔ i < tokens.length ∧ height tokens (i + 1) < 0 := by
    unfold ClosesTooMany height
    omega
  constructor
  · intro h
    have hnone : ¬ ∃ i, ClosesTooMany 0 tokens i := by
      intro hexists
      obtain ⟨found, hf⟩ : ∃ found, checkBrackets tokens = .error (.unopened found) :=
        exists_unopened_iff.mpr hexists
      exact absurd (h.symm.trans hf) (by simp)
    have hnonneg : ∀ i ≤ tokens.length, 0 ≤ height tokens i := by
      intro i hi
      cases i with
      | zero => exact Int.le_refl 0
      | succ i =>
          by_contra hlt
          exact hnone ⟨i, (hcloses i).mpr ⟨hi, by omega⟩⟩
    refine ⟨hnonneg, ?_⟩
    have hend := hnonneg tokens.length (Nat.le_refl _)
    by_contra hne
    have hopen : checkBrackets tokens = .error (.unclosed (height tokens tokens.length).toNat) := by
      unfold checkBrackets
      rw [checkBracketsFrom_eq_unclosed_iff]
      refine ⟨hnone, by omega, ?_⟩
      unfold height at hend ⊢
      rw [List.take_length] at hend ⊢
      omega
    exact absurd (h.symm.trans hopen) (by simp)
  · rintro ⟨hnonneg, hend⟩
    cases hc : checkBrackets tokens with
    | ok => rfl
    | error fault =>
        exfalso
        cases fault with
        | unopened found =>
            obtain ⟨i, hi⟩ := exists_unopened_iff.mp ⟨found, hc⟩
            obtain ⟨hlt, hneg⟩ := (hcloses i).mp hi
            have := hnonneg (i + 1) hlt
            omega
        | unclosed groups =>
            obtain ⟨-, hpos, hcount⟩ := checkBracketsFrom_eq_unclosed_iff.mp hc
            unfold height at hend
            rw [List.take_length] at hend
            omega

theorem height_add (tokens : List Token) (start i : Nat) :
    height tokens (start + i) = height tokens start + height (tokens.drop start) i := by
  unfold height
  rw [List.take_add, List.count_append, List.count_append]
  omega

/-- The brackets between two indices pair up if the height comes back to where it was and is never
below that. -/
theorem checkBrackets_extract_iff (hle : start ≤ stop) (hlen : stop ≤ tokens.length) :
    checkBrackets (tokens.extract start stop) = .ok () ↔
      (∀ i, start ≤ i → i ≤ stop → height tokens start ≤ height tokens i) ∧
        height tokens stop = height tokens start := by
  have hlength : (tokens.extract start stop).length = stop - start := by
    rw [List.extract_eq_take_drop, List.length_take, List.length_drop]
    omega
  have hheight (i : Nat) (hi : i ≤ stop - start) :
      height tokens (start + i) = height tokens start + height (tokens.extract start stop) i := by
    rw [height_add]
    unfold height
    rw [List.extract_eq_take_drop, List.take_take, Nat.min_eq_left hi]
  have hstop := hheight (stop - start) (Nat.le_refl _)
  rw [Nat.add_sub_cancel' hle] at hstop
  rw [checkBrackets_eq_ok_iff_height, hlength]
  constructor
  · rintro ⟨hnonneg, hend⟩
    refine ⟨?_, by omega⟩
    intro i hs hi
    have hat := hheight (i - start) (by omega)
    have := hnonneg (i - start) (by omega)
    rw [Nat.add_sub_cancel' hs] at hat
    omega
  · rintro ⟨hbelow, hend⟩
    refine ⟨?_, by omega⟩
    intro i hi
    have := hbelow (start + i) (by omega) (by omega)
    have := hheight i hi
    omega

/-! ### Ends of groups -/

/-- The group around a position may end at this index: a close stands there, and the brackets
between pair up. -/
structure EndsAt (tokens : List Token) (start index : Nat) : Prop where
  le : start ≤ index
  close : tokens[index]? = some groupClose
  balanced : checkBrackets (tokens.extract start index) = .ok ()

/-- A group opens at the first index and closes at the second. -/
structure IsGroup (tokens : List Token) (first last : Nat) : Prop where
  opens : tokens[first]? = some groupOpen
  ends : EndsAt tokens (first + 1) last

/-- A group opens before the position and has not closed there. -/
structure Surrounds (tokens : List Token) (position first last : Nat) : Prop where
  group : IsGroup tokens first last
  opened : first < position
  unclosed : position ≤ last

theorem EndsAt.lt_length (h : EndsAt tokens start index) : index < tokens.length :=
  (List.getElem?_eq_some_iff.mp h.close).1

theorem EndsAt.heights (h : EndsAt tokens start index) :
    (∀ i, start ≤ i → i ≤ index → height tokens start ≤ height tokens i) ∧
      height tokens index = height tokens start :=
  (checkBrackets_extract_iff h.le (Nat.le_of_lt h.lt_length)).mp h.balanced

theorem EndsAt.height_behind (h : EndsAt tokens start index) :
    height tokens (index + 1) = height tokens start - 1 := by
  rw [height_succ h.close, h.heights.2]
  rfl

/-- If the height falls below that at a position, the first fall ends the group around it. -/
theorem exists_endsAt (hle : start ≤ stop) (h : height tokens stop < height tokens start) :
    ∃ index, EndsAt tokens start index := by
  have hfall : ∃ steps, height tokens (start + steps) < height tokens start :=
    ⟨stop - start, by rwa [Nat.add_sub_cancel' hle]⟩
  obtain ⟨steps, hlow, hkeeps⟩ : ∃ steps, height tokens (start + steps) < height tokens start ∧
      ∀ i < steps, height tokens start ≤ height tokens (start + i) :=
    ⟨Nat.find hfall, Nat.find_spec hfall, fun i hi => Int.not_lt.mp (Nat.find_min hfall hi)⟩
  cases steps with
  | zero => exact absurd hlow (Int.lt_irrefl _)
  | succ steps =>
      have hat := hkeeps steps (Nat.lt_succ_self steps)
      rw [← Nat.add_assoc] at hlow
      obtain ⟨hclose, hone⟩ : tokens[start + steps]? = some groupClose ∧
          height tokens (start + steps + 1) = height tokens (start + steps) - 1 := by
        rcases height_succ_cases tokens (start + steps) with heq | ⟨-, heq⟩ | hc
        · omega
        · omega
        · exact hc
      have hlength := (List.getElem?_eq_some_iff.mp hclose).1
      refine ⟨start + steps, Nat.le_add_right _ _, hclose, ?_⟩
      rw [checkBrackets_extract_iff (Nat.le_add_right _ _) (Nat.le_of_lt hlength)]
      refine ⟨?_, by omega⟩
      intro i hsi hi
      have := hkeeps (i - start) (by omega)
      rwa [Nat.add_sub_cancel' hsi] at this

theorem exists_endsAt_of_height_pos (hb : checkBrackets tokens = .ok ())
    (hlen : start ≤ tokens.length) (h : 0 < height tokens start) :
    ∃ index, EndsAt tokens start index := by
  have hend := (checkBrackets_eq_ok_iff_height.mp hb).2
  exact exists_endsAt hlen (hend.symm ▸ h)

/-! ### The search for the close -/

theorem closeDistance_close (rest : List Token) : closeDistance 0 (groupClose :: rest) = 0 := rfl

theorem closeDistance_cons {inner : Nat} (h : ¬ (token = groupClose ∧ inner = 0))
    (rest : List Token) :
    closeDistance inner (token :: rest) = closeDistance (openAfter inner token) rest + 1 := by
  cases token with
  | literal text => rfl
  | placeholder name => rfl
  | groupOpen => rfl
  | groupClose =>
      cases inner with
      | zero => simp at h
      | succ inner => rfl

theorem openAfter_eq_add_rise {inner : Nat} (h : ¬ (token = groupClose ∧ inner = 0)) :
    (openAfter inner token : Int) = inner + token.rise := by
  cases token <;> simp [openAfter, rise] at h ⊢
  omega

theorem groupEnd_le_length (tokens : List Token) (start : Nat) :
    groupEnd tokens start ≤ tokens.length := by
  have hdistance (inner : Nat) (rest : List Token) : closeDistance inner rest ≤ rest.length := by
    induction rest generalizing inner with
    | nil => exact Nat.le_refl 0
    | cons token rest ih =>
        by_cases h : token = groupClose ∧ inner = 0
        · obtain ⟨rfl, rfl⟩ := h
          exact Nat.zero_le _
        · rw [closeDistance_cons h, List.length_cons]
          exact Nat.succ_le_succ (ih _)
  have := hdistance 0 (tokens.drop start)
  rw [List.length_drop] at this
  unfold groupEnd
  omega

/-- The counter of the search is the height gained since the start. -/
theorem counter_of_le (hs : start ≤ index) (hi : index ≤ groupEnd tokens start) :
    ∃ counter : Nat, height tokens index = height tokens start + counter ∧
      groupEnd tokens start = index + closeDistance counter (tokens.drop index) := by
  have hend := groupEnd_le_length tokens start
  induction index, hs using Nat.le_induction with
  | base =>
      refine ⟨0, by omega, ?_⟩
      rw [groupEnd, Nat.min_eq_left (Nat.le_trans hi hend)]
  | succ index hs ih =>
      obtain ⟨counter, hheight, hdistance⟩ := ih (Nat.le_of_succ_le hi)
      have hlt : index < tokens.length := by omega
      have hdrop := List.drop_eq_getElem_cons hlt
      rw [hdrop] at hdistance
      -- the search has not stopped at this token, so the counter stays a number
      have hgo : ¬ (tokens[index] = groupClose ∧ counter = 0) := by
        rintro ⟨hclose, rfl⟩
        rw [hclose, closeDistance_close] at hdistance
        omega
      refine ⟨openAfter counter tokens[index], ?_, ?_⟩
      · rw [height_succ (List.getElem?_eq_getElem hlt), openAfter_eq_add_rise hgo]
        omega
      · rw [hdistance, closeDistance_cons hgo]
        omega

/-- Inside the sequence the search stops only where the group ends. -/
theorem endsAt_groupEnd_of_lt (hs : start ≤ tokens.length)
    (h : groupEnd tokens start < tokens.length) :
    EndsAt tokens start (groupEnd tokens start) := by
  have hle := le_groupEnd hs
  obtain ⟨counter, hheight, hdistance⟩ := counter_of_le hle (Nat.le_refl _)
  have hstop : closeDistance counter (tokens.drop (groupEnd tokens start)) = 0 := by omega
  have hdrop := List.drop_eq_getElem_cons h
  rw [hdrop] at hstop
  have hclose : tokens[groupEnd tokens start] = groupClose ∧ counter = 0 := by
    by_contra hgo
    rw [closeDistance_cons hgo] at hstop
    omega
  obtain ⟨hclose, rfl⟩ := hclose
  refine ⟨hle, ?_, ?_⟩
  · rw [List.getElem?_eq_getElem h, hclose]
  · rw [checkBrackets_extract_iff hle (Nat.le_of_lt h)]
    refine ⟨?_, by omega⟩
    intro i hsi hi
    obtain ⟨before, hbefore, -⟩ := counter_of_le hsi hi
    omega

theorem groupEnd_le_of_endsAt (h : EndsAt tokens start index) : groupEnd tokens start ≤ index := by
  by_contra hlt
  obtain ⟨counter, hheight, hdistance⟩ := counter_of_le h.le (Nat.le_of_lt (Nat.lt_of_not_le hlt))
  have hzero : counter = 0 := by
    have := h.heights.2
    omega
  obtain ⟨hlength, hclose⟩ := List.getElem?_eq_some_iff.mp h.close
  rw [List.drop_eq_getElem_cons hlength, hclose, hzero, closeDistance_close] at hdistance
  omega

theorem groupEnd_isLeast (h : ∃ index, EndsAt tokens start index) :
    IsLeast {index | EndsAt tokens start index} (groupEnd tokens start) := by
  obtain ⟨index, hi⟩ := h
  have hlt := Nat.lt_of_le_of_lt (groupEnd_le_of_endsAt hi) hi.lt_length
  have hs := Nat.le_trans hi.le (Nat.le_of_lt hi.lt_length)
  exact ⟨endsAt_groupEnd_of_lt hs hlt, fun other ho => groupEnd_le_of_endsAt ho⟩

theorem groupEnd_of_not_exists (h : ¬ ∃ index, EndsAt tokens start index) :
    groupEnd tokens start = tokens.length := by
  by_contra hne
  have hlt := Nat.lt_of_le_of_ne (groupEnd_le_length tokens start) hne
  have hs : start ≤ tokens.length := by
    by_contra hgt
    unfold groupEnd at hlt
    omega
  exact h ⟨_, endsAt_groupEnd_of_lt hs hlt⟩

/-! ### The innermost group -/

/-- If the height has risen since some index, the last rise stays: an open stands there, and behind
it the height does not fall below that at the position. -/
theorem exists_opening (hle : first ≤ start) (h : height tokens first < height tokens start) :
    ∃ opening < start, tokens[opening]? = some groupOpen ∧
      height tokens (opening + 1) = height tokens start ∧
      ∀ i, opening < i → i ≤ start → height tokens start ≤ height tokens i := by
  let low (i : Nat) : Prop := height tokens i < height tokens start
  obtain ⟨opening, hlow, hlt, hlast⟩ : ∃ opening, low opening ∧ opening < start ∧
      ∀ i, opening < i → i ≤ start → height tokens start ≤ height tokens i := by
    have hlow : low (Nat.findGreatest low start) := Nat.findGreatest_spec hle h
    refine ⟨_, hlow, Nat.lt_of_le_of_ne (Nat.findGreatest_le start) ?_, ?_⟩
    · intro he
      rw [he] at hlow
      exact Int.lt_irrefl _ hlow
    · intro i hi his
      exact Int.not_lt.mp (Nat.findGreatest_is_greatest hi his)
  have hnext := hlast (opening + 1) (Nat.lt_succ_self _) hlt
  have hbefore : height tokens opening < height tokens start := hlow
  rcases height_succ_cases tokens opening with heq | ⟨hopen, heq⟩ | ⟨-, heq⟩
  · omega
  · exact ⟨opening, hlt, hopen, by omega, hlast⟩
  · omega

theorem Surrounds.height_le (h : Surrounds tokens start first last) :
    height tokens (first + 1) ≤ height tokens start :=
  h.group.ends.heights.1 start h.opened h.unclosed

/-- Inside a group, the search finds the close of the innermost group around the position. -/
theorem exists_innermost (h : Surrounds tokens start first last) :
    ∃ innermost, Surrounds tokens start innermost (groupEnd tokens start) ∧
      ∀ other close, Surrounds tokens start other close →
        other ≤ innermost ∧ groupEnd tokens start ≤ close := by
  have hinside := h.height_le
  have hbehind := h.group.ends.height_behind
  have hopened := height_succ h.group.opens
  have hone : rise groupOpen = 1 := rfl
  have hfalls : height tokens (last + 1) < height tokens start := by omega
  have hrises : height tokens first < height tokens start := by omega
  obtain ⟨hends, -⟩ := groupEnd_isLeast (exists_endsAt (Nat.le_succ_of_le h.unclosed) hfalls)
  obtain ⟨innermost, hlt, hopen, hsame, hlast⟩ := exists_opening (Nat.le_of_lt h.opened) hrises
  refine ⟨innermost, ⟨⟨hopen, ?_⟩, hlt, hends.le⟩, ?_⟩
  · refine ⟨Nat.le_trans hlt hends.le, hends.close, ?_⟩
    rw [checkBrackets_extract_iff (Nat.le_trans hlt hends.le) (Nat.le_of_lt hends.lt_length)]
    refine ⟨?_, by rw [hends.heights.2, hsame]⟩
    intro i hi hie
    rw [hsame]
    rcases Nat.le_total i start with his | hsi
    · exact hlast i hi his
    · exact hends.heights.1 i hsi hie
  · intro other close ho
    have hat := ho.height_le
    constructor
    · by_contra hgt
      have hlater := hlast other (Nat.lt_of_not_le hgt) (Nat.le_of_lt ho.opened)
      have := height_succ ho.group.opens
      omega
    · by_contra hgt
      have hkept := hends.heights.1 (close + 1) (Nat.le_succ_of_le ho.unclosed)
        (Nat.lt_of_not_le hgt)
      have := ho.group.ends.height_behind
      omega

/-- **Where a group ends.** For every token sequence and every start, the search gives the least
index of a close up to which the brackets pair up, and the number of tokens if there is none. At
each index that it comes to, its counter is the height gained since the start, and it is not zero at
a close that is passed. If the start is inside a group, the close found is that of the innermost
group around it. -/
theorem groupEnd_outcome (tokens : List Token) (start : Nat) :
    ((∃ index, EndsAt tokens start index) →
      IsLeast {index | EndsAt tokens start index} (groupEnd tokens start)) ∧
    ((¬ ∃ index, EndsAt tokens start index) → groupEnd tokens start = tokens.length) ∧
    (∀ index, start ≤ index → index ≤ groupEnd tokens start →
      ∃ counter : Nat, height tokens index = height tokens start + counter ∧
        groupEnd tokens start = index + closeDistance counter (tokens.drop index) ∧
        (index < groupEnd tokens start → tokens[index]? = some groupClose → 0 < counter)) ∧
    ∀ first last, Surrounds tokens start first last →
      ∃ innermost, Surrounds tokens start innermost (groupEnd tokens start) ∧
        ∀ other close, Surrounds tokens start other close →
          other ≤ innermost ∧ groupEnd tokens start ≤ close := by
  refine ⟨groupEnd_isLeast, groupEnd_of_not_exists, ?_, fun first last => exists_innermost⟩
  intro index hs hi
  obtain ⟨counter, hheight, hdistance⟩ := counter_of_le hs hi
  refine ⟨counter, hheight, hdistance, ?_⟩
  intro hlt hclose
  apply Nat.pos_of_ne_zero
  rintro rfl
  obtain ⟨hlength, hat⟩ := List.getElem?_eq_some_iff.mp hclose
  rw [List.drop_eq_getElem_cons hlength, hat, closeDistance_close] at hdistance
  omega

/-- A group in a group, with a placeholder on both sides of it: `/a[/{x}[/{y}]/{z}]`. -/
def nestedGroups : List Token :=
  [literal "/a", groupOpen, literal "/", placeholder "x", groupOpen, literal "/", placeholder "y",
    groupClose, literal "/", placeholder "z", groupClose]

/-- From inside the nested group its close is found, though the outer group surrounds the start as
well; from outside all groups there is no close. -/
theorem groupEnd_nestedGroups :
    EndsAt nestedGroups 5 7 ∧ groupEnd nestedGroups 5 = 7 ∧
      IsLeast {index | EndsAt nestedGroups 5 index} 7 ∧
      Surrounds nestedGroups 5 1 10 ∧ Surrounds nestedGroups 5 4 7 ∧
      (¬ ∃ index, EndsAt nestedGroups 1 index) ∧ groupEnd nestedGroups 1 = 11 := by
  have hends : EndsAt nestedGroups 5 7 := ⟨by decide, rfl, rfl⟩
  have houter : Surrounds nestedGroups 5 1 10 :=
    ⟨⟨rfl, by decide, rfl, rfl⟩, by decide, by decide⟩
  obtain ⟨hleast, -, -, hinnermost⟩ := groupEnd_outcome nestedGroups 5
  obtain ⟨innermost, hinner, hmost⟩ := hinnermost 1 10 houter
  have hnested : Surrounds nestedGroups 5 4 7 :=
    ⟨⟨rfl, by decide, rfl, rfl⟩, by decide, by decide⟩
  have hfour : innermost = 4 := Nat.le_antisymm (Nat.le_of_lt_succ hinner.opened)
    (hmost 4 7 hnested).1
  have hnone : ¬ ∃ index, EndsAt nestedGroups 1 index := by
    intro h
    have hlt := ((groupEnd_outcome nestedGroups 1).1 h).1.lt_length
    exact absurd hlt (by decide)
  exact ⟨hends, rfl, hleast ⟨7, hends⟩, houter, hfour ▸ hinner, hnone,
    (groupEnd_outcome nestedGroups 1).2.1 hnone⟩

end UrlRouting.Token
