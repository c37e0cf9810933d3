import UrlRouting.Proofs.Scanning

/-! # Stray braces

A brace is stray if it lies in no placeholder of its text. The scanner fails at the leftmost one.

* `Token.isStray_open_iff`, `Token.isStray_close_iff`: what follows decides about an opening brace,
  what precedes about a closing one.
* `Token.first?_eq_none_iff`: no token begins at a stray brace, and only there.
* `Token.scanFrom_eq_error_iff`: the fault of the scanner is the leftmost stray brace.
* `Token.exists_scanFrom_iff`: a text is scanned unless it has a stray brace. -/

namespace UrlRouting.Token

/-! ### The brace at one position -/

/-- The character `c` between `before` and `after` is a brace, and no placeholder of the whole text
covers it: each one that does not begin behind it ends before it. -/
structure IsStray (before : List Char) (c : Char) (after : List Char) : Prop where
  brace : c = '{' ∨ c = '}'
  uncovered : ∀ {front rest : List Char} {name : String}, IsName name →
    before ++ c :: after = front ++ (placeholder name).write.toList ++ rest →
      front.length ≤ before.length →
        front.length + (placeholder name).write.toList.length ≤ before.length

/-- There is a stray brace in the text. -/
def HasStray (text : List Char) : Prop :=
  ∃ before c after, text = before ++ c :: after ∧ IsStray before c after

theorem notMem_name_of_brace {name : String} {c : Char} (hn : IsName name)
    (hc : c = '{' ∨ c = '}') : c ∉ name.toList := by
  intro hm
  have ha := hn.2 c hm
  rcases hc with rfl | rfl <;> cases ha

/-- An element that is not in a run, at most as far on as the run is long, is the one behind it. -/
theorem behind_run_of_append_eq {α : Type} {front after run rest : List α} {c d : α}
    (h : front ++ c :: after = run ++ d :: rest) (hc : c ∉ run) (hl : front.length ≤ run.length) :
    front = run ∧ c = d ∧ after = rest := by
  rcases List.append_eq_append_iff.mp h with ⟨tail, hrun, ht⟩ | ⟨tail, rfl, ht⟩
  · cases tail with
    | nil =>
        rw [List.nil_append, List.cons.injEq] at ht
        rw [List.append_nil] at hrun
        exact ⟨hrun.symm, ht⟩
    | cons e tail =>
        obtain ⟨rfl, -⟩ := List.cons.inj ht
        rw [hrun] at hc
        exact absurd (List.mem_append_right front List.mem_cons_self) hc
  · rw [List.length_append] at hl
    have hnil : tail = [] := List.eq_nil_of_length_eq_zero (by omega)
    rw [hnil, List.nil_append, List.cons.injEq] at ht
    rw [hnil, List.append_nil]
    exact ⟨rfl, ht.1.symm, ht.2.symm⟩

theorem covered_cases {before after front rest : List Char} {c : Char} {name : String}
    (hn : IsName name) (hc : c = '{' ∨ c = '}')
    (h : before ++ c :: after = front ++ (placeholder name).write.toList ++ rest)
    (hf : front.length ≤ before.length)
    (hl : before.length < front.length + (placeholder name).write.toList.length) :
    (c = '{' ∧ before = front ∧ after = name.toList ++ '}' :: rest) ∨
      (c = '}' ∧ before = front ++ '{' :: name.toList ∧ after = rest) := by
  rw [toList_write_placeholder] at h hl
  have hp : front <+: before := by
    refine List.prefix_of_prefix_length_le ?_ (List.prefix_append before (c :: after)) hf
    rw [h, List.append_assoc]
    exact List.prefix_append front _
  obtain ⟨mid, rfl⟩ := hp
  rw [List.append_assoc, List.append_assoc, List.append_cancel_left_eq] at h
  cases mid with
  | nil =>
      left
      simpa using h
  | cons d mid =>
      right
      simp only [List.cons_append, List.append_assoc, List.nil_append, List.cons.injEq] at h
      simp only [List.length_append, List.length_cons, List.length_nil] at hl
      obtain ⟨rfl, h⟩ := h
      obtain ⟨rfl, hend, hrest⟩ :=
        behind_run_of_append_eq h (notMem_name_of_brace hn hc) (by omega)
      exact ⟨hend, rfl, hrest⟩

theorem isStray_open_iff {before after : List Char} :
    IsStray before '{' after ↔ ∀ name rest, IsName name → after ≠ name.toList ++ '}' :: rest := by
  constructor
  · rintro ⟨-, hu⟩ name rest hn rfl
    have ht : before ++ '{' :: (name.toList ++ '}' :: rest) =
        before ++ (placeholder name).write.toList ++ rest := by simp [toList_write_placeholder]
    have hle := hu hn ht Nat.le.refl
    rw [toList_write_placeholder, List.length_cons] at hle
    omega
  · intro h
    refine ⟨Or.inl rfl, ?_⟩
    intro front rest name hn ht hf
    refine Nat.le_of_not_lt fun hl => ?_
    rcases covered_cases hn (Or.inl rfl) ht hf hl with ⟨-, -, ha⟩ | ⟨hc, -⟩
    · exact h name rest hn ha
    · cases hc

theorem isStray_close_iff {before after : List Char} :
    IsStray before '}' after ↔ ∀ front name, IsName name → before ≠ front ++ '{' :: name.toList := by
  constructor
  · rintro ⟨-, hu⟩ front name hn rfl
    have ht : front ++ '{' :: name.toList ++ '}' :: after =
        front ++ (placeholder name).write.toList ++ after := by simp [toList_write_placeholder]
    have hle := hu hn ht (by simp)
    simp only [toList_write_placeholder, List.length_append, List.length_cons, List.length_nil]
      at hle
    omega
  · intro h
    refine ⟨Or.inr rfl, ?_⟩
    intro front rest name hn ht hf
    refine Nat.le_of_not_lt fun hl => ?_
    rcases covered_cases hn (Or.inr rfl) ht hf hl with ⟨hc, -⟩ | ⟨-, hb, -⟩
    · cases hc
    · exact h front name hn hb

/-- No token begins at a stray brace, and a token begins everywhere else. -/
theorem first?_eq_none_iff {c : Char} {tail : List Char} :
    first? (c :: tail) = none ↔ IsStray [] c tail := by
  constructor
  · intro h
    rw [first?] at h
    split at h
    · cases h
    split at h
    · cases h
    split at h
    · next ho =>
      subst ho
      rw [isStray_open_iff]
      intro name rest hn ht
      rw [placeholderEnd?_eq_some_iff.mpr ⟨name, rfl, hn, ht⟩] at h
      cases h
    split at h
    · next hc =>
      subst hc
      rw [isStray_close_iff]
      intro front name _
      simp
    · cases h
  · intro hs
    rcases hs.brace with rfl | rfl
    · rw [isStray_open_iff] at hs
      cases hf : first? ('{' :: tail) with
      | none => rfl
      | some found =>
          obtain ⟨name, -, hn, ht⟩ := placeholderEnd?_eq_some_iff.mp hf
          exact absurd ht (hs name found.2 hn)
    · rfl

/-! ### Behind a token -/

theorem exists_of_isStray {token : Token} {before after rest : List Char} {c : Char}
    (hw : token.WellFormed) (h : token.write.toList ++ rest = before ++ c :: after)
    (hs : IsStray before c after) :
    ∃ between, before = token.write.toList ++ between ∧ rest = between ++ c :: after := by
  rcases List.append_eq_append_iff.mp h with ⟨between, hb, hr⟩ | ⟨tail, hb, hr⟩
  · exact ⟨between, hb, hr⟩
  · cases tail with
    | nil => exact ⟨[], by rw [hb, List.append_nil, List.append_nil], hr.symm⟩
    | cons d mid =>
        obtain ⟨rfl, rfl⟩ := List.cons.inj hr
        have hm : c ∈ token.write.toList := by
          rw [hb]
          exact List.mem_append_right before List.mem_cons_self
        cases token with
        | literal text =>
            have hc := hw.2 c hm
            rcases hs.brace with rfl | rfl <;> exact absurd (by decide) hc
        | placeholder name =>
            have ht : before ++ c :: (mid ++ rest) =
                [] ++ (placeholder name).write.toList ++ rest := by rw [List.nil_append, h]; rfl
            have hle := hs.uncovered hw ht (Nat.zero_le _)
            rw [hb, List.length_append, List.length_cons, List.length_nil] at hle
            omega
        | groupOpen =>
            cases List.mem_singleton.mp hm
            rcases hs.brace with hc | hc <;> cases hc
        | groupClose =>
            cases List.mem_singleton.mp hm
            rcases hs.brace with hc | hc <;> cases hc

theorem write_ne_append_open {token : Token} {front part : List Char} (hw : token.WellFormed)
    (hp : ∀ c ∈ part, c.isAlphanum = true) : token.write.toList ≠ front ++ '{' :: part := by
  intro h
  have hm : '{' ∈ token.write.toList := by
    rw [h]
    exact List.mem_append_right front List.mem_cons_self
  cases token with
  | literal text => exact absurd (by decide) (hw.2 _ hm)
  | placeholder name =>
      -- the last character of a placeholder is neither an opening brace nor part of a name
      have hl := congrArg List.getLast? h
      rw [toList_write_placeholder, ← List.cons_append, List.getLast?_concat, List.getLast?_append,
        List.getLast?_cons, Option.some_or, Option.some.injEq] at hl
      cases hd : part.getLast? with
      | none => rw [hd] at hl; cases hl
      | some d =>
          rw [hd, Option.getD_some] at hl
          have ha := hp d (List.mem_of_getLast? hd)
          rw [← hl] at ha
          cases ha
  | groupOpen => cases List.mem_singleton.mp hm
  | groupClose => cases List.mem_singleton.mp hm

/-- A token before the text does not change which braces are stray. -/
theorem isStray_append_iff {token : Token} {before after : List Char} {c : Char}
    (hw : token.WellFormed) :
    IsStray (token.write.toList ++ before) c after ↔ IsStray before c after := by
  constructor
  · intro hs
    rcases hs.brace with rfl | rfl
    · rw [isStray_open_iff] at hs ⊢
      exact hs
    · rw [isStray_close_iff] at hs ⊢
      rintro front name hn rfl
      exact hs (token.write.toList ++ front) name hn (List.append_assoc _ _ _).symm
  · intro hs
    rcases hs.brace with rfl | rfl
    · rw [isStray_open_iff] at hs ⊢
      exact hs
    · rw [isStray_close_iff] at hs ⊢
      intro front name hn h
      rcases List.append_eq_append_iff.mp h with ⟨between, -, hb⟩ | ⟨tail, ht, hb⟩
      · exact hs between name hn hb
      · cases tail with
        | nil => exact hs [] name hn hb.symm
        | cons d part =>
            obtain ⟨rfl, hname⟩ := List.cons.inj hb
            refine write_ne_append_open hw ?_ ht
            intro e he
            exact hn.2 e (hname ▸ List.mem_append_left before he)

/-! ### The leftmost stray brace -/

/-- The brace `c` between `before` and `after` is stray, and no brace before it is. -/
structure FirstStray (before : List Char) (c : Char) (after : List Char) : Prop where
  stray : IsStray before c after
  first : ∀ {front between : List Char} {d : Char}, before = front ++ d :: between →
    ¬ IsStray front d (between ++ c :: after)

theorem firstStray_append_iff {token : Token} {before after : List Char} {c : Char}
    (hw : token.WellFormed) :
    FirstStray (token.write.toList ++ before) c after ↔ FirstStray before c after := by
  constructor
  · rintro ⟨hs, hf⟩
    refine ⟨(isStray_append_iff hw).mp hs, ?_⟩
    rintro front between d rfl hd
    exact hf (List.append_assoc _ _ _).symm ((isStray_append_iff hw).mpr hd)
  · rintro ⟨hs, hf⟩
    refine ⟨(isStray_append_iff hw).mpr hs, ?_⟩
    intro front between d h hd
    have ht : token.write.toList ++ (before ++ c :: after) =
        front ++ d :: (between ++ c :: after) := by
      rw [← List.append_assoc, h, List.append_assoc, List.cons_append]
    obtain ⟨front, rfl, hr⟩ := exists_of_isStray hw ht hd
    rw [← List.cons_append, ← List.append_assoc, List.append_cancel_right_eq] at hr
    exact hf hr ((isStray_append_iff hw).mp hd)

/-- The scanner fails at the leftmost stray brace, if there is one, and only then; the fault gives
its offset. -/
theorem scanFrom_eq_error_iff {offset : Nat} {text : List Char} {fault : PatternError} :
    scanFrom offset text = .error fault ↔
      ∃ before c after, text = before ++ c :: after ∧ FirstStray before c after ∧
        fault = .malformedPlaceholder (offset + (String.ofList before).utf8ByteSize) := by
  induction offset, text using scanFrom.induct with
  | case1 offset =>
      rw [scanFrom]
      simp
  | case2 offset c tail hf =>
      rw [scanFrom_of_first?_eq_none (List.cons_ne_nil c tail) hf, Except.error.injEq]
      have hs := first?_eq_none_iff.mp hf
      constructor
      · rintro rfl
        exact ⟨[], c, tail, rfl, ⟨hs, by simp⟩, rfl⟩
      · rintro ⟨before, d, after, ht, hd, rfl⟩
        cases before with
        | nil => rfl
        | cons e before =>
            obtain ⟨rfl, rfl⟩ := List.cons.inj ht
            exact absurd hs (hd.first (List.nil_append _).symm)
  | case3 offset c tail token rest hf ih =>
      obtain ⟨hw, ht, -⟩ := first?_eq_some_iff.mp hf
      have hm : (scanFrom (offset + token.write.utf8ByteSize) rest).map (token :: ·) =
          .error fault ↔ scanFrom (offset + token.write.utf8ByteSize) rest = .error fault := by
        cases scanFrom (offset + token.write.utf8ByteSize) rest <;> simp [Except.map]
      have hsize : ∀ before : List Char, (String.ofList (token.write.toList ++ before)).utf8ByteSize =
          token.write.utf8ByteSize + (String.ofList before).utf8ByteSize := by
        intro before
        rw [String.ofList_append, String.ofList_toList, String.utf8ByteSize_append]
      rw [scanFrom_of_first? hf, hm, ih, ht]
      constructor
      · rintro ⟨before, d, after, rfl, hd, rfl⟩
        refine ⟨token.write.toList ++ before, d, after, (List.append_assoc _ _ _).symm,
          (firstStray_append_iff hw).mpr hd, ?_⟩
        rw [hsize, Nat.add_assoc]
      · rintro ⟨before, d, after, hb, hd, rfl⟩
        obtain ⟨between, rfl, hr⟩ := exists_of_isStray hw hb hd.stray
        refine ⟨between, d, after, hr, (firstStray_append_iff hw).mp hd, ?_⟩
        rw [hsize, Nat.add_assoc]

theorem not_isStray_chars {tokens : List Token} (hw : ∀ token ∈ tokens, token.WellFormed)
    {before after : List Char} {c : Char} (h : chars tokens = before ++ c :: after) :
    ¬ IsStray before c after := by
  induction tokens generalizing before with
  | nil => simp [chars] at h
  | cons token rest ih =>
      obtain ⟨ht, hr⟩ := List.forall_mem_cons.mp hw
      intro hs
      rw [chars_cons] at h
      obtain ⟨between, rfl, hc⟩ := exists_of_isStray ht h hs
      exact ih hr hc ((isStray_append_iff ht).mp hs)

theorem exists_scanFrom_iff {text : List Char} :
    (∃ tokens, scanFrom 0 text = .ok tokens) ↔ ¬ HasStray text := by
  constructor
  · rintro ⟨tokens, h⟩ ⟨before, c, after, ht, hs⟩
    obtain ⟨rfl, hc⟩ := scanFrom_eq_ok_iff.mp h
    exact not_isStray_chars hc.wellFormed ht hs
  · intro hn
    cases h : scanFrom 0 text with
    | ok tokens => exact ⟨tokens, rfl⟩
    | error fault =>
        obtain ⟨before, c, after, ht, hf, -⟩ := scanFrom_eq_error_iff.mp h
        exact absurd ⟨before, c, after, ht, hf.stray⟩ hn

theorem hasStray_iff {text : List Char} :
    HasStray text ↔ ∃ offset, scanFrom 0 text = .error (.malformedPlaceholder offset) := by
  constructor
  · intro hs
    cases h : scanFrom 0 text with
    | ok tokens => exact absurd hs (exists_scanFrom_iff.mp ⟨tokens, h⟩)
    | error fault =>
        obtain ⟨_, _, _, _, _, rfl⟩ := scanFrom_eq_error_iff.mp h
        exact ⟨_, rfl⟩
  · rintro ⟨offset, h⟩
    obtain ⟨before, c, after, ht, hf, -⟩ := scanFrom_eq_error_iff.mp h
    exact ⟨before, c, after, ht, hf.stray⟩

end UrlRouting.Token
