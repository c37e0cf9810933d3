import UrlRouting.Proofs.Links

/-! # Patterns without optional groups

If a `/` stands between any two placeholders, a path can be read in one way only, and assembling and
matching invert each other.

* `Token.Separated` is the condition on a token sequence; `Token.separatedAfter` decides it
  (`Token.separated_iff`).
* `Tree.exists_anchor`: what follows a placeholder begins with a fixed text that contains a `/`, or
  it is a fixed text as a whole.
* `Tree.Derives.unique`: hence two derivations of one text capture the same values.
* `Route.matchPath_assemble_separated`: the round trip. -/

namespace UrlRouting

namespace Token

/-! ### Separated placeholders -/

/-- Before the first placeholder stands a literal that contains a `/`. -/
def SlashFirst (tokens : List Token) : Prop :=
  ∀ {front rest : List Token} {name : String}, tokens = front ++ placeholder name :: rest →
    (∀ other, placeholder other ∉ front) → ∃ text, literal text ∈ front ∧ '/' ∈ text.toList

/-- There are no groups, and between any two consecutive placeholders stands a literal that contains
a `/`. -/
structure Separated (tokens : List Token) : Prop where
  flat : groupOpen ∉ tokens
  slashes : ∀ {front rest : List Token} {name : String},
    tokens = front ++ placeholder name :: rest → SlashFirst rest

/-- The sequence is separated; if `pending`, a literal with a `/` stands before its first
placeholder as well. -/
def separatedAfter (pending : Bool) : List Token → Bool
  | [] => true
  | literal text :: rest => separatedAfter (pending && !text.toList.contains '/') rest
  | placeholder _ :: rest => !pending && separatedAfter true rest
  | groupOpen :: _ => false
  | groupClose :: rest => separatedAfter pending rest

theorem slashFirst_nil : SlashFirst [] := by
  intro front rest name h
  cases front <;> cases h

theorem not_slashFirst_placeholder {name : String} {rest : List Token} :
    ¬ SlashFirst (placeholder name :: rest) := by
  intro h
  obtain ⟨text, hm, -⟩ := h (List.nil_append _).symm fun _ => List.not_mem_nil
  cases hm

theorem slashFirst_cons_iff {token : Token} {rest : List Token}
    (ht : ∀ name, token ≠ placeholder name) :
    SlashFirst (token :: rest) ↔
      (∃ text, token = literal text ∧ '/' ∈ text.toList) ∨ SlashFirst rest := by
  constructor
  · intro h
    by_cases hs : ∃ text, token = literal text ∧ '/' ∈ text.toList
    · exact .inl hs
    · refine .inr ?_
      intro front rest name hr hf
      subst hr
      have hf' : ∀ other, placeholder other ∉ token :: front := by
        intro other hm
        rcases List.mem_cons.mp hm with hm | hm
        · exact ht other hm.symm
        · exact hf other hm
      obtain ⟨text, hm, hslash⟩ := h rfl hf'
      rcases List.mem_cons.mp hm with hm | hm
      · exact absurd ⟨text, hm.symm, hslash⟩ hs
      · exact ⟨text, hm, hslash⟩
  · intro h front tail name hr hf
    cases front with
    | nil =>
        rw [List.nil_append, List.cons.injEq] at hr
        exact absurd hr.1 (ht name)
    | cons first front =>
        rw [List.cons_append, List.cons.injEq] at hr
        obtain ⟨rfl, hr⟩ := hr
        rcases h with ⟨text, rfl, hslash⟩ | h
        · exact ⟨text, List.mem_cons_self, hslash⟩
        · obtain ⟨text, hm, hslash⟩ := h hr fun other hm => hf other (List.mem_cons_of_mem _ hm)
          exact ⟨text, List.mem_cons_of_mem _ hm, hslash⟩

theorem separated_nil : Separated [] := by
  refine ⟨List.not_mem_nil, ?_⟩
  intro front rest name h
  cases front <;> cases h

theorem separated_cons_iff {token : Token} {rest : List Token} :
    Separated (token :: rest) ↔
      token ≠ groupOpen ∧ (∀ name, token = placeholder name → SlashFirst rest) ∧
        Separated rest := by
  constructor
  · rintro ⟨hflat, hs⟩
    rw [List.mem_cons, not_or] at hflat
    refine ⟨Ne.symm hflat.1, ?_, hflat.2, ?_⟩
    · rintro name rfl
      exact hs (List.nil_append _).symm
    · rintro front rest name rfl
      exact hs (List.cons_append).symm
  · rintro ⟨ho, hp, hflat, hs⟩
    refine ⟨List.not_mem_cons_of_ne_of_not_mem ho.symm hflat, ?_⟩
    intro front tail name hr
    cases front with
    | nil =>
        rw [List.nil_append, List.cons.injEq] at hr
        exact hr.2 ▸ hp name hr.1
    | cons first front =>
        rw [List.cons_append, List.cons.injEq] at hr
        exact hs hr.2

theorem separatedAfter_iff {pending : Bool} {tokens : List Token} :
    separatedAfter pending tokens = true ↔
      Separated tokens ∧ (pending = true → SlashFirst tokens) := by
  induction tokens generalizing pending with
  | nil => exact iff_of_true rfl ⟨separated_nil, fun _ => slashFirst_nil⟩
  | cons token rest ih =>
      rw [separated_cons_iff]
      cases token with
      | literal text =>
          rw [separatedAfter, ih, slashFirst_cons_iff (by simp)]
          by_cases hs : '/' ∈ text.toList <;> simp [hs]
      | placeholder name =>
          rw [separatedAfter, Bool.and_eq_true, ih]
          cases pending <;> simp [not_slashFirst_placeholder, and_comm]
      | groupOpen => simp [separatedAfter]
      | groupClose =>
          rw [separatedAfter, ih, slashFirst_cons_iff (by simp)]
          simp

theorem separated_iff {tokens : List Token} :
    Separated tokens ↔ separatedAfter false tokens = true := by
  simp [separatedAfter_iff]

instance (tokens : List Token) : Decidable (Separated tokens) :=
  decidable_of_iff _ separated_iff.symm

end Token

namespace Tree

/-! ### One derivation -/

/-- A value without `/` ends where it does whenever a text with a `/` follows it. -/
theorem value_unique {value other word rest tail : List Char} (hv : '/' ∉ value)
    (ho : '/' ∉ other) (hw : '/' ∈ word) (h : value ++ (word ++ rest) = other ++ (word ++ tail)) :
    value = other := by
  obtain ⟨front, back, rfl, hf⟩ := List.eq_append_cons_of_mem hw
  -- both values end `front.length` characters before the first slash
  have hstart : ∀ {segment after : List Char}, '/' ∉ segment →
      (segment ++ ((front ++ '/' :: back) ++ after)).takeWhile (· != '/') = segment ++ front := by
    intro segment after hs
    have hall : ∀ c ∈ segment ++ front, (c != '/') = true := by
      intro c hc
      rw [bne_iff_ne]
      rintro rfl
      rcases List.mem_append.mp hc with hc | hc
      · exact hs hc
      · exact hf hc
    rw [List.append_assoc, ← List.append_assoc segment, List.takeWhile_append_of_pos hall]
    simp
  have hcut := congrArg (List.takeWhile (· != '/')) h
  rw [hstart hv, hstart ho] at hcut
  exact List.append_cancel_right hcut

/-- What follows a placeholder is a fixed text, or it begins with a fixed text that contains a
`/`. -/
theorem exists_anchor {tree : Tree} (hs : Token.separatedAfter true tree.tokens = true) :
    ∃ word : List Char,
      (∀ text choices captures, tree.Derives text choices captures → text = word) ∨
        ('/' ∈ word ∧ ∀ text choices captures, tree.Derives text choices captures →
          ∃ rest, text = word ++ rest) := by
  induction tree with
  | done =>
      refine ⟨[], .inl ?_⟩
      intro text choices captures hd
      cases hd
      rfl
  | literal word next ih =>
      by_cases hslash : '/' ∈ word.toList
      · refine ⟨word.toList, .inr ⟨hslash, ?_⟩⟩
        intro text choices captures hd
        cases hd with
        | literal hd => exact ⟨_, rfl⟩
      · rw [tokens, Token.separatedAfter, List.contains_eq_mem, decide_eq_false hslash] at hs
        obtain ⟨later, hl⟩ := ih hs
        refine ⟨word.toList ++ later, hl.imp ?_ ?_⟩
        · intro hl text choices captures hd
          cases hd with
          | literal hd => rw [hl _ _ _ hd]
        · rintro ⟨hm, hl⟩
          refine ⟨List.mem_append_right _ hm, ?_⟩
          intro text choices captures hd
          cases hd with
          | literal hd =>
              obtain ⟨rest, rfl⟩ := hl _ _ _ hd
              exact ⟨rest, (List.append_assoc _ _ _).symm⟩
  | placeholder name next ih => cases hs
  | group content next _ _ => cases hs

/-- Where placeholders are separated, a text is derived in one way. -/
theorem Derives.unique {tree : Tree} {pending : Bool}
    (hs : Token.separatedAfter pending tree.tokens = true) {text again : List Char}
    {choices others : List Choice} {captures found : Captures}
    (h : tree.Derives text choices captures) (h' : tree.Derives again others found)
    (he : text = again) : choices = others ∧ captures = found := by
  induction tree generalizing pending text again choices others captures found with
  | done =>
      cases h
      cases h'
      exact ⟨rfl, rfl⟩
  | literal word next ih =>
      cases h with
      | literal h =>
          cases h' with
          | literal h' => exact ih hs h h' (List.append_cancel_left he)
  | placeholder name next ih =>
      rw [tokens, Token.separatedAfter, Bool.and_eq_true] at hs
      cases h with
      | @placeholder _ _ value rest _ _ _ hv h =>
          cases h' with
          | @placeholder _ _ other tail _ _ _ ho h' =>
              have hvalue : value = other := by
                obtain ⟨word, hw | ⟨hslash, hw⟩⟩ := exists_anchor hs.2
                · rw [hw _ _ _ h, hw _ _ _ h'] at he
                  exact List.append_cancel_right he
                · obtain ⟨after, rfl⟩ := hw _ _ _ h
                  obtain ⟨after', rfl⟩ := hw _ _ _ h'
                  exact value_unique hv ho hslash he
              subst hvalue
              obtain ⟨rfl, rfl⟩ := ih hs.2 h h' (List.append_cancel_left he)
              exact ⟨rfl, rfl⟩
  | group content next _ _ => cases hs

/-! ### Without groups everything is written -/

theorem isFilled_of_contains {values : Parameters} {tree : Tree}
    (h : ∀ name ∈ Token.names tree.tokens, values.contains name = true) :
    tree.isFilled values = true := by
  induction tree with
  | done => rfl
  | literal text next ih => exact ih h
  | placeholder name next ih =>
      rw [isFilled, h name List.mem_cons_self]
      exact ih fun other hm => h other (List.mem_cons_of_mem _ hm)
  | group content next _ ih =>
      rw [Token.names_group] at h
      exact ih fun name hm => h name (List.mem_append_right _ hm)

theorem map_fst_written {values : Parameters} {tree : Tree} (hf : Token.groupOpen ∉ tree.tokens)
    (h : tree.isFilled values = true) :
    (tree.written values).map Prod.fst = Token.names tree.tokens := by
  unfold written
  induction tree with
  | done => rfl
  | literal text next ih => exact ih (List.not_mem_of_not_mem_cons hf) h
  | placeholder name next ih =>
      rw [isFilled, Bool.and_eq_true, Parameters.contains_eq_isSome, Option.isSome_iff_exists] at h
      obtain ⟨⟨value, hv⟩, h⟩ := h
      rw [writtenFrom, hv]
      exact congrArg (name :: ·) (ih (List.not_mem_of_not_mem_cons hf) h)
  | group content next _ _ => exact absurd List.mem_cons_self hf

end Tree

namespace Route

variable {text : String} {defaults : Parameters} {route : Route} {parameters : Parameters}
  {path : String}

theorem matchPath_of_separated (h : compile text defaults = .ok route)
    (hs : Token.Separated route.pattern.tokens)
    (hn : ∀ entry ∈ parameters.entries, entry.1 ∈ route.pattern.placeholders)
    (hv : ∀ name ∈ route.pattern.placeholders, (parameters.mergedOver defaults).get? name ≠ some "")
    (ha : route.assemble parameters = .ok path) :
    route.matchPath path =
      some (defaults.setAll (route.pattern.tree.written (parameters.mergedOver defaults))) := by
  obtain ⟨hp, hd⟩ := compile_eq_ok h
  obtain ⟨choices, hderives⟩ := derives_assemble h hn hv ha
  rw [Token.separated_iff, ← Pattern.tokens_tree hp] at hs
  have hc : route.pattern.tree.captures? path.toList =
      some (encodePairs (route.pattern.tree.written (parameters.mergedOver defaults))) := by
    cases hc : route.pattern.tree.captures? path.toList with
    | none => exact absurd ⟨_, _, hderives⟩ (Tree.captures?_eq_none_iff.mp hc)
    | some found =>
        obtain ⟨others, hf⟩ := Tree.captures?_eq_some_iff.mp hc
        rw [(hderives.unique hs hf.derives rfl).2]
  rw [matchPath_of_captures? hc, decodeCaptures_encodePairs, hd]

/-- **The round trip without groups.** A route whose placeholders are separated assembles a path
from non-empty values for exactly its placeholders, and the match of that path gives those values
over the defaults: the same value to every name, and so equal parameters. -/
theorem matchPath_assemble_separated (h : compile text defaults = .ok route)
    (hs : Token.Separated route.pattern.tokens)
    (hn : ∀ entry ∈ parameters.entries, entry.1 ∈ route.pattern.placeholders)
    (hc : ∀ name ∈ route.pattern.placeholders, parameters.contains name = true)
    (hv : ∀ entry ∈ parameters.entries, entry.2 ≠ "") :
    ∃ path result, route.assemble parameters = .ok path ∧ route.matchPath path = some result ∧
      (∀ name, result.get? name = (parameters.mergedOver defaults).get? name) ∧
      (result == parameters.mergedOver defaults) = true := by
  have hp := (compile_eq_ok h).1
  have hvalue : ∀ name ∈ route.pattern.placeholders,
      ∃ value, value ≠ "" ∧ (parameters.mergedOver defaults).get? name = some value := by
    intro name hm
    obtain ⟨value, he, hget⟩ := Parameters.exists_get?_mergedOver (hc name hm) defaults
    exact ⟨value, hv _ he, hget⟩
  have hfilled : route.pattern.tree.isFilled (parameters.mergedOver defaults) = true := by
    apply Tree.isFilled_of_contains
    intro name hm
    rw [Pattern.names_tree hp] at hm
    obtain ⟨value, -, hget⟩ := hvalue name hm
    rw [Parameters.contains_eq_isSome, hget]
    rfl
  have hnonempty : ∀ name ∈ route.pattern.placeholders,
      (parameters.mergedOver defaults).get? name ≠ some "" := by
    intro name hm he
    obtain ⟨value, hne, hget⟩ := hvalue name hm
    rw [hget, Option.some.injEq] at he
    exact hne he
  have ha := (assemble_eq_ok_iff h hn).mpr ⟨hfilled, rfl⟩
  -- every placeholder is written, and the other names have the default on both sides
  have hwritten : (route.pattern.tree.written (parameters.mergedOver defaults)).map Prod.fst =
      route.pattern.placeholders := by
    rw [Tree.map_fst_written (Pattern.tokens_tree hp ▸ hs.flat) hfilled, Pattern.names_tree hp]
  have hget : ∀ name, (defaults.setAll
      (route.pattern.tree.written (parameters.mergedOver defaults))).get? name =
        (parameters.mergedOver defaults).get? name := by
    intro name
    rw [Tree.get?_setAll_written _ (hwritten ▸ (Pattern.compile_eq_ok hp).2.2), hwritten]
    split
    · rfl
    · next hm =>
      have hfree : name ∉ parameters.entries.map Prod.fst := by
        intro hentry
        obtain ⟨entry, he, rfl⟩ := List.mem_map.mp hentry
        exact hm (hn entry he)
      rw [Parameters.get?_mergedOver_of_notMem hfree]
  exact ⟨_, _, ha, matchPath_of_separated h hs hn hnonempty ha, hget,
    Parameters.sameValues_of_get? hget⟩

/-- The route of a pattern whose literals repeat what the values may end with. -/
def repeating (defaults : Parameters) : Route where
  pattern :=
    { text := "/\x7bx\x7da/b\x7by\x7da"
      tokens := [.literal "/", .placeholder "x", .literal "a/b", .placeholder "y", .literal "a"]
      placeholders := ["x", "y"]
      collected := by decide }
  defaults := defaults

theorem compile_repeating (defaults : Parameters) :
    compile (repeating defaults).pattern.text defaults = .ok (repeating defaults) := by
  have hp : Pattern.compile (repeating .empty).pattern.text = .ok (repeating .empty).pattern := by
    with_unfolding_all rfl
  exact compile_of_pattern hp defaults

/-- Values that hold delimiters or end like the literals behind them come back, here in the order of
the pattern and over a default. -/
theorem matchPath_repeating :
    compile (repeating (.ofList [("lang", "de")])).pattern.text (.ofList [("lang", "de")]) =
        .ok (repeating (.ofList [("lang", "de")])) ∧
      Token.Separated (repeating (.ofList [("lang", "de")])).pattern.tokens ∧
      ∃ path result,
        (repeating (.ofList [("lang", "de")])).assemble
          (.ofList [("y", "+ä?%2Fa"), ("x", "a/ba")]) = .ok path ∧
        (repeating (.ofList [("lang", "de")])).matchPath path = some result ∧
        (result == .ofList [("lang", "de"), ("y", "+ä?%2Fa"), ("x", "a/ba")]) = true := by
  have hc := compile_repeating (.ofList [("lang", "de")])
  have hs : Token.Separated (repeating (.ofList [("lang", "de")])).pattern.tokens := by decide
  have hn : ∀ entry ∈ (Parameters.ofList [("y", "+ä?%2Fa"), ("x", "a/ba")]).entries,
      entry.1 ∈ (repeating (.ofList [("lang", "de")])).pattern.placeholders := by decide
  obtain ⟨path, result, ha, hm, -, he⟩ :=
    matchPath_assemble_separated hc hs hn (by decide) (by decide)
  exact ⟨hc, hs, path, result, ha, hm, he⟩

end Route

end UrlRouting
