import UrlRouting.Pattern.Compiled

/-! # What compilation guarantees

A pattern that compiles has brackets that pair up and placeholders with distinct names.

* `Tree.tokens_ofTokens`: if the brackets pair up, the tree of a token sequence writes that
  sequence, so that nothing is lost by reading tokens as a tree.
* `Token.distinctNames_eq_ok_iff`, `Token.distinctNames_eq_error_iff`: the names are collected in
  order if none occurs twice, and otherwise the first one that occurred before is reported.
* `Pattern.compile_eq_ok`: both facts for a compiled pattern. -/

namespace UrlRouting

namespace Tree

/-! ### Brackets and trees -/

/-- The tokens of sequences that stand around each other, innermost first: the close of each group
and what follows it. -/
def closings (outer : List Tree) : List Token :=
  outer.flatMap fun tree => .groupClose :: tree.tokens

theorem closings_cons (tree : Tree) (outer : List Tree) :
    closings (tree :: outer) = .groupClose :: (tree.tokens ++ closings outer) := rfl

/-- Reading a suffix of a balanced sequence gives one sequence for each open group, and loses
nothing. -/
theorem nest_of_checkBracketsFrom {tokens : List Token} :
    ∀ {index level : Nat}, Token.checkBracketsFrom index level tokens = .ok () →
      (nest tokens).2.length = level ∧ (nest tokens).1.tokens ++ closings (nest tokens).2 = tokens := by
  induction tokens with
  | nil =>
      intro index level h
      rw [Token.checkBracketsFrom] at h
      split at h
      · next hl => exact ⟨hl.symm, rfl⟩
      · cases h
  | cons token rest ih =>
      intro index level h
      cases token with
      | literal text =>
          obtain ⟨hl, ht⟩ := ih h
          refine ⟨hl, ?_⟩
          simp only [nest, tokens, List.cons_append, ht]
      | placeholder name =>
          obtain ⟨hl, ht⟩ := ih h
          refine ⟨hl, ?_⟩
          simp only [nest, tokens, List.cons_append, ht]
      | groupClose =>
          cases level with
          | zero => cases h
          | succ level =>
              obtain ⟨hl, ht⟩ := ih h
              refine ⟨congrArg Nat.succ hl, ?_⟩
              simp only [nest, tokens, closings_cons, List.nil_append, ht]
      | groupOpen =>
          obtain ⟨hl, ht⟩ := ih h
          -- the rest is read inside the group, so it holds one sequence more
          cases hn : nest rest with
          | mk content outer =>
              rw [hn] at hl ht
              cases outer with
              | nil => cases hl
              | cons next outer =>
                  simp only [nest, hn]
                  refine ⟨Nat.succ.inj hl, ?_⟩
                  rw [closings_cons] at ht
                  simp only [tokens, List.cons_append, List.append_assoc, ht]

/-- The tree of a sequence whose brackets pair up writes that sequence. -/
theorem tokens_ofTokens {tokens : List Token} (h : Token.checkBrackets tokens = .ok ()) :
    (ofTokens tokens).tokens = tokens := by
  obtain ⟨hl, ht⟩ := nest_of_checkBracketsFrom h
  rw [List.length_eq_zero_iff] at hl
  rw [hl] at ht
  unfold ofTokens
  simpa [closings] using ht

end Tree

namespace Token

/-! ### Distinct names -/

theorem names_group (content next : Tree) :
    names (Tree.group content next).tokens = names content.tokens ++ names next.tokens := by
  rw [Tree.tokens, names, List.filterMap_cons_none rfl, List.filterMap_append,
    List.filterMap_cons_none rfl]
  rfl

/-- A list without repetition is collected, up to the first name that occurred before. -/
theorem distinctFrom_cases {found : List String} (hf : found.Nodup) (tokens : List Token) :
    (distinctFrom found tokens = .ok (found ++ names tokens) ∧ (found ++ names tokens).Nodup) ∨
      ∃ front name rest, names tokens = front ++ name :: rest ∧ name ∈ found ++ front ∧
        (found ++ front).Nodup ∧ distinctFrom found tokens = .error (.repeatedPlaceholder name) := by
  induction tokens generalizing found with
  | nil =>
      rw [names, List.filterMap_nil, List.append_nil]
      exact .inl ⟨rfl, hf⟩
  | cons token rest ih =>
      rw [distinctFrom]
      cases hn : token.name? with
      | none =>
          rw [names_cons_of_none hn]
          exact ih hf
      | some name =>
          rw [names_cons_of_some hn]
          dsimp only
          by_cases hm : name ∈ found
          · rw [if_pos hm]
            refine .inr ⟨[], name, _, rfl, ?_, ?_, rfl⟩
            · exact List.mem_append_left [] hm
            · rwa [List.append_nil]
          · rw [if_neg hm, List.append_cons found name (names rest)]
            have hnew : (found ++ [name]).Nodup := by
              rw [List.nodup_append]
              refine ⟨hf, List.pairwise_singleton _ _, ?_⟩
              rintro other ho _ hs rfl
              exact hm (List.mem_singleton.mp hs ▸ ho)
            refine (ih hnew).imp_right ?_
            rintro ⟨front, other, after, he, ho, hd, hr⟩
            rw [List.append_assoc, List.singleton_append] at ho hd
            exact ⟨name :: front, other, after, congrArg (List.cons name) he, ho, hd, hr⟩

theorem distinctFrom_eq_error {found front rest : List String} {name : String} {tokens : List Token}
    (hn : names tokens = front ++ name :: rest) (hm : name ∈ found ++ front)
    (hd : (found ++ front).Nodup) :
    distinctFrom found tokens = .error (.repeatedPlaceholder name) := by
  induction tokens generalizing found front with
  | nil => exact absurd hn.symm (List.append_ne_nil_of_right_ne_nil front (List.cons_ne_nil _ _))
  | cons token tokens ih =>
      rw [distinctFrom]
      cases ht : token.name? with
      | none =>
          rw [names_cons_of_none ht] at hn
          exact ih hn hm hd
      | some first =>
          rw [names_cons_of_some ht] at hn
          dsimp only
          cases front with
          | nil =>
              obtain ⟨rfl, -⟩ := List.cons.inj hn
              rw [List.append_nil] at hm
              rw [if_pos hm]
          | cons other front =>
              obtain ⟨rfl, htail⟩ := List.cons.inj hn
              have hnew : first ∉ found := fun hf =>
                (List.nodup_append.mp hd).2.2 first hf first List.mem_cons_self rfl
              rw [List.append_cons] at hm hd
              rw [if_neg hnew]
              exact ih htail hm hd

theorem distinctNames_eq_ok_iff {tokens : List Token} {found : List String} :
    distinctNames tokens = .ok found ↔ found = names tokens ∧ (names tokens).Nodup := by
  unfold distinctNames
  obtain ⟨hr, hd⟩ | ⟨front, name, rest, he, hm, -, hr⟩ := distinctFrom_cases List.nodup_nil tokens
  · rw [hr, Except.ok.injEq, List.nil_append]
    exact ⟨fun h => ⟨h.symm, hd⟩, fun h => h.1.symm⟩
  · rw [hr]
    refine iff_of_false (fun h => nomatch h) ?_
    rintro ⟨-, hd⟩
    rw [he] at hd
    exact (List.nodup_append.mp hd).2.2 name hm name List.mem_cons_self rfl

theorem distinctNames_eq_error_iff {tokens : List Token} {fault : PatternError} :
    distinctNames tokens = .error fault ↔
      ∃ front name rest, names tokens = front ++ name :: rest ∧ name ∈ front ∧ front.Nodup ∧
        fault = .repeatedPlaceholder name := by
  constructor
  · intro h
    obtain ⟨hr, -⟩ | ⟨front, name, rest, he, hm, hd, hr⟩ := distinctFrom_cases List.nodup_nil tokens
    · cases hr.symm.trans h
    · cases hr.symm.trans h
      exact ⟨front, name, rest, he, hm, hd, rfl⟩
  · rintro ⟨front, name, rest, he, hm, hd, rfl⟩
    exact distinctFrom_eq_error he hm hd

end Token

namespace Pattern

theorem compile_of_imbalance {text : String} {tokens : List Token} {fault : Imbalance}
    (hs : Token.scan text = .ok tokens) (hb : Token.checkBrackets tokens = .error fault) :
    compile text = .error (.unbalanced fault) := by
  rw [compile, hs]
  show ((Token.checkBrackets tokens).mapError PatternError.unbalanced).bind _ = _
  rw [hb]
  rfl

theorem compile_of_repetition {text : String} {tokens : List Token} {fault : PatternError}
    (hs : Token.scan text = .ok tokens) (hb : Token.checkBrackets tokens = .ok ())
    (hn : Token.distinctNames tokens = .error fault) : compile text = .error fault := by
  rw [compile, hs]
  show ((Token.checkBrackets tokens).mapError PatternError.unbalanced).bind _ = _
  rw [hb]
  dsimp only [Except.mapError, Except.bind]
  split
  · next other ho =>
    cases hn.symm.trans ho
    rfl
  · next found ho => cases hn.symm.trans ho

theorem compile_of_distinctNames {text : String} {tokens : List Token} {found : List String}
    (hs : Token.scan text = .ok tokens) (hb : Token.checkBrackets tokens = .ok ())
    (hn : Token.distinctNames tokens = .ok found) :
    compile text = if (Tree.ofTokens tokens).depth ≤ depthLimit then
      .ok ⟨text, tokens, found, Token.names_of_distinctNames hn⟩ else .error .nestedTooDeep := by
  rw [compile, hs]
  show ((Token.checkBrackets tokens).mapError PatternError.unbalanced).bind _ = _
  rw [hb]
  dsimp only [Except.mapError, Except.bind]
  split
  · next fault ho => cases hn.symm.trans ho
  · next other ho =>
    cases hn.symm.trans ho
    rfl

/-- A compiled pattern keeps the tokens of its text; the brackets pair up and no name occurs
twice. -/
theorem compile_eq_ok {text : String} {pattern : Pattern} (h : compile text = .ok pattern) :
    Token.scan text = .ok pattern.tokens ∧ Token.checkBrackets pattern.tokens = .ok () ∧
      pattern.placeholders.Nodup := by
  cases hs : Token.scan text with
  | error fault => rw [compile, hs] at h; cases h
  | ok tokens =>
      cases hb : Token.checkBrackets tokens with
      | error fault => rw [compile_of_imbalance hs hb] at h; cases h
      | ok _ =>
          cases hn : Token.distinctNames tokens with
          | error fault => rw [compile_of_repetition hs hb hn] at h; cases h
          | ok found =>
              rw [compile_of_distinctNames hs hb hn] at h
              split at h
              · cases h
                obtain ⟨rfl, hd⟩ := Token.distinctNames_eq_ok_iff.mp hn
                exact ⟨rfl, hb, hd⟩
              · cases h

theorem tokens_tree {text : String} {pattern : Pattern} (h : compile text = .ok pattern) :
    pattern.tree.tokens = pattern.tokens :=
  Tree.tokens_ofTokens (compile_eq_ok h).2.1

theorem names_tree {text : String} {pattern : Pattern} (h : compile text = .ok pattern) :
    Token.names pattern.tree.tokens = pattern.placeholders := by
  rw [tokens_tree h, pattern.collected]

end Pattern

end UrlRouting
