import UrlRouting.Proofs.Grammar

/-! # What the compiler accepts and reports

The four tests of the compiler, put as conditions on the text.

* `Pattern.Outcome`: the result of each test that can end the compilation.
* `Pattern.compile_eq_iff`: the compiler returns the outcome of the first test that fails.
* `Pattern.compile_iff_derivation`: it accepts the grammar of patterns, with distinct names and a
  bounded depth, and the order of its tests decides the fault of any other text. -/

namespace UrlRouting.Pattern

/-! ### The tests in order -/

/-- A test that ends the compilation of a text, after those before it have succeeded, and the
result that it gives. -/
inductive Outcome (text : String) : Except PatternError Pattern → Prop where
  /-- A brace is stray. -/
  | malformed {offset : Nat} (scan : Token.scan text = .error (.malformedPlaceholder offset)) :
    Outcome text (.error (.malformedPlaceholder offset))
  /-- The brackets do not pair up. -/
  | unbalanced {tokens : List Token} {imbalance : Imbalance} (scan : Token.scan text = .ok tokens)
    (brackets : Token.checkBrackets tokens = .error imbalance) :
    Outcome text (.error (.unbalanced imbalance))
  /-- A name occurs twice. -/
  | repeated {tokens : List Token} {name : String} (scan : Token.scan text = .ok tokens)
    (brackets : Token.checkBrackets tokens = .ok ())
    (names : Token.distinctNames tokens = .error (.repeatedPlaceholder name)) :
    Outcome text (.error (.repeatedPlaceholder name))
  /-- The depth is beyond the limit. -/
  | tooDeep {tokens : List Token} {found : List String} (scan : Token.scan text = .ok tokens)
    (brackets : Token.checkBrackets tokens = .ok ()) (names : Token.distinctNames tokens = .ok found)
    (depth : depthLimit < (Tree.ofTokens tokens).depth) :
    Outcome text (.error .nestedTooDeep)
  /-- Every test has succeeded. -/
  | accepted {tokens : List Token} {found : List String} (scan : Token.scan text = .ok tokens)
    (brackets : Token.checkBrackets tokens = .ok ()) (names : Token.distinctNames tokens = .ok found)
    (depth : (Tree.ofTokens tokens).depth ≤ depthLimit) :
    Outcome text (.ok ⟨text, tokens, found, Token.names_of_distinctNames names⟩)

theorem outcome_compile (text : String) : Outcome text (compile text) := by
  cases hs : Token.scan text with
  | error fault =>
      rw [compile, hs]
      obtain ⟨_, _, _, _, _, rfl⟩ := Token.scanFrom_eq_error_iff.mp hs
      exact .malformed hs
  | ok tokens =>
      cases hb : Token.checkBrackets tokens with
      | error imbalance =>
          rw [compile_of_imbalance hs hb]
          exact .unbalanced hs hb
      | ok _ =>
          cases hn : Token.distinctNames tokens with
          | error fault =>
              rw [compile_of_repetition hs hb hn]
              obtain ⟨_, _, _, _, _, _, rfl⟩ := Token.distinctNames_eq_error_iff.mp hn
              exact .repeated hs hb hn
          | ok found =>
              rw [compile_of_distinctNames hs hb hn]
              split
              · next hd => exact .accepted hs hb hn hd
              · next hd => exact .tooDeep hs hb hn (Nat.lt_of_not_le hd)

theorem Outcome.compile_eq {text : String} {result : Except PatternError Pattern}
    (h : Outcome text result) : compile text = result := by
  cases h with
  | malformed scan => rw [compile, scan]; rfl
  | unbalanced scan brackets => exact compile_of_imbalance scan brackets
  | repeated scan brackets names => exact compile_of_repetition scan brackets names
  | tooDeep scan brackets names depth =>
      rw [compile_of_distinctNames scan brackets names]
      exact if_neg (Nat.not_le_of_lt depth)
  | accepted scan brackets names depth =>
      rw [compile_of_distinctNames scan brackets names]
      exact if_pos depth

/-- The compiler returns the outcome of its tests. -/
theorem compile_eq_iff {text : String} {result : Except PatternError Pattern} :
    compile text = result ↔ Outcome text result := by
  refine ⟨?_, Outcome.compile_eq⟩
  rintro rfl
  exact outcome_compile text

/-! ### Conditions on the text -/

theorem malformed_iff {text : String} :
    (∃ offset, compile text = .error (.malformedPlaceholder offset)) ↔
      Token.HasStray text.toList := by
  rw [Token.hasStray_iff]
  refine exists_congr fun offset => ?_
  rw [compile_eq_iff]
  constructor
  · rintro ⟨hs⟩
    exact hs
  · exact .malformed

theorem unbalanced_iff {text : String} {imbalance : Imbalance} :
    compile text = .error (.unbalanced imbalance) ↔
      ∃ tokens, Token.scan text = .ok tokens ∧ Token.checkBrackets tokens = .error imbalance := by
  rw [compile_eq_iff]
  constructor
  · rintro ⟨⟩
    next tokens hs hb => exact ⟨tokens, hs, hb⟩
  · rintro ⟨tokens, hs, hb⟩
    exact .unbalanced hs hb

theorem unopened_iff {text : String} :
    (∃ index, compile text = .error (.unbalanced (.unopened index))) ↔
      ¬ Token.HasStray text.toList ∧ Token.Overclosed 0 text.toList := by
  simp only [unbalanced_iff]
  rw [← Token.exists_scanFrom_iff]
  constructor
  · rintro ⟨index, tokens, hs, hb⟩
    exact ⟨⟨tokens, hs⟩, (Token.checkBrackets_unopened_iff hs).mp ⟨index, hb⟩⟩
  · rintro ⟨⟨tokens, hs⟩, ho⟩
    obtain ⟨index, hb⟩ := (Token.checkBrackets_unopened_iff hs).mpr ho
    exact ⟨index, tokens, hs, hb⟩

theorem unclosed_iff {text : String} {groups : Nat} :
    compile text = .error (.unbalanced (.unclosed groups)) ↔
      ¬ Token.HasStray text.toList ∧ ¬ Token.Overclosed 0 text.toList ∧ 0 < groups ∧
        text.toList.count '[' = text.toList.count ']' + groups := by
  rw [unbalanced_iff, ← Token.exists_scanFrom_iff]
  constructor
  · rintro ⟨tokens, hs, hb⟩
    exact ⟨⟨tokens, hs⟩, (Token.checkBrackets_unclosed_iff hs).mp hb⟩
  · rintro ⟨⟨tokens, hs⟩, hc⟩
    exact ⟨tokens, hs, (Token.checkBrackets_unclosed_iff hs).mpr hc⟩

theorem repeated_iff {text : String} {name : String} :
    compile text = .error (.repeatedPlaceholder name) ↔
      ∃ (d : Derivation text.toList) (front rest : List String),
        d.names = front ++ name :: rest ∧ name ∈ front ∧ front.Nodup := by
  rw [compile_eq_iff]
  constructor
  · rintro ⟨⟩
    next tokens hs hb hn =>
    obtain ⟨d, hd, -⟩ := exists_derivation_iff.mpr ⟨tokens, hs, hb, rfl, rfl⟩
    obtain ⟨front, _, rest, he, hm, hf, ⟨⟩⟩ := Token.distinctNames_eq_error_iff.mp hn
    exact ⟨d, front, rest, hd.trans he, hm, hf⟩
  · rintro ⟨d, front, rest, he, hm, hf⟩
    obtain ⟨tokens, hs, hb, hd, -⟩ := exists_derivation_iff.mp ⟨d, rfl, rfl⟩
    exact .repeated hs hb
      (Token.distinctNames_eq_error_iff.mpr ⟨front, name, rest, hd.trans he, hm, hf, rfl⟩)

theorem tooDeep_iff {text : String} :
    compile text = .error .nestedTooDeep ↔
      ∃ d : Derivation text.toList, d.names.Nodup ∧ depthLimit < d.depth := by
  rw [compile_eq_iff]
  constructor
  · rintro ⟨⟩
    next tokens found hs hb hn hd =>
    obtain ⟨d, hnames, hdepth⟩ := exists_derivation_iff.mpr ⟨tokens, hs, hb, rfl, rfl⟩
    obtain ⟨rfl, hnodup⟩ := Token.distinctNames_eq_ok_iff.mp hn
    exact ⟨d, hnames ▸ hnodup, hdepth ▸ hd⟩
  · rintro ⟨d, hnodup, hd⟩
    obtain ⟨tokens, hs, hb, hnames, hdepth⟩ := exists_derivation_iff.mp ⟨d, rfl, rfl⟩
    exact .tooDeep hs hb (Token.distinctNames_eq_ok_iff.mpr ⟨rfl, hnames ▸ hnodup⟩) (hdepth ▸ hd)

theorem accepted_iff {text : String} {names : List String} :
    (∃ pattern, compile text = .ok pattern ∧ pattern.placeholders = names) ↔
      ∃ d : Derivation text.toList, d.names = names ∧ d.names.Nodup ∧ d.depth ≤ depthLimit := by
  simp only [compile_eq_iff]
  constructor
  · rintro ⟨_, ⟨⟩, rfl⟩
    next tokens found hs hb hn hd =>
    obtain ⟨d, hnames, hdepth⟩ := exists_derivation_iff.mpr ⟨tokens, hs, hb, rfl, rfl⟩
    obtain ⟨hfound, hnodup⟩ := Token.distinctNames_eq_ok_iff.mp hn
    exact ⟨d, hnames.trans hfound.symm, hnames ▸ hnodup, hdepth ▸ hd⟩
  · rintro ⟨d, rfl, hnodup, hd⟩
    obtain ⟨tokens, hs, hb, hnames, hdepth⟩ := exists_derivation_iff.mp ⟨d, rfl, rfl⟩
    have hn : Token.distinctNames tokens = .ok (Token.names tokens) :=
      Token.distinctNames_eq_ok_iff.mpr ⟨rfl, hnames ▸ hnodup⟩
    exact ⟨_, .accepted hs hb hn (hdepth ▸ hd), hnames⟩

/-- **The compiler accepts its grammar.** A text compiles, with the names of its placeholders in
order, if it has a derivation with distinct names whose depth is at most 250. Otherwise the first
condition that fails decides the fault: a stray brace; then a start that closes more groups than it
opens, or groups left open; then the first name that occurred before; then the depth. -/
theorem compile_iff_derivation (text : String) :
    (∀ names, (∃ pattern, compile text = .ok pattern ∧ pattern.placeholders = names) ↔
      ∃ d : Derivation text.toList, d.names = names ∧ d.names.Nodup ∧ d.depth ≤ 250) ∧
    ((∃ offset, compile text = .error (.malformedPlaceholder offset)) ↔
      Token.HasStray text.toList) ∧
    ((∃ index, compile text = .error (.unbalanced (.unopened index))) ↔
      ¬ Token.HasStray text.toList ∧ Token.Overclosed 0 text.toList) ∧
    (∀ groups, compile text = .error (.unbalanced (.unclosed groups)) ↔
      ¬ Token.HasStray text.toList ∧ ¬ Token.Overclosed 0 text.toList ∧ 0 < groups ∧
        text.toList.count '[' = text.toList.count ']' + groups) ∧
    (∀ name, compile text = .error (.repeatedPlaceholder name) ↔
      ∃ (d : Derivation text.toList) (front rest : List String),
        d.names = front ++ name :: rest ∧ name ∈ front ∧ front.Nodup) ∧
    (compile text = .error .nestedTooDeep ↔
      ∃ d : Derivation text.toList, d.names.Nodup ∧ 250 < d.depth) :=
  ⟨fun _ => accepted_iff, malformed_iff, unopened_iff, fun _ => unclosed_iff,
    fun _ => repeated_iff, tooDeep_iff⟩

end UrlRouting.Pattern
