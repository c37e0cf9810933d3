import UrlRouting.Pattern.Expression

/-! # Regular expressions read back

The regular expression of a token sequence determines the tokens, up to the names of placeholders
and the way in which literals are cut.

* `Token.Alike` are the sequences that differ in these respects only. `Token.outline` gives a form
  that alike sequences share (`Token.outline_eq_iff`).
* `Token.readExpression` reads a regular expression piece by piece, and it recovers the outline
  (`Token.readExpression_expressionOf`).
* `Lexeme.scan` cuts a regular expression by the syntax of such expressions alone. What it finds in
  the expression of a literal are characters that stand for themselves (`Lexeme.scan_expressionOf`).
* `Token.expressionOf_decodable` puts this together. -/

namespace UrlRouting

namespace Token

/-! ### Sequences up to names and cuts -/

/-- The sequences differ in names of placeholders, in literals cut in two, and in empty literals. -/
inductive Alike : List Token → List Token → Prop
  | refl (tokens : List Token) : Alike tokens tokens
  | symm {a b : List Token} (h : Alike a b) : Alike b a
  | trans {a b c : List Token} (h : Alike a b) (h' : Alike b c) : Alike a c
  | cons (token : Token) {a b : List Token} (h : Alike a b) : Alike (token :: a) (token :: b)
  | rename (name other : String) (rest : List Token) :
    Alike (placeholder name :: rest) (placeholder other :: rest)
  | join (first second : String) (rest : List Token) :
    Alike (literal first :: literal second :: rest) (literal (first ++ second) :: rest)
  | drop (rest : List Token) : Alike (literal "" :: rest) rest

/-- A text in front of tokens, as part of their first literal if they begin with one. -/
def joinLiteral (text : String) : List Token → List Token
  | literal next :: rest => literal (text ++ next) :: rest
  | rest => if text = "" then rest else literal text :: rest

/-- The tokens without names, with literals as long as possible and none that is empty. -/
def outline : List Token → List Token
  | [] => []
  | literal text :: rest => joinLiteral text (outline rest)
  | placeholder _ :: rest => placeholder "" :: outline rest
  | groupOpen :: rest => groupOpen :: outline rest
  | groupClose :: rest => groupClose :: outline rest

theorem joinLiteral_empty (tokens : List Token) : joinLiteral "" tokens = tokens := by
  unfold joinLiteral
  split
  · rw [String.empty_append]
  · exact if_pos rfl

theorem joinLiteral_append (first second : String) (tokens : List Token) :
    joinLiteral (first ++ second) tokens = joinLiteral first (joinLiteral second tokens) := by
  by_cases hs : second = ""
  · rw [hs, String.append_empty, joinLiteral_empty]
  have hne : first ++ second ≠ "" := by simp [hs]
  cases tokens with
  | nil => simp [joinLiteral, hs]
  | cons token rest => cases token <;> simp [joinLiteral, hs, String.append_assoc]

theorem Alike.joinLiteral (text : String) (tokens : List Token) :
    Alike (literal text :: tokens) (joinLiteral text tokens) := by
  unfold Token.joinLiteral
  split
  · exact .join _ _ _
  · split
    · next h =>
      subst h
      exact .drop _
    · exact .refl _

theorem Alike.outline (tokens : List Token) : Alike tokens (outline tokens) := by
  induction tokens with
  | nil => exact .refl []
  | cons token rest ih =>
      cases token with
      | literal text => exact (ih.cons (literal text)).trans (.joinLiteral text _)
      | placeholder name => exact (ih.cons (placeholder name)).trans (.rename name "" _)
      | groupOpen => exact ih.cons groupOpen
      | groupClose => exact ih.cons groupClose

theorem outline_eq_iff {a b : List Token} : outline a = outline b ↔ Alike a b := by
  constructor
  · intro h
    exact (Alike.outline a).trans (h ▸ (Alike.outline b).symm)
  · intro h
    induction h with
    | refl => rfl
    | symm _ ih => exact ih.symm
    | trans _ _ ih ih' => exact ih.trans ih'
    | cons token _ ih => cases token <;> simp only [outline, ih]
    | rename => rfl
    | join first second rest => exact (joinLiteral_append first second (outline rest)).symm
    | drop rest => exact joinLiteral_empty (outline rest)

/-! ### Reading -/

/-- The tokens of a regular expression behind its first anchor: escaped characters, captures, starts
and ends of optional groups, and characters that are not special, up to the last anchor. -/
def readExpressionFrom : List Char → Option (List Token)
  | ['$'] => some []
  | '\\' :: c :: rest => (readExpressionFrom rest).map (joinLiteral (String.singleton c))
  | '(' :: '[' :: '^' :: '/' :: ']' :: '+' :: ')' :: rest =>
    (readExpressionFrom rest).map (placeholder "" :: ·)
  | '(' :: '?' :: ':' :: rest => (readExpressionFrom rest).map (groupOpen :: ·)
  | ')' :: '?' :: rest => (readExpressionFrom rest).map (groupClose :: ·)
  | c :: rest =>
    if isSpecial c then none
    else (readExpressionFrom rest).map (joinLiteral (String.singleton c))
  | [] => none

/-- The tokens of a regular expression, without names. -/
def readExpression (text : String) : Option (List Token) :=
  match text.toList with
  | '^' :: rest => readExpressionFrom rest
  | _ => none

theorem expression_literal (text : String) :
    (literal text).expression = text.toList.flatMap escapeSpecial := rfl

/-- A character that is not special begins none of the longer pieces. -/
theorem readExpressionFrom_plain {c : Char} (h : isSpecial c = false) (rest : List Char) :
    readExpressionFrom (c :: rest) =
      (readExpressionFrom rest).map (joinLiteral (String.singleton c)) := by
  generalize hr : (readExpressionFrom rest).map _ = result
  unfold readExpressionFrom
  split
  · next he => cases he; cases h
  · next he => cases he; cases h
  · next he => cases he; cases h
  · next he => cases he; cases h
  · next he => cases he; cases h
  · next d tail _ _ _ _ _ he =>
    cases he
    rw [h]
    exact hr
  · next he => cases he

theorem readExpressionFrom_escapeSpecial (c : Char) (rest : List Char) :
    readExpressionFrom (escapeSpecial c ++ rest) =
      (readExpressionFrom rest).map (joinLiteral (String.singleton c)) := by
  unfold escapeSpecial
  cases h : isSpecial c with
  | true => rfl
  | false => exact readExpressionFrom_plain h rest

theorem readExpressionFrom_escape (text : List Char) (rest : List Char) :
    readExpressionFrom (text.flatMap escapeSpecial ++ rest) =
      (readExpressionFrom rest).map (joinLiteral (String.ofList text)) := by
  induction text with
  | nil =>
      have hid : joinLiteral (String.ofList []) = id := funext joinLiteral_empty
      rw [hid, Option.map_id, List.flatMap_nil, List.nil_append, id]
  | cons c text ih =>
      rw [List.flatMap_cons, List.append_assoc, readExpressionFrom_escapeSpecial, ih, Option.map_map]
      congr 1
      funext tokens
      have hcons : String.ofList (c :: text) = String.singleton c ++ String.ofList text := by
        rw [← String.toList_inj]
        simp
      rw [hcons, joinLiteral_append]
      rfl

theorem readExpressionFrom_expression (tokens : List Token) :
    readExpressionFrom (tokens.flatMap expression ++ ['$']) = some (outline tokens) := by
  induction tokens with
  | nil => rfl
  | cons token rest ih =>
      rw [List.flatMap_cons, List.append_assoc]
      cases token with
      | literal text =>
          rw [expression_literal, readExpressionFrom_escape, ih, String.ofList_toList]
          rfl
      | placeholder name => exact congrArg (Option.map (placeholder "" :: ·)) ih
      | groupOpen => exact congrArg (Option.map (groupOpen :: ·)) ih
      | groupClose => exact congrArg (Option.map (groupClose :: ·)) ih

/-- Reading recovers the outline of the tokens, whether or not their brackets pair up. -/
theorem readExpression_expressionOf (tokens : List Token) :
    readExpression (expressionOf tokens) = some (outline tokens) := by
  rw [readExpression, expressionOf, String.toList_ofList]
  exact readExpressionFrom_expression tokens

theorem flatMap_expression_joinLiteral (text : String) (tokens : List Token) :
    (joinLiteral text tokens).flatMap expression =
      text.toList.flatMap escapeSpecial ++ tokens.flatMap expression := by
  unfold joinLiteral
  split
  · simp [expression_literal]
  · split
    · next h => simp [h]
    · simp [expression_literal]

theorem flatMap_expression_outline (tokens : List Token) :
    (outline tokens).flatMap expression = tokens.flatMap expression := by
  induction tokens with
  | nil => rfl
  | cons token rest ih =>
      cases token with
      | literal text =>
          rw [outline, flatMap_expression_joinLiteral, ih, List.flatMap_cons, expression_literal]
      | placeholder name =>
          rw [outline, List.flatMap_cons, List.flatMap_cons, ih]
          rfl
      | groupOpen => rw [outline, List.flatMap_cons, List.flatMap_cons, ih]
      | groupClose => rw [outline, List.flatMap_cons, List.flatMap_cons, ih]

/-- Two sequences have the same regular expression if they are alike. -/
theorem expressionOf_eq_iff {a b : List Token} : expressionOf a = expressionOf b ↔ Alike a b := by
  rw [← outline_eq_iff]
  constructor
  · intro h
    have hread := congrArg readExpression h
    rw [readExpression_expressionOf, readExpression_expressionOf] at hread
    exact Option.some.inj hread
  · intro h
    rw [expressionOf, ← flatMap_expression_outline, h, flatMap_expression_outline, expressionOf]

end Token

/-! ### The syntax of regular expressions -/

/-- A piece of a regular expression, as its syntax has it. -/
inductive Lexeme where
  /-- A character that stands for itself. -/
  | char (c : Char)
  /-- A class of characters, with what stands between its brackets. -/
  | set (content : List Char)
  /-- The start of a group; the capturing ones are numbered from left to right. -/
  | opens (capturing : Bool)
  /-- The end of a group. -/
  | closes
  /-- An anchor, a quantifier, an alternative or the mark for any character. -/
  | operator (c : Char)
deriving DecidableEq, Repr

namespace Lexeme

/-- The characters that are operators unless they are escaped. -/
def isOperator (c : Char) : Bool := ".+*?|\x7b^$".toList.contains c

/-- The pieces of a regular expression, given the beginning of the class that is open, if one is.
Groups of other kinds than the two, and escapes that stand for more than a character, are not
covered. -/
def scanFrom : Option (List Char) → List Char → Option (List Lexeme)
  | none, [] => some []
  | some _, [] => none
  | some content, c :: rest =>
    if c = ']' then (scanFrom none rest).map (set content :: ·)
    else scanFrom (some (content ++ [c])) rest
  | none, '\\' :: c :: rest =>
    if Token.isSpecial c then (scanFrom none rest).map (char c :: ·) else none
  | none, '(' :: '?' :: ':' :: rest => (scanFrom none rest).map (opens false :: ·)
  | none, '(' :: '?' :: _ => none
  | none, '(' :: rest => (scanFrom none rest).map (opens true :: ·)
  | none, ')' :: rest => (scanFrom none rest).map (closes :: ·)
  | none, '[' :: rest => scanFrom (some []) rest
  | none, c :: rest => (scanFrom none rest).map ((if isOperator c then operator c else char c) :: ·)

/-- The pieces of a regular expression. -/
def scan (text : String) : Option (List Lexeme) := scanFrom none text.toList

/-- The pieces of the regular expression of a token. -/
def ofToken : Token → List Lexeme
  | .literal text => text.toList.map char
  | .placeholder _ => [opens true, set ['^', '/'], operator '+', closes]
  | .groupOpen => [opens false]
  | .groupClose => [closes, operator '?']

theorem isSpecial_of_isOperator {c : Char} (h : isOperator c = true) : Token.isSpecial c = true := by
  unfold isOperator at h
  rw [List.contains_iff_mem] at h
  have hall : ".+*?|\x7b^$".toList.all Token.isSpecial = true := rfl
  exact List.all_eq_true.mp hall c h

theorem scanFrom_plain {c : Char} (h : Token.isSpecial c = false) (rest : List Char) :
    scanFrom none (c :: rest) = (scanFrom none rest).map (char c :: ·) := by
  have hop : isOperator c = false := by
    rw [← Bool.not_eq_true]
    exact fun ho => Bool.false_ne_true (h.symm.trans (isSpecial_of_isOperator ho))
  generalize hr : (scanFrom none rest).map _ = result
  unfold scanFrom
  split
  · next he => cases he
  · next hn _ => cases hn
  · next hn _ => cases hn
  · next he => cases he; cases h
  · next he => cases he; cases h
  · next he => cases he; cases h
  · next he => cases he; cases h
  · next he => cases he; cases h
  · next he => cases he; cases h
  · next he =>
    cases he
    rw [hop]
    exact hr

theorem scanFrom_escapeSpecial (c : Char) (rest : List Char) :
    scanFrom none (Token.escapeSpecial c ++ rest) = (scanFrom none rest).map (char c :: ·) := by
  unfold Token.escapeSpecial
  cases h : Token.isSpecial c with
  | true =>
      show (if Token.isSpecial c = true then _ else _) = _
      rw [if_pos h]
      rfl
  | false => exact scanFrom_plain h rest

theorem scanFrom_expression (tokens : List Token) :
    scanFrom none (tokens.flatMap Token.expression ++ ['$']) =
      some (tokens.flatMap ofToken ++ [operator '$']) := by
  induction tokens with
  | nil => rfl
  | cons token rest ih =>
      rw [List.flatMap_cons, List.append_assoc, List.flatMap_cons, List.append_assoc]
      cases token with
      | literal text =>
          rw [Token.expression_literal, ofToken]
          induction text.toList with
          | nil => exact ih
          | cons c text iht =>
              rw [List.flatMap_cons, List.append_assoc, scanFrom_escapeSpecial, iht]
              rfl
      | placeholder name =>
          have hpieces (more : List Char) :
              scanFrom none ((Token.placeholder name).expression ++ more) =
                ((((scanFrom none more).map (closes :: ·)).map (operator '+' :: ·)).map
                  (set ['^', '/'] :: ·)).map (opens true :: ·) := rfl
          rw [hpieces, ih]
          rfl
      | groupOpen => exact congrArg (Option.map (opens false :: ·)) ih
      | groupClose =>
          have hpieces (more : List Char) : scanFrom none (Token.groupClose.expression ++ more) =
              ((scanFrom none more).map (operator '?' :: ·)).map (closes :: ·) := rfl
          rw [hpieces, ih]
          rfl

/-- The syntax finds an anchor at both ends and between them the pieces of each token. -/
theorem scan_expressionOf (tokens : List Token) :
    scan (Token.expressionOf tokens) =
      some (operator '^' :: tokens.flatMap ofToken ++ [operator '$']) := by
  rw [scan, Token.expressionOf, String.toList_ofList]
  exact congrArg (Option.map (operator '^' :: ·)) (scanFrom_expression tokens)

theorem count_opens_ofToken (tokens : List Token) :
    (tokens.flatMap ofToken).count (opens true) = (Token.names tokens).length := by
  induction tokens with
  | nil => rfl
  | cons token rest ih =>
      rw [List.flatMap_cons, List.count_append, ih]
      cases token with
      | literal text =>
          have hnone : (ofToken (.literal text)).count (opens true) = 0 := by
            simp [ofToken, List.count_eq_zero]
          rw [hnone, Nat.zero_add]
          rfl
      | placeholder name => exact Nat.add_comm 1 _
      | groupOpen => exact Nat.zero_add _
      | groupClose => exact Nat.zero_add _

end Lexeme

/-- **Regular expressions are decodable.** Whatever the tokens are, balanced or not and with any
characters in their literals, reading their regular expression recovers them up to names, cuts and
empty literals, and two sequences that differ otherwise have different expressions. By the syntax of
regular expressions a literal gives only characters that stand for themselves, so that no group,
class, anchor or quantifier begins or ends in it; and the number of the capturing group of a
placeholder is the number of placeholders before it. -/
theorem Token.expressionOf_decodable (tokens : List Token) :
    readExpression (expressionOf tokens) = some (outline tokens) ∧
      (∀ other, expressionOf tokens = expressionOf other ↔ Alike tokens other) ∧
      Lexeme.scan (expressionOf tokens) =
        some (.operator '^' :: tokens.flatMap Lexeme.ofToken ++ [.operator '$']) ∧
      (∀ text, ∀ piece ∈ Lexeme.ofToken (literal text), ∃ c ∈ text.toList, piece = .char c) ∧
      ∀ front name rest, tokens = front ++ placeholder name :: rest →
        tokens.flatMap Lexeme.ofToken =
            front.flatMap Lexeme.ofToken ++ .opens true :: .set ['^', '/'] :: .operator '+' ::
              .closes :: rest.flatMap Lexeme.ofToken ∧
          (front.flatMap Lexeme.ofToken).count (.opens true) = (names front).length ∧
          (names tokens)[(names front).length]? = some name := by
  refine ⟨readExpression_expressionOf tokens, fun _ => expressionOf_eq_iff,
    Lexeme.scan_expressionOf tokens, ?_, ?_⟩
  · intro text piece hp
    obtain ⟨c, hc, he⟩ := List.mem_map.mp hp
    exact ⟨c, hc, he.symm⟩
  · rintro front name rest rfl
    refine ⟨?_, Lexeme.count_opens_ofToken front, ?_⟩
    · rw [List.flatMap_append, List.flatMap_cons]
      rfl
    · have hnames : names (front ++ placeholder name :: rest) = names front ++ name :: names rest :=
        List.filterMap_append
      rw [hnames, List.getElem?_append_right (Nat.le_refl _), Nat.sub_self]
      rfl

/-- A literal that imitates the pieces is read as a literal. -/
example : Token.readExpression (Token.expressionOf
      [.literal "", .literal "([^/]+)$", .placeholder "id", .groupClose, .literal "a", .literal "]?"]) =
    some [.literal "([^/]+)$", .placeholder "", .groupClose, .literal "a]?"] := by decide

end UrlRouting
