import UrlRouting.Proofs.Delimiters
import UrlRouting.Proofs.Preference
import UrlRouting.Proofs.Sequence
import UrlRouting.Route.Rendering

/-! # Patterns of whole segments

In a segmented pattern every literal begins with `/`, except one at the very start, and every
placeholder directly follows a literal. A value then ends where its segment ends.

* `Token.Segmented` says this of a token sequence by positions; `Token.segmentedAfter` is the same
  by recursion, given the token before the sequence (`Token.segmented_iff`).
* `Tree.atSeparator_renderFrom`: behind a placeholder or a bracket, the text that is written is empty
  or begins with `/`.
* `Tree.Derives.nothing_or_slash`: behind a bracket, a derivation reads nothing or reads a `/`.
* `Tree.Needs` bounds from below the slashes of the texts that a tree matches. -/

namespace UrlRouting

namespace Token

/-- Every literal but one at the start begins with `/`, and before every placeholder stands a
literal. -/
structure Segmented (tokens : List Token) : Prop where
  literals : ∀ {index : Nat} {text : String}, tokens[index]? = some (.literal text) →
    index ≠ 0 → text.toList.head? = some '/'
  placeholders : ∀ {index : Nat} {name : String}, tokens[index]? = some (.placeholder name) →
    index ≠ 0 ∧ ∃ text, tokens[index - 1]? = some (.literal text)

/-- The token may stand behind this one, or at the start of a pattern if there is none. -/
def mayFollow : Option Token → Token → Bool
  | some _, literal text => text.toList.head? = some '/'
  | some (literal _), placeholder _ => true
  | _, placeholder _ => false
  | _, _ => true

/-- The sequence is segmented, given the token before it. -/
def segmentedAfter (front : Option Token) : List Token → Bool
  | [] => true
  | token :: rest => mayFollow front token && segmentedAfter (some token) rest

theorem mayFollow_placeholder_iff {front : Option Token} {name : String} :
    mayFollow front (placeholder name) = true ↔ ∃ text, front = some (literal text) := by
  cases front with
  | none => simp [mayFollow]
  | some token => cases token <;> simp [mayFollow]

theorem not_mayFollow_placeholder {front : Token} (h : ∀ text, front ≠ literal text)
    (name : String) : ¬ mayFollow (some front) (placeholder name) = true := by
  intro hm
  obtain ⟨text, ht⟩ := mayFollow_placeholder_iff.mp hm
  exact h text (Option.some.inj ht)

theorem segmentedAfter_cons {front : Option Token} {token : Token} {rest : List Token} :
    segmentedAfter front (token :: rest) = true ↔
      mayFollow front token = true ∧ segmentedAfter (some token) rest = true := by
  rw [segmentedAfter, Bool.and_eq_true]

theorem segmentedAfter_iff {front : Option Token} {tokens : List Token} :
    segmentedAfter front tokens = true ↔
      (∀ token, tokens[0]? = some token → mayFollow front token = true) ∧
        ∀ index token, tokens[index + 1]? = some token → mayFollow tokens[index]? token = true := by
  induction tokens generalizing front with
  | nil => simp [segmentedAfter]
  | cons first rest ih =>
      rw [segmentedAfter_cons, ih]
      constructor
      · rintro ⟨hf, hr, hs⟩
        refine ⟨fun token ht => Option.some.inj ht ▸ hf, ?_⟩
        intro index token ht
        cases index with
        | zero => exact hr token ht
        | succ index => exact hs index token ht
      · rintro ⟨hf, hs⟩
        exact ⟨hf first rfl, fun token ht => hs 0 token ht, fun index => hs (index + 1)⟩

theorem segmented_iff {tokens : List Token} :
    Segmented tokens ↔ segmentedAfter none tokens = true := by
  rw [segmentedAfter_iff]
  constructor
  · rintro ⟨hl, hp⟩
    constructor
    · intro token ht
      cases token with
      | placeholder name => exact absurd rfl (hp ht).1
      | literal text => rfl
      | groupOpen => rfl
      | groupClose => rfl
    · intro index token ht
      obtain ⟨before, hb⟩ : ∃ before, tokens[index]? = some before := by
        have hlt := (List.getElem?_eq_some_iff.mp ht).1
        exact ⟨_, List.getElem?_eq_getElem (Nat.lt_of_succ_lt hlt)⟩
      rw [hb]
      cases token with
      | placeholder name =>
          obtain ⟨-, text, hb'⟩ := hp ht
          rw [Nat.add_sub_cancel, hb] at hb'
          exact mayFollow_placeholder_iff.mpr ⟨text, hb'⟩
      | literal text => exact decide_eq_true (hl ht (Nat.succ_ne_zero index))
      | groupOpen => rfl
      | groupClose => rfl
  · rintro ⟨hf, hs⟩
    constructor
    · intro index text ht h0
      obtain ⟨index, rfl⟩ := Nat.exists_eq_succ_of_ne_zero h0
      have hm := hs index _ ht
      cases hb : tokens[index]? with
      | none =>
          have hlt := (List.getElem?_eq_some_iff.mp ht).1
          rw [List.getElem?_eq_none_iff] at hb
          omega
      | some before =>
          rw [hb] at hm
          exact of_decide_eq_true hm
    · intro index name ht
      cases index with
      | zero =>
          obtain ⟨text, h⟩ := mayFollow_placeholder_iff.mp (hf _ ht)
          cases h
      | succ index =>
          exact ⟨Nat.succ_ne_zero index, mayFollow_placeholder_iff.mp (hs index _ ht)⟩

instance (tokens : List Token) : Decidable (Segmented tokens) :=
  decidable_of_iff _ segmented_iff.symm

theorem segmentedAfter_append_close (front : Option Token) (inner rest : List Token) :
    segmentedAfter front (inner ++ groupClose :: rest) =
      (segmentedAfter front inner && segmentedAfter (some groupClose) rest) := by
  induction inner generalizing front with
  | nil =>
      have hm : mayFollow front groupClose = true := by
        cases front with
        | none => rfl
        | some token => cases token <;> rfl
      simp only [List.nil_append, segmentedAfter, hm]
  | cons token inner ih => rw [List.cons_append, segmentedAfter, segmentedAfter, ih, Bool.and_assoc]

theorem segmentedAfter_group {front : Option Token} {content next : Tree}
    (h : segmentedAfter front (Tree.group content next).tokens = true) :
    segmentedAfter (some groupOpen) content.tokens = true ∧
      segmentedAfter (some groupClose) next.tokens = true := by
  obtain ⟨-, h⟩ := segmentedAfter_cons.mp h
  rw [segmentedAfter_append_close, Bool.and_eq_true] at h
  exact h

end Token

namespace Tree

open SuffixTable

variable {values : Parameters}

/-! ### The ends of values -/

/-- Where no placeholder may stand, the text that is written is empty or begins with `/`. -/
theorem atSeparator_renderFrom {front : Token} (hf : ∀ text, front ≠ .literal text) {tree : Tree}
    (hs : Token.segmentedAfter (some front) tree.tokens = true) {after : List Char}
    (ha : AtSeparator '/' after) (dropping : Bool) :
    AtSeparator '/' ((tree.renderFrom values dropping).toList ++ after) := by
  induction tree generalizing front after dropping with
  | done => exact ha
  | literal text next ih =>
      have hhead : text.toList.head? = some '/' :=
        of_decide_eq_true (Token.segmentedAfter_cons.mp hs).1
      intro c hc
      rw [renderFrom, String.toList_append, List.append_assoc, List.head?_append, hhead] at hc
      exact (Option.some.inj hc).symm
  | placeholder name next ih =>
      exact absurd (Token.segmentedAfter_cons.mp hs).1 (Token.not_mayFollow_placeholder hf name)
  | group content next ihc ihn =>
      obtain ⟨hc, hn⟩ := Token.segmentedAfter_group hs
      have hnext := fun dropping => ihn (fun _ => Token.noConfusion) hn ha dropping
      rw [renderFrom]
      split
      · exact hnext true
      · rw [String.toList_append, List.append_assoc]
        exact ihc (fun _ => Token.noConfusion) hc (hnext false) false

/-! ### Slashes -/

theorem mem_derivations_iff {tree : Tree} {text rest : List Char} {captures : Captures} :
    (captures, rest) ∈ tree.derivations text ↔
      ∃ taken choices, text = taken ++ rest ∧ tree.Derives taken choices captures := by
  rw [← map_ways, List.mem_map]
  constructor
  · rintro ⟨way, hm, he⟩
    cases he
    obtain ⟨taken, ht, hd⟩ := mem_ways_iff.mp hm
    exact ⟨taken, way.choices, ht, hd⟩
  · rintro ⟨taken, choices, ht, hd⟩
    exact ⟨⟨choices, captures, rest⟩, mem_ways_iff.mpr ⟨taken, ht, hd⟩, rfl⟩

/-- Where no placeholder may stand, a derivation reads nothing or reads a `/`. -/
theorem Derives.nothing_or_slash {front : Token} (hf : ∀ text, front ≠ .literal text) {tree : Tree}
    (hs : Token.segmentedAfter (some front) tree.tokens = true) {text : List Char}
    {choices : List Choice} {captures : Captures} (h : tree.Derives text choices captures) :
    (text = [] ∧ captures = []) ∨ '/' ∈ text := by
  induction h generalizing front with
  | done => exact .inl ⟨rfl, rfl⟩
  | literal _ _ =>
      have hhead := of_decide_eq_true (Token.segmentedAfter_cons.mp hs).1
      exact .inr (List.mem_append_left _ (List.mem_of_mem_head? hhead))
  | placeholder _ _ _ _ =>
      exact absurd (Token.segmentedAfter_cons.mp hs).1 (Token.not_mayFollow_placeholder hf _)
  | take _ _ ihc ihn =>
      obtain ⟨hc, hn⟩ := Token.segmentedAfter_group hs
      rcases ihc (fun _ => Token.noConfusion) hc with ⟨rfl, rfl⟩ | hm
      · exact ihn (fun _ => Token.noConfusion) hn
      · exact .inr (List.mem_append_left _ hm)
  | skip _ ih => exact ih (fun _ => Token.noConfusion) (Token.segmentedAfter_group hs).2

/-- Every text that the tree matches has this many slashes. -/
def Needs (tree : Tree) (slashes : Nat) : Prop :=
  ∀ text choices captures, tree.Derives text choices captures → slashes ≤ text.count '/'

theorem needs_done : done.Needs 0 := fun text _ _ _ => Nat.zero_le (text.count '/')

/-- The slashes that are written without any group are needed. -/
theorem Needs.append {outer : Tree} {after : List Char} (ho : outer.Needs (after.count '/'))
    (tree : Tree) :
    (tree.append outer).Needs (((tree.renderFrom values true).toList ++ after).count '/') := by
  induction tree with
  | done => exact ho
  | literal word next ih =>
      intro text choices captures hd
      cases hd with
      | @literal _ _ rest _ _ hd =>
          have hn : ((next.renderFrom values true).toList ++ after).count '/' ≤ rest.count '/' :=
            ih _ _ _ hd
          rw [renderFrom, String.toList_append, List.append_assoc]
          simp only [List.count_append] at hn ⊢
          omega
  | placeholder name next ih =>
      intro text choices captures hd
      cases hd with
      | @placeholder _ _ value rest _ _ _ _ hd =>
          have hslash : (((values.get? name).map Segment.encode).getD "").toList.count '/' = 0 := by
            rw [List.count_eq_zero]
            cases values.get? name with
            | none => exact List.not_mem_nil
            | some value => exact Segment.slash_notMem_encode value
          rw [renderFrom, String.toList_append, List.append_assoc, List.count_append, hslash,
            Nat.zero_add]
          calc ((next.renderFrom values true).toList ++ after).count '/'
              ≤ rest.count '/' := ih _ _ _ hd
            _ ≤ (value ++ rest).count '/' := (List.sublist_append_right value rest).count_le '/'
  | group content next _ ihn =>
      intro text choices captures hd
      rw [renderFrom, Bool.true_or, if_pos rfl]
      cases hd with
      | @take _ _ inner rest _ _ _ _ _ hd =>
          calc ((next.renderFrom values true).toList ++ after).count '/'
              ≤ rest.count '/' := ihn _ _ _ hd
            _ ≤ (inner ++ rest).count '/' := (List.sublist_append_right inner rest).count_le '/'
      | skip hd => exact ihn _ _ _ hd

end Tree

end UrlRouting
