import UrlRouting.Proofs.Compiled
import UrlRouting.Proofs.Parameters
import UrlRouting.Route.Rendering
import UrlRouting.Route.Walk

/-! # The walk writes the rendering

The walk with a cursor and a stack of levels computes what recursion on the tree defines.

* `Walk.Reaches` is the run of the walk as a relation; where it leads, the run gives the same answer
  (`Walk.run_of_reaches`).
* `Walk.Covers` is the invariant: from the first token of a sequence the walk reaches the end of
  that sequence, with the sequence's text added to its level and the levels around unchanged; or it
  reaches the first placeholder directly in the sequence that has no value.
* `Walk.path_tokens`: the walk over the tokens of a tree gives the text of the tree, or else the
  fault of the first missing value outside all groups. -/

namespace UrlRouting

/-! ### Missing values -/

theorem Tree.firstMissing?_eq_none_iff (values : Parameters) (tree : Tree) :
    tree.firstMissing? values = none ↔ tree.isFilled values = true := by
  induction tree with
  | done => simp [firstMissing?, isFilled]
  | literal text next ih => exact ih
  | placeholder name next ih =>
      rw [firstMissing?, isFilled, Bool.and_eq_true]
      split
      · next h => simp [h, ih]
      · next h => simp [h]
  | group content next _ ih => exact ih

/-! ### The close of a group -/

namespace Token

/-- The brackets of a tree pair up, so the close of a group around it is found behind it. -/
theorem closeDistance_tokens_append (tree : Tree) (inner : Nat) (rest : List Token) :
    closeDistance inner (tree.tokens ++ rest) =
      tree.tokens.length + closeDistance inner rest := by
  induction tree generalizing inner rest with
  | done => simp [Tree.tokens]
  | literal text next ih =>
      simp only [Tree.tokens, List.cons_append, closeDistance, ih, List.length_cons]
      omega
  | placeholder name next ih =>
      simp only [Tree.tokens, List.cons_append, closeDistance, ih, List.length_cons]
      omega
  | group content next ihc ihn =>
      simp only [Tree.tokens, List.cons_append, List.append_assoc, closeDistance, ihc, ihn,
        List.length_cons, List.length_append]
      omega

theorem groupEnd_of_drop {tokens rest : List Token} {start : Nat} {tree : Tree}
    (h : tokens.drop start = tree.tokens ++ .groupClose :: rest) :
    groupEnd tokens start = start + tree.tokens.length := by
  have hlt : start < tokens.length := by
    have hl := congrArg List.length h
    rw [List.length_drop, List.length_append, List.length_cons] at hl
    omega
  rw [groupEnd, h, closeDistance_tokens_append, closeDistance, Nat.min_eq_left (Nat.le_of_lt hlt)]
  rfl

theorem getElem?_of_drop {tokens rest : List Token} {start : Nat} {token : Token}
    (h : tokens.drop start = token :: rest) : tokens[start]? = some token := by
  rw [← Nat.add_zero start, ← List.getElem?_drop, h]
  rfl

theorem drop_of_drop {tokens rest : List Token} {start : Nat} (front : List Token)
    (h : tokens.drop start = front ++ rest) : tokens.drop (start + front.length) = rest := by
  rw [← List.drop_drop, h, List.drop_left]

end Token

namespace Walk

variable {tokens : List Token} {values : Parameters}

/-! ### Runs as a relation -/

/-- The walk comes from the first state to the second. -/
inductive Reaches (tokens : List Token) (values : Parameters) : Walk → Walk → Prop
  | refl (walk : Walk) : Reaches tokens values walk walk
  | step {walk next last : Walk} {token : Token} (ht : tokens[walk.cursor]? = some token)
      (hs : walk.step tokens values token = .ok next) (h : Reaches tokens values next last) :
      Reaches tokens values walk last

theorem Reaches.single {walk next : Walk} {token : Token} (ht : tokens[walk.cursor]? = some token)
    (hs : walk.step tokens values token = .ok next) : Reaches tokens values walk next :=
  .step ht hs (.refl next)

theorem Reaches.trans {first second third : Walk} (h : Reaches tokens values first second)
    (h' : Reaches tokens values second third) : Reaches tokens values first third := by
  induction h with
  | refl => exact h'
  | step ht hs _ ih => exact .step ht hs (ih h')

theorem run_of_step {walk next : Walk} {token : Token} (ht : tokens[walk.cursor]? = some token)
    (hs : walk.step tokens values token = .ok next) :
    run tokens values walk = run tokens values next := by
  obtain ⟨hlt, rfl⟩ := List.getElem?_eq_some_iff.mp ht
  rw [run, dif_pos hlt]
  split
  · next fault hf => rw [hs] at hf; cases hf
  · next after ha => rw [hs] at ha; cases ha; rfl

theorem run_of_fault {walk : Walk} {token : Token} {fault : AssembleError}
    (ht : tokens[walk.cursor]? = some token)
    (hs : walk.step tokens values token = .error fault) :
    run tokens values walk = .error fault := by
  obtain ⟨hlt, rfl⟩ := List.getElem?_eq_some_iff.mp ht
  rw [run, dif_pos hlt]
  split
  · next other hf => rw [hs] at hf; cases hf; rfl
  · next after ha => rw [hs] at ha; cases ha

theorem run_of_reaches {walk last : Walk} (h : Reaches tokens values walk last) :
    run tokens values walk = run tokens values last := by
  induction h with
  | refl => rfl
  | step ht hs _ ih => rw [run_of_step ht hs, ih]

/-! ### One token -/

variable {cursor : Nat} {level : Level} {outer : List Level} {rest : List Token}

theorem reaches_literal {text : String} (h : tokens.drop cursor = .literal text :: rest) :
    Reaches tokens values ⟨cursor, level, outer⟩
      ⟨cursor + 1, ⟨level.text ++ text, level.dropped⟩, outer⟩ :=
  .single (Token.getElem?_of_drop h) rfl

theorem reaches_placeholder {name value : String}
    (h : tokens.drop cursor = .placeholder name :: rest) (hv : values.get? name = some value) :
    Reaches tokens values ⟨cursor, level, outer⟩
      ⟨cursor + 1, ⟨level.text ++ Segment.encode value, level.dropped⟩, outer⟩ := by
  refine .single (Token.getElem?_of_drop h) ?_
  rw [Walk.step, hv]
  rfl

theorem reaches_pass {content : Tree} {text : String}
    (h : tokens.drop cursor = .groupOpen :: (content.tokens ++ .groupClose :: rest)) :
    Reaches tokens values ⟨cursor, ⟨text, true⟩, outer⟩
      ⟨cursor + 1 + content.tokens.length + 1, ⟨text, true⟩, outer⟩ := by
  have hc : tokens.drop (cursor + 1) = content.tokens ++ .groupClose :: rest :=
    Token.drop_of_drop [.groupOpen] h
  refine .single (Token.getElem?_of_drop h) ?_
  rw [← Token.groupEnd_of_drop hc]
  rfl

theorem reaches_enter {text : String} (h : tokens.drop cursor = .groupOpen :: rest) :
    Reaches tokens values ⟨cursor, ⟨text, false⟩, outer⟩
      ⟨cursor + 1, Level.blank, ⟨text, false⟩ :: outer⟩ :=
  .single (Token.getElem?_of_drop h) rfl

theorem reaches_leave {parent : Level} (h : tokens.drop cursor = .groupClose :: rest) :
    Reaches tokens values ⟨cursor, level, parent :: outer⟩
      ⟨cursor + 1, ⟨parent.text ++ level.text, parent.dropped⟩, outer⟩ :=
  .single (Token.getElem?_of_drop h) rfl

theorem reaches_abandon {name : String} {later : Tree} {parent : Level}
    (h : tokens.drop cursor = .placeholder name :: (later.tokens ++ .groupClose :: rest))
    (hv : values.get? name = none) :
    Reaches tokens values ⟨cursor, level, parent :: outer⟩
      ⟨cursor + 1 + later.tokens.length + 1, ⟨parent.text, true⟩, outer⟩ := by
  have hl : tokens.drop (cursor + 1) = later.tokens ++ .groupClose :: rest :=
    Token.drop_of_drop [.placeholder name] h
  refine .single (Token.getElem?_of_drop h) ?_
  rw [Walk.step, hv, ← Token.groupEnd_of_drop hl]
  rfl

/-! ### Whole sequences -/

/-- What the walk does with the tokens of a tree, wherever they stand: it reaches their end, or it
reaches the first placeholder directly in the sequence that has no value. -/
structure Covers (tokens : List Token) (values : Parameters) (tree : Tree) : Prop where
  ends : ∀ (level : Level) (outer : List Level) {cursor : Nat} {rest : List Token},
    tokens.drop cursor = tree.tokens ++ rest → tree.firstMissing? values = none →
      ∃ dropped, Reaches tokens values ⟨cursor, level, outer⟩
        ⟨cursor + tree.tokens.length,
          ⟨level.text ++ tree.renderFrom values level.dropped, dropped⟩, outer⟩
  stops : ∀ (level : Level) (outer : List Level) {cursor : Nat} {rest : List Token} {name : String},
    tokens.drop cursor = tree.tokens ++ rest → tree.firstMissing? values = some name →
      ∃ stop inner later, Reaches tokens values ⟨cursor, level, outer⟩ ⟨stop, inner, outer⟩ ∧
        tokens.drop stop = .placeholder name :: (Tree.tokens later ++ rest) ∧
        values.get? name = none ∧
        stop + 1 + (Tree.tokens later).length = cursor + tree.tokens.length

/-- A sequence is covered if its rest is and the walk passes over its front, changing the level as
the rendering does. -/
theorem Covers.of_front {tree next : Tree} (front : List Token) (after : Level → Level)
    (hn : Covers tokens values next) (ht : tree.tokens = front ++ next.tokens)
    (hm : tree.firstMissing? values = next.firstMissing? values)
    (htext : ∀ level, (after level).text ++ next.renderFrom values (after level).dropped =
      level.text ++ tree.renderFrom values level.dropped)
    (hfront : ∀ {cursor : Nat} {level : Level} {outer : List Level} {rest : List Token},
      tokens.drop cursor = front ++ rest →
        Reaches tokens values ⟨cursor, level, outer⟩
          ⟨cursor + front.length, after level, outer⟩) :
    Covers tokens values tree := by
  constructor
  · intro level outer cursor rest h hf
    rw [ht, List.append_assoc] at h
    obtain ⟨dropped, hr⟩ := hn.ends (after level) outer (Token.drop_of_drop front h) (hm ▸ hf)
    refine ⟨dropped, (hfront h).trans ?_⟩
    rw [ht, List.length_append, ← Nat.add_assoc, ← htext]
    exact hr
  · intro level outer cursor rest name h hf
    rw [ht, List.append_assoc] at h
    obtain ⟨stop, inner, later, hr, hd, hv, hl⟩ :=
      hn.stops (after level) outer (Token.drop_of_drop front h) (hm ▸ hf)
    refine ⟨stop, inner, later, (hfront h).trans hr, hd, hv, ?_⟩
    rw [hl, ht, List.length_append, Nat.add_assoc]

/-- The level after a group: the text of the group is added, or the group is dropped. -/
def levelAfter (values : Parameters) (content : Tree) (level : Level) : Level :=
  if level.dropped || !content.isFilled values then ⟨level.text, true⟩
  else ⟨level.text ++ content.renderFrom values false, false⟩

theorem text_levelAfter (values : Parameters) (content next : Tree) (level : Level) :
    (levelAfter values content level).text ++
        next.renderFrom values (levelAfter values content level).dropped =
      level.text ++ (Tree.group content next).renderFrom values level.dropped := by
  unfold levelAfter
  rw [Tree.renderFrom]
  split
  · rfl
  · exact String.append_assoc

theorem reaches_group {content : Tree} (hc : Covers tokens values content)
    (h : tokens.drop cursor = .groupOpen :: (content.tokens ++ .groupClose :: rest)) :
    Reaches tokens values ⟨cursor, level, outer⟩
      ⟨cursor + 1 + content.tokens.length + 1, levelAfter values content level, outer⟩ := by
  obtain ⟨text, dropped⟩ := level
  have hin : tokens.drop (cursor + 1) = content.tokens ++ .groupClose :: rest :=
    Token.drop_of_drop [.groupOpen] h
  unfold levelAfter
  cases dropped with
  | true => exact reaches_pass h
  | false =>
      cases hm : content.firstMissing? values with
      | none =>
          rw [(Tree.firstMissing?_eq_none_iff values content).mp hm]
          obtain ⟨_, he⟩ := hc.ends .blank (⟨text, false⟩ :: outer) hin hm
          exact ((reaches_enter h).trans he).trans (reaches_leave (Token.drop_of_drop _ hin))
      | some name =>
          have hf : content.isFilled values = false := by
            rw [← Bool.not_eq_true, ← Tree.firstMissing?_eq_none_iff, hm]
            exact Option.some_ne_none name
          rw [hf]
          obtain ⟨stop, inner, later, hr, hd, hv, hl⟩ :=
            hc.stops .blank (⟨text, false⟩ :: outer) hin hm
          rw [← hl]
          exact ((reaches_enter h).trans hr).trans (reaches_abandon hd hv)

theorem covers (tokens : List Token) (values : Parameters) (tree : Tree) :
    Covers tokens values tree := by
  induction tree with
  | done =>
      constructor
      · intro level outer cursor rest _ _
        refine ⟨level.dropped, ?_⟩
        rw [Tree.renderFrom, String.append_empty]
        exact .refl _
      · intro level outer cursor rest name _ hm
        cases hm
  | literal text next ih =>
      refine .of_front [.literal text] (fun level => ⟨level.text ++ text, level.dropped⟩) ih rfl rfl
        ?_ reaches_literal
      intro level
      exact String.append_assoc
  | placeholder name next ih =>
      cases hv : values.get? name with
      | some value =>
          refine .of_front [.placeholder name]
            (fun level => ⟨level.text ++ Segment.encode value, level.dropped⟩) ih rfl ?_ ?_
            fun h => reaches_placeholder h hv
          · rw [Tree.firstMissing?, Parameters.contains_eq_isSome, hv]
            rfl
          · intro level
            rw [Tree.renderFrom, hv]
            exact String.append_assoc
      | none =>
          have hm : (Tree.placeholder name next).firstMissing? values = some name := by
            rw [Tree.firstMissing?, Parameters.contains_eq_isSome, hv]
            rfl
          constructor
          · intro level outer cursor rest _ hf
            rw [hm] at hf
            cases hf
          · intro level outer cursor rest found h hf
            rw [hm] at hf
            cases hf
            refine ⟨cursor, level, next, .refl _, h, hv, ?_⟩
            rw [Tree.tokens, List.length_cons]
            omega
  | group content next ihc ihn =>
      refine .of_front (.groupOpen :: (content.tokens ++ [.groupClose])) (levelAfter values content)
        ihn ?_ rfl (text_levelAfter values content next) ?_
      · rw [Tree.tokens, List.cons_append, List.append_assoc]
        rfl
      · intro cursor level outer rest h
        rw [List.cons_append, List.append_assoc] at h
        rw [List.length_cons, List.length_append, List.length_singleton, Nat.add_comm _ 1,
          ← Nat.add_assoc, ← Nat.add_assoc]
        exact reaches_group ihc h

/-- The walk over the tokens of a tree: the text of the tree, or else the fault of the first missing
value outside all groups. -/
theorem path_tokens (tree : Tree) (values : Parameters) :
    path tree.tokens values =
      match tree.firstMissing? values with
      | none => .ok (tree.render values)
      | some name => .error (.missingParameter name) := by
  have hdrop : tree.tokens.drop 0 = tree.tokens ++ [] := (List.append_nil _).symm
  have hc := covers tree.tokens values tree
  unfold path
  cases hm : tree.firstMissing? values with
  | none =>
      obtain ⟨dropped, hr⟩ := hc.ends .blank [] hdrop hm
      have hend := run_of_reaches hr
      rw [Nat.zero_add] at hend
      rw [start, hend, run, dif_neg (Nat.lt_irrefl _), Tree.render, Level.blank,
        String.empty_append]
      rfl
  | some name =>
      obtain ⟨stop, inner, later, hr, hd, hv, _⟩ :=
        hc.stops .blank [] hdrop hm
      have hs : step tree.tokens values ⟨stop, inner, []⟩ (.placeholder name) =
          .error (.missingParameter name) := by
        rw [step, hv]
        rfl
      rw [start, run_of_reaches hr, run_of_fault (Token.getElem?_of_drop hd) hs]
      rfl

/-- **The walk computes the rendering.** If the brackets pair up and every placeholder outside all
groups has a value, the walk succeeds with the text that recursion on the tree defines. -/
theorem path_eq_render {tokens : List Token} {values : Parameters}
    (hb : Token.checkBrackets tokens = .ok ())
    (hv : (Tree.ofTokens tokens).isFilled values = true) :
    (Tree.ofTokens tokens).tokens = tokens ∧
      path tokens values = .ok ((Tree.ofTokens tokens).render values) := by
  have ht := Tree.tokens_ofTokens hb
  refine ⟨ht, ?_⟩
  have hp := path_tokens (Tree.ofTokens tokens) values
  rw [ht, (Tree.firstMissing?_eq_none_iff _ _).mpr hv] at hp
  exact hp

/-- A group with a placeholder on both sides of a nested group: `[/{x}[/{y}]/{z}]`. -/
def splitGroup : List Token :=
  [.literal "/a", .groupOpen, .literal "/", .placeholder "x", .groupOpen, .literal "/",
    .placeholder "y", .groupClose, .literal "/", .placeholder "z", .groupClose, .groupOpen,
    .literal "/b", .groupClose]

/-- The second value is missing: only the nested group is dropped, and the group after both is
kept. -/
theorem path_splitGroup :
    Token.checkBrackets splitGroup = .ok () ∧
      (Tree.ofTokens splitGroup).isFilled (.ofList [("x", "1"), ("z", "3")]) = true ∧
      path splitGroup (.ofList [("x", "1"), ("z", "3")]) =
        .ok ((Tree.ofTokens splitGroup).render (.ofList [("x", "1"), ("z", "3")])) ∧
      (Tree.ofTokens splitGroup).render (.ofList [("x", "1"), ("z", "3")]) = "/a/1/3/b" :=
  ⟨rfl, rfl, (path_eq_render rfl rfl).2, rfl⟩

end Walk

end UrlRouting
