import Mathlib.Data.List.Find
import UrlRouting.Proofs.Assembly
import UrlRouting.Proofs.Matching

/-! # Required placeholders

The placeholders outside every group need a value, and no others do.

* `Token.required` lists them by counting the open groups; `Token.required_tokens` is the same list
  by recursion on the tree.
* `Tree.firstMissing?_eq_find?`: the value that an assembly misses is the first one in this list.
* `Route.assemble_eq_error_iff`: so an assembly fails if a required placeholder has no value, with
  the first of them, and the other placeholders have no part in that. -/

namespace UrlRouting

namespace Token

/-- The names of the placeholders outside every group, in order, given that `level` groups are open
before the tokens. -/
def required (level : Nat) : List Token → List String
  | [] => []
  | literal _ :: rest => required level rest
  | placeholder name :: rest =>
    if level = 0 then name :: required level rest else required level rest
  | groupOpen :: rest => required (level + 1) rest
  | groupClose :: rest => required (level - 1) rest

end Token

namespace Tree

/-- The names of the placeholders directly in the sequence, in order. -/
def required : Tree → List String
  | done => []
  | literal _ next => next.required
  | placeholder name next => name :: next.required
  | group _ next => next.required

/-- The first placeholder outside every group that has no value is the first required one. -/
theorem firstMissing?_eq_find? (values : Parameters) (tree : Tree) :
    tree.firstMissing? values = tree.required.find? fun name => (values.get? name).isNone := by
  induction tree with
  | done => rfl
  | literal text next ih => exact ih
  | placeholder name next ih =>
      rw [firstMissing?, required, List.find?_cons, Parameters.contains_eq_isSome, ih]
      cases values.get? name <;> rfl
  | group content next _ ih => exact ih

end Tree

namespace Token

/-- Inside a group a tree requires nothing, and it closes every group that it opens. -/
theorem required_tokens_append_inside (tree : Tree) (level : Nat) (rest : List Token) :
    required (level + 1) (tree.tokens ++ rest) = required (level + 1) rest := by
  induction tree generalizing level rest with
  | done => rfl
  | literal text next ih => exact ih level rest
  | placeholder name next ih =>
      rw [Tree.tokens, List.cons_append, required, if_neg (Nat.succ_ne_zero level)]
      exact ih level rest
  | group content next ihc ihn =>
      rw [Tree.tokens, List.cons_append, List.append_assoc, required, ihc, List.cons_append,
        required, Nat.add_sub_cancel]
      exact ihn level rest

theorem required_tokens (tree : Tree) : required 0 tree.tokens = tree.required := by
  induction tree with
  | done => rfl
  | literal text next ih => exact ih
  | placeholder name next ih => rw [Tree.tokens, required, if_pos rfl, ih, Tree.required]
  | group content next _ ih =>
      rw [Tree.tokens, required, required_tokens_append_inside, required, Nat.add_sub_cancel, ih,
        Tree.required]

end Token

namespace Route

variable {text : String} {defaults : Parameters} {route : Route}

theorem assemble_eq_error_iff_path {parameters : Parameters} {fault : AssembleError} :
    route.assemble parameters = .error fault ↔
      Walk.path route.pattern.tokens (parameters.mergedOver route.defaults) = .error fault := by
  rw [assemble]
  cases Walk.path route.pattern.tokens (parameters.mergedOver route.defaults) with
  | error other =>
      constructor
      · intro h
        cases h
        rfl
      · intro h
        cases h
        rfl
  | ok path => exact iff_of_false (fun h => nomatch h) fun h => nomatch h

theorem assemble_eq_error_iff_find? (h : compile text defaults = .ok route)
    {parameters : Parameters} {fault : AssembleError} :
    route.assemble parameters = .error fault ↔
      ∃ name, fault = .missingParameter name ∧
        (Token.required 0 route.pattern.tokens).find?
          (fun name => ((parameters.mergedOver defaults).get? name).isNone) = some name := by
  obtain ⟨hp, rfl⟩ := compile_eq_ok h
  rw [assemble_eq_error_iff_path, ← Pattern.tokens_tree hp, Walk.path_tokens, Token.required_tokens,
    ← Tree.firstMissing?_eq_find?]
  cases route.pattern.tree.firstMissing? (parameters.mergedOver route.defaults) with
  | none => simp
  | some name => simp [eq_comm]

/-- **An assembly fails for the first required value that is missing.** It fails if and only if some
placeholder outside every group has no value, and then with the name of the first one in the order
of the pattern. Two assemblies whose merged values differ otherwise, in the texts of values or in
which placeholders inside groups have one, fail alike. -/
theorem assemble_eq_error_iff (h : compile text defaults = .ok route) (parameters : Parameters) :
    ((∃ fault, route.assemble parameters = .error fault) ↔
        ∃ name ∈ Token.required 0 route.pattern.tokens,
          (parameters.mergedOver defaults).get? name = none) ∧
      (∀ fault, route.assemble parameters = .error fault ↔
        ∃ name, fault = .missingParameter name ∧
          (Token.required 0 route.pattern.tokens).find?
            (fun name => ((parameters.mergedOver defaults).get? name).isNone) = some name) ∧
      ∀ others other, (∀ name ∈ Token.required 0 route.pattern.tokens,
          ((parameters.mergedOver defaults).get? name).isNone =
            ((Parameters.mergedOver other others).get? name).isNone) →
        ∀ fault, route.assemble parameters = .error fault ↔
          assemble ⟨route.pattern, others⟩ other = .error fault := by
  refine ⟨?_, fun fault => assemble_eq_error_iff_find? h, ?_⟩
  · constructor
    · rintro ⟨fault, hf⟩
      obtain ⟨name, -, hname⟩ := (assemble_eq_error_iff_find? h).mp hf
      have hnone := List.find?_some hname
      exact ⟨name, List.mem_of_find?_eq_some hname, Option.isNone_iff_eq_none.mp hnone⟩
    · rintro ⟨name, hm, hnone⟩
      have hfound : ((Token.required 0 route.pattern.tokens).find? fun name =>
          ((parameters.mergedOver defaults).get? name).isNone).isSome := by
        rw [List.find?_isSome]
        exact ⟨name, hm, Option.isNone_iff_eq_none.mpr hnone⟩
      obtain ⟨first, hfirst⟩ := Option.isSome_iff_exists.mp hfound
      exact ⟨_, (assemble_eq_error_iff_find? h).mpr ⟨first, rfl, hfirst⟩⟩
  · intro others other hsame fault
    obtain ⟨hp, -⟩ := compile_eq_ok h
    have ho : compile text others = .ok ⟨route.pattern, others⟩ := by
      rw [compile, hp]
      rfl
    have hfind : ((Token.required 0 route.pattern.tokens).find? fun name =>
        ((parameters.mergedOver defaults).get? name).isNone) =
          (Token.required 0 route.pattern.tokens).find? fun name =>
            ((Parameters.mergedOver other others).get? name).isNone :=
      List.find?_congr hsame
    rw [assemble_eq_error_iff_find? h, assemble_eq_error_iff_find? ho, hfind]

/-- The route of a pattern with a required placeholder on both sides of nested groups. -/
def aroundGroups (defaults : Parameters) : Route where
  pattern :=
    { text := "/\x7blang\x7d[/\x7bx\x7d[/\x7by\x7d]/\x7bz\x7d]/\x7bpage\x7d[/\x7bsize\x7d]"
      tokens :=
        [.literal "/", .placeholder "lang", .groupOpen, .literal "/", .placeholder "x", .groupOpen,
          .literal "/", .placeholder "y", .groupClose, .literal "/", .placeholder "z", .groupClose,
          .literal "/", .placeholder "page", .groupOpen, .literal "/", .placeholder "size",
          .groupClose]
      placeholders := ["lang", "x", "y", "z", "page", "size"]
      collected := by decide }
  defaults := defaults

theorem compile_aroundGroups (defaults : Parameters) :
    compile (aroundGroups defaults).pattern.text defaults = .ok (aroundGroups defaults) := by
  have hp : Pattern.compile (aroundGroups .empty).pattern.text = .ok (aroundGroups .empty).pattern := by
    with_unfolding_all rfl
  exact compile_of_pattern hp defaults

/-- The default fills the first required placeholder, so the second one is reported, whether the
groups before it are dropped at `y` and `z` or written. -/
theorem assemble_aroundGroups :
    compile (aroundGroups (.ofList [("lang", "de")])).pattern.text (.ofList [("lang", "de")]) =
        .ok (aroundGroups (.ofList [("lang", "de")])) ∧
      (aroundGroups (.ofList [("lang", "de")])).assemble (.ofList [("x", "1")]) =
        .error (.missingParameter "page") ∧
      (aroundGroups .empty).assemble (.ofList [("x", "1"), ("z", "3"), ("lang", ""), ("y", "2")]) =
        .error (.missingParameter "page") := by
  have hc := compile_aroundGroups (.ofList [("lang", "de")])
  obtain ⟨-, hfault, hsame⟩ := assemble_eq_error_iff hc (.ofList [("x", "1")])
  have hpage : (aroundGroups (.ofList [("lang", "de")])).assemble (.ofList [("x", "1")]) =
      .error (.missingParameter "page") :=
    (hfault _).mpr ⟨"page", rfl, by decide⟩
  exact ⟨hc, hpage, (hsame .empty _ (by decide) _).mp hpage⟩

end Route

end UrlRouting
