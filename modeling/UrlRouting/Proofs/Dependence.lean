import UrlRouting.Proofs.Assembly
import UrlRouting.Proofs.Matching

/-! # What an assembly depends on

An assembly looks at the merged values of the placeholders and at the caller's pairs that are no
placeholders, and at nothing else.

* `Walk.step_congr` and `Walk.run_congr`: two walks whose values agree on the placeholders take the
  same steps, whether or not the brackets pair up.
* `Route.assemble_congr`: so two assemblies with the same observations give the same answer.
* `Route.assemble_observations` adds the cases in which the observations agree: other defaults for
  names that are no placeholders, the same pairs in another order, and a value that moves from the
  caller to the defaults. -/

namespace UrlRouting

theorem Token.mem_names {tokens : List Token} {name : String} :
    name ∈ names tokens ↔ .placeholder name ∈ tokens := by
  rw [names, List.mem_filterMap]
  constructor
  · rintro ⟨token, ht, hn⟩
    cases token <;> simp only [name?, reduceCtorEq, Option.some.injEq] at hn
    subst hn
    exact ht
  · intro ht
    exact ⟨_, ht, rfl⟩

/-! ### The walk -/

namespace Walk

variable {tokens : List Token} {a b : Parameters}

theorem step_congr {token : Token} (h : ∀ name, token = .placeholder name → a.get? name = b.get? name)
    (walk : Walk) : step tokens a walk token = step tokens b walk token := by
  cases token with
  | literal text => rfl
  | placeholder name => simp only [step, h name rfl]
  | groupOpen => rfl
  | groupClose => rfl

theorem run_congr (h : ∀ name ∈ Token.names tokens, a.get? name = b.get? name) (walk : Walk) :
    run tokens a walk = run tokens b walk := by
  have hstep (walk : Walk) (hc : walk.cursor < tokens.length) :
      step tokens a walk tokens[walk.cursor] = step tokens b walk tokens[walk.cursor] := by
    apply step_congr
    intro name hn
    exact h name (Token.mem_names.mpr (hn ▸ List.getElem_mem hc))
  -- the induction is on the run with the first values; each step of it is one of the other run
  fun_induction run tokens a walk with
  | case1 walk hc fault hs =>
      exact (run_of_fault (List.getElem?_eq_getElem hc) ((hstep walk hc).symm.trans hs)).symm
  | case2 walk hc after hs ih =>
      have hb := run_of_step (List.getElem?_eq_getElem hc) ((hstep walk hc).symm.trans hs)
      exact ih.trans hb.symm
  | case3 walk hc => rw [run, dif_neg hc]

theorem path_congr (h : ∀ name ∈ Token.names tokens, a.get? name = b.get? name) :
    path tokens a = path tokens b := by
  rw [path, path, run_congr h]

end Walk

/-! ### Assemblies -/

namespace Route

/-- An assembly depends on the values of the placeholders and on the pairs of the query. -/
theorem assemble_congr {pattern : Pattern} {defaults others : Parameters} {given other : Parameters}
    (hv : ∀ name ∈ pattern.placeholders,
      (given.mergedOver defaults).get? name = (other.mergedOver others).get? name)
    (hq : given.entries.filter (fun entry => entry.1 ∉ pattern.placeholders) =
      other.entries.filter fun entry => entry.1 ∉ pattern.placeholders) :
    assemble ⟨pattern, defaults⟩ given = assemble ⟨pattern, others⟩ other := by
  have hpath := Walk.path_congr (pattern.collected ▸ hv)
  have hpairs : queryPairs ⟨pattern, defaults⟩ given = queryPairs ⟨pattern, others⟩ other := by
    simpa [queryPairs] using hq
  rw [assemble, assemble, hpath, hpairs]

/-- **An assembly looks at nothing but its observations.** The routes of one pattern give the same
answer, a URL or a fault, whenever the merged values of the placeholders are the same and the
caller's pairs that are no placeholders are the same list. So defaults for other names, the order in
which the values of placeholders are given, and whether such a value comes from the caller or from
the defaults make no difference. -/
theorem assemble_observations {text : String} {pattern : Pattern}
    (h : Pattern.compile text = .ok pattern) :
    (∀ defaults, compile text defaults = .ok ⟨pattern, defaults⟩) ∧
      (∀ defaults others given other : Parameters,
        (∀ name ∈ pattern.placeholders,
          (given.mergedOver defaults).get? name = (other.mergedOver others).get? name) →
        given.entries.filter (fun entry => entry.1 ∉ pattern.placeholders) =
          other.entries.filter (fun entry => entry.1 ∉ pattern.placeholders) →
        assemble ⟨pattern, defaults⟩ given = assemble ⟨pattern, others⟩ other) ∧
      (∀ defaults others given : Parameters,
        (∀ name ∈ pattern.placeholders, defaults.get? name = others.get? name) →
        assemble ⟨pattern, defaults⟩ given = assemble ⟨pattern, others⟩ given) ∧
      (∀ defaults given other : Parameters, given.entries.Perm other.entries →
        given.entries.filter (fun entry => entry.1 ∉ pattern.placeholders) =
          other.entries.filter (fun entry => entry.1 ∉ pattern.placeholders) →
        assemble ⟨pattern, defaults⟩ given = assemble ⟨pattern, defaults⟩ other) ∧
      ∀ (defaults given : Parameters) (name value : String), name ∈ pattern.placeholders →
        name ∉ given.entries.map Prod.fst →
        assemble ⟨pattern, defaults⟩ (given.set name value) =
          assemble ⟨pattern, defaults.set name value⟩ given := by
  refine ⟨?_, fun _ _ _ _ hv hq => assemble_congr hv hq, ?_, ?_, ?_⟩
  · intro defaults
    rw [compile, h]
    rfl
  · intro defaults others given hd
    exact assemble_congr (fun name hn => Parameters.get?_mergedOver_congr given (hd name hn)) rfl
  · intro defaults given other hp hq
    refine assemble_congr (fun name _ => ?_) hq
    rw [Parameters.get?_mergedOver, Parameters.get?_mergedOver, Parameters.get?_eq_of_perm hp]
  · intro defaults given name value hn hg
    have hentries : (given.set name value).entries = given.entries ++ [(name, value)] :=
      Parameters.setEntry_of_notMem hg value
    have hnone : given.get? name = none := Parameters.lookup_eq_none_iff.mpr hg
    refine assemble_congr (fun other _ => ?_) ?_
    · rw [Parameters.get?_mergedOver, Parameters.get?_mergedOver, Parameters.get?_set,
        Parameters.get?_set]
      by_cases ho : other = name
      · -- the caller says nothing else about this name
        simp [ho, hnone]
      · simp [ho]
    · simp [hentries, hn]

/-- The first value comes from the defaults or from the caller, the caller's pairs stand in two
orders, and the defaults differ in a name that is no placeholder: the URL is the same. -/
theorem assemble_twoLevels_observations :
    Pattern.compile (twoLevels .empty).pattern.text = .ok (twoLevels .empty).pattern ∧
      (twoLevels (.ofList [("lang", "de"), ("x", "1")])).assemble
          (.ofList [("y", "2"), ("q", "a"), ("z", "3")]) = .ok "/a/1/2/3?q=a" ∧
      (twoLevels .empty).assemble (.ofList [("q", "a"), ("z", "3"), ("x", "1"), ("y", "2")]) =
        .ok "/a/1/2/3?q=a" := by
  have hc : Pattern.compile (twoLevels .empty).pattern.text = .ok (twoLevels .empty).pattern :=
    (compile_eq_ok (compile_twoLevels .empty)).1
  have ha : (twoLevels (.ofList [("lang", "de"), ("x", "1")])).assemble
      (.ofList [("y", "2"), ("q", "a"), ("z", "3")]) = .ok "/a/1/2/3?q=a" := by
    with_unfolding_all rfl
  refine ⟨hc, ha, ?_⟩
  rw [← ha]
  exact (assemble_observations hc).2.1 .empty (.ofList [("lang", "de"), ("x", "1")])
    (.ofList [("q", "a"), ("z", "3"), ("x", "1"), ("y", "2")])
    (.ofList [("y", "2"), ("q", "a"), ("z", "3")]) (by decide) (by decide)

end Route

end UrlRouting
