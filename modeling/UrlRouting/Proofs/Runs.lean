import UrlRouting.Proofs.Matching
import UrlRouting.Proofs.Registration

/-! # Runs of registrations

What holds of a router after any run of registrations, of which each may be refused.

* `Router.Indexed.toList_routes_registerAll`: a run appends the first entry of each new name and
  changes no route before.
* `Router.Indexed.route?_registerAll`, `Router.Indexed.matchRoute_registerAll`: what the router
  answered before it answers after the run, and the rest is answered by the run alone.
* `Router.index_agrees`: names, positions and look-ups agree after every run from the empty router.
* `Router.matchRoute_extends`: the first match wins, and later registrations do not change it. -/

namespace UrlRouting.Router

variable {ρ : Type} {router : Router ρ} {name : String} {route : ρ} {path : String}

theorem map_fst_toList_routes (router : Router ρ) :
    router.routes.toList.map Prod.fst = router.names := rfl

/-- The name of the entry is not taken. -/
def isNew (router : Router ρ) (entry : String × ρ) : Bool := entry.1 ∉ router.names

theorem isNew_iff {entry : String × ρ} : router.isNew entry = true ↔ entry.1 ∉ router.names :=
  decide_eq_true_iff

theorem not_isNew {entry : String × ρ} (h : entry.1 ∈ router.names) :
    ¬ router.isNew entry = true :=
  mt isNew_iff.mp (not_not_intro h)

namespace Indexed

/-! ### One registration -/

theorem register_of_mem (h : router.Indexed) (hn : name ∈ router.names) (route : ρ) :
    router.register (name, route) = router := by
  rw [Router.register, h.add_of_mem hn]

theorem toList_routes_register (h : router.Indexed) (entry : String × ρ) :
    (router.register entry).routes.toList =
      router.routes.toList ++ [entry].filter router.isNew := by
  by_cases hn : entry.1 ∈ router.names
  · rw [h.register_of_mem hn entry.2, List.filter_cons_of_neg (not_isNew hn), List.filter_nil,
      List.append_nil]
  · rw [Router.register, h.add_of_notMem hn, Array.toList_push,
      List.filter_cons_of_pos (isNew_iff.mpr hn), List.filter_nil]

theorem names_register_of_notMem (h : router.Indexed) {entry : String × ρ}
    (hn : entry.1 ∉ router.names) : (router.register entry).names = router.names ++ [entry.1] := by
  rw [← map_fst_toList_routes, h.toList_routes_register,
    List.filter_cons_of_pos (isNew_iff.mpr hn), List.map_append]
  rfl

theorem route?_eq_lookup (h : router.Indexed) (name : String) :
    router.route? name = router.routes.toList.lookup name := by
  ext route
  rw [Parameters.lookup_iff_mem_of_nodup h.nodup_names, Array.mem_toList_iff]
  constructor
  · intro hr
    exact Array.mem_of_getElem? (h.route?_eq_some hr)
  · intro hm
    obtain ⟨position, hp⟩ := Array.mem_iff_getElem?.mp hm
    exact h.route?_of_getElem? hp

theorem isSome_route?_iff (h : router.Indexed) :
    (router.route? name).isSome ↔ name ∈ router.names := by
  rw [h.route?_eq_lookup, Option.isSome_iff_ne_none, ne_eq, Parameters.lookup_eq_none_iff,
    map_fst_toList_routes, Classical.not_not]

theorem route?_register (h : router.Indexed) (entry : String × ρ) (name : String) :
    (router.register entry).route? name = (router.route? name).or ([entry].lookup name) := by
  rw [(h.register entry).route?_eq_lookup, h.toList_routes_register, List.lookup_append,
    ← h.route?_eq_lookup]
  by_cases hn : entry.1 ∈ router.names
  · rw [List.filter_cons_of_neg (not_isNew hn)]
    by_cases he : name = entry.1
    · subst he
      obtain ⟨found, hf⟩ := Option.isSome_iff_exists.mp (h.isSome_route?_iff.mpr hn)
      rw [hf, Option.some_or, Option.some_or]
    · rw [List.lookup_cons, beq_eq_false_iff_ne.mpr he]
      rfl
  · rw [List.filter_cons_of_pos (isNew_iff.mpr hn), List.filter_nil]

/-! ### Runs -/

/-- A run appends the first entry of each new name, in the order of the run. -/
theorem toList_routes_registerAll (h : router.Indexed) (entries : List (String × ρ)) :
    (router.registerAll entries).routes.toList =
      router.routes.toList ++
        (entries.filter router.isNew).eraseDupsBy fun a b => a.1 == b.1 := by
  induction entries generalizing router with
  | nil => exact (List.append_nil _).symm
  | cons entry entries ih =>
      have hstep := h.toList_routes_register entry
      refine (ih (h.register entry)).trans ?_
      by_cases hn : entry.1 ∈ router.names
      · rw [h.register_of_mem hn entry.2, List.filter_cons_of_neg (not_isNew hn)]
      · rw [List.filter_cons_of_pos (isNew_iff.mpr hn)] at hstep ⊢
        rw [List.filter_nil] at hstep
        -- behind the new entry its name counts as taken
        have hnew : (router.register entry).isNew = fun other =>
            decide ((other.1 == entry.1) = false) && router.isNew other := by
          funext other
          simp [isNew, h.names_register_of_notMem hn, and_comm]
        rw [hstep, hnew, List.append_assoc, List.singleton_append, List.eraseDupsBy_cons,
          List.filter_filter]

/-- Distinct new names are all registered, in their order. -/
theorem names_registerAll (h : router.Indexed) {entries : List (String × ρ)}
    (hn : (router.names ++ entries.map Prod.fst).Nodup) :
    (router.registerAll entries).names = router.names ++ entries.map Prod.fst := by
  induction entries generalizing router with
  | nil => exact (List.append_nil _).symm
  | cons entry entries ih =>
      have hfree : entry.1 ∉ router.names := fun hm =>
        (List.nodup_append.mp hn).2.2 entry.1 hm entry.1 List.mem_cons_self rfl
      have hnames := h.names_register_of_notMem hfree
      rw [List.map_cons, List.append_cons, ← hnames] at hn ⊢
      exact ih (h.register entry) hn

/-- A name keeps its route in a run, and the first entry of a new name gives its route. -/
theorem route?_registerAll (h : router.Indexed) (entries : List (String × ρ)) (name : String) :
    (router.registerAll entries).route? name = (router.route? name).or (entries.lookup name) := by
  induction entries generalizing router with
  | nil => exact (Option.or_none).symm
  | cons entry entries ih =>
      refine (ih (h.register entry)).trans ?_
      rw [h.route?_register, Option.or_assoc, ← List.lookup_append, List.singleton_append]

end Indexed

/-! ### Routers that come from the empty one -/

theorem toList_routes_registerAll_empty (entries : List (String × ρ)) :
    (empty.registerAll entries).routes.toList =
      entries.eraseDupsBy fun a b => a.1 == b.1 := by
  have hnew : entries.filter (empty : Router ρ).isNew = entries :=
    List.filter_eq_self.mpr fun entry _ => isNew_iff.mpr List.not_mem_nil
  rw [indexed_empty.toList_routes_registerAll, hnew]
  rfl

theorem route?_registerAll_empty (entries : List (String × ρ)) (name : String) :
    (empty.registerAll entries).route? name = entries.lookup name := by
  rw [indexed_empty.route?_registerAll, indexed_empty.route?_eq_lookup]
  rfl

/-- **Names and index agree.** After any run of registrations, successful or refused, the names are
distinct, the index holds each of them with its position and nothing else, and a name is looked up
to the route that was given first under it. A registration under a taken name is refused for that
name and leaves the router, hence all its answers, as it was. -/
theorem index_agrees (entries : List (String × ρ)) :
    (empty.registerAll entries).names.Nodup ∧
      (∀ name, name ∈ (empty.registerAll entries).names ↔ name ∈ entries.map Prod.fst) ∧
      (∀ (name : String) (position : Nat),
        (empty.registerAll entries).index[name]? = some position ↔
          ∃ route, (empty.registerAll entries).routes[position]? = some (name, route)) ∧
      (∀ (name : String) (position : Nat),
        (empty.registerAll entries).index[name]? = some position →
          position < (empty.registerAll entries).routes.size) ∧
      (∀ name, (empty.registerAll entries).route? name = entries.lookup name) ∧
      (∀ name ∉ (empty.registerAll entries).names, ∀ route,
        ((empty.registerAll entries).add name route).1 = .ok ()) ∧
      ∀ name ∈ (empty.registerAll entries).names, ∀ route,
        (empty.registerAll entries).add name route =
          (.error (.nameTaken name), empty.registerAll entries) := by
  have h := indexed_empty.registerAll entries
  have hindex : ∀ (name : String) (position : Nat),
      (empty.registerAll entries).index[name]? = some position ↔
        ∃ route, (empty.registerAll entries).routes[position]? = some (name, route) := by
    intro name position
    rw [h name position, getElem?_names, Option.map_eq_some_iff]
    constructor
    · rintro ⟨⟨_, route⟩, hr, rfl⟩
      exact ⟨route, hr⟩
    · rintro ⟨route, hr⟩
      exact ⟨(name, route), hr, rfl⟩
  refine ⟨h.nodup_names, ?_, hindex, ?_, route?_registerAll_empty entries, ?_, ?_⟩
  · intro name
    rw [← h.isSome_route?_iff, route?_registerAll_empty, Option.isSome_iff_ne_none, ne_eq,
      Parameters.lookup_eq_none_iff, Classical.not_not]
  · intro name position hi
    obtain ⟨route, hr⟩ := (hindex name position).mp hi
    exact (Array.getElem?_eq_some_iff.mp hr).1
  · intro name hn route
    rw [h.add_of_notMem hn]
  · intro name hn route
    exact h.add_of_mem hn route

/-- Registrations of which the third is refused. -/
def repeated : List (String × Route) :=
  [("plain", ⟨⟨"/a", [.literal "/a"], [], rfl⟩, .empty⟩), ("levels", Route.twoLevels .empty),
    ("plain", Route.twoLevels (.ofList [("z", "9")])),
    ("last", Route.twoLevels (.ofList [("z", "9")]))]

/-- The third route is nowhere, and the fourth stands at the position of the third. -/
theorem index_agrees_repeated :
    (empty.registerAll repeated).names = ["plain", "levels", "last"] ∧
      (empty.registerAll repeated).index["last"]? = some 2 ∧
      2 < (empty.registerAll repeated).routes.size ∧
      (empty.registerAll repeated).route? "plain" =
        some ⟨⟨"/a", [.literal "/a"], [], rfl⟩, .empty⟩ ∧
      (empty.registerAll repeated).add "plain" (Route.twoLevels .empty) =
        (.error (.nameTaken "plain"), empty.registerAll repeated) := by
  obtain ⟨-, -, hplace, hbound, hroute, -, hadd⟩ := index_agrees repeated
  have hnames : (empty.registerAll repeated).names = ["plain", "levels", "last"] := by
    rw [← map_fst_toList_routes, toList_routes_registerAll_empty]
    rfl
  have hindex : (empty.registerAll repeated).index["last"]? = some 2 := by
    refine (hplace "last" 2).mpr ⟨Route.twoLevels (.ofList [("z", "9")]), ?_⟩
    rw [← Array.getElem?_toList, toList_routes_registerAll_empty]
    rfl
  have hmem : "plain" ∈ (empty.registerAll repeated).names := by
    rw [hnames]
    exact List.mem_cons_self
  exact ⟨hnames, hindex, hbound "last" 2 hindex, hroute "plain", hadd "plain" hmem _⟩

/-! ### The first match -/

variable [RouteLike ρ]

theorem matchRoute_eq_findSome? (router : Router ρ) (path : String) :
    router.matchRoute path = router.routes.toList.findSome? fun entry =>
      (RouteLike.matchPath entry.2 path).map fun parameters => ⟨entry.1, parameters⟩ :=
  Array.findSome?_toList.symm

theorem matchRoute_eq_none_iff :
    router.matchRoute path = none ↔
      ∀ entry ∈ router.routes.toList, RouteLike.matchPath entry.2 path = none := by
  rw [matchRoute_eq_findSome?, List.findSome?_eq_none_iff]
  simp only [Option.map_eq_none_iff]

/-- A path that is matched keeps its answer in a run, and any other is answered by the entries with
new names alone. -/
theorem Indexed.matchRoute_registerAll (h : router.Indexed) (entries : List (String × ρ))
    (path : String) :
    (router.registerAll entries).matchRoute path =
      (router.matchRoute path).or
        ((empty.registerAll (entries.filter router.isNew)).matchRoute path) := by
  rw [matchRoute_eq_findSome?, matchRoute_eq_findSome?, matchRoute_eq_findSome?,
    h.toList_routes_registerAll, toList_routes_registerAll_empty, List.findSome?_append]

/-- **The first match wins, for good.** A router answers a path by the first of its routes that
matches, and has no answer if none does. After further registrations, successful or refused, it
gives every answer that it gave before, every name stands for the same route and assembles the same
URLs, and a path that had no answer is answered as by a router of the added routes alone. -/
theorem matchRoute_extends (before later : List (String × ρ)) :
    (∀ path found, (empty.registerAll before).matchRoute path = some found ↔
        ∃ (position : Nat) (route : ρ),
          (empty.registerAll before).routes[position]? = some (found.name, route) ∧
          RouteLike.matchPath route path = some found.parameters ∧
          ∀ (earlier : Nat) (entry : String × ρ), earlier < position →
            (empty.registerAll before).routes[earlier]? = some entry →
              RouteLike.matchPath entry.2 path = none) ∧
      (∀ path, (empty.registerAll before).matchRoute path = none ↔
        ∀ entry ∈ (empty.registerAll before).routes.toList,
          RouteLike.matchPath entry.2 path = none) ∧
      (∀ path found, (empty.registerAll before).matchRoute path = some found →
        ((empty.registerAll before).registerAll later).matchRoute path = some found) ∧
      (∀ name ∈ (empty.registerAll before).names, ∃ route,
        (empty.registerAll before).route? name = some route ∧
          ((empty.registerAll before).registerAll later).route? name = some route ∧
          ∀ parameters, ((empty.registerAll before).registerAll later).assemble name parameters =
            (empty.registerAll before).assemble name parameters) ∧
      ∀ path, (empty.registerAll before).matchRoute path = none →
        ((empty.registerAll before).registerAll later).matchRoute path =
          (empty.registerAll
            (later.filter (empty.registerAll before).isNew)).matchRoute path := by
  have h := indexed_empty.registerAll before
  refine ⟨fun _ _ => matchRoute_eq_some_iff, fun _ => matchRoute_eq_none_iff, ?_, ?_, ?_⟩
  · intro path found hf
    rw [h.matchRoute_registerAll, hf, Option.some_or]
  · intro name hn
    obtain ⟨route, hr⟩ := Option.isSome_iff_exists.mp (h.isSome_route?_iff.mpr hn)
    have hlater : ((empty.registerAll before).registerAll later).route? name = some route := by
      rw [h.route?_registerAll, hr, Option.some_or]
    refine ⟨route, hr, hlater, ?_⟩
    intro parameters
    rw [assemble, assemble, hr, hlater]
  · intro path hf
    rw [h.matchRoute_registerAll, hf, Option.none_or]

/-- The path `/a` keeps its answer, although an added route matches it as well; `/a/1` is answered
by the added route that is not refused. -/
theorem matchRoute_extends_repeated :
    (empty.registerAll (repeated.take 1)).matchRoute "/a" = some ⟨"plain", .empty⟩ ∧
      ((empty.registerAll (repeated.take 1)).registerAll (repeated.drop 2)).matchRoute "/a" =
        some ⟨"plain", .empty⟩ ∧
      "plain" ∈ (empty.registerAll (repeated.take 1)).names ∧
      ((empty.registerAll (repeated.take 1)).registerAll (repeated.drop 2)).assemble "plain" .empty =
        (empty.registerAll (repeated.take 1)).assemble "plain" .empty ∧
      (empty.registerAll (repeated.take 1)).matchRoute "/a/1" = none ∧
      ((empty.registerAll (repeated.take 1)).registerAll (repeated.drop 2)).matchRoute "/a/1" =
        some ⟨"last", .ofList [("z", "9"), ("x", "1")]⟩ := by
  obtain ⟨-, -, hkeep, hassemble, hrest⟩ :=
    matchRoute_extends (repeated.take 1) (repeated.drop 2)
  have hnames : (empty.registerAll (repeated.take 1)).names = ["plain"] := by
    rw [← map_fst_toList_routes, toList_routes_registerAll_empty]
    rfl
  have hmem : "plain" ∈ (empty.registerAll (repeated.take 1)).names := by
    rw [hnames]
    exact List.mem_cons_self
  have hfirst : (empty.registerAll (repeated.take 1)).matchRoute "/a" = some ⟨"plain", .empty⟩ := by
    rw [matchRoute_eq_findSome?, toList_routes_registerAll_empty]
    with_unfolding_all rfl
  have hnone : (empty.registerAll (repeated.take 1)).matchRoute "/a/1" = none := by
    rw [matchRoute_eq_findSome?, toList_routes_registerAll_empty]
    with_unfolding_all rfl
  have hnew : (repeated.drop 2).filter (empty.registerAll (repeated.take 1)).isNew =
      [("last", Route.twoLevels (.ofList [("z", "9")]))] := by
    unfold isNew
    rw [hnames]
    rfl
  have hadded : (empty.registerAll ((repeated.drop 2).filter
      (empty.registerAll (repeated.take 1)).isNew)).matchRoute "/a/1" =
        some ⟨"last", .ofList [("z", "9"), ("x", "1")]⟩ := by
    rw [hnew, matchRoute_eq_findSome?, toList_routes_registerAll_empty]
    with_unfolding_all rfl
  obtain ⟨-, -, -, hsame⟩ := hassemble "plain" hmem
  exact ⟨hfirst, hkeep _ _ hfirst, hmem, hsame _, hnone, (hrest _ hnone).trans hadded⟩

end UrlRouting.Router
