import UrlRouting.Definition.Table
import UrlRouting.Proofs.Definitions
import UrlRouting.Proofs.Runs

/-! # Building route tables

When a list of definitions is built into a router, and which fault ends the building otherwise.

* `RouteTable.entries` are the routes that definitions make, with their names.
* `RouteTable.Admissible`: every definition makes a route, and no name occurs twice.
* `RouteTable.Obstructed`: what is wrong with a definition behind others.
* `RouteTable.foldlM_register_eq_ok_iff`: a run of registrations succeeds if the definitions are
  admissible and their names new, and then it registers their routes.
* `RouteTable.routerOf_iff`: a list is built if it is admissible; otherwise the first definition
  behind an admissible front decides the fault. -/

namespace UrlRouting

/-- A run over a list ends at the first item whose step has a fault. -/
theorem foldlM_eq_error_iff {α β ε : Type} {step : β → α → Except ε β} {items : List α}
    {initial : β} {fault : ε} :
    items.foldlM step initial = .error fault ↔
      ∃ front item rest middle, items = front ++ item :: rest ∧
        front.foldlM step initial = .ok middle ∧ step middle item = .error fault := by
  constructor
  · intro h
    induction items generalizing initial with
    | nil => cases h
    | cons item items ih =>
        rw [List.foldlM_cons] at h
        cases hs : step initial item with
        | error other =>
            rw [hs] at h
            cases h
            exact ⟨[], item, items, initial, rfl, rfl, hs⟩
        | ok next =>
            rw [hs] at h
            obtain ⟨front, found, rest, middle, rfl, hf, hm⟩ := ih h
            refine ⟨item :: front, found, rest, middle, rfl, ?_, hm⟩
            rw [List.foldlM_cons, hs]
            exact hf
  · rintro ⟨front, item, rest, middle, rfl, hf, hm⟩
    rw [List.foldlM_append, hf]
    show (item :: rest).foldlM step middle = _
    rw [List.foldlM_cons, hm]
    rfl

namespace RouteTable

/-! ### The routes of definitions -/

/-- The routes that the definitions make, with their names. -/
def entries (definitions : List RouteDefinition) : List (String × Route) :=
  definitions.filterMap fun definition =>
    definition.route.toOption.map fun route => (definition.name, route)

/-- Every definition makes a route, and no name occurs twice. -/
structure Admissible (definitions : List RouteDefinition) : Prop where
  routes : ∀ definition ∈ definitions, ∃ route, definition.route = .ok route
  names : (definitions.map RouteDefinition.name).Nodup

variable {definitions : List RouteDefinition} {definition : RouteDefinition} {route : Route}

theorem entries_cons (h : definition.route = .ok route) (rest : List RouteDefinition) :
    entries (definition :: rest) = (definition.name, route) :: entries rest := by
  rw [entries, List.filterMap_cons_some]
  · rfl
  · rw [h]
    rfl

theorem map_fst_entries (h : ∀ definition ∈ definitions, ∃ route, definition.route = .ok route) :
    (entries definitions).map Prod.fst = definitions.map RouteDefinition.name := by
  induction definitions with
  | nil => rfl
  | cons definition rest ih =>
      obtain ⟨⟨route, hr⟩, hrest⟩ := List.forall_mem_cons.mp h
      rw [entries_cons hr, List.map_cons, List.map_cons, ih hrest]

theorem mem_entries (hd : definition ∈ definitions) (hr : definition.route = .ok route) :
    (definition.name, route) ∈ entries definitions := by
  refine List.mem_filterMap.mpr ⟨definition, hd, ?_⟩
  rw [hr]
  rfl

/-! ### One definition -/

variable {router after : Router Route} {fault : DefinitionError}

theorem register_of_fault (hr : definition.route = .error fault) :
    register router definition = .error fault := by
  rw [register, hr]
  rfl

theorem register_of_mem (h : router.Indexed) (hr : definition.route = .ok route)
    (hn : definition.name ∈ router.names) :
    register router definition = .error (.nameTaken definition.name) := by
  rw [register, hr]
  dsimp only [bind, Except.bind]
  rw [h.add_of_mem hn]

theorem register_of_notMem (h : router.Indexed) (hr : definition.route = .ok route)
    (hn : definition.name ∉ router.names) :
    register router definition = .ok (router.register (definition.name, route)) := by
  rw [register, hr]
  dsimp only [bind, Except.bind, Router.register]
  rw [h.add_of_notMem hn]
  rfl

theorem register_eq_ok_iff (h : router.Indexed) :
    register router definition = .ok after ↔
      ∃ route, definition.route = .ok route ∧ definition.name ∉ router.names ∧
        after = router.register (definition.name, route) := by
  cases hr : definition.route with
  | error refusal =>
      rw [register_of_fault hr]
      exact iff_of_false (fun hs => nomatch hs) fun ⟨_, hs, _⟩ => nomatch hs
  | ok route =>
      by_cases hn : definition.name ∈ router.names
      · rw [register_of_mem h hr hn]
        exact iff_of_false (fun hs => nomatch hs) fun ⟨_, _, hfree, _⟩ => hfree hn
      · rw [register_of_notMem h hr hn]
        constructor
        · intro hs
          cases hs
          exact ⟨route, rfl, hn, rfl⟩
        · rintro ⟨_, ⟨⟩, -, rfl⟩
          rfl

/-- What is wrong with a definition behind others: it is refused, or else its name occurs among
theirs. -/
inductive Obstructed (front : List RouteDefinition) (definition : RouteDefinition) :
    DefinitionError → Prop
  | refused {fault : DefinitionError} (refusal : definition.Refused fault) :
    Obstructed front definition fault
  | taken {route : Route} (made : definition.route = .ok route)
    (name : definition.name ∈ front.map RouteDefinition.name) :
    Obstructed front definition (.nameTaken definition.name)

theorem register_eq_error_iff (h : router.Indexed)
    {front : List RouteDefinition} (hf : router.names = front.map RouteDefinition.name) :
    register router definition = .error fault ↔ Obstructed front definition fault := by
  cases hr : definition.route with
  | error refusal =>
      rw [register_of_fault hr]
      constructor
      · rintro ⟨⟩
        exact .refused (RouteDefinition.route_eq_error_iff.mp hr)
      · intro ho
        cases ho with
        | refused hrefused =>
            cases hr.symm.trans (RouteDefinition.route_eq_error_iff.mpr hrefused)
            rfl
        | taken made _ =>
            rw [hr] at made
            cases made
  | ok route =>
      have hnone : ∀ fault, ¬ definition.Refused fault := by
        intro fault hrefused
        rw [RouteDefinition.route_eq_error_iff.mpr hrefused] at hr
        cases hr
      by_cases hn : definition.name ∈ router.names
      · rw [register_of_mem h hr hn]
        constructor
        · rintro ⟨⟩
          exact .taken hr (hf ▸ hn)
        · intro ho
          cases ho with
          | refused hrefused => exact absurd hrefused (hnone _)
          | taken _ _ => rfl
      · rw [register_of_notMem h hr hn]
        refine iff_of_false (fun hok => nomatch hok) fun ho => ?_
        cases ho with
        | refused hrefused => exact hnone _ hrefused
        | taken _ name => exact hn (hf ▸ name)

/-! ### Runs over definitions -/

/-- Registering definitions one after the other succeeds if each makes a route and the names are
new and distinct; then their routes are registered. -/
theorem foldlM_register_eq_ok_iff (h : router.Indexed) :
    definitions.foldlM register router = .ok after ↔
      (∀ definition ∈ definitions, ∃ route, definition.route = .ok route) ∧
        (router.names ++ definitions.map RouteDefinition.name).Nodup ∧
          after = router.registerAll (entries definitions) := by
  induction definitions generalizing router with
  | nil =>
      constructor
      · intro hr
        cases hr
        refine ⟨fun _ hm => absurd hm List.not_mem_nil, ?_, rfl⟩
        rw [List.map_nil, List.append_nil]
        exact h.nodup_names
      · rintro ⟨-, -, rfl⟩
        rfl
  | cons definition rest ih =>
      rw [List.foldlM_cons, List.forall_mem_cons, List.map_cons, List.append_cons]
      constructor
      · intro hr
        cases hs : register router definition with
        | error other =>
            rw [hs] at hr
            cases hr
        | ok next =>
            rw [hs] at hr
            obtain ⟨route, hroute, hn, rfl⟩ := (register_eq_ok_iff h).mp hs
            obtain ⟨hrest, hnames, rfl⟩ := (ih (h.register _)).mp hr
            rw [h.names_register_of_notMem hn] at hnames
            rw [entries_cons hroute]
            exact ⟨⟨⟨route, hroute⟩, hrest⟩, hnames, rfl⟩
      · rintro ⟨⟨⟨route, hroute⟩, hrest⟩, hnames, rfl⟩
        have hn : definition.name ∉ router.names := by
          intro hm
          have hfront := (List.nodup_append.mp hnames).1
          exact (List.nodup_append.mp hfront).2.2 _ hm _ List.mem_cons_self rfl
        rw [(register_eq_ok_iff h).mpr ⟨route, hroute, hn, rfl⟩]
        refine (ih (h.register _)).mpr ⟨hrest, ?_, ?_⟩
        · rw [h.names_register_of_notMem hn]
          exact hnames
        · rw [entries_cons hroute]
          rfl

theorem routerOf_eq_ok_iff :
    routerOf definitions = .ok router ↔
      Admissible definitions ∧ router = Router.empty.registerAll (entries definitions) := by
  rw [routerOf, foldlM_register_eq_ok_iff Router.indexed_empty, ← and_assoc]
  refine and_congr_left fun _ => ⟨fun ⟨hr, hn⟩ => ⟨hr, hn⟩, fun ⟨hr, hn⟩ => ⟨hr, hn⟩⟩

theorem names_of_admissible (h : Admissible definitions) :
    (Router.empty.registerAll (entries definitions)).names =
      definitions.map RouteDefinition.name := by
  have hnames := map_fst_entries h.routes
  rw [Router.indexed_empty.names_registerAll, hnames]
  · rfl
  · rw [hnames]
    exact h.names

theorem route?_of_admissible (h : Admissible definitions) (hd : definition ∈ definitions)
    (hr : definition.route = .ok route) :
    (Router.empty.registerAll (entries definitions)).route? definition.name = some route := by
  rw [Router.route?_registerAll_empty]
  refine (Parameters.lookup_iff_mem_of_nodup ?_).mpr (mem_entries hd hr)
  rw [map_fst_entries h.routes]
  exact h.names

/-- Behind an admissible front, what is wrong with a definition is the fault of the list, whatever
follows. -/
theorem Obstructed.routerOf_eq_error {front : List RouteDefinition}
    (h : Obstructed front definition fault) (hf : Admissible front)
    (rest : List RouteDefinition) : routerOf (front ++ definition :: rest) = .error fault := by
  refine foldlM_eq_error_iff.mpr ⟨front, definition, rest, _, rfl,
    routerOf_eq_ok_iff.mpr ⟨hf, rfl⟩, ?_⟩
  exact (register_eq_error_iff (Router.indexed_empty.registerAll _) (names_of_admissible hf)).mpr h

theorem routerOf_eq_error_iff :
    routerOf definitions = .error fault ↔
      ∃ front definition rest, definitions = front ++ definition :: rest ∧ Admissible front ∧
        Obstructed front definition fault := by
  constructor
  · intro h
    obtain ⟨front, definition, rest, middle, rfl, hfront, hstep⟩ := foldlM_eq_error_iff.mp h
    obtain ⟨hf, rfl⟩ := routerOf_eq_ok_iff.mp hfront
    exact ⟨front, definition, rest, rfl, hf,
      (register_eq_error_iff (Router.indexed_empty.registerAll _) (names_of_admissible hf)).mp hstep⟩
  · rintro ⟨front, definition, rest, rfl, hf, ho⟩
    exact ho.routerOf_eq_error hf rest

/-- **Building a list of definitions.** A list is built if every definition makes a route and the
names are distinct; the router then has the names of the definitions, in order, and finds for each
the route that its definition makes. Otherwise the first definition that is refused, or whose name
occurs before it, decides the fault, and what follows it has no part in that. -/
theorem routerOf_iff (definitions : List RouteDefinition) :
    build ⟨definitions⟩ = routerOf definitions ∧
      ((∃ router, routerOf definitions = .ok router) ↔
        (∀ definition ∈ definitions, ∃ route, definition.route = .ok route) ∧
          (definitions.map RouteDefinition.name).Nodup) ∧
      (∀ router, routerOf definitions = .ok router →
        router.names = definitions.map RouteDefinition.name ∧
          ∀ definition ∈ definitions, ∃ route, definition.route = .ok route ∧
            router.route? definition.name = some route) ∧
      (∀ fault, routerOf definitions = .error fault ↔
        ∃ front definition rest, definitions = front ++ definition :: rest ∧ Admissible front ∧
          Obstructed front definition fault) ∧
      ∀ front definition rest fault, definitions = front ++ definition :: rest →
        Admissible front → Obstructed front definition fault →
          ∀ other, routerOf (front ++ definition :: other) = .error fault := by
  refine ⟨rfl, ⟨?_, ?_⟩, ?_, fun _ => routerOf_eq_error_iff, ?_⟩
  · rintro ⟨router, hr⟩
    obtain ⟨ha, -⟩ := routerOf_eq_ok_iff.mp hr
    exact ⟨ha.routes, ha.names⟩
  · rintro ⟨hroutes, hnames⟩
    exact ⟨_, routerOf_eq_ok_iff.mpr ⟨⟨hroutes, hnames⟩, rfl⟩⟩
  · intro router hr
    obtain ⟨ha, rfl⟩ := routerOf_eq_ok_iff.mp hr
    refine ⟨names_of_admissible ha, ?_⟩
    intro definition hd
    obtain ⟨route, hroute⟩ := ha.routes definition hd
    exact ⟨route, hroute, route?_of_admissible ha hd hroute⟩
  · rintro front definition rest fault rfl hf ho other
    exact ho.routerOf_eq_error hf other

/-- The second definition has a name that is taken, two parameters that are no texts and a pattern
with a fault; the third one's kind does not exist. -/
def faulty : List RouteDefinition :=
  [.ofPattern "list" "/a",
    ⟨"list", "pattern", some "/[a",
      ⟨[("action", .null), ("id", .array []), ("page", .object [])], by decide⟩⟩,
    ⟨"other", "regex", none, .empty⟩]

/-- Of the four faults, the smallest parameter that is no text is reported, also if anything else
follows; without the second and the third definition, the list is built. -/
theorem routerOf_faulty :
    routerOf faulty = .error (.invalidParameter "list" "id") ∧
      (∀ other, routerOf (faulty.take 2 ++ other) = .error (.invalidParameter "list" "id")) ∧
      ∃ router, routerOf (faulty.take 1) = .ok router := by
  have hfirst : ∃ route, (RouteDefinition.ofPattern "list" "/a").route = .ok route :=
    ⟨_, by with_unfolding_all rfl⟩
  have hroutes : ∀ definition ∈ faulty.take 1, ∃ route, definition.route = .ok route :=
    List.forall_mem_singleton.mpr hfirst
  have hnames : ((faulty.take 1).map RouteDefinition.name).Nodup := by decide
  have ho : Obstructed (faulty.take 1) faulty[1] (.invalidParameter "list" "id") :=
    .refused (.invalidParameter rfl rfl ⟨⟨.array [], by simp [faulty], rfl⟩, by decide⟩)
  obtain ⟨-, -, -, herror, hrest⟩ := routerOf_iff faulty
  obtain ⟨-, hbuilt, -⟩ := routerOf_iff (faulty.take 1)
  exact ⟨(herror _).mpr ⟨_, _, _, rfl, ⟨hroutes, hnames⟩, ho⟩,
    hrest _ _ _ _ rfl ⟨hroutes, hnames⟩ ho, hbuilt.mpr ⟨hroutes, hnames⟩⟩

end RouteTable

end UrlRouting
