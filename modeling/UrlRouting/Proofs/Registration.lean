import UrlRouting.Router

/-! # Registrations

Routers that come from the empty one by registrations, each of which may fail.

* `Router.Indexed` is the invariant: the index holds the position of every registered name, and
  nothing else. A registration keeps it (`Router.Indexed.register`), and so does a run of them
  (`Router.Indexed.registerAll`).
* `Router.Indexed.route?_eq_some`: a name is looked up at its position among the names.
* `Router.exists_matchRoute`: a path that the route at some position matches is matched by the
  router, with the route at that position or an earlier one. -/

namespace UrlRouting.Router

variable {ρ : Type}

/-- The router after one registration, successful or refused. -/
def register (router : Router ρ) (entry : String × ρ) : Router ρ := (router.add entry.1 entry.2).2

/-- The router after some registrations in their order. -/
def registerAll (router : Router ρ) (entries : List (String × ρ)) : Router ρ :=
  entries.foldl register router

variable {router : Router ρ} {name : String} {route : ρ}

/-! ### Names and their positions -/

theorem getElem?_names (router : Router ρ) (position : Nat) :
    router.names[position]? = router.routes[position]?.map Prod.fst := by
  rw [names, List.getElem?_map, Array.getElem?_toList]

theorem length_names (router : Router ρ) : router.names.length = router.routes.size := by
  rw [names, List.length_map, Array.length_toList]

/-- The index holds the position of every registered name, and nothing else. -/
def Indexed (router : Router ρ) : Prop :=
  ∀ (name : String) (position : Nat),
    router.index[name]? = some position ↔ router.names[position]? = some name

theorem indexed_empty : (empty : Router ρ).Indexed := by
  intro name position
  simp [empty, names]

namespace Indexed

theorem contains_iff (h : router.Indexed) :
    router.index.contains name = true ↔ name ∈ router.names := by
  rw [← Std.HashMap.isSome_getElem?_eq_contains, Option.isSome_iff_exists, List.mem_iff_getElem?]
  exact exists_congr (h name)

theorem nodup_names (h : router.Indexed) : router.names.Nodup := by
  rw [List.Nodup, List.pairwise_iff_getElem]
  intro i j hi hj hij he
  have hfirst := (h router.names[i] i).mpr (List.getElem?_eq_getElem hi)
  have hsecond := (h router.names[j] j).mpr (List.getElem?_eq_getElem hj)
  rw [← he, hfirst, Option.some.injEq] at hsecond
  omega

/-- A taken name is refused, and nothing changes. -/
theorem add_of_mem (h : router.Indexed) (hn : name ∈ router.names) (route : ρ) :
    router.add name route = (.error (.nameTaken name), router) :=
  if_pos (h.contains_iff.mpr hn)

/-- A new name goes to the end. -/
theorem add_of_notMem (h : router.Indexed) (hn : name ∉ router.names) (route : ρ) :
    router.add name route =
      (.ok (), ⟨router.routes.push (name, route), router.index.insert name router.routes.size⟩) :=
  if_neg (mt h.contains_iff.mp hn)

theorem register (h : router.Indexed) (entry : String × ρ) :
    (router.register entry).Indexed := by
  obtain ⟨name, route⟩ := entry
  unfold Router.register
  by_cases hn : name ∈ router.names
  · rw [h.add_of_mem hn]
    exact h
  · rw [h.add_of_notMem hn]
    intro other position
    rw [Std.HashMap.getElem?_insert, getElem?_names, Array.getElem?_push]
    simp only [beq_iff_eq]
    by_cases hp : position = router.routes.size
    · -- the new position holds the new name, and the old index did not reach so far
      subst hp
      rw [if_pos rfl, Option.map_some, Option.some.injEq]
      refine ⟨fun ho => ?_, fun ho => if_pos ho⟩
      split at ho
      · assumption
      · have hlt := (List.getElem?_eq_some_iff.mp ((h other _).mp ho)).1
        rw [length_names] at hlt
        omega
    · rw [if_neg hp, ← getElem?_names, ← h other position]
      split
      · next ho =>
        subst ho
        have hfree : name ∉ router.index :=
          mt Std.HashMap.contains_iff_mem.mpr (mt h.contains_iff.mp hn)
        have hnone : router.index[name]? = none := Std.HashMap.getElem?_eq_none hfree
        rw [hnone, Option.some.injEq]
        exact iff_of_false (Ne.symm hp) (Option.some_ne_none position).symm
      · exact Iff.rfl

theorem registerAll (h : router.Indexed) (entries : List (String × ρ)) :
    (router.registerAll entries).Indexed := by
  induction entries generalizing router with
  | nil => exact h
  | cons entry entries ih => exact ih (h.register entry)

/-! ### Looking a name up -/

theorem idxOf_names (h : router.Indexed) {position : Nat}
    (hr : router.routes[position]? = some (name, route)) : router.names.idxOf name = position := by
  have hname : router.names[position]? = some name := by
    rw [getElem?_names, hr]
    rfl
  obtain ⟨hlt, rfl⟩ := List.getElem?_eq_some_iff.mp hname
  exact h.nodup_names.idxOf_getElem position hlt

/-- The route of a name stands where the name stands among the names. -/
theorem route?_eq_some (h : router.Indexed) (hr : router.route? name = some route) :
    router.routes[router.names.idxOf name]? = some (name, route) := by
  simp only [route?, Option.bind_eq_bind, Option.bind_eq_some_iff, Option.pure_def,
    Option.some.injEq] at hr
  obtain ⟨position, hi, ⟨other, _⟩, he, rfl⟩ := hr
  have hname := (h name position).mp hi
  rw [getElem?_names, he, Option.map_some, Option.some.injEq] at hname
  subst hname
  rw [h.idxOf_names he, he]

theorem route?_of_getElem? (h : router.Indexed) {position : Nat}
    (hr : router.routes[position]? = some (name, route)) : router.route? name = some route := by
  have hi : router.index[name]? = some position := by
    rw [h name position, getElem?_names, hr]
    rfl
  rw [route?, hi]
  simp [hr]

end Indexed

/-! ### The first match -/

variable [RouteLike ρ]

/-- The answer of a router is that of the first route that matches. -/
theorem matchRoute_eq_some_iff {path : String} {found : RouteMatch} :
    router.matchRoute path = some found ↔
      ∃ (position : Nat) (route : ρ), router.routes[position]? = some (found.name, route) ∧
        RouteLike.matchPath route path = some found.parameters ∧
        ∀ (earlier : Nat) (entry : String × ρ), earlier < position →
          router.routes[earlier]? = some entry → RouteLike.matchPath entry.2 path = none := by
  rw [matchRoute, ← Array.findSome?_toList, List.findSome?_eq_some_iff]
  constructor
  · rintro ⟨front, ⟨name, route⟩, rest, hr, hf, hn⟩
    obtain ⟨parameters, hp, rfl⟩ := Option.map_eq_some_iff.mp hf
    refine ⟨front.length, route, ?_, hp, ?_⟩
    · rw [← Array.getElem?_toList, hr, List.getElem?_append_right (Nat.le_refl _), Nat.sub_self]
      rfl
    · intro earlier entry hlt he
      rw [← Array.getElem?_toList, hr, List.getElem?_append_left hlt] at he
      exact Option.map_eq_none_iff.mp (hn entry (List.mem_of_getElem? he))
  · rintro ⟨position, route, hr, hp, hn⟩
    rw [← Array.getElem?_toList] at hr
    obtain ⟨hlt, hget⟩ := List.getElem?_eq_some_iff.mp hr
    refine ⟨router.routes.toList.take position, (found.name, route),
      router.routes.toList.drop (position + 1), ?_, ?_, ?_⟩
    · rw [← hget, List.getElem_cons_drop, List.take_append_drop]
    · exact Option.map_eq_some_iff.mpr ⟨found.parameters, hp, rfl⟩
    · intro entry hm
      obtain ⟨earlier, he⟩ := List.mem_iff_getElem?.mp hm
      rw [List.getElem?_take] at he
      split at he
      · next hlt =>
        rw [Array.getElem?_toList] at he
        exact Option.map_eq_none_iff.mpr (hn earlier entry hlt he)
      · cases he

/-- A path that the route at some position matches is matched by the router, with the route at that
position or an earlier one. -/
theorem exists_matchRoute {position : Nat} {path : String}
    (hr : router.routes[position]? = some (name, route))
    (hm : (RouteLike.matchPath route path).isSome) :
    ∃ (found : RouteMatch) (earlier : Nat) (other : ρ),
      router.matchRoute path = some found ∧ earlier ≤ position ∧
      router.routes[earlier]? = some (found.name, other) ∧
      RouteLike.matchPath other path = some found.parameters := by
  have hsome : (router.matchRoute path).isSome := by
    rw [matchRoute, Array.findSome?_isSome_iff]
    exact ⟨(name, route), Array.mem_of_getElem? hr, by rwa [Option.isSome_map]⟩
  obtain ⟨found, hf⟩ := Option.isSome_iff_exists.mp hsome
  obtain ⟨earlier, other, he, hp, hn⟩ := matchRoute_eq_some_iff.mp hf
  refine ⟨found, earlier, other, hf, ?_, he, hp⟩
  -- no route before the first match matches, so this position is not before it
  apply Nat.le_of_not_lt
  intro hlt
  rw [hn position (name, route) hlt hr] at hm
  cases hm

end UrlRouting.Router
