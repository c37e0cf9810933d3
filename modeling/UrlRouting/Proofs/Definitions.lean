import UrlRouting.Definition.Basic

/-! # Definitions that make no route

* `RouteDefinition.Refused` says for what a definition is refused: four conditions are tested in
  order, and each constructor states the conditions before it as met.
* `RouteDefinition.collectDefaults_eq_error_iff`: collecting sorted default values stops at the
  smallest name that stands for an array or an object.
* `RouteDefinition.route_eq_error_iff`: a definition makes no route if it is refused. -/

namespace UrlRouting

namespace Json

/-- The value is an array or an object. -/
def isCompound : Json → Bool
  | array _ => true
  | object _ => true
  | _ => false

/-- The name is the smallest one that stands for an array or an object. -/
structure Members.IsLeastCompound (members : Members) (name : String) : Prop where
  mem : ∃ value, (name, value) ∈ members ∧ value.isCompound = true
  least : ∀ member ∈ members, member.2.isCompound = true → name ≤ member.1

namespace Members

variable {members : Members} {first name : String} {value : Json}

theorem isLeastCompound_cons_of (hv : value.isCompound = true)
    (hf : ∀ member ∈ members, first < member.1) :
    IsLeastCompound ((first, value) :: members) name ↔ first = name := by
  constructor
  · rintro ⟨⟨found, hm, -⟩, hleast⟩
    rcases List.mem_cons.mp hm with he | hm
    · cases he
      rfl
    · have hle := hleast (first, value) List.mem_cons_self hv
      exact absurd (hf _ hm) (String.not_lt.mpr hle)
  · rintro rfl
    refine ⟨⟨value, List.mem_cons_self, hv⟩, ?_⟩
    intro member hm _
    rcases List.mem_cons.mp hm with rfl | hm
    · exact String.le_refl _
    · exact String.not_lt.mp (String.lt_asymm (hf member hm))

theorem isLeastCompound_cons_of_not (hv : value.isCompound ≠ true) :
    IsLeastCompound ((first, value) :: members) name ↔ IsLeastCompound members name := by
  constructor
  · rintro ⟨⟨found, hm, hc⟩, hleast⟩
    refine ⟨⟨found, ?_, hc⟩, fun member hm => hleast member (List.mem_cons_of_mem _ hm)⟩
    rcases List.mem_cons.mp hm with he | hm
    · cases he
      exact absurd hc hv
    · exact hm
  · rintro ⟨⟨found, hm, hc⟩, hleast⟩
    refine ⟨⟨found, List.mem_cons_of_mem _ hm, hc⟩, ?_⟩
    exact List.forall_mem_cons.mpr ⟨fun h => absurd h hv, hleast⟩

end Members

end Json

theorem RouteKind.ofTag?_eq (tag : String) :
    ofTag? tag = if tag = "pattern" then some .pattern else none := by
  rw [ofTag?, all, List.find?_singleton]
  by_cases h : tag = "pattern"
  · subst h
    rfl
  · have ht : pattern.tag ≠ tag := Ne.symm h
    rw [if_neg h, decide_eq_false ht]
    rfl

namespace RouteDefinition

/-- What a definition is refused for. -/
inductive Refused (definition : RouteDefinition) : DefinitionError → Prop
  /-- Its kind does not exist. -/
  | unknownKind (kind : definition.kind ≠ "pattern") :
    Refused definition (.unknownKind definition.name definition.kind)
  /-- It has no pattern. -/
  | missingPattern (kind : definition.kind = "pattern") (pattern : definition.pattern = none) :
    Refused definition (.missingKey definition.name "pattern")
  /-- Some parameters are arrays or objects; the smallest of their names is reported. -/
  | invalidParameter {text name : String} (kind : definition.kind = "pattern")
    (pattern : definition.pattern = some text)
    (parameter : definition.parameters.members.IsLeastCompound name) :
    Refused definition (.invalidParameter definition.name name)
  /-- Its pattern does not compile. -/
  | invalidPattern {text : String} {fault : PatternError} (kind : definition.kind = "pattern")
    (pattern : definition.pattern = some text)
    (parameters : ∀ member ∈ definition.parameters.members, member.2.isCompound = false)
    (compile : Pattern.compile text = .error fault) :
    Refused definition (.invalidPattern definition.name fault)

/-! ### Default values -/

theorem defaultOf_eq_invalid_iff {value : Json} :
    defaultOf value = .invalid ↔ value.isCompound = true := by
  cases value <;> simp [defaultOf, Json.isCompound]

/-- Sorted members are collected up to the smallest name that stands for an array or an object. -/
theorem collectDefaults_eq_error_iff {members : Json.Members} (h : members.Sorted)
    {defaults : Parameters} {name : String} :
    collectDefaults defaults members = .error name ↔ members.IsLeastCompound name := by
  induction members generalizing defaults with
  | nil => exact iff_of_false (fun hr => nomatch hr) fun ⟨⟨_, hm, _⟩, _⟩ => nomatch hm
  | cons member rest ih =>
      obtain ⟨first, value⟩ := member
      obtain ⟨hfirst, hrest⟩ := List.pairwise_cons.mp h
      have hskip (hd : defaultOf value ≠ .invalid) :
          Json.Members.IsLeastCompound rest name ↔
            Json.Members.IsLeastCompound ((first, value) :: rest) name :=
        (Json.Members.isLeastCompound_cons_of_not (mt defaultOf_eq_invalid_iff.mpr hd)).symm
      rw [collectDefaults]
      cases hd : defaultOf value with
      | absent => exact (ih hrest).trans (hskip (hd ▸ nofun))
      | text word => exact (ih hrest).trans (hskip (hd ▸ nofun))
      | invalid =>
          rw [Json.Members.isLeastCompound_cons_of (defaultOf_eq_invalid_iff.mp hd) hfirst]
          simp only [Except.error.injEq]

theorem exists_collectDefaults_iff {members : Json.Members} {defaults : Parameters} :
    (∃ result, collectDefaults defaults members = .ok result) ↔
      ∀ member ∈ members, member.2.isCompound = false := by
  induction members generalizing defaults with
  | nil => exact iff_of_true ⟨defaults, rfl⟩ fun _ hm => nomatch hm
  | cons member rest ih =>
      obtain ⟨first, value⟩ := member
      rw [List.forall_mem_cons, collectDefaults, ← Bool.not_eq_true, ← defaultOf_eq_invalid_iff]
      cases defaultOf value with
      | absent => simpa using ih
      | text word => simpa using ih
      | invalid => simp

/-! ### Routes -/

variable {definition : RouteDefinition} {fault : DefinitionError}

theorem refused_of_route_eq_error (hr : definition.route = .error fault) :
    definition.Refused fault := by
  have hs := definition.parameters.sorted
  rw [route, RouteKind.ofTag?_eq] at hr
  by_cases hk : definition.kind = "pattern"
  · rw [if_pos hk] at hr
    dsimp only [patternRoute] at hr
    cases hp : definition.pattern with
    | none =>
        rw [hp] at hr
        cases hr
        exact .missingPattern hk hp
    | some text =>
        rw [hp] at hr
        dsimp only [defaults] at hr
        cases hd : collectDefaults .empty definition.parameters.members with
        | error name =>
            rw [hd] at hr
            cases hr
            exact .invalidParameter hk hp ((collectDefaults_eq_error_iff hs).mp hd)
        | ok values =>
            rw [hd] at hr
            dsimp only [Route.compile] at hr
            cases hc : Pattern.compile text with
            | error fault =>
                rw [hc] at hr
                cases hr
                exact .invalidPattern hk hp (exists_collectDefaults_iff.mp ⟨values, hd⟩) hc
            | ok pattern =>
                rw [hc] at hr
                cases hr
  · rw [if_neg hk] at hr
    cases hr
    exact .unknownKind hk

theorem Refused.route_eq_error (h : definition.Refused fault) :
    definition.route = .error fault := by
  have hs := definition.parameters.sorted
  rw [route, RouteKind.ofTag?_eq]
  cases h with
  | unknownKind kind => rw [if_neg kind]
  | missingPattern kind pattern =>
      rw [if_pos kind]
      dsimp only [patternRoute]
      rw [pattern]
  | invalidParameter kind pattern parameter =>
      rw [if_pos kind]
      dsimp only [patternRoute, defaults]
      rw [pattern, (collectDefaults_eq_error_iff hs).mpr parameter]
      rfl
  | invalidPattern kind pattern parameters compile =>
      obtain ⟨values, hd⟩ := exists_collectDefaults_iff.mpr parameters
      rw [if_pos kind]
      dsimp only [patternRoute, defaults]
      rw [pattern, hd]
      dsimp only [Except.mapError, bind, Except.bind, Route.compile]
      rw [compile]
      rfl

theorem route_eq_error_iff : definition.route = .error fault ↔ definition.Refused fault :=
  ⟨refused_of_route_eq_error, Refused.route_eq_error⟩

end RouteDefinition

end UrlRouting
