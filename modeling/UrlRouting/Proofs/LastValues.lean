import UrlRouting.Proofs.Definitions
import UrlRouting.Proofs.Entries

/-! # Definitions built parameter by parameter

The default values of a definition that is built by setting parameters one after another.

* `Json.Members.lookup_insert`, `Json.Object.eq_of_lookup`: inserting a member changes the value of
  its name alone, and objects are determined by what their names are looked up to.
* `RouteDefinition.lookup_withParameters`: so a name has the value that was last given to it.
* `RouteDefinition.collectDefaults_eq_ok`: the default values are the texts of the members, in
  their order, null values apart.
* `RouteDefinition.defaults_lastValues`: hence the default values depend on the last value of each
  name alone. -/

namespace UrlRouting

namespace Json

/-- The text of a string, a number or a truth value. -/
inductive HasText : Json → String → Prop
  | string (value : String) : HasText (string value) value
  | number (value : Number) : HasText (number value) value.write
  | yes : HasText (boolean true) "true"
  | no : HasText (boolean false) "false"

theorem exists_hasText_iff {value : Json} :
    (∃ text, value.HasText text) ↔ value ≠ null ∧ value.isCompound = false := by
  constructor
  · rintro ⟨text, h⟩
    cases h <;> exact ⟨nofun, rfl⟩
  · rintro ⟨hnull, hcompound⟩
    cases value with
    | null => exact absurd rfl hnull
    | boolean value =>
        cases value with
        | true => exact ⟨_, .yes⟩
        | false => exact ⟨_, .no⟩
    | number value => exact ⟨_, .number value⟩
    | string value => exact ⟨_, .string value⟩
    | array items => cases hcompound
    | object members => cases hcompound

namespace Members

variable {members others : Members} {name : String} {value : Json}

/-! ### Members as a map -/

theorem lookup_insert (members : Members) (name : String) (value : Json) (other : String) :
    (members.insert name value).lookup other =
      if other = name then some value else members.lookup other := by
  induction members with
  | nil => exact Parameters.lookup_cons_ite other name value []
  | cons member rest ih =>
      obtain ⟨first, found⟩ := member
      rw [insert]
      split
      · exact Parameters.lookup_cons_ite other name value _
      split
      · next he =>
        subst he
        rw [Parameters.lookup_cons_ite, Parameters.lookup_cons_ite]
        by_cases ho : other = name <;> simp [ho]
      · next hne =>
        rw [Parameters.lookup_cons_ite, Parameters.lookup_cons_ite, ih]
        by_cases ho : other = first
        · subst ho
          simp [Ne.symm hne]
        · simp [ho]

theorem Sorted.nodup (h : members.Sorted) : members.Nodup := by
  refine h.imp ?_
  rintro a b hlt rfl
  exact String.lt_irrefl _ hlt

theorem Sorted.mem_iff_lookup (h : members.Sorted) :
    (name, value) ∈ members ↔ members.lookup name = some value := by
  induction members with
  | nil => simp
  | cons member rest ih =>
      obtain ⟨first, found⟩ := member
      obtain ⟨hfirst, hrest⟩ := List.pairwise_cons.mp h
      rw [Parameters.lookup_cons_ite, List.mem_cons, Prod.mk.injEq]
      by_cases hn : name = first
      · subst hn
        have hnot : (name, value) ∉ rest := fun hm => String.lt_irrefl name (hfirst _ hm)
        simp [hnot, eq_comm]
      · simp [hn, ih hrest]

end Members

/-- Objects are determined by what their names are looked up to. -/
theorem Object.eq_of_lookup {a b : Object}
    (h : ∀ name, a.members.lookup name = b.members.lookup name) : a = b := by
  have hperm : a.members.Perm b.members := by
    rw [List.perm_ext_iff_of_nodup a.sorted.nodup b.sorted.nodup]
    rintro ⟨name, value⟩
    rw [a.sorted.mem_iff_lookup, b.sorted.mem_iff_lookup, h]
  apply Object.ext
  refine hperm.eq_of_pairwise ?_ a.sorted b.sorted
  intro a b _ _ hab hba
  exact absurd hba (String.lt_asymm hab)

end Json

namespace RouteDefinition

variable {definition : RouteDefinition} {calls others : List (String × Json)} {key : String}

/-! ### Parameters set one after another -/

/-- The definition with parameters set one after another. -/
def withParameters (definition : RouteDefinition) (calls : List (String × Json)) :
    RouteDefinition :=
  calls.foldl (fun result call => result.withParameter call.1 call.2) definition

/-- The value that is last given to a name. -/
def lastValue? (calls : List (String × Json)) (key : String) : Option Json :=
  calls.reverse.lookup key

theorem withParameters_cons (definition : RouteDefinition) (name : String) (value : Json)
    (rest : List (String × Json)) :
    definition.withParameters ((name, value) :: rest) =
      (definition.withParameter name value).withParameters rest := rfl

theorem lookup_withParameters (definition : RouteDefinition) (calls : List (String × Json))
    (key : String) :
    (definition.withParameters calls).parameters.members.lookup key =
      (lastValue? calls key).or (definition.parameters.members.lookup key) := by
  induction calls generalizing definition with
  | nil => rfl
  | cons call rest ih =>
      obtain ⟨name, value⟩ := call
      have hinsert : (definition.withParameter name value).parameters.members.lookup key =
          if key = name then some value else definition.parameters.members.lookup key :=
        Json.Members.lookup_insert definition.parameters.members name value key
      rw [withParameters_cons, ih, hinsert, lastValue?, lastValue?, List.reverse_cons,
        List.lookup_append, Parameters.lookup_cons_ite, Option.or_assoc]
      by_cases hk : key = name <;> simp [hk]

theorem withParameters_eq (definition : RouteDefinition) (calls : List (String × Json)) :
    definition.withParameters calls =
      { definition with parameters := (definition.withParameters calls).parameters } := by
  induction calls generalizing definition with
  | nil => rfl
  | cons call rest ih => exact ih (definition.withParameter call.1 call.2)

theorem withParameters_congr (definition : RouteDefinition)
    (heq : ∀ key, lastValue? calls key = lastValue? others key) :
    definition.withParameters calls = definition.withParameters others := by
  have hparameters : (definition.withParameters calls).parameters =
      (definition.withParameters others).parameters := by
    apply Json.Object.eq_of_lookup
    intro key
    rw [lookup_withParameters, lookup_withParameters, heq]
  rw [withParameters_eq definition calls, withParameters_eq definition others, hparameters]

/-! ### Collected texts -/

theorem defaultOf_eq_text_iff {value : Json} {text : String} :
    defaultOf value = .text text ↔ value.HasText text := by
  constructor
  · intro h
    cases value with
    | boolean value => cases value <;> cases h <;> constructor
    | number value => cases h; constructor
    | string value => cases h; constructor
    | _ => cases h
  · intro h
    cases h <;> rfl

/-- The texts of the members that have one, with their names. -/
def texts (members : Json.Members) : List (String × String) :=
  members.filterMap fun member =>
    match defaultOf member.2 with
    | .text text => some (member.1, text)
    | _ => none

theorem mem_texts_iff {members : Json.Members} {text : String} :
    (key, text) ∈ texts members ↔ ∃ value, (key, value) ∈ members ∧ value.HasText text := by
  unfold texts
  simp only [List.mem_filterMap, ← defaultOf_eq_text_iff]
  constructor
  · rintro ⟨⟨name, value⟩, hm, ht⟩
    split at ht
    · next found hd =>
      cases ht
      exact ⟨value, hm, hd⟩
    · cases ht
  · rintro ⟨value, hm, hd⟩
    exact ⟨(key, value), hm, by rw [hd]⟩

theorem pairwise_texts {members : Json.Members} (h : members.Sorted) :
    (texts members).Pairwise fun a b => a.1 < b.1 := by
  refine h.filterMap _ ?_
  rintro ⟨name, value⟩ ⟨name', value'⟩ hlt entry he entry' he'
  split at he
  · cases he
    split at he'
    · cases he'
      exact hlt
    · cases he'
  · cases he

theorem collectDefaults_eq_ok {members : Json.Members}
    (h : ∀ member ∈ members, member.2.isCompound = false) (defaults : Parameters) :
    collectDefaults defaults members = .ok (defaults.setAll (texts members)) := by
  induction members generalizing defaults with
  | nil => rfl
  | cons member rest ih =>
      obtain ⟨name, value⟩ := member
      obtain ⟨hfirst, hrest⟩ := List.forall_mem_cons.mp h
      have hvalid : defaultOf value ≠ .invalid := by
        rw [Ne, defaultOf_eq_invalid_iff, hfirst]
        exact Bool.false_ne_true
      rw [collectDefaults, texts, List.filterMap_cons]
      cases hd : defaultOf value with
      | absent => exact ih hrest defaults
      | text text => exact ih hrest (defaults.set name text)
      | invalid => exact absurd hd hvalid

theorem defaults_eq_ok (h : ∀ member ∈ definition.parameters.members, member.2.isCompound = false) :
    definition.defaults = .ok (.ofList (texts definition.parameters.members)) := by
  rw [defaults, collectDefaults_eq_ok h]
  rfl

theorem entries_ofList_texts (definition : RouteDefinition) :
    (Parameters.ofList (texts definition.parameters.members)).entries =
      texts definition.parameters.members := by
  have hnodup : ((texts definition.parameters.members).map Prod.fst).Nodup := by
    rw [List.Nodup, List.pairwise_map]
    refine (pairwise_texts definition.parameters.sorted).imp ?_
    intro a b hlt he
    rw [he] at hlt
    exact String.lt_irrefl _ hlt
  rw [Parameters.ofList_of_nodup hnodup]

/-- The default values are refused for the smallest name that stands for an array or an object. -/
theorem defaults_eq_error_iff {fault : DefinitionError} :
    definition.defaults = .error fault ↔
      ∃ key, fault = .invalidParameter definition.name key ∧
        definition.parameters.members.IsLeastCompound key := by
  have hrefused (key : String) : definition.parameters.members.IsLeastCompound key ↔
      collectDefaults Parameters.empty definition.parameters.members = .error key :=
    (collectDefaults_eq_error_iff definition.parameters.sorted).symm
  simp only [hrefused]
  unfold defaults
  cases collectDefaults Parameters.empty definition.parameters.members with
  | ok result => simp [Except.mapError]
  | error key => simp [Except.mapError, eq_comm]

theorem exists_fault_iff :
    (∃ fault, definition.defaults = .error fault) ↔
      ∃ member ∈ definition.parameters.members, member.2.isCompound = true := by
  have hok := @exists_collectDefaults_iff definition.parameters.members Parameters.empty
  unfold defaults
  cases hc : collectDefaults Parameters.empty definition.parameters.members with
  | ok result =>
      rw [hc] at hok
      have hall := hok.mp ⟨result, rfl⟩
      refine iff_of_false (fun ⟨_, h⟩ => nomatch h) ?_
      rintro ⟨member, hm, hcompound⟩
      rw [hall member hm] at hcompound
      cases hcompound
  | error key =>
      rw [hc] at hok
      refine iff_of_true ⟨_, rfl⟩ ?_
      by_contra hnone
      obtain ⟨result, hr⟩ := hok.mpr fun member hm =>
        eq_false_of_ne_true fun hcompound => hnone ⟨member, hm, hcompound⟩
      cases hr

/-! ### Last values -/

/-- The definition that is built by giving it parameters one after another. -/
def ofCalls (name kind : String) (pattern : Option String) (calls : List (String × Json)) :
    RouteDefinition :=
  withParameters ⟨name, kind, pattern, .empty⟩ calls

section calls

variable {name kind : String} {pattern : Option String}

theorem name_ofCalls : (ofCalls name kind pattern calls).name = name := by
  rw [ofCalls, withParameters_eq]

/-- The members of the definition are the last values of their names. -/
theorem mem_parameters_iff {value : Json} :
    (key, value) ∈ (ofCalls name kind pattern calls).parameters.members ↔
      lastValue? calls key = some value := by
  rw [(ofCalls name kind pattern calls).parameters.sorted.mem_iff_lookup, ofCalls,
    lookup_withParameters]
  exact Option.or_none ▸ Iff.rfl

theorem isLeastCompound_iff :
    (ofCalls name kind pattern calls).parameters.members.IsLeastCompound key ↔
      IsLeast {key | ∃ value, lastValue? calls key = some value ∧ value.isCompound = true} key := by
  constructor
  · rintro ⟨⟨value, hm, hc⟩, hleast⟩
    refine ⟨⟨value, mem_parameters_iff.mp hm, hc⟩, ?_⟩
    rintro other ⟨found, hf, hc⟩
    exact hleast (other, found) (mem_parameters_iff.mpr hf) hc
  · rintro ⟨⟨value, hv, hc⟩, hleast⟩
    refine ⟨⟨value, mem_parameters_iff.mpr hv, hc⟩, ?_⟩
    rintro ⟨other, found⟩ hm hc
    exact hleast ⟨found, mem_parameters_iff.mp hm, hc⟩

end calls

/-- **The last values decide.** Let a definition without parameters be given some, one after
another. Its default values are the same for all orders that give each name the same last value.
They are refused if the last value of some name is an array or an object, and then the smallest such
name is reported. Otherwise they list the names whose last value is not `null`, in increasing order,
each with the text of that value. -/
theorem defaults_lastValues (name kind : String) (pattern : Option String)
    (calls : List (String × Json)) :
    (∀ others, (∀ key, lastValue? calls key = lastValue? others key) →
      (ofCalls name kind pattern calls).defaults = (ofCalls name kind pattern others).defaults) ∧
    ((∃ fault, (ofCalls name kind pattern calls).defaults = .error fault) ↔
      ∃ key value, lastValue? calls key = some value ∧ value.isCompound = true) ∧
    (∀ fault, (ofCalls name kind pattern calls).defaults = .error fault ↔
      ∃ key, fault = .invalidParameter name key ∧
        IsLeast {key | ∃ value, lastValue? calls key = some value ∧ value.isCompound = true} key) ∧
    ((∀ key value, lastValue? calls key = some value → value.isCompound = false) →
      ∃ result, (ofCalls name kind pattern calls).defaults = .ok result ∧
        (result.entries.Pairwise fun a b => a.1 < b.1) ∧
        (∀ key, key ∈ result.names ↔ ∃ value, lastValue? calls key = some value ∧ value ≠ .null) ∧
        ∀ key text, (key, text) ∈ result.entries ↔
          ∃ value, lastValue? calls key = some value ∧ value.HasText text) := by
  refine ⟨?_, ?_, ?_, ?_⟩
  · intro others heq
    exact congrArg defaults (withParameters_congr _ heq)
  · rw [exists_fault_iff]
    simp only [Prod.exists, mem_parameters_iff]
  · intro fault
    rw [defaults_eq_error_iff, name_ofCalls]
    simp only [isLeastCompound_iff]
  · intro h
    have hscalar : ∀ member ∈ (ofCalls name kind pattern calls).parameters.members,
        member.2.isCompound = false :=
      fun member hm => h member.1 member.2 (mem_parameters_iff.mp hm)
    have hentry (key text : String) :
        (key, text) ∈ texts (ofCalls name kind pattern calls).parameters.members ↔
          ∃ value, lastValue? calls key = some value ∧ value.HasText text := by
      simp only [mem_texts_iff, mem_parameters_iff]
    refine ⟨_, defaults_eq_ok hscalar, ?_⟩
    unfold Parameters.names
    rw [entries_ofList_texts]
    refine ⟨pairwise_texts (ofCalls name kind pattern calls).parameters.sorted, ?_, hentry⟩
    intro key
    rw [List.mem_map]
    constructor
    · rintro ⟨⟨found, text⟩, hm, rfl⟩
      obtain ⟨value, hv, ht⟩ := (hentry found text).mp hm
      exact ⟨value, hv, (Json.exists_hasText_iff.mp ⟨text, ht⟩).1⟩
    · rintro ⟨value, hv, hnull⟩
      obtain ⟨text, ht⟩ := Json.exists_hasText_iff.mpr ⟨hnull, h key value hv⟩
      exact ⟨(key, text), (hentry key text).mpr ⟨value, hv, ht⟩, rfl⟩

/-- Values of which some are given again: `b` stands for a list at first, `a` for a number, and `c`
for `null` in the end. -/
def repeatedCalls : List (String × Json) :=
  [("b", .array []), ("a", .number (.integer 1)), ("c", .string "x"), ("b", .string "y"),
    ("a", .boolean true), ("c", .null)]

/-- The same last values, each given once and in another order, have the same texts; a list as the
last value of `b` is refused. -/
theorem defaults_repeatedCalls :
    (∀ key, lastValue? repeatedCalls key =
      lastValue? [("c", .null), ("b", .string "y"), ("a", .boolean true)] key) ∧
    (ofCalls "r" "pattern" none repeatedCalls).defaults =
      (ofCalls "r" "pattern" none
        [("c", .null), ("b", .string "y"), ("a", .boolean true)]).defaults ∧
    (ofCalls "r" "pattern" none repeatedCalls).defaults = .ok (.ofList [("a", "true"), ("b", "y")]) ∧
    (∃ value, lastValue? repeatedCalls "b" = some value ∧ value.HasText "y") ∧
    (ofCalls "r" "pattern" none (repeatedCalls ++ [("b", .array [])])).defaults =
      .error (.invalidParameter "r" "b") := by
  have hsame : ∀ key, lastValue? repeatedCalls key =
      lastValue? [("c", .null), ("b", .string "y"), ("a", .boolean true)] key := by
    intro key
    by_cases ha : key = "a"
    · subst ha
      rfl
    by_cases hb : key = "b"
    · subst hb
      rfl
    by_cases hc : key = "c"
    · subst hc
      rfl
    simp [lastValue?, repeatedCalls, Parameters.lookup_cons_ite, ha, hb, hc]
  have hscalar : ∀ key value, lastValue? repeatedCalls key = some value →
      value.isCompound = false := by
    intro key value hv
    rw [hsame, lastValue?] at hv
    obtain ⟨before, after, hcalls, -⟩ := List.lookup_eq_some_iff.mp hv
    have hm : (key, value) ∈ before ++ (key, value) :: after :=
      List.mem_append_right before List.mem_cons_self
    rw [← hcalls] at hm
    simp only [List.mem_reverse, List.mem_cons, Prod.mk.injEq, List.not_mem_nil, or_false] at hm
    rcases hm with ⟨-, rfl⟩ | ⟨-, rfl⟩ | ⟨-, rfl⟩ <;> rfl
  obtain ⟨horder, -, -, hok⟩ := defaults_lastValues "r" "pattern" none repeatedCalls
  obtain ⟨result, hresult, -, -, hentries⟩ := hok hscalar
  have hcomputed : (ofCalls "r" "pattern" none repeatedCalls).defaults =
      .ok (.ofList [("a", "true"), ("b", "y")]) := by
    with_unfolding_all rfl
  have hfault : (ofCalls "r" "pattern" none (repeatedCalls ++ [("b", .array [])])).defaults =
      .error (.invalidParameter "r" "b") := by
    with_unfolding_all rfl
  have hb : ("b", "y") ∈ result.entries := by
    cases hresult.symm.trans hcomputed
    decide
  exact ⟨hsame, horder _ hsame, hcomputed, (hentries "b" "y").mp hb, hfault⟩

end RouteDefinition

end UrlRouting
