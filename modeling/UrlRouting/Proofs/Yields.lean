import UrlRouting.Definition.Reader

/-! # What readers yield

* `Json.Reader.Yields`: whatever a reader reads has a property. Each way to combine readers has a
  lemma that says what the parts have to yield.
* `RouteTable.of_ofJson`: what every object that is read has, the parameters of every definition in
  a table have. -/

namespace UrlRouting

namespace Json

/-- Whatever is read has the property. -/
def Reader.Yields {α : Type} (reader : Reader α) (property : α → Prop) : Prop :=
  ∀ ⦃text rest : List Char⦄ ⦃value : α⦄, reader text = .ok (value, rest) → property value

namespace Reader

variable {α β σ : Type} {property : α → Prop}

theorem Yields.readNamed {reader : Reader α} (h : reader.Yields property) :
    (Json.readNamed reader).Yields property := by
  intro text rest value hr
  obtain ⟨_, _, hr⟩ := bind_eq_ok.mp hr
  exact h hr

theorem Yields.readOnce {reader : Reader α} (h : reader.Yields property) (before : Option β) :
    (Json.readOnce before reader).Yields property := by
  intro text rest value hr
  unfold Json.readOnce at hr
  split at hr
  · cases hr
  · exact h.readNamed hr

/-- What every value leads to, the state that keeps it has. -/
theorem Yields.readInto {kept : σ → Prop} {reader : Reader α} {keep : α → σ}
    (h : reader.Yields fun value => kept (keep value)) (before : Option α) :
    (Json.readInto before reader keep).Yields kept := by
  intro text rest state hr
  obtain ⟨_, hfound, hr⟩ := bind_eq_ok.mp hr
  cases hr
  exact h.readOnce before hfound

theorem Yields.readField {reader : Reader α} (h : reader.Yields property) {default : α}
    (hd : property default) (isFirst : Bool) :
    (Json.readField isFirst reader default).Yields property := by
  intro text rest value hr
  obtain ⟨next, _, hr⟩ := bind_eq_ok.mp hr
  cases next with
  | none =>
      cases hr
      exact hd
  | some start => exact h hr

theorem Yields.readItemsFrom {item : Reader α} (h : item.Yields property) (bound : Nat)
    (isFirst : Bool) :
    (Json.readItemsFrom item bound isFirst).Yields fun values =>
      ∀ value ∈ values, property value := by
  induction bound generalizing isFirst with
  | zero =>
      intro text rest values hr
      cases hr
  | succ bound ih =>
      intro text rest values hr
      obtain ⟨next, _, hr⟩ := bind_eq_ok.mp hr
      cases next with
      | none =>
          cases hr
          exact fun _ hm => absurd hm List.not_mem_nil
      | some start =>
          obtain ⟨⟨first, after⟩, hfirst, hr⟩ := bind_eq_ok.mp hr
          obtain ⟨⟨others, _⟩, hothers, hr⟩ := bind_eq_ok.mp hr
          cases hr
          exact List.forall_mem_cons.mpr ⟨h hfirst, ih false hothers⟩

theorem Yields.readItems {item : Reader α} (h : item.Yields property) (bound : Nat) :
    (Json.readItems bound item).Yields fun values => ∀ value ∈ values, property value := by
  intro text rest values hr
  obtain ⟨⟨_, _⟩, hitems, hr⟩ := bind_eq_ok.mp hr
  obtain ⟨_, _, hr⟩ := bind_eq_ok.mp hr
  cases hr
  exact h.readItemsFrom _ true hitems

theorem Yields.readList {item : Nat → Reader α} {depth : Nat}
    (h : ∀ inner, depth = inner + 1 → (item inner).Yields property) (bound : Nat) :
    (Json.readList bound depth item).Yields fun values => ∀ value ∈ values, property value := by
  intro text rest values hr
  unfold Json.readList at hr
  split at hr
  · cases hr
  split at hr
  · split at hr
    · cases hr
    · exact (h _ rfl).readItems bound hr
  · cases hr

theorem yields_skipMember {state : σ} {kept : σ → Prop} (h : kept state) :
    (skipMember state).Yields kept := by
  intro text rest after hr
  obtain ⟨_, _, hr⟩ := bind_eq_ok.mp hr
  obtain ⟨_, _, hr⟩ := bind_eq_ok.mp hr
  cases hr
  exact h

/-- What every member keeps of the state, all members keep. -/
theorem yields_readMembers {member : σ → String → Reader σ} {property : σ → Prop}
    (h : ∀ state name, property state → (member state name).Yields property) {initial : σ}
    (hi : property initial) (bound : Nat) :
    (Json.readMembers bound member initial).Yields property := by
  have hfrom : ∀ (bound : Nat) (isFirst : Bool) {state : σ}, property state →
      (Json.readMembersFrom member bound isFirst state).Yields property := by
    intro bound
    induction bound with
    | zero =>
        intro isFirst state _ text rest value hr
        cases hr
    | succ bound ih =>
        intro isFirst state hs text rest value hr
        obtain ⟨next, _, hr⟩ := bind_eq_ok.mp hr
        cases next with
        | none =>
            cases hr
            exact hs
        | some start =>
            obtain ⟨⟨name, after⟩, _, hr⟩ := bind_eq_ok.mp hr
            obtain ⟨⟨changed, _⟩, hc, hr⟩ := bind_eq_ok.mp hr
            exact ih false (h state name hs hc) hr
  intro text rest value hr
  obtain ⟨⟨_, _⟩, hm, hr⟩ := bind_eq_ok.mp hr
  obtain ⟨_, _, hr⟩ := bind_eq_ok.mp hr
  cases hr
  exact hfrom _ true hi hm

theorem yields_readRecord {named listed : Nat → Reader α} {depth : Nat}
    (hn : ∀ inner, depth = inner + 1 → (named inner).Yields property)
    (hl : ∀ inner, depth = inner + 1 → (listed inner).Yields property) :
    (Json.readRecord depth named listed).Yields property := by
  intro text rest value hr
  unfold Json.readRecord at hr
  split at hr
  · cases hr
  split at hr
  · split at hr
    · cases hr
    · exact hn _ rfl hr
  split at hr
  · split at hr
    · cases hr
    · obtain ⟨⟨_, _⟩, hlisted, hr⟩ := bind_eq_ok.mp hr
      obtain ⟨_, _, hr⟩ := bind_eq_ok.mp hr
      cases hr
      exact hl _ rfl hlisted
  · cases hr

end Reader

theorem of_readWhole {α : Type} {property : α → Prop} {reader : Nat → Reader α}
    (h : ∀ bound, (reader bound).Yields property) {text : String} {value : α}
    (hr : readWhole reader text = .ok value) : property value := by
  obtain ⟨⟨_, rest⟩, hv, hr⟩ := bind_eq_ok.mp hr
  dsimp only at hr
  split at hr
  · cases hr
    exact h _ hv
  · cases hr

theorem Reader.yields_readObject_of_members {property : Object → Prop} {bound depth : Nat}
    (h : ∀ inner, depth = inner + 1 →
      (readMembers bound (addMember (readValue bound inner)) .empty).Yields property) :
    (Json.readObject bound depth).Yields property := by
  intro text rest members hr
  unfold Json.readObject at hr
  split at hr
  · cases hr
  split at hr
  · split at hr
    · cases hr
    · exact h _ rfl hr
  · cases hr

end Json

/-! ### Definitions and tables

What every object that is read has, the parameters of every definition have. -/

variable {property : Json.Object → Prop} {bound depth : Nat}

namespace DefinitionFields

/-- The parameters, if they have been read, have the property. -/
def Keep (property : Json.Object → Prop) (fields : DefinitionFields) : Prop :=
  ∀ object, fields.parameters = some object → property object

theorem yields_read (h : (Json.readObject bound depth).Yields property) {fields : DefinitionFields}
    (hf : fields.Keep property) (key : String) :
    (read bound depth fields key).Yields (Keep property) := by
  unfold read
  split
  · apply Json.Reader.Yields.readInto
    exact fun _ _ _ _ => hf
  split
  · apply Json.Reader.Yields.readInto
    exact fun _ _ _ _ => hf
  split
  · apply Json.Reader.Yields.readInto
    exact fun _ _ _ _ => hf
  split
  · apply Json.Reader.Yields.readInto
    rintro text rest object hr _ ⟨⟩
    exact h hr
  · exact Json.Reader.yields_skipMember hf

theorem Keep.definition {fields : DefinitionFields} (h : fields.Keep property)
    (hempty : property .empty) {definition : RouteDefinition}
    (hd : fields.definition = .ok definition) : property definition.parameters := by
  unfold DefinitionFields.definition at hd
  split at hd
  · cases hd
  · cases hd
    show property (fields.parameters.getD .empty)
    cases hp : fields.parameters with
    | none => exact hempty
    | some object => exact h object hp

end DefinitionFields

namespace RouteDefinition

theorem yields_readNamed (hempty : property .empty)
    (h : (Json.readObject bound depth).Yields property) :
    (readNamed bound depth).Yields fun definition => property definition.parameters := by
  intro text rest definition hr
  obtain ⟨⟨fields, _⟩, hf, hr⟩ := Json.bind_eq_ok.mp hr
  obtain ⟨_, hd, hr⟩ := Json.bind_eq_ok.mp hr
  cases hr
  have hread := Json.Reader.yields_readMembers
    (fun state name hs => DefinitionFields.yields_read h hs name)
    (show DefinitionFields.unread.Keep property from fun members hm => nomatch hm) bound
  exact (hread hf).definition hempty hd

theorem yields_readListed (hempty : property .empty)
    (h : (Json.readObject bound depth).Yields property) :
    (readListed bound depth).Yields fun definition => property definition.parameters := by
  intro text rest definition hr
  obtain ⟨next, _, hr⟩ := Json.bind_eq_ok.mp hr
  cases next with
  | none => cases hr
  | some start =>
      obtain ⟨⟨_, _⟩, _, hr⟩ := Json.bind_eq_ok.mp hr
      obtain ⟨⟨_, _⟩, _, hr⟩ := Json.bind_eq_ok.mp hr
      obtain ⟨⟨_, _⟩, _, hr⟩ := Json.bind_eq_ok.mp hr
      obtain ⟨⟨_, _⟩, hmembers, hr⟩ := Json.bind_eq_ok.mp hr
      cases hr
      exact h.readField hempty false hmembers

theorem yields_read (hempty : property .empty)
    (h : ∀ inner, depth = inner + 1 → (Json.readObject bound inner).Yields property) :
    (read bound depth).Yields fun definition => property definition.parameters :=
  Json.Reader.yields_readRecord (fun inner hd => yields_readNamed hempty (h inner hd))
    fun inner hd => yields_readListed hempty (h inner hd)

end RouteDefinition

namespace RouteTable

variable {kept : RouteDefinition → Prop}

theorem yields_readNamed
    (h : (readRoutes bound depth).Yields fun definitions =>
      ∀ definition ∈ definitions, kept definition) :
    (readNamed bound depth).Yields fun table => ∀ definition ∈ table.routes, kept definition := by
  intro text rest table hr
  obtain ⟨⟨routes, _⟩, hm, hr⟩ := Json.bind_eq_ok.mp hr
  cases hr
  have hread : (Json.readMembers bound (readMember bound depth) none).Yields fun routes =>
      ∀ definition ∈ routes.getD [], kept definition := by
    refine Json.Reader.yields_readMembers ?_ (fun _ hn => absurd hn List.not_mem_nil) bound
    intro state name hs
    unfold readMember
    split
    · exact Json.Reader.Yields.readInto h _
    · exact Json.Reader.yields_skipMember hs
  exact hread hm

theorem yields_readListed
    (h : (readRoutes bound depth).Yields fun definitions =>
      ∀ definition ∈ definitions, kept definition) :
    (readListed bound depth).Yields fun table => ∀ definition ∈ table.routes, kept definition := by
  intro text rest table hr
  obtain ⟨⟨_, _⟩, hroutes, hr⟩ := Json.bind_eq_ok.mp hr
  cases hr
  exact h.readField (fun _ hn => absurd hn List.not_mem_nil) true hroutes

/-- Between a whole table and the parameters of a definition three containers are entered. -/
theorem of_ofJson (hempty : property .empty)
    (h : ∀ bound inner, inner + 3 = Json.nestingLimit →
      (Json.readObject bound inner).Yields property)
    {text : String} {table : RouteTable} (ht : ofJson text = .ok table) :
    ∀ definition ∈ table.routes, property definition.parameters := by
  have hroutes (bound inner : Nat) (hi : Json.nestingLimit = inner + 1) :
      (readRoutes bound inner).Yields fun routes =>
        ∀ definition ∈ routes, property definition.parameters := by
    refine Json.Reader.Yields.readList (fun second hs => ?_) bound
    exact RouteDefinition.yields_read hempty fun third ht => h bound third (by omega)
  have hread (bound : Nat) : (read bound Json.nestingLimit).Yields fun table =>
      ∀ definition ∈ table.routes, property definition.parameters :=
    Json.Reader.yields_readRecord (fun inner hi => yields_readNamed (hroutes bound inner hi))
      fun inner hi => yields_readListed (hroutes bound inner hi)
  exact Json.of_readWhole hread ht

end RouteTable

end UrlRouting
