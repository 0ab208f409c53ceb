import EntityStore.Schema.Change

/-!
What a change of a schema in place can do. Each change has two outcomes: it fails and the schema is
as it was (`…_cases`, first part), or it does all of its work and nothing stood against it (second
part).
-/

set_option autoImplicit false

namespace EntityStore

namespace Editing

variable {α β : Type} (s : Schema)

/-! ### Running the steps of a change -/

theorem run_ask_bind (f : Schema → Except SchemaError α) (k : α → Editing β) :
    (ask f >>= k).run s = match f s with
      | .ok a => (k a).run s
      | .error e => (.error e, s) := by
  change ((match f s with
    | .ok a => pure a
    | .error e => throw e : Editing α) >>= k).run s = _
  cases f s <;> rfl

theorem run_refuse_bind (o : Option SchemaError) (k : Unit → Editing β) :
    (refuse o >>= k).run s = match o with
      | some e => (.error e, s)
      | none => (k ()).run s := by
  cases o <;> rfl

theorem run_get_bind (k : Schema → Editing β) :
    ((get : Editing Schema) >>= k).run s = (k s).run s :=
  rfl

theorem run_modify_bind (f : Schema → Schema) (k : Unit → Editing β) :
    ((modify f : Editing Unit) >>= k).run s = (k ()).run (f s) :=
  rfl

theorem run_modify (f : Schema → Schema) : (modify f : Editing Unit).run s = (.ok (), f s) :=
  rfl

theorem run_set (t : Schema) : (set t : Editing Unit).run s = (.ok (), t) :=
  rfl

/-! ### The outcomes of the changes -/

/-- A change failed and left the schema as it was. -/
def Fails (change : Editing Unit) : Prop :=
  ∃ e, change.run s = (.error e, s)

theorem addEntity_cases (name : String) (kind : EntityKind) :
    Fails s (addEntity name kind) ∨
      isName name ∧ s.get? name = none ∧
        (addEntity name kind).run s = (.ok (), s.push (.fresh name kind)) := by
  unfold Fails addEntity
  simp only [run_ask_bind, run_refuse_bind, run_get_bind, run_set]
  cases s.checkOpen with
  | error e => exact .inl ⟨e, rfl⟩
  | ok =>
    by_cases hname : isName name
    · cases hget : s.get? name with
      | some e => exact .inl ⟨.entityExists name, by simp [hname]⟩
      | none => exact .inr ⟨hname, rfl, by simp [hname]⟩
    · exact .inl ⟨.entityName name, by simp [hname]⟩

/-- What a property must be like to be added to an entity. -/
structure Addable (entity : String) (p : Property) (owner : Entity) : Prop where
  unbound : p.entity = none
  name : isName p.name
  entity : s.get? entity = some owner
  fresh : owner.get? p.name = none

theorem addProperty_cases (entity : String) (p : Property) :
    Fails s (addProperty entity p) ∨
      ∃ owner owned, Addable s entity p owner ∧ s.relate entity p = .ok owned ∧
        (addProperty entity p).run s = (.ok (),
          (owned.elim s fun target ↦ s.modify target fun child ↦ child.adopt entity p).modify entity
            fun e ↦ e.push { p with entity := some entity }) := by
  unfold Fails addProperty
  simp only [run_ask_bind, run_refuse_bind, run_modify_bind, run_modify]
  cases s.checkOpen with
  | error e => exact .inl ⟨e, rfl⟩
  | ok =>
    cases hbound : p.entity with
    | some bound => exact .inl ⟨.alreadyBound p.name bound, rfl⟩
    | none =>
      by_cases hname : isName p.name
      · simp only [hname, ↓reduceIte, Option.map_none, Schema.find]
        cases hget : s.get? entity with
        | none => exact .inl ⟨.noEntity entity, rfl⟩
        | some owner =>
          cases hfresh : owner.get? p.name with
          | some q => exact .inl ⟨.propertyExists p.name entity, by simp [hfresh]⟩
          | none =>
            cases hrelate : s.relate entity p with
            | error e => exact .inl ⟨e, by simp [hfresh]⟩
            | ok owned =>
              exact .inr ⟨owner, owned, ⟨hbound, hname, hget, hfresh⟩, rfl, by simp [hfresh]⟩
      · exact .inl ⟨.propertyName p.name, by simp [hname]⟩

theorem removeProperty_cases (entity name : String) :
    Fails s (removeProperty entity name) ∨
      ∃ owner p rest, name ≠ idName ∧ name ≠ parentName ∧ s.get? entity = some owner ∧
        owner.take name = some (p, rest) ∧
        (removeProperty entity name).run s = (.ok (),
          p.owned?.elim (s.modify entity fun _ ↦ rest) fun target ↦
            (s.modify entity fun _ ↦ rest).modify target Entity.release) := by
  unfold Fails removeProperty
  simp only [run_ask_bind, run_refuse_bind, run_modify_bind, run_modify, Schema.find]
  cases s.checkOpen with
  | error e => exact .inl ⟨e, rfl⟩
  | ok =>
    by_cases hname : name = idName ∨ name = parentName
    · exact .inl ⟨.notRemovable name, by simp [hname]⟩
    · simp only [hname, ↓reduceIte]
      cases hget : s.get? entity with
      | none => exact .inl ⟨.noEntity entity, rfl⟩
      | some owner =>
        cases htake : owner.take name with
        | none => exact .inl ⟨.noProperty name entity, by simp [htake]⟩
        | some taken =>
          refine .inr ⟨owner, taken.1, taken.2, ?_, ?_, rfl, by simp [htake], by simp [htake]⟩
          · exact fun h ↦ hname (.inl h)
          · exact fun h ↦ hname (.inr h)

theorem removeEntity_cases (name : String) :
    Fails s (removeEntity name) ∨
      (∃ e, s.get? name = some e) ∧
        (∀ other ∈ s.entities, other.name ≠ name → other.refersTo name = false) ∧
        (removeEntity name).run s = (.ok (), ((s.ownedBy name).foldl
          (fun s target ↦ s.modify target Entity.release) s).drop name) := by
  unfold Fails removeEntity
  simp only [run_ask_bind, run_modify_bind, run_modify, Schema.find, Schema.checkUnused]
  cases s.checkOpen with
  | error e => exact .inl ⟨e, rfl⟩
  | ok =>
    cases hget : s.get? name with
    | none => exact .inl ⟨.noEntity name, rfl⟩
    | some e =>
      cases hused : s.entities.find? fun e ↦ e.name != name && e.refersTo name with
      | some other => exact .inl ⟨.stillReferenced name other.name, rfl⟩
      | none =>
        refine .inr ⟨⟨e, rfl⟩, fun other hother hname ↦ ?_, rfl⟩
        have hunused := List.find?_eq_none.mp hused other hother
        simpa [hname] using hunused

end Editing

end EntityStore
