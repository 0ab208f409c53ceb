import EntityStore.Proofs.Query.Typed

/-!
Queries for one row and what hangs on it: the row of a number with all its fields, for each owned
relation that is asked for the owned rows in the same way, and for each linked one the numbers of
the rows that it links to. Such a query compiles without an error (`compileQuery_form`).
-/

set_option autoImplicit false

namespace EntityStore.Query

open EntityStore.Language (Item QueryForm)

/-- A relation that is asked for: an owned one with what is asked for below it, or a linked one. -/
inductive Wanted where
  | owned (relation : String) (below : List Wanted)
  | linked (relation : String)

namespace Wanted

def relation : Wanted → String
  | .owned relation _ => relation
  | .linked relation => relation

mutual

/-- The selection of a relation. Of owned rows all fields are selected, of linked ones the
numbers. -/
def item : Wanted → Item Value Int64
  | .owned relation below => .relation relation none none none (.all :: items below)
  | .linked relation => .relation relation none none none [.field idName none]

def items : List Wanted → List (Item Value Int64)
  | [] => []
  | w :: ws => w.item :: items ws

end

/-- The query for the row of a number. -/
def form (entity : String) (id : Int64) (wanted : List Wanted) : QueryForm Value Int64 where
  entity := entity
  body := ⟨some (.predicate [idName] (.compare .eq) (.literal (.long id))), none, none,
      .all :: items wanted⟩

end Wanted

/-- The row number and the declared fields of an entity, not sorted. -/
def allFields (e : Entity) : List SelectedField :=
  ⟨idName, .long, none⟩ :: e.userFields.map fun f ↦ ⟨f.1, f.2.type, none⟩

/-- A level of all rows in their own order. -/
def Level.plain (e : Entity) (fields : List SelectedField) : Level :=
  ⟨e.name, none, none, none, fields⟩

/-- The levels that the relations of an entity compile to, where none is asked for twice. -/
inductive Levels (s : Schema) : Entity → List Wanted → List (Relation × Tree) → Prop where
  | nil {e : Entity} : Levels s e [] []
  | owned {e d : Entity} {p : Property} {below wanted : List Wanted}
      {inner relations : List (Relation × Tree)} (hp : p ∈ e.properties) (hd : d ∈ s.entities)
      (howned : p.relation? = some (d.name, .owned)) (hnew : p.name ∉ wanted.map Wanted.relation)
      (hbelow : Levels s d below inner) (hrest : Levels s e wanted relations) :
      Levels s e (.owned p.name below :: wanted)
        ((⟨p.name, .owned, !p.isSingle⟩, .node (.plain d (allFields d)) inner) :: relations)
  | linked {e d : Entity} {p : Property} {wanted : List Wanted} {relations : List (Relation × Tree)}
      (hp : p ∈ e.properties) (hd : d ∈ s.entities) (hlinked : p.relation? = some (d.name, .linked))
      (hnew : p.name ∉ wanted.map Wanted.relation) (hrest : Levels s e wanted relations) :
      Levels s e (.linked p.name :: wanted)
        ((⟨p.name, .linked, !p.isSingle⟩, .node (.plain d [⟨idName, .long, none⟩]) []) :: relations)

theorem allFields_unsorted (e : Entity) : ∀ f ∈ allFields e, f.sort = none := by
  refine List.forall_mem_cons.mpr ⟨rfl, fun f hf ↦ ?_⟩
  obtain ⟨_, -, rfl⟩ := List.mem_map.mp hf
  rfl

section

variable {s : Schema} {e : Entity} {wanted : List Wanted} {relations : List (Relation × Tree)}

theorem Levels.names (h : Levels s e wanted relations) :
    relations.map (fun x ↦ x.1.name) = wanted.map Wanted.relation := by
  induction h with
  | nil => rfl
  | owned _ _ _ _ _ _ _ ih => exact congrArg _ ih
  | linked _ _ _ _ _ ih => exact congrArg _ ih

theorem Levels.nodup (h : Levels s e wanted relations) :
    (relations.map fun x ↦ x.1.name).Nodup := by
  rw [h.names]
  induction h with
  | nil => exact .nil
  | owned _ _ _ hnew _ _ _ ih => exact List.nodup_cons.mpr ⟨hnew, ih⟩
  | linked _ _ _ hnew _ ih => exact List.nodup_cons.mpr ⟨hnew, ih⟩

/-- The levels neither limit nor sort their rows, and select no relation twice. -/
theorem Levels.nodes (h : Levels s e wanted relations) : ∀ u ∈ Tree.relationNodes relations,
    (u.relations.map fun x ↦ x.1.name).Nodup ∧ u.level.limit = none ∧
    ∀ f ∈ u.level.fields, f.sort = none := by
  induction h with
  | nil => exact List.forall_mem_nil _
  | owned _ _ _ _ hbelow _ ihbelow ihrest =>
    refine List.forall_mem_append.mpr
      ⟨List.forall_mem_cons.mpr ⟨⟨hbelow.nodup, rfl, allFields_unsorted _⟩, ihbelow⟩, ihrest⟩
  | linked _ _ _ _ _ ihrest =>
    refine List.forall_mem_cons.mpr ⟨⟨.nil, rfl, ?_⟩, ihrest⟩
    exact List.forall_mem_singleton.mpr rfl

end

/-- A property with a relation leads to its target. -/
theorem leads_of_relation {s : Schema} {e d : Entity} {p : Property} {kind : RelationKind}
    (hp : p ∈ e.properties) (hd : d ∈ s.entities) (hrelation : p.relation? = some (d.name, kind)) :
    Leads s e ⟨p.name, kind, !p.isSingle⟩ d.name := by
  refine ⟨p, hp, d, hd, rfl, hrelation, ?_, rfl⟩
  unfold Property.relation? at hrelation
  unfold Property.isSingle
  cases hkind : p.kind with
  | field f =>
    rw [hkind] at hrelation
    cases hrelation
  | _ => simp

/-! ### Notes of accesses -/

/-- Nothing but accesses was noted. -/
def Noted.Plain {α : Type} (x : Noted α) : Prop :=
  ∀ n ∈ x.notes, ∃ k, n = .access k

section

variable {α β : Type}

@[simp] theorem Noted.plain_pure (a : α) : (pure a : Noted α).Plain :=
  fun _ h ↦ absurd h List.not_mem_nil

@[simp] theorem Noted.plain_access (k : PropertyKey) : (note (.access k)).Plain := by
  simp [Plain]

@[simp] theorem Noted.plain_bind {x : Noted α} {f : α → Noted β} :
    (x >>= f).Plain ↔ x.Plain ∧ (f x.result).Plain := by
  simp only [Plain, bind_notes, List.mem_append, or_imp, forall_and]

end

/-- Accesses are neither errors nor parameters. -/
theorem Findings.foldl_accesses {notes : List Note}
    (h : ∀ n ∈ notes, ∃ k, n = .access k) (f : Findings) :
    (notes.foldl add f).errors = f.errors ∧ (notes.foldl add f).parameters = f.parameters := by
  induction notes generalizing f with
  | nil => exact ⟨rfl, rfl⟩
  | cons n notes ih =>
    obtain ⟨⟨k, rfl⟩, hrest⟩ := List.forall_mem_cons.mp h
    exact ih hrest (f.add (.access k))

/-! ### Compiling -/

section

variable {s : Schema} {e d : Entity} {p : Property} {wanted : List Wanted}
  {relations : List (Relation × Tree)}

/-- None of the declared fields is selected at the start. -/
theorem userFields_start (e : Entity) :
    (e.userFields.filter fun f ↦ !Selection.start.hasField f.1) = e.userFields := by
  refine List.filter_eq_self.mpr fun f hf ↦ ?_
  have hname : f.1 ≠ idName := by simpa using (List.mem_filter.mp hf).2
  simpa [Selection.start, Selection.hasField] using hname.symm

/-- Selecting all selects the fields in their order. -/
theorem selectAll_start (e : Entity) :
    (selectAll e .start).Plain ∧ (selectAll e .start).result = ⟨allFields e, [], []⟩ := by
  unfold selectAll
  dsimp only
  rw [userFields_start]
  refine ⟨fun n hn ↦ ?_, rfl⟩
  obtain ⟨f, -, rfl⟩ := List.mem_map.mp hn
  exact ⟨_, rfl⟩

variable (h : s.WellFormed)

include h

theorem get?_id (he : e ∈ s.entities) : e.get? idName = some (.id e.name) :=
  (Entity.get?_eq_some_iff (h.entity e he)).mpr ⟨(h.entity e he).id_mem, rfl⟩

/-- The row number is selected already. -/
theorem selectField_id (he : e ∈ s.entities) : (selectField e .start idName none).Plain ∧
    (selectField e .start idName none).result = ⟨[⟨idName, .long, none⟩], [], []⟩ := by
  unfold selectField
  rw [get?_id h he]
  exact ⟨by simp [Property.id, Property.field?, sorting], rfl⟩

theorem related_eq (he : e ∈ s.entities) (hp : p ∈ e.properties) (hd : d ∈ s.entities)
    {kind : RelationKind} (hrelation : p.relation? = some (d.name, kind)) :
      (related s e p.name).Plain ∧
      (related s e p.name).result = some (⟨p.name, kind, !p.isSingle⟩, d) := by
  have hget : e.get? p.name = some p := (Entity.get?_eq_some_iff (h.entity e he)).mpr ⟨hp, rfl⟩
  unfold related
  rw [hget]
  dsimp only
  rw [hrelation]
  dsimp only
  rw [(Schema.get?_eq_some_iff h).mpr ⟨hd, rfl⟩]
  refine ⟨by simp, ?_⟩
  unfold Property.relation? at hrelation
  unfold Property.isSingle
  cases hkind : p.kind with
  | field f =>
    rw [hkind] at hrelation
    cases hrelation
  | _ => simp

/-- Selecting a relation adds the level that it compiles to. -/
theorem selectItem_relation (he : e ∈ s.entities) (hp : p ∈ e.properties) (hd : d ∈ s.entities)
    {kind : RelationKind} (hrelation : p.relation? = some (d.name, kind))
    {inner : List (Item Value Int64)} {chosen : Selection}
    (hplain : (selectItems s d .start inner).Plain)
    (hinner : (selectItems s d .start inner).result = chosen) (sel : Selection) :
      (selectItem s e sel (.relation p.name none none none inner)).Plain ∧
      (selectItem s e sel (.relation p.name none none none inner)).result =
        sel.addRelation ⟨p.name, kind, !p.isSingle⟩
          (.node (.plain d chosen.fields) chosen.relations) := by
  obtain ⟨hclean, hresult⟩ := related_eq h he hp hd hrelation
  unfold selectItem
  simp only [Noted.plain_bind, Noted.bind_result, hclean, hresult, hplain, hinner]
  refine ⟨?_, rfl⟩
  simp [levelStart, optionally]

/-- Selecting relations adds the levels that they compile to. -/
theorem Levels.selectItems (hlevels : Levels s e wanted relations)
    (he : e ∈ s.entities) (sel : Selection) :
    (Query.selectItems s e sel (Wanted.items wanted)).Plain ∧
      (Query.selectItems s e sel (Wanted.items wanted)).result =
        { sel with relations := sel.relations ++ relations } := by
  induction hlevels generalizing sel with
  | nil => exact ⟨Noted.plain_pure sel, by rw [List.append_nil]; rfl⟩
  | @owned e d p below wanted inner relations hp hd howned _ _ _ ihbelow ihrest =>
    obtain ⟨hall, hfields⟩ := selectAll_start d
    obtain ⟨hbelow, hlevel⟩ := ihbelow hd ⟨allFields d, [], []⟩
    have hinner : (Query.selectItems s d .start (.all :: Wanted.items below)).Plain ∧
        (Query.selectItems s d .start (.all :: Wanted.items below)).result =
          ⟨allFields d, inner, []⟩ := by
      unfold Query.selectItems selectItem
      simp only [Noted.plain_bind, Noted.bind_result, hfields, hall, hbelow, hlevel,
        List.nil_append, and_self]
    obtain ⟨hitem, hresult⟩ := selectItem_relation h he hp hd howned hinner.1 hinner.2 sel
    obtain ⟨hrest, hothers⟩ := ihrest he
      (sel.addRelation ⟨p.name, .owned, !p.isSingle⟩ (.node (.plain d (allFields d)) inner))
    unfold Wanted.items Wanted.item Query.selectItems
    simp only [Noted.plain_bind, Noted.bind_result, hitem, hresult, hrest,
      hothers, and_self, true_and]
    simp [Selection.addRelation]
  | @linked e d p wanted relations hp hd hlinked _ _ ihrest =>
    obtain ⟨hid, hfields⟩ := selectField_id h hd
    have hinner : (Query.selectItems s d .start [.field idName none]).Plain ∧
        (Query.selectItems s d .start [.field idName none]).result =
          ⟨[⟨idName, .long, none⟩], [], []⟩ := by
      unfold Query.selectItems selectItem Query.selectItems
      simp only [Noted.plain_bind, Noted.bind_result, hid, hfields, Noted.plain_pure,
        Noted.pure_result, and_self]
    obtain ⟨hitem, hresult⟩ := selectItem_relation h he hp hd hlinked hinner.1 hinner.2 sel
    obtain ⟨hrest, hothers⟩ := ihrest he
      (sel.addRelation ⟨p.name, .linked, !p.isSingle⟩ (.node (.plain d [⟨idName, .long, none⟩]) []))
    unfold Wanted.items Wanted.item Query.selectItems
    simp only [Noted.plain_bind, Noted.bind_result, hitem, hresult, hrest,
      hothers, and_self, true_and]
    simp [Selection.addRelation]

/-- The filter for a row number compares it with the number. -/
theorem filter_id (he : e ∈ s.entities) (id : Int64) :
    (filter s e (.predicate [idName] (.compare .eq) (.literal (.long id)))).Plain ∧
      (filter s e (.predicate [idName] (.compare .eq) (.literal (.long id)))).result =
        some (.ofId id) := by
  unfold filter predicate place lastPlace
  rw [get?_id h he]
  refine ⟨fun n hn ↦ ?_, rfl⟩
  exact ⟨_, List.mem_singleton.mp hn⟩

/-- The query for a row compiles, without parameters. -/
theorem compileQuery_form (he : e ∈ s.entities)
    (hlevels : Levels s e wanted relations) (id : Int64) :
    ∃ q, s.compileQuery (Wanted.form e.name id wanted) = .ok q ∧ q.parameters = [] ∧
      q.tree = .node ⟨e.name, some (.ofId id), none, none, allFields e⟩ relations := by
  obtain ⟨hfilter, hid⟩ := filter_id h he id
  obtain ⟨hall, hfields⟩ := selectAll_start e
  obtain ⟨hrelations, hbelow⟩ := hlevels.selectItems h he ⟨allFields e, [], []⟩
  have htop : (top s e (Wanted.form e.name id wanted).body).Plain ∧
      (top s e (Wanted.form e.name id wanted).body).result =
        .node ⟨e.name, some (.ofId id), none, none, allFields e⟩ relations := by
    unfold top Wanted.form levelStart Query.selectItems selectItem
    simp only [optionally, Noted.plain_bind, Noted.bind_result, hfilter, hid, hall,
      hfields, hrelations, hbelow]
    exact ⟨by simp, rfl⟩
  obtain ⟨herrors, hparameters⟩ :
      (Findings.ofNotes (top s e (Wanted.form e.name id wanted).body).notes).errors = [] ∧
      (Findings.ofNotes (top s e (Wanted.form e.name id wanted).body).notes).parameters = [] :=
    Findings.foldl_accesses htop.1 .none
  exact ⟨_, compileQuery_ok_iff.mpr ⟨e, (Schema.get?_eq_some_iff h).mpr ⟨he, rfl⟩, herrors, rfl⟩,
    hparameters, htop.2⟩

end

end EntityStore.Query
