import EntityStore.Proofs.Compile.Create
import EntityStore.Proofs.Lookup
import EntityStore.Proofs.Mapping.Changes

/-!
What a compiled instruction means, told by the content of a store: a create adds one row with its
links, an update sets some cells of one row and changes some of its links, a delete removes one row.
-/

set_option autoImplicit false

namespace EntityStore

namespace InputValue

/-- The rows that an input refers to. -/
def rows : InputValue → List RowRef
  | .value _ => []
  | .ref r => [r]
  | .refs rs => rs
  | .link _ r => [r]
  | .links ls => ls.map Prod.snd

/-- The rows that a new row is linked to. -/
def targets (slots : Slots) : InputValue → List Int64
  | .ref r => (slots.id? r).toList
  | .refs rs => rs.filterMap slots.id?
  | _ => []

/-- The numbers of the rows that links of a kind lead to. -/
def changed (slots : Slots) (op : Language.LinkOp) (ls : List (Language.LinkOp × RowRef)) :
    List Int64 :=
  (ls.filter (·.1 = op)).filterMap fun l ↦ slots.id? l.2

/-- The rows that a changed row is linked to, those before the change being given. A reference is
replaced or cleared; of a collection the removed rows go, and the added ones follow in their
order. -/
def relinked (slots : Slots) (before : List Int64) : InputValue → List Int64
  | .refs _ => []
  | .link .add r => (slots.id? r).toList
  | .link .del r => before.filter fun n ↦ some n ≠ slots.id? r
  | .links ls => (before.filter fun n ↦ n ∉ changed slots .del ls) ++ changed slots .add ls
  | _ => before

end InputValue

/-- The cell that inputs give a field; of several the first counts. -/
def Entity.given (e : Entity) (inputs : Inputs) (name : String) : Option Cell :=
  match (e.get? name).bind Property.field?, inputs.lookup name with
  | some f, some (.value v) => some (f.type.cell v)
  | _, _ => none

/-- The owner that inputs give a row. -/
def Slots.owner? (slots : Slots) (inputs : Inputs) : Option Int64 :=
  match inputs.lookup parentName with
  | some (.ref r) => slots.id? r
  | _ => none

/-- The rows that inputs name as owner or link to all have numbers. -/
def Entity.Settled (e : Entity) (inputs : Inputs) (slots : Slots) : Prop :=
  ∀ x ∈ inputs, x.1 = parentName ∨ e.links x.1 → ∀ r ∈ x.2.rows, (slots.id? r).isSome

namespace Content

/-- A new row with the given cells and owner, linked to the given rows and to no others. -/
def create (c : Content) (e : Entity) (inputs : Inputs) (slots : Slots) (id : Int64) : Content where
  row d n :=
    if d = e.name ∧ n = id then some ⟨fun name ↦ (e.given inputs name).getD .null,
      slots.owner? inputs⟩
    else c.row d n
  links d r o :=
    if d = e.name ∧ o = id ∧ e.links r then ((inputs.lookup r).map (·.targets slots)).getD []
    else c.links d r o

/-- A row with some cells set, and its owner and links changed where the inputs say so. -/
def update (c : Content) (e : Entity) (inputs : Inputs) (slots : Slots) (id : Int64) : Content where
  row d n :=
    if d = e.name ∧ n = id then (c.row d n).map fun x ↦
      ⟨fun name ↦ (e.given inputs name).getD (x.value name), (slots.owner? inputs).or x.parent⟩
    else c.row d n
  links d r o :=
    if d = e.name ∧ o = id ∧
      e.links r then ((inputs.lookup r).map (·.relinked slots (c.links d r o))).getD (c.links d r o)
    else c.links d r o

/-- What an instruction does to content and slots. A new row gets a greater number than its entity
was ever given. -/
def Step (given : List (String × Int64)) (e : Entity) (i : Instruction) (c : Content)
    (slots : Slots) (c' : Content) (slots' : Slots) : Prop :=
  match i.action with
  | .create inputs => ∃ id, slots.id? i.ref = none ∧ slots' = slots.assign i.ref id ∧
    (∀ n, (e.name, n) ∈ given → n < id) ∧ e.Settled inputs slots' ∧ c' = c.create e inputs slots' id
  | .update inputs => ∃ id, slots.id? i.ref = some id ∧ slots' = slots ∧ (c.row e.name id).isSome ∧
    e.Settled inputs slots ∧ c' = c.update e inputs slots id
  | .delete => ∃ id, slots.id? i.ref = some id ∧ slots' = slots ∧ (c.row e.name id).isSome ∧
    c' = c.putRow e.name id none

end Content

/-! ### The cells that are written -/

/-- A compiled instruction does not name the row number. -/
theorem Instruction.Shaped.plain {s : Schema} {i : Instruction} (h : i.Shaped s) : i.Plain := by
  obtain ⟨e, -, -, hinputs⟩ := h.entity
  unfold Instruction.Plain Action.inputs
  cases haction : i.action with
  | create inputs =>
    rw [haction] at hinputs
    exact fun x hx ↦ (hinputs.property x hx).1
  | update inputs =>
    rw [haction] at hinputs
    exact fun x hx ↦ (hinputs.property x hx).1
  | delete => exact nofun

/-- The column that an input sets. -/
def Entity.columnOf (e : Entity) (slots : Slots) (x : String × InputValue) :
    Option (String × Cell) :=
  match x.2 with
  | .value v => ((e.get? x.1).bind Property.field?).map fun f ↦ (x.1, (f.type.column v).cell)
  | .ref r => if x.1 = parentName then (slots.id? r).map fun id ↦ (x.1, .integer id) else none
  | _ => none

theorem Entity.columnOf_name {e : Entity} {slots : Slots}
    {x : String × InputValue} {y : String × Cell} (h : e.columnOf slots x = some y) :
    y.1 = x.1 := by
  unfold columnOf at h
  split at h
  · obtain ⟨f, -, rfl⟩ := Option.map_eq_some_iff.mp h
    rfl
  · split at h
    · obtain ⟨id, -, rfl⟩ := Option.map_eq_some_iff.mp h
      rfl
    · cases h
  · cases h

/-- Inputs set fields to values that they hold, the owner to a row, and nothing else to a value. -/
structure Entity.Sets (e : Entity) (inputs : Inputs) : Prop where
  input : ∀ x ∈ inputs, x.1 ≠ idName
  property : ∀ x ∈ inputs, ∃ p ∈ e.properties, p.name = x.1 ∧
    ((∃ f v, p.kind = .field f ∧ x.2 = .value v ∧ f.type.Holds v) ∨
      p.relation?.isSome ∧ x.2.isValue = false ∧ (p.isParent → ∃ r, x.2 = .ref r))

section

variable {s : Schema} {e : Entity} {inputs : Inputs}

theorem Entity.Creates.sets (hs : s.WellFormed) (he : e ∈ s.entities) (h : e.Creates inputs) :
    e.Sets inputs where
  input x hx := (h.property x hx).1
  property x hx := by
    obtain ⟨-, p, hp, hname, hcreates⟩ := h.property x hx
    obtain ⟨name, v⟩ := x
    refine ⟨p, hp, hname, ?_⟩
    cases v with
    | value v =>
      obtain ⟨f, hkind, hholds⟩ := hcreates
      exact .inl ⟨f, v, hkind, rfl, hholds⟩
    | ref r =>
      obtain ⟨q, hkind⟩ := hcreates
      exact .inr ⟨by simp [Property.relation?, hkind], rfl, fun _ ↦ ⟨r, rfl⟩⟩
    | refs rs =>
      obtain ⟨c, hkind⟩ := hcreates
      refine .inr ⟨by simp [Property.relation?, hkind], rfl, fun hparent ↦ ?_⟩
      obtain ⟨q, hq⟩ := Update.isParent_reference hs he hp hparent
      cases hkind.symm.trans hq
    | link op r => exact hcreates.elim
    | links ls => exact hcreates.elim

theorem Entity.Updates.sets (hs : s.WellFormed) (he : e ∈ s.entities) (h : e.Updates inputs) :
    e.Sets inputs where
  input x hx := (h.property x hx).1
  property x hx := by
    obtain ⟨-, p, hp, hname, hupdates⟩ := h.property x hx
    obtain ⟨name, v⟩ := x
    refine ⟨p, hp, hname, ?_⟩
    have hlinked (hlinked : p.isLinked) : p.relation?.isSome ∧ ∀ P : Prop, p.isParent → P := by
      obtain ⟨⟨target, hrelation⟩, hparent⟩ := Property.isLinked_iff.mp hlinked
      exact ⟨by rw [hrelation]; rfl, fun P hp ↦ absurd hp hparent⟩
    cases v with
    | value v =>
      obtain ⟨f, hkind, hholds⟩ := hupdates
      exact .inl ⟨f, v, hkind, rfl, hholds⟩
    | ref r =>
      obtain ⟨q, hkind⟩ := Update.isParent_reference hs he hp hupdates
      exact .inr ⟨by simp [Property.relation?, hkind], rfl, fun _ ↦ ⟨r, rfl⟩⟩
    | refs rs => exact .inr ⟨(hlinked hupdates.2.1).1, rfl, (hlinked hupdates.2.1).2 _⟩
    | link op r => exact .inr ⟨(hlinked hupdates.1).1, rfl, (hlinked hupdates.1).2 _⟩
    | links ls => exact .inr ⟨(hlinked hupdates.1).1, rfl, (hlinked hupdates.1).2 _⟩

end

namespace Mapping

variable {e : Entity} {t : Table} {c : Column}

/-- The columns of an entity's table: one for each field but the row number, and one for the
owner. -/
theorem mem_columns_iff (ht : (entityTable e).Shapes t) : c ∈ t.columns ↔
    (∃ p ∈ e.properties, ∃ f, p.kind = .field f ∧ p.name ≠ idName ∧
        c = (fieldColumn p.name p.input f).column) ∨
      ∃ p ∈ e.properties, ∃ r, p.kind = .reference r ∧ p.isParent ∧
      c = ⟨parentName, .integer, true⟩ := by
  have hown (p : Property) : (ownColumn p).map ColumnSpec.column = some c ↔
      ∃ f, p.kind = .field f ∧ p.name ≠ idName ∧ c = (fieldColumn p.name p.input f).column := by
    unfold ownColumn
    split
    · next f hkind => by_cases hid : p.name = idName <;> simp [hkind, hid, eq_comm]
    · next hkind => simpa using fun f hf ↦ (hkind f hf).elim
  have hparent (p : Property) : (parentColumn p).map ColumnSpec.column = some c ↔
      ∃ r, p.kind = .reference r ∧ p.isParent ∧ c = ⟨parentName, .integer, true⟩ := by
    unfold parentColumn
    split
    · next r hkind => by_cases hp : p.isParent <;> simp [hkind, hp, eq_comm, ColumnSpec.column]
    · next hkind => simpa using fun r hr ↦ (hkind r hr).elim
  have hcolumns : (entityTable e).table.columns = (columns e).map ColumnSpec.column := rfl
  rw [ht.columns_eq, hcolumns, columns, List.map_append, List.map_filterMap,
    List.map_filterMap, List.mem_append, List.mem_filterMap, List.mem_filterMap]
  simp only [hown, hparent]

section

variable {s : Schema} {inputs : Inputs} {slots : Slots} {name : String} (hs : s.WellFormed)
  (he : e ∈ s.entities) (hsets : e.Sets inputs)

include hs he hsets

/-- An input of a property is of its kind. -/
theorem sets_of_lookup {p : Property} {v : InputValue} (hp : p ∈ e.properties)
    (hv : (p.name, v) ∈ inputs) : (∃ f w, p.kind = .field f ∧ v = .value w ∧ f.type.Holds w) ∨
      p.relation?.isSome ∧ v.isValue = false ∧ (p.isParent → ∃ r, v = .ref r) := by
  obtain ⟨q, hq, hname, hor⟩ := hsets.property _ hv
  obtain rfl := (hs.entity e he).indexed.eq_of_name_eq hq hp hname
  exact hor

/-- What the inputs set the column of a field to. -/
theorem lookup_columnOf_field {p : Property} {f : Field} (hp : p ∈ e.properties)
    (hkind : p.kind = .field f) :
    ((inputs.filterMap (e.columnOf slots)).lookup p.name).map (Cell.stored f.type.affinity) =
      e.given inputs p.name := by
  have hget : (e.get? p.name).bind Property.field? = some f := by
    rw [(Entity.get?_eq_some_iff (hs.entity e he)).mpr ⟨hp, rfl⟩]
    exact Property.field?_eq_some_iff.mpr hkind
  have hvalue : ∀ v, (p.name, v) ∈ inputs → ∃ w, v = .value w ∧ f.type.Holds w := by
    intro v hv
    rcases sets_of_lookup hs he hsets hp hv with ⟨g, w, hg, rfl, hholds⟩ | ⟨hrelation, -⟩
    · cases hkind.symm.trans hg
      exact ⟨w, rfl, hholds⟩
    · simp [Property.relation?, hkind] at hrelation
  rw [lookup_filterMap]
  · unfold Entity.given
    rw [hget]
    cases hlookup : inputs.lookup p.name with
    | none => rfl
    | some v =>
      obtain ⟨w, rfl, hholds⟩ := hvalue v (mem_of_lookup hlookup)
      simp [Entity.columnOf, hget, FieldType.stored_column hholds]
  · exact fun x _ y hy ↦ Entity.columnOf_name hy
  · rintro ⟨name, v⟩ hx rfl
    obtain ⟨w, rfl, -⟩ := hvalue v hx
    simp [Entity.columnOf, hget]

/-- What the inputs set the column of the owner to. -/
theorem lookup_columnOf_parent {p : Property} (hp : p ∈ e.properties) (hparent : p.isParent)
    (hassigned : ∀ x ∈ inputs, x.1 = parentName → ∀ r ∈ x.2.rows, (slots.id? r).isSome) :
    (inputs.filterMap (e.columnOf slots)).lookup parentName =
      (slots.owner? inputs).map Cell.integer := by
  have hname : p.name = parentName := Property.isParent_iff.mp hparent
  have href : ∀ v, (parentName, v) ∈ inputs → ∃ r, v = .ref r := by
    intro v hv
    rw [← hname] at hv
    rcases sets_of_lookup hs he hsets hp hv with ⟨g, w, hg, -⟩ | ⟨-, -, href⟩
    · obtain ⟨r, hr⟩ := Update.isParent_reference hs he hp hparent
      cases hr.symm.trans hg
    · exact href hparent
  rw [lookup_filterMap]
  · unfold Slots.owner?
    cases hlookup : inputs.lookup parentName with
    | none => rfl
    | some v =>
      obtain ⟨r, rfl⟩ := href v (mem_of_lookup hlookup)
      simp [Entity.columnOf, Function.comp_def]
  · exact fun x _ y hy ↦ Entity.columnOf_name hy
  · rintro ⟨name, v⟩ hx rfl
    obtain ⟨r, rfl⟩ := href v hx
    simpa [Entity.columnOf] using hassigned _ hx rfl r List.mem_cons_self

/-- Every column that inputs set is there. -/
theorem exists_columnOf (ht : (entityTable e).Shapes t) :
    ∀ x ∈ inputs.filterMap (e.columnOf slots), ∃ c ∈ t.columns, c.name = x.1 := by
  intro y hy
  obtain ⟨x, hx, hxy⟩ := List.mem_filterMap.mp hy
  rw [Entity.columnOf_name hxy]
  obtain ⟨p, hp, hname, hor⟩ := hsets.property x hx
  rcases hor with ⟨f, v, hkind, -⟩ | ⟨hrelation, hvalue, -⟩
  · have hid : p.name ≠ idName := hname ▸ hsets.input x hx
    exact ⟨_, (mem_columns_iff ht).mpr (.inl ⟨p, hp, f, hkind, hid, rfl⟩), hname⟩
  · obtain ⟨name, v⟩ := x
    cases v with
    | value v => cases hvalue
    | ref r =>
      unfold Entity.columnOf at hxy
      dsimp only at hxy
      split at hxy
      · next hparent =>
        have hparent' : p.isParent := Property.isParent_iff.mpr (hname.trans hparent)
        obtain ⟨q, hkind⟩ := Update.isParent_reference hs he hp hparent'
        exact ⟨_, (mem_columns_iff ht).mpr (.inr ⟨p, hp, q, hkind, hparent', rfl⟩), hparent.symm⟩
      · cases hxy
    | _ => cases hxy

/-- Only a field that is no row number is given a cell. -/
theorem given_eq_none
    (hfield : ∀ p ∈ e.properties, p.name = name → p.name ≠ idName → ∀ f, p.kind ≠ .field f) :
    e.given inputs name = none := by
  unfold Entity.given
  split
  · next f v hget hlookup =>
    obtain ⟨p, hfound, hkind⟩ := Option.bind_eq_some_iff.mp hget
    obtain ⟨hp, rfl⟩ := (Entity.get?_eq_some_iff (hs.entity e he)).mp hfound
    have hid : p.name ≠ idName := hsets.input _ (mem_of_lookup hlookup)
    exact absurd (Property.field?_eq_some_iff.mp hkind) (hfield p hp rfl hid f)
  · rfl

variable {r old : StoredRow} {values : List (String × Cell)} (ht : (entityTable e).Shapes t)
  (hvalues : ∀ name, values.lookup name = (inputs.filterMap (e.columnOf slots)).lookup name)
  (hcell : ∀ c ∈ t.columns, r.cell c.name =
    ((values.lookup c.name).map (Cell.stored c.affinity)).getD (old.cell c.name))
  (hother : ∀ name, (∀ c ∈ t.columns, c.name ≠ name) → r.cell name = .null ∧ old.cell name = .null)

include ht hvalues hcell hother

theorem entry_value (name : String) : r.entry.value name = (e.given inputs name).getD
    (old.entry.value name) := by
  have hparent {p : Property} (hp : p ∈ e.properties) (hname : p.name = parentName) :
      ∃ q, p.kind = .reference q :=
    Update.isParent_reference hs he hp (Property.isParent_iff.mpr hname)
  unfold StoredRow.entry
  dsimp only
  by_cases hname : name = parentName
  · rw [if_pos hname, if_pos hname, given_eq_none hs he hsets fun p hp hpname _ f hkind ↦ ?_,
      Option.getD_none]
    obtain ⟨q, hq⟩ := hparent hp (hpname.trans hname)
    cases hq.symm.trans hkind
  · rw [if_neg hname, if_neg hname]
    by_cases hcolumn : ∃ c ∈ t.columns, c.name = name
    · obtain ⟨c, hc, rfl⟩ := hcolumn
      rcases (mem_columns_iff ht).mp hc with ⟨p, hp, f, hkind, -, rfl⟩ | ⟨p, -, -, -, -, rfl⟩
      · rw [hcell _ hc, hvalues]
        exact congrArg (Option.getD · _) (lookup_columnOf_field hs he hsets hp hkind)
      · exact absurd rfl hname
    · have hnone : ∀ c ∈ t.columns, c.name ≠ name := fun c hc heq ↦ hcolumn ⟨c, hc, heq⟩
      obtain ⟨hr, hold⟩ := hother name hnone
      rw [hr, hold, given_eq_none hs he hsets fun p hp hpname hid f hkind ↦ ?_, Option.getD_none]
      exact hcolumn ⟨_, (mem_columns_iff ht).mpr (.inl ⟨p, hp, f, hkind, hid, rfl⟩), hpname⟩

theorem entry_parent
    (hassigned : ∀ x ∈ inputs, x.1 = parentName → ∀ r ∈ x.2.rows, (slots.id? r).isSome) :
    r.entry.parent = (slots.owner? inputs).or old.entry.parent := by
  unfold StoredRow.entry
  dsimp only
  by_cases hparent : ∃ p ∈ e.properties, p.isParent
  · obtain ⟨p, hp, hparent⟩ := hparent
    obtain ⟨q, hkind⟩ := Update.isParent_reference hs he hp hparent
    have hc : (⟨parentName, .integer, true⟩ : Column) ∈ t.columns :=
      (mem_columns_iff ht).mpr (.inr ⟨p, hp, q, hkind, hparent, rfl⟩)
    have hset := hcell _ hc
    dsimp only at hset
    rw [hvalues, lookup_columnOf_parent hs he hsets hp hparent hassigned] at hset
    unfold StoredRow.number?
    rw [hset]
    cases slots.owner? inputs <;> rfl
  · have hnone : ∀ c ∈ t.columns, c.name ≠ parentName := by
      rintro c hc hname
      rcases (mem_columns_iff ht).mp hc with ⟨p, hp, f, -, -, rfl⟩ | ⟨p, hp, -, -, hp', -⟩
      · exact hparent ⟨p, hp, Property.isParent_iff.mpr hname⟩
      · exact hparent ⟨p, hp, hp'⟩
    obtain ⟨hr, hold⟩ := hother _ hnone
    have howner : slots.owner? inputs = none := by
      unfold Slots.owner?
      split
      · next hlookup =>
        obtain ⟨p, hp, hname, -⟩ := hsets.property _ (mem_of_lookup hlookup)
        exact absurd ⟨p, hp, Property.isParent_iff.mpr hname⟩ hparent
      · rfl
    unfold StoredRow.number?
    rw [hr, hold, howner]
    rfl

end

/-- The names of columns are the same only if they are equal. -/
theorem given_columns (hdistinct : Table.Distinct t.columns) (hc : c ∈ t.columns)
    {values : List (String × Cell)} (hvalues : ∀ x ∈ values, ∃ d ∈ t.columns, d.name = x.1) :
    Table.given values c.name = values.lookup c.name := by
  refine Table.given_eq_lookup fun x hx hsame ↦ ?_
  obtain ⟨d, hd, hname⟩ := hvalues x hx
  rw [← hname] at hsame ⊢
  refine List.Pairwise.forall_of_forall_of_flip (R :=
      fun a b : Column ↦ sameName a.name b.name → a.name = b.name)
    (fun _ _ _ ↦ rfl) (hdistinct.imp fun hdiffers hsame ↦ ?_)
      (hdistinct.imp fun hdiffers hsame ↦ ?_) hd hc hsame
  · rw [hdiffers] at hsame
    cases hsame
  · rw [sameName_comm, hdiffers] at hsame
    cases hsame

section

variable {s : Schema} {inputs : Inputs} {slots : Slots} {id : Int64} (hs : s.WellFormed)
  (he : e ∈ s.entities) (hsets : e.Sets inputs) (ht : (entityTable e).Shapes t)
  (hdistinct : Table.Distinct t.columns)
  (hassigned : ∀ x ∈ inputs, x.1 = parentName → ∀ r ∈ x.2.rows, (slots.id? r).isSome)

include hs he hsets ht hdistinct hassigned

/-- The row that a create adds. -/
theorem entry_newRow : (t.newRow (inputs.filterMap (e.columnOf slots)) id).entry =
    ⟨fun name ↦ (e.given inputs name).getD .null, slots.owner? inputs⟩ := by
  have hexists : ∀ x ∈ inputs.filterMap (e.columnOf slots), ∃ c ∈ t.columns, c.name = x.1 :=
    exists_columnOf hs he hsets ht
  have hcell : ∀ c ∈ t.columns, (t.newRow (inputs.filterMap (e.columnOf slots)) id).cell c.name =
      (((inputs.filterMap (e.columnOf slots)).lookup c.name).map (Cell.stored c.affinity)).getD
        (StoredRow.cell ⟨id, []⟩ c.name) := by
    intro c hc
    rw [Table.cell_newRow hdistinct hc, given_columns hdistinct hc hexists]
    rfl
  have hother : ∀ name, (∀ c ∈ t.columns, c.name ≠ name) →
      (t.newRow (inputs.filterMap (e.columnOf slots)) id).cell name = .null ∧
      StoredRow.cell ⟨id, []⟩ name = .null :=
    fun name hnone ↦ ⟨Table.cell_newRow_other hnone, rfl⟩
  ext1
  · funext name
    rw [entry_value hs he hsets ht (fun _ ↦ rfl) hcell hother]
    unfold StoredRow.entry
    dsimp only
    split <;> rfl
  · rw [entry_parent hs he hsets ht (fun _ ↦ rfl) hcell hother hassigned]
    exact Option.or_none

/-- The row that an update leaves. -/
theorem entry_changedRow (honce : (inputs.map Prod.fst).Nodup) {old : StoredRow}
    (hold : ∀ x ∈ old.cells, ∃ c ∈ t.columns, c.name = x.1) :
    (t.changedRow (inputs.filterMap (e.columnOf slots)) old id).entry =
      ⟨fun name ↦ (e.given inputs name).getD (old.entry.value name),
        (slots.owner? inputs).or old.entry.parent⟩ := by
  have hexists : ∀ x ∈ inputs.filterMap (e.columnOf slots), ∃ c ∈ t.columns, c.name = x.1 :=
    exists_columnOf hs he hsets ht
  have honce' : ((inputs.filterMap (e.columnOf slots)).map Prod.fst).Nodup :=
    (sublist_filterMap fun x _ y hy ↦ Entity.columnOf_name hy).nodup honce
  have hcell : ∀ c ∈ t.columns,
      (t.changedRow (inputs.filterMap (e.columnOf slots)) old id).cell c.name =
      (((inputs.filterMap (e.columnOf slots)).reverse.lookup c.name).map
          (Cell.stored c.affinity)).getD
        (old.cell c.name) := by
    intro c hc
    rw [Table.cell_changedRow hdistinct hc, given_columns hdistinct hc]
    exact fun x hx ↦ hexists x (List.mem_reverse.mp hx)
  have hother : ∀ name, (∀ c ∈ t.columns, c.name ≠ name) →
      (t.changedRow (inputs.filterMap (e.columnOf slots)) old id).cell name = .null ∧
      old.cell name = .null := by
    refine fun name hnone ↦ ⟨Table.cell_changedRow_other hnone,
      Table.cell_eq_null fun x hx heq ↦ ?_⟩
    obtain ⟨c, hc, hname⟩ := hold x hx
    exact hnone c hc (hname.trans heq)
  ext1
  · funext name
    exact entry_value hs he hsets ht (lookup_reverse honce') hcell hother name
  · exact entry_parent hs he hsets ht (lookup_reverse honce') hcell hother hassigned

end

end Mapping

end EntityStore
