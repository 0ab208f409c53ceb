import EntityStore.Proofs.Mapping.Declared

/-!
Tables that columns are added to. A statement that names columns of the table before does the same
on the table afterwards: it gives nothing for an added column, which is not required and so empty in
every row.
-/

set_option autoImplicit false

namespace EntityStore

namespace Table

variable {t t' u u' : Table} {r : StoredRow} {name named : String}
  {values sets : List (String × Cell)} {id : Int64}

theorem hasColumn_congr {a b : String} (h : sameName a b) : t.hasColumn a = t.hasColumn b := by
  unfold hasColumn isRowColumn column?
  simp only [sameName_congr h]

/-- The cells of a row are in columns of the table. -/
def Knows (t : Table) (r : StoredRow) : Prop :=
  ∀ x ∈ r.cells, ∃ c ∈ t.columns, c.name = x.1

theorem Knows.cell_eq_null (h : t.Knows r) (hnew : t.hasColumn name = false) :
    r.cell name = .null := by
  refine (r.cell_cases name).resolve_right fun hcell ↦ ?_
  obtain ⟨c, hc, hname⟩ := h _ hcell
  rw [← show c.name = name from hname, hasColumn_of_mem hc] at hnew
  cases hnew

theorem knows_newRow : t.Knows (t.newRow values id) := by
  intro x hx
  obtain ⟨c, hc, hx⟩ := List.mem_filterMap.mp hx
  obtain ⟨v, -, rfl⟩ := Option.map_eq_some_iff.mp hx
  exact ⟨c, hc, rfl⟩

theorem Knows.changedRow (h : t.Knows r) : t.Knows (t.changedRow sets r id) := by
  intro x hx
  obtain ⟨c, hc, hx⟩ := List.mem_filterMap.mp hx
  cases hgiven : given sets.reverse c.name with
  | some v =>
    simp only [hgiven] at hx
    cases hx
    exact ⟨c, hc, rfl⟩
  | none =>
    simp only [hgiven] at hx
    exact h x (List.mem_of_find?_eq_some hx)

theorem given_eq_none_of_new (hvalues : ∀ x ∈ values, t.hasColumn x.1)
    (hnew : t.hasColumn name = false) :
    given values name = none := by
  cases hgiven : given values name with
  | none => rfl
  | some v =>
    obtain ⟨x, hx, hname, -⟩ := given_eq_some hgiven
    have hhas := hvalues x hx
    rw [hasColumn_congr hname, hnew] at hhas
    cases hhas

theorem cellOf_eq_null (hnew : t.hasColumn name = false) : t.cellOf r name = .null := by
  obtain ⟨hrow, hcolumn⟩ := Bool.or_eq_false_iff.mp hnew
  unfold cellOf
  rw [hrow, Option.isSome_eq_false_iff.mp hcolumn |> Option.isNone_iff_eq_none.mp]
  rfl

/-- A table with the rows of another. -/
def holding (u t : Table) : Table :=
  { u with rows := t.rows, last := t.last }

/-- A table after columns were added to it. -/
structure Grown (t u : Table) : Prop where
  name : u.name = t.name
  rowColumn : u.rowColumn = t.rowColumn
  unique : u.unique = t.unique
  rows : u.rows = t.rows
  last : u.last = t.last
  columns : ∃ added, u.columns = t.columns ++ added ∧ ∀ c ∈ added, c.required = false ∧
    t.hasColumn c.name = false
  foreign : ∃ added, u.foreign = t.foreign ++ added ∧ ∀ key ∈ added, t.hasColumn key.column = false

namespace Grown

theorem refl (t : Table) : t.Grown t :=
  ⟨rfl, rfl, rfl, rfl, rfl, ⟨[], (List.append_nil _).symm, List.forall_mem_nil _⟩,
    ⟨[], (List.append_nil _).symm, List.forall_mem_nil _⟩⟩

variable (h : t.Grown u)

include h

theorem hasColumn (hname : t.hasColumn name) : u.hasColumn name := by
  obtain ⟨added, hcolumns, -⟩ := h.columns
  unfold Table.hasColumn isRowColumn column? at hname ⊢
  rw [h.rowColumn, hcolumns, List.find?_append, Option.isSome_or, ← Bool.or_assoc,
    hname, Bool.true_or]

theorem addColumn {c : Column} {foreign : List ForeignKey} (hadd : u.addColumn c foreign = .ok u')
    (hrequired : c.required = false) (hforeign : ∀ key ∈ foreign, key.column = c.name) :
    t.Grown u' := by
  obtain ⟨hnew, rfl⟩ := addColumn_eq_ok.mp hadd
  have hnew : t.hasColumn c.name = false :=
    Bool.eq_false_iff.mpr fun hhas ↦ Bool.eq_false_iff.mp hnew (h.hasColumn hhas)
  obtain ⟨columns, hcolumns, hothers⟩ := h.columns
  obtain ⟨keys, hkeys, hkept⟩ := h.foreign
  refine ⟨h.name, h.rowColumn, h.unique, h.rows, h.last, ⟨columns ++ [c], ?_, ?_⟩,
    ⟨keys ++ foreign, ?_, ?_⟩⟩
  · rw [hcolumns, List.append_assoc]
  · exact List.forall_mem_append.mpr ⟨hothers, List.forall_mem_singleton.mpr ⟨hrequired, hnew⟩⟩
  · rw [hkeys, List.append_assoc]
  · exact List.forall_mem_append.mpr ⟨hkept, fun key hkey ↦ hforeign key hkey ▸ hnew⟩

theorem holding (hshape : t' = t.holding t') : t'.Grown (u.holding t') := by
  have hcolumns : t'.columns = t.columns := by rw [hshape]; rfl
  have hforeign : t'.foreign = t.foreign := by rw [hshape]; rfl
  have hhas (name : String) : t'.hasColumn name = t.hasColumn name := by rw [hshape]; rfl
  refine ⟨h.name.trans ?_, h.rowColumn.trans ?_, h.unique.trans ?_, rfl, rfl, ?_, ?_⟩
  · rw [hshape]; rfl
  · rw [hshape]; rfl
  · rw [hshape]; rfl
  · simp only [hcolumns, hhas]
    exact h.columns
  · simp only [hforeign, hhas]
    exact h.foreign

/-! ### Rows -/

theorem cellOf_eq (hr : t.Knows r) (name : String) : u.cellOf r name = t.cellOf r name := by
  obtain ⟨added, hcolumns, hnew⟩ := h.columns
  unfold cellOf isRowColumn column?
  rw [h.rowColumn, hcolumns, List.find?_append]
  cases t.columns.find? fun c ↦ sameName c.name name with
  | some c => rfl
  | none =>
    rw [Option.none_or]
    cases hfind : added.find? fun c ↦ sameName c.name name with
    | none => rfl
    | some c =>
      dsimp only
      rw [hr.cell_eq_null (hnew c (List.mem_of_find?_eq_some hfind)).2]

theorem row?_eq (id : Int64) : u.row? id = t.row? id := by
  unfold row?
  rw [h.rows]

theorem nextId_eq : u.nextId = t.nextId := by
  unfold nextId lastId
  rw [h.rows, h.rowColumn, h.last]

theorem idFor_eq : u.idFor values = t.idFor values := by
  unfold idFor
  rw [h.rowColumn, h.nextId_eq]

theorem newRow_eq (hvalues : ∀ x ∈ values, t.hasColumn x.1) :
    u.newRow values id = t.newRow values id := by
  obtain ⟨added, hcolumns, hnew⟩ := h.columns
  unfold newRow
  rw [hcolumns, List.filterMap_append]
  refine congrArg (StoredRow.mk id)
    (List.append_right_eq_self.mpr (List.filterMap_eq_nil_iff.mpr fun c hc ↦ ?_))
  rw [given_eq_none_of_new hvalues (hnew c hc).2]
  rfl

theorem changedRow_eq (hsets : ∀ x ∈ sets, t.hasColumn x.1) (hr : t.Knows r) :
    u.changedRow sets r id = t.changedRow sets r id := by
  obtain ⟨added, hcolumns, hnew⟩ := h.columns
  have hreverse : ∀ x ∈ sets.reverse, t.hasColumn x.1 := fun x hx ↦ hsets x (List.mem_reverse.mp hx)
  unfold changedRow setCells
  dsimp only
  rw [hcolumns, List.filterMap_append]
  refine congrArg (StoredRow.mk id)
    (List.append_right_eq_self.mpr (List.filterMap_eq_nil_iff.mpr fun c hc ↦ ?_))
  rw [given_eq_none_of_new hreverse (hnew c hc).2]
  refine List.find?_eq_none.mpr fun x hx heq ↦ ?_
  obtain ⟨d, hd, hname⟩ := hr x hx
  have hhas := hasColumn_of_mem hd
  rw [hname, beq_iff_eq.mp heq, (hnew c hc).2] at hhas
  cases hhas

theorem checkRequired_eq : u.checkRequired r = t.checkRequired r := by
  obtain ⟨added, hcolumns, hnew⟩ := h.columns
  have hnone : (added.find? fun c ↦ c.required && r.cell c.name == .null) = none :=
    List.find?_eq_none.mpr fun c hc ↦ by rw [(hnew c hc).1]; exact nofun
  unfold checkRequired
  rw [hcolumns, List.find?_append, hnone, Option.or_none, h.name]

theorem checkUnique_eq {others : List StoredRow}
    (hothers : ∀ s ∈ others, t.Knows s) (hr : t.Knows r) :
    u.checkUnique others r = t.checkUnique others r := by
  have hclash (columns : List String) :
      others.any (u.clash columns r) = others.any (t.clash columns r) := by
    rw [Bool.eq_iff_iff, List.any_eq_true, List.any_eq_true]
    refine exists_congr fun s ↦ and_congr_right fun hs ↦ ?_
    unfold clash
    simp only [h.cellOf_eq hr, h.cellOf_eq (hothers s hs)]
  unfold checkUnique
  simp only [hclash, h.name, h.rowColumn, h.unique]

theorem withRow_eq : u.withRow r = u.holding (t.withRow r) := by
  unfold withRow Table.holding
  rw [h.rows, h.last, h.rowColumn]

theorem withChanged_eq : u.withChanged id r = u.holding (t.withChanged id r) := by
  unfold withChanged Table.holding
  rw [h.rows, h.last]

/-! ### Changes -/

theorem insert_eq (hvalues : ∀ x ∈ values, t.hasColumn x.1) (hknown : ∀ r ∈ t.rows, t.Knows r) :
    u.insert named values = (t.insert named values).map fun x ↦ (u.holding x.1, x.2) := by
  rw [Table.insert_eq hvalues, Table.insert_eq fun x hx ↦ h.hasColumn (hvalues x hx), h.idFor_eq]
  cases t.idFor values with
  | error e => rfl
  | ok id =>
    change (u.checkRequired (u.newRow values id) >>=
        fun _ ↦ u.checkUnique u.rows (u.newRow values id) >>= fun _ ↦
        pure (u.withRow (u.newRow values id), id)) =
      Except.map _ (t.checkRequired (t.newRow values id) >>=
        fun _ ↦ t.checkUnique t.rows (t.newRow values id) >>= fun _ ↦
        pure (t.withRow (t.newRow values id), id))
    rw [h.newRow_eq hvalues, h.checkRequired_eq, h.rows,
      h.checkUnique_eq hknown knows_newRow, h.withRow_eq]
    cases t.checkRequired (t.newRow values id) with
    | error e => rfl
    | ok => cases t.checkUnique t.rows (t.newRow values id) <;> rfl

theorem update_eq (hsets : ∀ x ∈ sets, t.hasColumn x.1) (hknown : ∀ r ∈ t.rows, t.Knows r) :
    u.update sets id = (t.update sets id).map fun x ↦ (u.holding x.1, x.2) := by
  have hself : u = u.holding t := by
    unfold Table.holding
    rw [← h.rows, ← h.last]
  have htarget : u.target id = t.target id := by
    unfold target
    rw [h.rowColumn, h.row?_eq]
  have hidAfter : u.idAfter sets id = t.idAfter sets id := by
    unfold idAfter
    rw [h.rowColumn]
  rw [Table.update_eq hsets, Table.update_eq fun x hx ↦ h.hasColumn (hsets x hx), htarget, hidAfter]
  cases hold : t.target id with
  | none => exact congrArg (fun u ↦ Except.ok (u, 0)) hself
  | some old =>
    have hmem : old ∈ t.rows := (row?_eq_some (target_eq_some hold)).1
    dsimp only
    cases t.idAfter sets id with
    | error e => rfl
    | ok new =>
      change (u.checkRequired (u.changedRow sets old new) >>= fun _ ↦
          u.checkUnique (u.rows.filter fun s ↦ s.id != id) (u.changedRow sets old new) >>= fun _ ↦
            pure (u.withChanged id (u.changedRow sets old new), 1)) =
        Except.map _ (t.checkRequired (t.changedRow sets old new) >>= fun _ ↦
          t.checkUnique (t.rows.filter fun s ↦ s.id != id) (t.changedRow sets old new) >>= fun _ ↦
            pure (t.withChanged id (t.changedRow sets old new), 1))
      rw [h.changedRow_eq hsets (hknown old hmem), h.checkRequired_eq, h.rows,
        h.checkUnique_eq (fun s hs ↦ hknown s (List.mem_filter.mp hs).1)
          (hknown old hmem).changedRow, h.withChanged_eq]
      cases t.checkRequired (t.changedRow sets old new) with
      | error e => rfl
      | ok =>
        cases t.checkUnique (t.rows.filter fun s ↦ s.id != id) (t.changedRow sets old new) <;> rfl

theorem delete_eq {keys : List (String × Int64)} (hkeys : ∀ x ∈ keys, t.hasColumn x.1)
    (hknown : ∀ r ∈ t.rows, t.Knows r) :
    u.delete keys = (u.holding (t.delete keys).1, (t.delete keys).2) := by
  have hgoes : ∀ r ∈ t.rows,
      (keys.all fun key ↦ u.hasColumn key.1 &&
          (u.cellOf r key.1).compare? (.integer key.2) == some .eq) =
        keys.all fun key ↦ t.hasColumn key.1 &&
          (t.cellOf r key.1).compare? (.integer key.2) == some .eq := by
    intro r hr
    rw [Bool.eq_iff_iff, List.all_eq_true, List.all_eq_true]
    refine forall₂_congr fun x hx ↦ ?_
    rw [hkeys x hx, h.hasColumn (hkeys x hx), h.cellOf_eq (hknown r hr)]
  unfold delete Table.holding
  dsimp only
  rw [h.rows, h.last]
  refine Prod.ext (congrArg (fun rows ↦ ({ u with rows := rows, last := t.last } : Table)) ?_)
    (List.filter_congr hgoes)
  exact List.filter_congr fun r hr ↦ congrArg _ (hgoes r hr)

end Grown

end Table

/-! ### Stores -/

namespace Store

variable {a b : Store} {t t' u : Table} {r : StoredRow} {name : String} {statement : Statement}

/-- A store after tables and columns were added to it. -/
structure Grown (a b : Store) : Prop where
  enforced : b.enforced = a.enforced
  table : ∀ name t, a.table? name = some t → ∃ u, b.table? name = some u ∧ t.Grown u
  rows : ∀ u ∈ b.tables, (∃ t ∈ a.tables, t.Grown u) ∨ u.rows = []

/-- Every table is found under its name. -/
def Named (a : Store) : Prop :=
  ∀ t ∈ a.tables, a.table? t.name = some t

/-- Every table is found under its name, and so is every table that a foreign key leads to. -/
structure Regular (a : Store) : Prop where
  keyed : a.Keyed
  named : a.Named
  closed : ∀ t ∈ a.tables, ∀ key ∈ t.foreign, (a.table? key.target).isSome

/-- Every foreign key leads to a table that shows its row numbers. -/
def Counted (b : Store) : Prop :=
  ∀ u ∈ b.tables, ∀ key ∈ u.foreign, ∃ w, b.table? key.target = some w ∧ w.rowColumn.isSome

theorem mem_setTable (hu : u ∈ (a.setTable t).tables) : u = t ∨ u ∈ a.tables ∧ u.name ≠ t.name := by
  obtain ⟨v, hv, rfl⟩ := List.mem_map.mp hu
  split
  · exact .inl rfl
  · next hne => exact .inr ⟨hv, hne⟩

theorem mem_setTable_of_ne (hu : u ∈ a.tables) (hne : u.name ≠ t.name) :
    u ∈ (a.setTable t).tables :=
  List.mem_map.mpr ⟨u, hu, if_neg hne⟩

theorem mem_setTable_self (ht : t ∈ a.tables) (hname : t.name = t'.name) :
    t' ∈ (a.setTable t').tables :=
  List.mem_map.mpr ⟨t, ht, if_pos hname⟩

theorem Named.setTable (h : a.Named) (ht : t ∈ a.tables) (hname : t'.name = t.name) :
    (a.setTable t').Named := by
  intro v hv
  rw [table?_setTable]
  rcases mem_setTable hv with rfl | ⟨hv, hne⟩
  · have hfound : a.table? v.name = some t := hname ▸ h t ht
    rw [hfound, Option.map_some, if_pos hname.symm]
  · rw [h v hv, Option.map_some, if_neg hne]

theorem Regular.setTable (h : a.Regular) (ht : t ∈ a.tables) (hshape : t' = t.holding t')
    (hkeyed : t'.Keyed) :
    (a.setTable t').Regular where
  keyed := h.keyed.setTable hkeyed
  named := h.named.setTable ht (by rw [hshape]; rfl)
  closed v hv key hkey := by
    rw [isSome_setTable]
    rcases mem_setTable hv with rfl | ⟨hv, -⟩
    · rw [hshape] at hkey
      exact h.closed t ht key hkey
    · exact h.closed v hv key hkey

theorem Counted.setTable (h : b.Counted) (hu : u ∈ b.tables) (rows : List StoredRow) (last : Int64)
    (hnamed : ∀ name w, b.table? name = some w → w.name = u.name → w.rowColumn = u.rowColumn) :
    (b.setTable { u with rows := rows, last := last }).Counted := by
  intro v hv key hkey
  obtain ⟨w, hw, hcounted⟩ : ∃ w, b.table? key.target = some w ∧ w.rowColumn.isSome := by
    rcases mem_setTable hv with rfl | ⟨hv, -⟩
    · exact h u hu key hkey
    · exact h v hv key hkey
  rw [table?_setTable, hw, Option.map_some]
  refine ⟨_, rfl, ?_⟩
  split
  · next hname => exact hnamed _ w hw hname ▸ hcounted
  · exact hcounted

namespace Grown

theorem refl (a : Store) : a.Grown a :=
  ⟨rfl, fun _ t ht ↦ ⟨t, ht, .refl t⟩, fun u hu ↦ .inl ⟨u, hu, .refl u⟩⟩

variable (h : a.Grown b)

include h

theorem setTable (hta : t ∈ a.tables) (htu : t.Grown u) (hshape : t' = t.holding t') :
    (a.setTable t').Grown (b.setTable (u.holding t')) := by
  have hgrown := htu.holding hshape
  have hname : t'.name = t.name := by rw [hshape]; rfl
  refine ⟨h.enforced, fun name v hv ↦ ?_, fun w hw ↦ ?_⟩
  · rw [table?_setTable] at hv ⊢
    obtain ⟨v, hfound, rfl⟩ := Option.map_eq_some_iff.mp hv
    obtain ⟨w, hw, hvw⟩ := h.table name v hfound
    refine ⟨_, by rw [hw]; rfl, ?_⟩
    dsimp only
    rw [hvw.name, hgrown.name]
    split
    · exact hgrown
    · exact hvw
  · rcases mem_setTable hw with rfl | ⟨hw, hne⟩
    · exact .inl ⟨t', mem_setTable_self hta hname.symm, hgrown⟩
    · rw [hgrown.name] at hne
      refine (h.rows w hw).imp_left ?_
      rintro ⟨v, hv, hvw⟩
      exact ⟨v, mem_setTable_of_ne hv (hvw.name ▸ hne), hvw⟩

/-! ### Checks -/

theorem checkForeignKeys_eq (ha : a.Regular) (hb : b.Counted) (ht : t ∈ a.tables)
    (hu : u ∈ b.tables) (htu : t.Grown u) (hr : t.Knows r) :
    b.checkForeignKeys u r = a.checkForeignKeys t r := by
  obtain ⟨added, hforeign, hnew⟩ := htu.foreign
  have hold : ∀ key ∈ t.foreign, b.checkForeignKey u r key = a.checkForeignKey t r key := by
    intro key hkey
    obtain ⟨w, hw⟩ := Option.isSome_iff_exists.mp (ha.closed t ht key hkey)
    obtain ⟨w', hw', hgrown⟩ := h.table _ w hw
    unfold checkForeignKey
    rw [hw, hw']
    dsimp only
    rw [hgrown.rowColumn, htu.name, htu.cellOf_eq hr]
    simp only [hgrown.row?_eq]
  have hadded : added.forM (b.checkForeignKey u r) = .ok () := by
    refine Except.forM_eq_ok.mpr fun key hkey ↦ ?_
    obtain ⟨w, hw, hcounted⟩ := hb u hu key (hforeign ▸ List.mem_append_right _ hkey)
    unfold checkForeignKey
    rw [hw]
    dsimp only
    rw [if_neg (by simpa [Option.isSome_iff_ne_none] using hcounted), htu.cellOf_eq hr,
      Table.cellOf_eq_null (hnew key hkey)]
  unfold checkForeignKeys
  rw [h.enforced, hforeign, Except.forM_append_ok hadded, Except.forM_congr hold]

theorem isReferenced_eq (ha : a.Regular) (htu : t.Grown u) (id : Int64) :
    b.isReferenced u id = a.isReferenced t id := by
  unfold isReferenced
  rw [htu.name, Bool.eq_iff_iff]
  simp only [List.any_eq_true, Bool.and_eq_true, beq_iff_eq]
  constructor
  · rintro ⟨u', hu', key, hkey, hname, r, hr, hcell⟩
    rcases h.rows u' hu' with ⟨t', ht', hgrown⟩ | hempty
    · rw [hgrown.rows] at hr
      rw [hgrown.cellOf_eq ((ha.keyed t' ht').known r hr)] at hcell
      obtain ⟨added, hforeign, hnew⟩ := hgrown.foreign
      rw [hforeign] at hkey
      rcases List.mem_append.mp hkey with hkey | hkey
      · exact ⟨t', ht', key, hkey, hname, r, hr, hcell⟩
      · rw [Table.cellOf_eq_null (hnew key hkey)] at hcell
        cases hcell
    · rw [hempty] at hr
      cases hr
  · rintro ⟨t', ht', key, hkey, hname, r, hr, hcell⟩
    obtain ⟨u', hu', hgrown⟩ := h.table _ t' (ha.named t' ht')
    obtain ⟨added, hforeign, -⟩ := hgrown.foreign
    refine ⟨u', List.mem_of_find?_eq_some hu', key, hforeign ▸ List.mem_append_left _ hkey, hname,
      r, ?_, ?_⟩
    · rwa [hgrown.rows]
    · rwa [hgrown.cellOf_eq ((ha.keyed t' ht').known r hr)]

theorem checkUnreferenced_eq (ha : a.Regular) (htu : t.Grown u) (ids : List Int64) :
    b.checkUnreferenced u ids = a.checkUnreferenced t ids := by
  unfold checkUnreferenced
  rw [h.enforced, htu.rowColumn, funext (h.isReferenced_eq ha htu)]

end Grown

/-! ### Statements -/

/-- A table of a store, and what it has grown to in a store that has grown from that one. -/
structure Counterparts (a b : Store) (name : String) (t u : Table) : Prop where
  regular : a.Regular
  counted : b.Counted
  stores : a.Grown b
  left : a.table? name = some t
  right : b.table? name = some u
  tables : t.Grown u

/-- Effects that leave the same rows in a table and in what it has grown to. -/
structure SameRows (a b : Store) (t u : Table) (left right : Effect) : Prop where
  rows : ∃ t', t' = t.holding t' ∧ left.store = a.setTable t' ∧
    right.store = b.setTable (u.holding t')
  affected : left.affected = right.affected
  row : left.row = right.row

namespace Counterparts

variable {values sets : List (String × Cell)} {id : Int64} {keys : List (String × Int64)}
  (h : a.Counterparts b name t u)

include h

theorem known : ∀ r ∈ t.rows, t.Knows r :=
  (h.regular.keyed.table? h.left).known

theorem checkForeignKeys_eq (hr : r ∈ t.rows) : b.checkForeignKeys u r = a.checkForeignKeys t r :=
  h.stores.checkForeignKeys_eq h.regular h.counted (List.mem_of_find?_eq_some h.left)
    (List.mem_of_find?_eq_some h.right) h.tables (h.known r hr)

/-- After a change the table still has grown to its counterpart. -/
theorem becomes (statement : Statement) (hplain : statement.Plain)
    (hbecomes : t.Becomes statement t') :
    (a.setTable t').Counterparts (b.setTable (u.holding t')) name t' (u.holding t') := by
  have hshape := hbecomes.eq_withRows
  have hmem := List.mem_of_find?_eq_some h.left
  refine ⟨h.regular.setTable hmem hshape ((h.regular.keyed t hmem).becomes hplain hbecomes),
    h.counted.setTable (List.mem_of_find?_eq_some h.right) _ _ fun _ w hw hsame ↦ ?_,
    h.stores.setTable hmem h.tables hshape, ?_, ?_, h.tables.holding hshape⟩
  · rw [table?_of_name h.right hw hsame]
  · rw [table?_setTable, h.left, Option.map_some, if_pos (by rw [hshape])]
  · rw [table?_setTable, h.right, Option.map_some]
    exact congrArg some (if_pos rfl)

theorem insert_both (hplain : ∀ x ∈ values, Settable x) (hnames : ∀ x ∈ values, t.hasColumn x.1) :
    Except.Both Eq (SameRows a b t u) (a.run (.insert name values))
      (b.run (.insert name values)) := by
  rw [run_insert h.left, run_insert h.right, h.tables.insert_eq hnames h.known, Except.bind_map]
  refine .bind_same (fun _ ↦ rfl) fun ⟨t', id⟩ hinsert ↦ ?_
  have hbecomes : t.Becomes (.insert name values) t' := ⟨id, hinsert⟩
  have hafter := h.becomes (.insert name values) hplain hbecomes
  have hcheck : ((u.holding t').row? id).elim (.ok ())
      ((b.setTable (u.holding t')).checkForeignKeys (u.holding t')) =
      (t'.row? id).elim (.ok ()) ((a.setTable t').checkForeignKeys t') := by
    rw [hafter.tables.row?_eq]
    cases hrow : t'.row? id with
    | none => rfl
    | some r => exact hafter.checkForeignKeys_eq (Table.row?_eq_some hrow).1
  dsimp only
  rw [hcheck]
  exact .bind_same (fun _ ↦ rfl) fun _ _ ↦ .ok ⟨⟨t', hbecomes.eq_withRows, rfl, rfl⟩, rfl, rfl⟩

theorem update_both (hplain : ∀ x ∈ sets, Settable x) (hnames : ∀ x ∈ sets, t.hasColumn x.1) :
    Except.Both Eq (SameRows a b t u) (a.run (.update name sets id))
      (b.run (.update name sets id)) := by
  rw [run_update h.left, run_update h.right, h.tables.update_eq hnames h.known, Except.bind_map]
  refine .bind_same (fun _ ↦ rfl) fun ⟨t', count⟩ hupdate ↦ ?_
  have hbecomes : t.Becomes (.update name sets id) t' := ⟨count, hupdate⟩
  have hafter := h.becomes (.update name sets id) hplain hbecomes
  have hcheck : ((u.holding t').rows.filter fun r ↦ !t.rows.contains r).forM
      ((b.setTable (u.holding t')).checkForeignKeys (u.holding t')) =
        (t'.rows.filter fun r ↦ !t.rows.contains r).forM ((a.setTable t').checkForeignKeys t') :=
    Except.forM_congr fun r hr ↦ hafter.checkForeignKeys_eq (List.mem_filter.mp hr).1
  dsimp only
  rw [h.tables.rows, hcheck, hafter.stores.checkUnreferenced_eq hafter.regular hafter.tables]
  simp only [hafter.tables.row?_eq]
  exact .bind_same (fun _ ↦ rfl) fun _ _ ↦ .bind_same (fun _ ↦ rfl) fun _ _ ↦
    .ok ⟨⟨t', hbecomes.eq_withRows, rfl, rfl⟩, rfl, rfl⟩

theorem delete_both (hnames : ∀ x ∈ keys, t.hasColumn x.1) :
    Except.Both Eq (SameRows a b t u) (a.run (.delete name keys)) (b.run (.delete name keys)) := by
  have hbecomes : t.Becomes (.delete name keys) (t.delete keys).1 := rfl
  have hafter := h.becomes (.delete name keys) trivial hbecomes
  rw [run_delete h.left, run_delete h.right, h.tables.delete_eq hnames h.known]
  dsimp only
  rw [hafter.stores.checkUnreferenced_eq hafter.regular hafter.tables]
  exact .bind_same (fun _ ↦ rfl) fun _ _ ↦ .ok ⟨⟨_, hbecomes.eq_withRows, rfl, rfl⟩, rfl, rfl⟩

end Counterparts

/-- A statement that names columns of its table does the same on the grown store: it fails with the
same error, or it leaves the same rows in the table. -/
theorem Counterparts.run_both (h : a.Counterparts b statement.table t u) (hplain : statement.Plain)
    (hnames : ∀ name ∈ statement.names, t.hasColumn name) :
    Except.Both Eq (SameRows a b t u) (a.run statement) (b.run statement) := by
  cases statement with
  | insert table values => exact h.insert_both hplain fun x hx ↦ hnames _ (List.mem_map_of_mem hx)
  | update table sets id => exact h.update_both hplain fun x hx ↦ hnames _ (List.mem_map_of_mem hx)
  | delete table keys => exact h.delete_both fun x hx ↦ hnames _ (List.mem_map_of_mem hx)

end Store

end EntityStore
