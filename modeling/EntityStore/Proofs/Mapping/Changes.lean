import EntityStore.Proofs.Mapping.Content
import EntityStore.Proofs.Mapping.Written

/-!
What statements do to the content of a store: an insert gives its row the next number, and links
stand in the order in which they were added.
-/

set_option autoImplicit false

namespace EntityStore

open Mapping

/-! ### Tables -/

namespace Table

variable {t t' : Table} {named : String} {values sets : List (String × Cell)}
  {id n : Int64} {r old : StoredRow} {keys : List (String × Int64)}

/-- An inserted row gets a greater number than all that there are and, where these are counted, than
all given. -/
theorem Keyed.insert_cases (h : t.Keyed) (hvalues : ∀ x ∈ values, Settable x)
    (hinsert : t.insert named values = .ok (t', id)) : t' = t.withRow (t.newRow values id) ∧
      (∀ x ∈ values, t.hasColumn x.1) ∧ (∀ s ∈ t.rows, s.id < id) ∧
      (t.rowColumn.isSome → t.last < id) := by
  obtain ⟨hnamed, hid, -, -, rfl⟩ := insert_eq_ok.mp hinsert
  have hnext : t.nextId = .ok id := by
    unfold idFor at hid
    rwa [h.given_rowColumn hvalues] at hid
  exact ⟨rfl, hnamed, lt_nextId h.ascending hnext, (nextId_eq_ok hnext).2.2⟩

/-- An update of one row leaves it its number. -/
theorem Keyed.update_cases (h : t.Keyed) (hsets : ∀ x ∈ sets, Settable x)
    (hupdate : t.update sets id = .ok (t', 1)) :
    ∃ old, t.row? id = some old ∧ t' = t.withChanged id (t.changedRow sets old id) ∧
      ∀ x ∈ sets, t.hasColumn x.1 := by
  obtain ⟨hnamed, ⟨-, -, hcount⟩ | ⟨old, new, htarget, hnew, -, -, rfl, -⟩⟩ :=
    update_eq_ok.mp hupdate
  · cases hcount
  · obtain rfl := h.idAfter_eq hsets hnew
    exact ⟨old, target_eq_some htarget, rfl, hnamed⟩

theorem column?_name (hdistinct : Distinct t.columns) {c : Column} (hc : c ∈ t.columns) :
    t.column? c.name = some c := by
  unfold column?
  unfold Distinct at hdistinct
  generalize t.columns = columns at hdistinct hc
  induction columns with
  | nil => cases hc
  | cons d columns ih =>
    obtain ⟨hd, hdistinct⟩ := List.pairwise_cons.mp hdistinct
    rcases List.mem_cons.mp hc with rfl | hc
    · exact List.find?_cons_of_pos (p := fun d : Column ↦ sameName d.name c.name)
        (sameName_refl c.name)
    · rw [List.find?_cons_of_neg (by simp [hd c hc]), ih hdistinct hc]

/-- A column under its own name. -/
theorem Keyed.cellOf_name (h : t.Keyed) (hdistinct : Distinct t.columns) {c : Column}
    (hc : c ∈ t.columns) :
    t.cellOf r c.name = r.cell c.name := by
  have hother : t.isRowColumn c.name = false := by
    unfold isRowColumn
    rcases h.rowColumn with hnone | hsome
    · rw [hnone]
      rfl
    · rw [hsome, Option.any_some, sameName_comm, h.other c hc]
  unfold cellOf
  rw [hother, column?_name hdistinct hc]
  rfl

/-- Rows are deleted by the numbers in columns that name rows. -/
theorem Keyed.delete_eq (h : t.Keyed) (hdistinct : Distinct t.columns)
    (hkeys : ∀ x ∈ keys, x.1 ∈ keyNames ∧ ∃ c ∈ t.columns, c.name = x.1) : t.delete keys =
      ({ t with rows := t.rows.filter fun r ↦ !keys.all fun (c, n) ↦ r.number? c == some n },
        t.rows.filter fun r ↦ keys.all fun (c, n) ↦ r.number? c == some n) := by
  have hgoes : ∀ r ∈ t.rows, (keys.all fun (c, n) ↦ t.hasColumn c &&
      (t.cellOf r c).compare? (.integer n) == some .eq) = keys.all fun (c, n) ↦
        r.number? c == some n := by
    intro r hr
    rw [Bool.eq_iff_iff, List.all_eq_true, List.all_eq_true]
    refine forall₂_congr fun x hx ↦ ?_
    obtain ⟨hname, c, hc, heq⟩ := hkeys x hx
    have hcell : (r.cell x.1).isNumber :=
      h.cell_isNumber hr (List.any_eq_true.mpr ⟨x.1, hname, sameName_refl x.1⟩)
    have hequal := Record.compare?_integer (Cell.isNumber_iff.mp hcell) x.2
    dsimp only
    rw [← heq] at hequal ⊢
    rw [h.cellOf_name hdistinct hc, hasColumn_of_mem hc, Bool.true_and, hequal, beq_iff_eq,
      StoredRow.number?_eq_some_iff]
  have hstays : ∀ r ∈ t.rows, (!keys.all fun (c, n) ↦ t.hasColumn c &&
      (t.cellOf r c).compare? (.integer n) == some .eq) = !keys.all fun (c, n) ↦
        r.number? c == some n :=
    fun r hr ↦ congrArg not (hgoes r hr)
  refine Prod.ext ?_ (List.filter_congr hgoes)
  exact congrArg (fun rows ↦ { t with rows := rows : Table }) (List.filter_congr hstays)

/-- Rows that a constraint on columns that name rows tells apart differ in one of them. -/
theorem Keyed.id_eq_of_unique (h : t.Keyed) (hdistinct : Distinct t.columns) {columns : List String}
    (hunique : columns ∈ t.unique) (hcolumns : ∀ name ∈ columns, ∃ c ∈ t.columns, c.name = name)
    {s : StoredRow} (hr : r ∈ t.rows) (hs : s ∈ t.rows)
    (hsame : ∀ name ∈ columns, ∃ n, r.number? name = some n ∧ s.number? name = some n) :
    r.id = s.id := by
  by_contra hne
  have hclash := h.unique columns hunique r hr s hs hne
  rw [Bool.eq_false_iff] at hclash
  refine hclash (List.all_eq_true.mpr fun name hname ↦ ?_)
  obtain ⟨c, hc, rfl⟩ := hcolumns name hname
  obtain ⟨n, hrn, hsn⟩ := hsame c.name hname
  rw [h.cellOf_name hdistinct hc, h.cellOf_name hdistinct hc, StoredRow.number?_eq_some_iff.mp hrn,
    StoredRow.number?_eq_some_iff.mp hsn, Record.compare?_integer (.inr ⟨n, rfl⟩)]

theorem delete_row (t : Table) (hcounted : t.rowColumn = some idName) (id : Int64) :
    t.delete [(idName, id)] = ({ t with rows := t.rows.filter fun r ↦ !(r.id == id) },
      t.rows.filter fun r ↦ r.id == id) := by
  have hgoes (r : StoredRow) : ([(idName, id)].all fun (c, n) ↦ t.hasColumn c &&
      (t.cellOf r c).compare? (.integer n) == some .eq) = (r.id == id) := by
    have hcolumn : t.isRowColumn idName := by
      unfold isRowColumn
      rw [hcounted]
      exact sameName_refl idName
    have hcell : t.cellOf r idName = .integer r.id := if_pos hcolumn
    rw [Bool.eq_iff_iff, List.all_cons, List.all_nil, Bool.and_true]
    dsimp only
    rw [hcell, hasColumn, hcolumn, Bool.true_or, Bool.true_and,
      Record.compare?_integer (.inr ⟨r.id, rfl⟩), Cell.integer.injEq, beq_iff_eq]
  unfold delete
  simp only [hgoes]

/-! ### Tables of links -/

section

variable {entity : String} {p : Property} {spec : TableSpec} {owner target o : Int64}

/-- A table of links has a column for the owner and one for the target. -/
theorem link_columns (hspec : linkTable entity p = some spec) (ht : spec.Shapes t) :
    t.rowColumn = none ∧
      t.columns = [⟨ownerColumn, .integer, true⟩, ⟨targetColumn, .integer, true⟩] ∧
      [ownerColumn, targetColumn] ∈ t.unique := by
  obtain ⟨target, unique, -, rfl⟩ := linkTable_eq_some hspec
  refine ⟨ht.rowColumn_eq, ht.columns_eq, ?_⟩
  rw [ht.unique_eq]
  simp [TableSpec.table, TableSpec.constraints]

theorem distinct_linkColumns :
    Distinct [⟨ownerColumn, .integer, true⟩, ⟨targetColumn, .integer, true⟩] := by
  unfold Distinct
  decide

theorem Keyed.delete_link (hkeyed : t.Keyed) (hspec : linkTable entity p = some spec)
    (ht : spec.Shapes t) (hkeys : ∀ x ∈ keys, x.1 = ownerColumn ∨ x.1 = targetColumn) :
      t.delete keys =
        ({ t with rows := t.rows.filter fun r ↦ !keys.all fun (c, n) ↦ r.number? c == some n },
        t.rows.filter fun r ↦ keys.all fun (c, n) ↦ r.number? c == some n) := by
  obtain ⟨-, hcolumns, -⟩ := link_columns hspec ht
  refine hkeyed.delete_eq (hcolumns ▸ distinct_linkColumns) fun x hx ↦ ?_
  rw [hcolumns]
  rcases hkeys x hx with heq | heq <;> rw [heq] <;> decide

theorem newRow_link (hspec : linkTable entity p = some spec) (ht : spec.Shapes t) :
    t.newRow [(ownerColumn, .integer owner), (targetColumn, .integer target)] id =
      ⟨id, [(ownerColumn, .integer owner), (targetColumn, .integer target)]⟩ := by
  unfold newRow
  rw [(link_columns hspec ht).2.1]
  rfl

theorem targets_eq (t : Table) (o : Int64) :
    t.targets o = t.rows.filterMap fun r ↦ if r.number? ownerColumn = some o then
      r.number? targetColumn else none := by
  unfold targets
  rw [List.filterMap_filter]
  simp only [beq_iff_eq]

/-- A new link comes last. -/
theorem Keyed.targets_insert (hkeyed : t.Keyed) (hspec : linkTable entity p = some spec)
    (ht : spec.Shapes t)
    (hinsert : t.insert named [(ownerColumn, .integer owner), (targetColumn, .integer target)] =
      .ok (t', id)) :
    t'.targets o = if o = owner then t.targets owner ++ [target] else t.targets o := by
  obtain ⟨rfl, -, hlast, -⟩ := hkeyed.insert_cases (settable_link owner target) hinsert
  have hrows :
      (t.withRow
        (t.newRow [(ownerColumn, .integer owner), (targetColumn, .integer target)] id)).rows =
      t.rows ++ [⟨id, [(ownerColumn, .integer owner), (targetColumn, .integer target)]⟩] := by
    rw [newRow_link hspec ht]
    exact insertRow_eq_append hlast
  have howner : StoredRow.number?
      ⟨id, [(ownerColumn, .integer owner), (targetColumn, .integer target)]⟩ ownerColumn =
      some owner := rfl
  have htarget : StoredRow.number?
      ⟨id, [(ownerColumn, .integer owner), (targetColumn, .integer target)]⟩
      targetColumn = some target := rfl
  rw [targets_eq, hrows, List.filterMap_append, ← targets_eq]
  by_cases ho : o = owner
  · simp [ho, howner, htarget]
  · simp [ho, Ne.symm ho, howner]

/-- A link is removed from where it stands. -/
theorem Keyed.targets_delete (hkeyed : t.Keyed) (hspec : linkTable entity p = some spec)
    (ht : spec.Shapes t) :
    (t.delete [(ownerColumn, owner), (targetColumn, target)]).1.targets o =
      if o = owner then (t.targets owner).filter (· != target) else t.targets o := by
  rw [hkeyed.delete_link hspec ht (by simp), targets_eq, List.filterMap_filter,
    targets_eq, targets_eq, List.filter_filterMap]
  by_cases ho : o = owner
  · rw [if_pos ho]
    refine List.filterMap_congr fun r _ ↦ ?_
    by_cases hr : r.number? ownerColumn = some owner
    · cases htarget : r.number? targetColumn with
      | none => simp [hr, ho, htarget]
      | some n => by_cases hn : n = target <;> simp [hr, ho, htarget, hn, Option.filter]
    · simp [hr, ho]
  · rw [if_neg ho]
    refine List.filterMap_congr fun r _ ↦ ?_
    by_cases hr : r.number? ownerColumn = some o <;> simp [hr, ho]

/-- All links of an owner are removed. -/
theorem Keyed.targets_delete_all (hkeyed : t.Keyed) (hspec : linkTable entity p = some spec)
    (ht : spec.Shapes t) :
    (t.delete [(ownerColumn, owner)]).1.targets o = if o = owner then [] else t.targets o := by
  rw [hkeyed.delete_link hspec ht (by simp), targets_eq, List.filterMap_filter, targets_eq]
  by_cases ho : o = owner
  · rw [if_pos ho, List.filterMap_eq_nil_iff]
    intro r _
    by_cases hr : r.number? ownerColumn = some owner <;> simp [hr, ho]
  · rw [if_neg ho]
    refine List.filterMap_congr fun r _ ↦ ?_
    by_cases hr : r.number? ownerColumn = some o <;> simp [hr, ho]

/-- Links of one owner to one target are the same. -/
theorem Keyed.id_eq_of_link (hkeyed : t.Keyed) (hspec : linkTable entity p = some spec)
    (ht : spec.Shapes t) {s : StoredRow} (hr : r ∈ t.rows) (hs : s ∈ t.rows)
    (howner : r.number? ownerColumn = some owner ∧ s.number? ownerColumn = some owner)
    (htarget : r.number? targetColumn = some target ∧ s.number? targetColumn = some target) :
    r.id = s.id := by
  obtain ⟨-, hcolumns, hunique⟩ := link_columns hspec ht
  refine hkeyed.id_eq_of_unique (hcolumns ▸ distinct_linkColumns) hunique
    (fun name hname ↦ ?_) hr hs fun name hname ↦ ?_
  · rw [hcolumns]
    rcases List.mem_cons.mp hname with rfl | hname
    · decide
    · rw [List.mem_singleton.mp hname]
      decide
  · rcases List.mem_cons.mp hname with rfl | hname
    · exact ⟨owner, howner⟩
    · rw [List.mem_singleton.mp hname]
      exact ⟨target, htarget⟩

/-- No row is linked to twice. -/
theorem Keyed.targets_nodup (hkeyed : t.Keyed) (hspec : linkTable entity p = some spec)
    (ht : spec.Shapes t) (o : Int64) :
    (t.targets o).Nodup := by
  rw [targets_eq]
  refine List.pairwise_filterMap.mpr
    (hkeyed.ascending.imp_of_mem fun {r s} hr hs hless n hn m hm hnm ↦ ?_)
  subst hnm
  have hr' : r.number? ownerColumn = some o ∧ r.number? targetColumn = some n := by simpa using hn
  have hs' : s.number? ownerColumn = some o ∧ s.number? targetColumn = some n := by simpa using hm
  exact Int64.ne_of_lt hless (hkeyed.id_eq_of_link hspec ht hr hs ⟨hr'.1, hs'.1⟩ ⟨hr'.2, hs'.2⟩)

end

end Table

/-! ### Stores -/

theorem TableSpec.Shapes.becomes {spec : TableSpec} {t t' : Table}
    {statement : Statement} (h : spec.Shapes t) (hbecomes : t.Becomes statement t') :
    spec.Shapes t' := by
  rw [hbecomes.eq_withRows]
  exact h.withRows _ _

namespace Store

variable {s : Schema} {store : Store} {statement : Statement} {effect : Effect} {t : Table}
  {e : Entity} {p : Property} {values sets : List (String × Cell)} {keys : List (String × Int64)}
  {table : String} {id owner target : Int64}

/-- Statements that leave the numbers of rows to the store keep its shape. -/
theorem Shaped.run (h : store.Shaped s) (hplain : statement.Plain)
    (hrun : store.run statement = .ok effect) :
    effect.store.Shaped s := by
  obtain ⟨t, t', ht, hbecomes, hstore⟩ := run_cases hrun
  have hmem := List.mem_of_find?_eq_some ht
  obtain ⟨spec, hspec, hshapes⟩ := List.forall₂_exists_right h.tables _ hmem
  rw [hstore]
  exact h.setTable hspec (hshapes.becomes hbecomes) ((h.keyed t hmem).becomes hplain hbecomes)

section

variable (hs : s.WellFormed) (h : store.Shaped s) (he : e ∈ s.entities)

include hs h he

/-- A new row of an entity, under a number that none was given. -/
theorem run_insert_row (hvalues : ∀ x ∈ values, Settable x)
    (hrun : store.run (.insert e.name values) = .ok effect) :
    ∃ t, store.table? e.name = some t ∧ (∀ x ∈ values, t.hasColumn x.1) ∧
      store.top e.name < effect.row ∧ effect.store.content s =
        (store.content s).putRow e.name effect.row (some (t.newRow values effect.row).entry) ∧
      ∀ d ∈ s.entities, effect.store.top d.name = if d.name = e.name then effect.row else
        store.top d.name := by
  obtain ⟨t, ht, hshapes, hkeyed⟩ := h.entityTable? he
  obtain ⟨t', hran⟩ := ran_of_run hrun ht
  have hnew := hshapes.becomes hran.becomes
  obtain @⟨_, _, _, row, hinsert, -⟩ := hran
  obtain ⟨rfl, hnamed, hgreater, hlast⟩ := hkeyed.insert_cases hvalues hinsert
  have hcounted : t.rowColumn = some Store.rowName := hshapes.rowColumn_eq
  have htop : store.top e.name = t.last := by
    unfold top
    rw [ht]
    rfl
  have hless : t.last < row := hlast (by rw [hcounted]; rfl)
  refine ⟨t, ht, hnamed, htop ▸ hless, ?_, fun d hd ↦ ?_⟩
  · exact content_putRow hs h he ht hnew fun n ↦
      Table.row?_withRow hkeyed.ascending fun r hr ↦ Int64.ne_of_lt (hgreater r hr)
  · have hlast' : (t.withRow (t.newRow values row)).last = row := by
      unfold Table.withRow
      rw [hcounted, Option.isSome_some, if_pos rfl]
      exact if_pos (Int64.le_of_lt hless)
    rw [h.top_setTable (Schema.entityTable_mem he) hnew hd, hlast']
    by_cases hname : d.name = e.name
    · obtain rfl := hs.eq_of_name_eq hd he hname
      rw [if_pos rfl, if_pos rfl]
    · rw [if_neg hname, if_neg fun hspec ↦ hname (congrArg TableSpec.name hspec)]

/-- A changed row keeps its number. -/
theorem run_update_row (hsets : ∀ x ∈ sets, Settable x)
    (hrun : store.run (.update e.name sets id) = .ok effect) (hone : effect.affected = 1) :
    ∃ t old, store.table? e.name = some t ∧ t.row? id = some old ∧ (∀ x ∈ sets, t.hasColumn x.1) ∧
      effect.store.content s = (store.content s).putRow e.name id
        (some (t.changedRow sets old id).entry) ∧
      ∀ d ∈ s.entities, effect.store.top d.name = store.top d.name := by
  obtain ⟨t, ht, hshapes, hkeyed⟩ := h.entityTable? he
  obtain ⟨t', hran⟩ := ran_of_run hrun ht
  have hnew := hshapes.becomes hran.becomes
  obtain - | ⟨hupdate, -, -⟩ := hran
  obtain rfl := hone
  obtain ⟨old, hold, rfl, hnamed⟩ := hkeyed.update_cases hsets hupdate
  refine ⟨t, old, ht, hold, hnamed, ?_, fun d hd ↦ h.top_setTable_last he ht hnew rfl hd⟩
  have hid : (t.changedRow sets old id).id = id := rfl
  refine content_putRow (x := some (t.changedRow sets old id)) hs h he ht hnew fun n ↦ ?_
  rw [Table.row?_withChanged hid]
  by_cases hn : n = id
  · rw [if_pos hn, if_pos hn, hn, hold]
    rfl
  · rw [if_neg hn, if_neg hn]

theorem run_delete_row (hrun : store.run (.delete e.name [(idName, id)]) = .ok effect)
    (hone : effect.affected = 1) :
    ((store.content s).row e.name id).isSome ∧
      effect.store.content s = (store.content s).putRow e.name id none ∧
      ∀ d ∈ s.entities, effect.store.top d.name = store.top d.name := by
  obtain ⟨t, ht, hshapes, hkeyed⟩ := h.entityTable? he
  obtain ⟨t', hran⟩ := ran_of_run hrun ht
  have hnew := hshapes.becomes hran.becomes
  cases hran
  have hdelete := t.delete_row hshapes.rowColumn_eq id
  refine ⟨?_, ?_, fun d hd ↦ h.top_setTable_last he ht hnew rfl hd⟩
  · have hone : (t.rows.filter fun r ↦ r.id == id).length = 1 := by
      rw [← hone, hdelete]
    obtain ⟨r, hr⟩ := List.length_eq_one_iff.mp hone
    have hmem : r ∈ t.rows ∧ (r.id == id) = true :=
      List.mem_filter (p := fun r : StoredRow ↦ r.id == id).mp (hr ▸ List.mem_singleton_self r)
    have hrow : t.row? id = some r :=
      (Table.row?_eq_some_iff hkeyed.ascending).mpr ⟨hmem.1, by simpa using hmem.2⟩
    rw [content_row hs he ht, hrow]
    rfl
  · refine content_putRow (x := none) hs h he ht hnew fun n ↦ ?_
    rw [hdelete, Table.row?_filter hkeyed.ascending]
    cases hrow : t.row? n with
    | none => simp
    | some r =>
      have hr : r.id = n := (Table.row?_eq_some hrow).2
      by_cases hn : n = id <;> simp [Option.filter, hr, hn]

variable (hp : p ∈ e.properties) (hlinked : p.isLinked)

include hp hlinked

/-- A statement on the links of a relation changes no rows. -/
theorem run_link (htable : statement.table = linkTableName e.name p.name)
    (hrun : store.run statement = .ok effect) :
    ∃ spec t t', linkTable e.name p = some spec ∧ spec.Shapes t ∧ t.Keyed ∧ t.Becomes statement t' ∧
      (∀ o, (store.content s).links e.name p.name o = t.targets o) ∧
      (∀ d ∈ s.entities, effect.store.top d.name = store.top d.name) ∧
      ∀ owner targets, (∀ o, t'.targets o = if o = owner then targets else t.targets o) →
        effect.store.content s = (store.content s).putLinks e.name p.name owner targets := by
  obtain ⟨spec, t, hspec, hname, ht, hshapes, hkeyed⟩ := h.linkTable? he hp hlinked
  obtain ⟨u, t', hu, hbecomes, hstore⟩ := run_cases hrun
  rw [htable, ht] at hu
  obtain rfl := Option.some.inj hu
  have hnew := hshapes.becomes hbecomes
  refine ⟨spec, t, t', hspec, hshapes, hkeyed, hbecomes,
    content_links hs he hp hlinked ht, fun d hd ↦ ?_, fun owner targets htargets ↦ ?_⟩
  · rw [hstore, h.top_setTable (Schema.linkTable_mem he hp hspec) hnew hd,
      if_neg (entityTable_ne_linkTable hspec)]
  · rw [hstore]
    exact content_putLinks hs h he hp hspec ht hnew htargets

theorem run_insert_link (hrun : store.run (.insert (linkTableName e.name p.name)
      [(ownerColumn, .integer owner), (targetColumn, .integer target)]) = .ok effect) :
    effect.store.content s = (store.content s).putLinks e.name p.name owner
        ((store.content s).links e.name p.name owner ++ [target]) ∧
      ∀ d ∈ s.entities, effect.store.top d.name = store.top d.name := by
  obtain ⟨spec, t, t', hspec, hshapes, hkeyed, ⟨id, hinsert⟩, hlinks, htop, hcontent⟩ :=
    run_link hs h he hp hlinked rfl hrun
  rw [hlinks]
  exact ⟨hcontent owner _ fun o ↦ hkeyed.targets_insert hspec hshapes hinsert, htop⟩

theorem run_delete_link (hrun : store.run (.delete (linkTableName e.name p.name)
      [(ownerColumn, owner), (targetColumn, target)]) = .ok effect) :
    effect.store.content s = (store.content s).putLinks e.name p.name owner
        (((store.content s).links e.name p.name owner).filter (· != target)) ∧
      ∀ d ∈ s.entities, effect.store.top d.name = store.top d.name := by
  obtain ⟨spec, t, t', hspec, hshapes, hkeyed, rfl, hlinks, htop, hcontent⟩ :=
    run_link hs h he hp hlinked rfl hrun
  rw [hlinks]
  exact ⟨hcontent owner _ fun o ↦ hkeyed.targets_delete hspec hshapes, htop⟩

theorem run_delete_links
    (hrun : store.run (.delete (linkTableName e.name p.name) [(ownerColumn, owner)]) =
    .ok effect) :
    effect.store.content s = (store.content s).putLinks e.name p.name owner [] ∧
      ∀ d ∈ s.entities, effect.store.top d.name = store.top d.name := by
  obtain ⟨spec, t, t', hspec, hshapes, hkeyed, rfl, -, htop, hcontent⟩ :=
    run_link hs h he hp hlinked rfl hrun
  exact ⟨hcontent owner [] fun o ↦ hkeyed.targets_delete_all hspec hshapes, htop⟩

end

end Store

end EntityStore
