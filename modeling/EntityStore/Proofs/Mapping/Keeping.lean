import EntityStore.Proofs.Mapping.Keyed
import EntityStore.Proofs.Store.Statement

/-!
What `Store.Keyed` says is kept by statements that leave the numbers of rows to the store, set
columns that name rows to numbers, and declare such columns integer.
-/

set_option autoImplicit false

namespace EntityStore

open Mapping (isKey keyNames)

theorem sameName_iff {a b : String} :
    sameName a b ↔ a.toList.map Char.toLower = b.toList.map Char.toLower := by
  unfold sameName
  rw [Bool.or_eq_true, beq_iff_eq, beq_iff_eq]
  exact or_iff_right_of_imp fun h ↦ by rw [h]

theorem sameName_congr {a b : String} (h : sameName a b) (c : String) :
    sameName c a = sameName c b := by
  rw [Bool.eq_iff_iff, sameName_iff, sameName_iff, sameName_iff.mp h]

theorem isKey_of_sameName {a b : String} (h : sameName a b) (hb : isKey b) : isKey a := by
  obtain ⟨name, hname, hsame⟩ := List.any_eq_true.mp hb
  refine List.any_eq_true.mpr ⟨name, hname, ?_⟩
  exact sameName_iff.mpr ((sameName_iff.mp h).trans (sameName_iff.mp hsame))

/-- What a column may be set to: a number if it names rows. The number of a row is never set. -/
structure Settable (x : String × Cell) : Prop where
  other : sameName x.1 idName = false
  number : isKey x.1 → x.2.isNumber

/-- A column that names rows is declared integer, and no column is the number of the row. -/
structure ColumnSpec.Plain (c : ColumnSpec) : Prop where
  other : sameName c.name idName = false
  integer : isKey c.name → c.affinity = .integer

def Statement.Plain : Statement → Prop
  | .insert _ values => ∀ x ∈ values, Settable x
  | .update _ sets _ => ∀ x ∈ sets, Settable x
  | .delete _ _ => True

def Definition.Plain : Definition → Prop
  | .createTable spec => ∀ c ∈ spec.columns, c.Plain
  | .addColumn _ c => c.Plain

/-! ### Tables -/

namespace Table

variable {t t' : Table} {named : String} {values sets : List (String × Cell)}
  {id : Int64} {r : StoredRow} {name : String} {v : Cell} {count : Nat}

theorem given_eq_some (h : given values name = some v) :
    ∃ x ∈ values, sameName x.1 name ∧ x.2 = v := by
  obtain ⟨x, hfind, hx⟩ := Option.map_eq_some_iff.mp h
  exact ⟨x, List.mem_of_find?_eq_some hfind, by simpa using List.find?_some hfind, hx⟩

theorem isNumber_stored (h : v.isNumber) : (v.stored .integer).isNumber := by
  rcases Cell.isNumber_iff.mp h with rfl | ⟨n, rfl⟩ <;> rfl

/-- What is stored in a column that names rows is a number. -/
theorem Keyed.isNumber_given (h : t.Keyed) (hvalues : ∀ x ∈ values, Settable x) {c : Column}
    (hc : c ∈ t.columns) (hkey : isKey c.name) (hv : given values c.name = some v) :
    (v.stored c.affinity).isNumber := by
  obtain ⟨x, hx, hname, rfl⟩ := given_eq_some hv
  rw [h.integer c hc hkey]
  refine isNumber_stored ((hvalues x hx).number (isKey_of_sameName hname hkey))

/-- The number of a row is not set. -/
theorem Keyed.given_rowColumn (h : t.Keyed) (hvalues : ∀ x ∈ values, Settable x) :
    t.rowColumn.bind (given values) = none := by
  refine Option.bind_eq_none_iff.mpr fun c hc ↦ ?_
  obtain rfl : c = idName := by
    rcases h.rowColumn with hnone | hsome
    · rw [hnone] at hc
      cases hc
    · exact Option.some.inj (hc.symm.trans hsome)
  cases hgiven : given values idName with
  | none => rfl
  | some v =>
    obtain ⟨x, hx, hname, -⟩ := given_eq_some hgiven
    rw [(hvalues x hx).other] at hname
    cases hname

/-- A row that may stand in a table that keeps its keys. -/
structure Fits (t : Table) (r : StoredRow) : Prop where
  known : ∀ x ∈ r.cells, ∃ c ∈ t.columns, c.name = x.1
  cells : ∀ x ∈ r.cells, isKey x.1 → x.2.isNumber
  positive : t.rowColumn.isSome → 0 < r.id

theorem Keyed.fits (h : t.Keyed) (hr : r ∈ t.rows) : t.Fits r :=
  ⟨h.known r hr, h.cells r hr, fun hsome ↦ h.positive hsome r hr⟩

theorem Keyed.fits_newRow (h : t.Keyed) (hvalues : ∀ x ∈ values, Settable x) (hid : 0 < id) :
    t.Fits (t.newRow values id) := by
  have hcell : ∀ x ∈ (t.newRow values id).cells, ∃ c ∈ t.columns, c.name = x.1 ∧
      (isKey x.1 → x.2.isNumber) := by
    intro x hx
    obtain ⟨c, hc, hx⟩ := List.mem_filterMap.mp hx
    obtain ⟨v, hv, rfl⟩ := Option.map_eq_some_iff.mp hx
    exact ⟨c, hc, rfl, fun hkey ↦ h.isNumber_given hvalues hc hkey hv⟩
  refine ⟨fun x hx ↦ ?_, fun x hx ↦ ?_, fun _ ↦ hid⟩
  · obtain ⟨c, hc, hname, -⟩ := hcell x hx
    exact ⟨c, hc, hname⟩
  · obtain ⟨c, -, -, hnumber⟩ := hcell x hx
    exact hnumber

theorem Keyed.fits_changedRow (h : t.Keyed) (hsets : ∀ x ∈ sets, Settable x) (hr : r ∈ t.rows) :
    t.Fits (t.changedRow sets r r.id) := by
  have hreverse : ∀ x ∈ sets.reverse, Settable x := fun x hx ↦ hsets x (List.mem_reverse.mp hx)
  have hcell : ∀ x ∈ (t.changedRow sets r r.id).cells,
      (∃ c ∈ t.columns, c.name = x.1) ∧ (isKey x.1 → x.2.isNumber) := by
    intro x hx
    obtain ⟨c, hc, hx⟩ := List.mem_filterMap.mp hx
    cases hgiven : given sets.reverse c.name with
    | some v =>
      simp only [hgiven] at hx
      cases hx
      exact ⟨⟨c, hc, rfl⟩, fun hkey ↦ h.isNumber_given hreverse hc hkey hgiven⟩
    | none =>
      simp only [hgiven] at hx
      have hin := List.mem_of_find?_eq_some hx
      exact ⟨h.known r hr x hin, h.cells r hr x hin⟩
  exact ⟨fun x hx ↦ (hcell x hx).1, fun x hx ↦ (hcell x hx).2, fun hsome ↦ h.positive hsome r hr⟩

/-- Rows in their order that fit and do not clash make a table that keeps its keys. -/
theorem Keyed.withRows (h : t.Keyed) {rows : List StoredRow} (last : Int64)
    (hascending : rows.Pairwise fun r s ↦ r.id < s.id) (hfits : ∀ r ∈ rows, t.Fits r)
    (hunique : ∀ columns ∈ t.unique, ∀ r ∈ rows, ∀ s ∈ rows, r.id ≠ s.id →
      t.clash columns r s = false) :
    { t with rows := rows, last := last : Table }.Keyed where
  rowColumn := h.rowColumn
  other := h.other
  integer := h.integer
  known r hr := (hfits r hr).known
  cells r hr := (hfits r hr).cells
  ascending := hascending
  positive hsome r hr := (hfits r hr).positive hsome
  unique := hunique

/-- So do rows of the table with one row added or put in place of another. -/
theorem Keyed.withRowAmong (h : t.Keyed) {rows : List StoredRow} (last : Int64)
    (hascending : rows.Pairwise fun r s ↦ r.id < s.id) (hfits : t.Fits r)
    (hclash : ∀ columns ∈ t.unique, ∀ s ∈ t.rows, s.id ≠ r.id → t.clash columns r s = false)
    (hrows : ∀ s ∈ rows, s = r ∨ s ∈ t.rows ∧ s.id ≠ r.id) :
    { t with rows := rows, last := last : Table }.Keyed := by
  refine h.withRows last hascending (fun s hs ↦ ?_) fun columns hcolumns s hs s' hs' hne ↦ ?_
  · rcases hrows s hs with rfl | ⟨hs, -⟩
    · exact hfits
    · exact h.fits hs
  · rcases hrows s hs with rfl | ⟨hs, hid⟩ <;> rcases hrows s' hs' with rfl | ⟨hs', hid'⟩
    · exact absurd rfl hne
    · exact hclash columns hcolumns s' hs' hid'
    · rw [clash_comm]
      exact hclash columns hcolumns s hs hid
    · exact h.unique columns hcolumns s hs s' hs' hne

theorem Keyed.insert (h : t.Keyed) (hvalues : ∀ x ∈ values, Settable x)
    (hinsert : t.insert named values = .ok (t', id)) : t'.Keyed := by
  obtain ⟨-, hid, -, hunique, rfl⟩ := insert_eq_ok.mp hinsert
  have hnext : t.nextId = .ok id := by
    unfold idFor at hid
    rwa [h.given_rowColumn hvalues] at hid
  obtain ⟨hnew, hclash⟩ := checkUnique_eq_ok.mp hunique
  have hfits := h.fits_newRow hvalues (nextId_eq_ok hnext).1
  refine h.withRowAmong _ (pairwise_insertRow h.ascending hnew) hfits
    (fun columns hcolumns s hs _ ↦ hclash columns hcolumns s hs) fun s hs ↦ ?_
  exact (mem_insertRow.mp hs).imp_right fun hs ↦ ⟨hs, hnew s hs⟩

/-- The number of a row that an update has changed is the one it had. -/
theorem Keyed.idAfter_eq (h : t.Keyed) (hsets : ∀ x ∈ sets, Settable x) {new : Int64}
    (hnew : t.idAfter sets id = .ok new) :
    new = id := by
  unfold idAfter at hnew
  rw [h.given_rowColumn fun x hx ↦ hsets x (List.mem_reverse.mp hx)] at hnew
  exact (Except.ok.inj hnew).symm

theorem Keyed.update (h : t.Keyed) (hsets : ∀ x ∈ sets, Settable x)
    (hupdate : t.update sets id = .ok (t', count)) :
    t'.Keyed := by
  obtain ⟨-, ⟨-, rfl, -⟩ | ⟨old, new, htarget, hnew, -, hunique, rfl, -⟩⟩ := update_eq_ok.mp hupdate
  · exact h
  obtain rfl := h.idAfter_eq hsets hnew
  obtain ⟨hold, rfl⟩ := row?_eq_some (target_eq_some htarget)
  obtain ⟨-, hclash⟩ := checkUnique_eq_ok.mp hunique
  have hid (s : StoredRow) :
      (if s.id == old.id then t.changedRow sets old old.id else s).id = s.id := by
    split
    · next heq => exact (beq_iff_eq.mp heq).symm
    · rfl
  unfold withChanged
  rw [if_pos (show (t.changedRow sets old old.id).id = old.id from rfl)]
  refine h.withRowAmong t.last ?_ (h.fits_changedRow hsets hold)
    (fun columns hcolumns s hs hne ↦ ?_) fun s hs ↦ ?_
  · rw [List.pairwise_map]
    exact h.ascending.imp fun {r s} hlt ↦ by rwa [hid, hid]
  · exact hclash columns hcolumns s (List.mem_filter.mpr ⟨hs, bne_iff_ne.mpr hne⟩)
  · obtain ⟨r, hr, rfl⟩ := List.mem_map.mp hs
    split
    · exact .inl rfl
    · next hne => exact .inr ⟨hr, fun heq ↦ hne (beq_iff_eq.mpr heq)⟩

theorem Keyed.delete (h : t.Keyed) (keys : List (String × Int64)) : (t.delete keys).1.Keyed := by
  have hmem {r : StoredRow} (hr : r ∈ (t.delete keys).1.rows) :
    r ∈ t.rows := (List.mem_filter.mp hr).1
  exact h.withRows t.last (h.ascending.filter _)
      (fun r hr ↦ h.fits (hmem hr)) fun columns hcolumns r hr s hs ↦
    h.unique columns hcolumns r (hmem hr) s (hmem hs)

theorem Keyed.becomes (h : t.Keyed) {statement : Statement} (hplain : statement.Plain)
    (hbecomes : t.Becomes statement t') : t'.Keyed := by
  cases statement with
  | insert named values =>
    obtain ⟨id, hinsert⟩ := hbecomes
    exact h.insert hplain hinsert
  | update named sets id =>
    obtain ⟨count, hupdate⟩ := hbecomes
    exact h.update hplain hupdate
  | delete named keys =>
    obtain rfl := hbecomes
    exact h.delete keys

theorem hasColumn_of_mem {c : Column} (hc : c ∈ t.columns) : t.hasColumn c.name := by
  refine Bool.or_eq_true_iff.mpr (.inr (List.find?_isSome.mpr ⟨c, hc, ?_⟩))
  exact sameName_iff.mpr rfl

/-- A new column is empty in every row, so that no cell changes. -/
theorem Keyed.cellOf_append (h : t.Keyed) {c : Column}
    (hnew : t.hasColumn c.name = false) (hr : r ∈ t.rows)
    (foreign : List ForeignKey) (name : String) :
    { t with columns := t.columns ++ [c], foreign := foreign : Table }.cellOf r name =
      t.cellOf r name := by
  have hnull : r.cell c.name = .null := by
    refine (r.cell_cases c.name).resolve_right fun hcell ↦ ?_
    obtain ⟨d, hd, hname⟩ := h.known r hr _ hcell
    rw [← show d.name = c.name from hname, hasColumn_of_mem hd] at hnew
    cases hnew
  unfold cellOf isRowColumn column?
  rw [List.find?_append]
  cases t.columns.find? fun d ↦ sameName d.name name with
  | some d => rfl
  | none =>
    rw [Option.none_or, List.find?_singleton]
    cases sameName c.name name
    · rfl
    · simp only [if_true, hnull]

theorem Keyed.addColumn (h : t.Keyed) {c : ColumnSpec} (hc : c.Plain) {foreign : List ForeignKey}
    (hadd : t.addColumn c.column foreign = .ok t') : t'.Keyed := by
  obtain ⟨hnew, rfl⟩ := addColumn_eq_ok.mp hadd
  have hcolumn {d : Column} (hd : d ∈ t.columns ++ [c.column]) : d ∈ t.columns ∨ d = c.column := by
    simpa using hd
  refine ⟨h.rowColumn, fun d hd ↦ ?_, fun d hd ↦ ?_, fun r hr x hx ↦ ?_, h.cells,
    h.ascending, h.positive, ?_⟩
  · rcases hcolumn hd with hd | rfl
    · exact h.other d hd
    · exact hc.other
  · rcases hcolumn hd with hd | rfl
    · exact h.integer d hd
    · exact hc.integer
  · obtain ⟨d, hd, hname⟩ := h.known r hr x hx
    exact ⟨d, List.mem_append_left _ hd, hname⟩
  · intro columns hcolumns r hr s hs hne
    have hsame := h.unique columns hcolumns r hr s hs hne
    unfold clash at hsame ⊢
    simpa only [h.cellOf_append hnew hr, h.cellOf_append hnew hs] using hsame

end Table

theorem TableSpec.keyed_table {spec : TableSpec} (h : ∀ c ∈ spec.columns, c.Plain) :
    spec.table.Keyed where
  rowColumn := by
    unfold TableSpec.table
    cases spec.counted
    · exact .inl rfl
    · exact .inr rfl
  other d hd := by
    obtain ⟨c, hc, rfl⟩ := List.mem_map.mp hd
    exact (h c hc).other
  integer d hd := by
    obtain ⟨c, hc, rfl⟩ := List.mem_map.mp hd
    exact (h c hc).integer
  known := nofun
  cells := nofun
  ascending := .nil
  positive _ := nofun
  unique _ _ := nofun

/-! ### Stores -/

namespace Store

variable {s s' : Store} {statement : Statement} {effect : Effect} {d : Definition}

theorem Keyed.setTable (h : s.Keyed) {t : Table} (ht : t.Keyed) : (s.setTable t).Keyed := by
  intro u hu
  obtain ⟨v, hv, rfl⟩ := List.mem_map.mp hu
  split
  · exact ht
  · exact h v hv

theorem Keyed.run (h : s.Keyed) (hplain : statement.Plain) (hrun : s.run statement = .ok effect) :
    effect.store.Keyed := by
  obtain ⟨t, t', htable, hbecomes, hstore⟩ := run_cases hrun
  rw [hstore]
  exact h.setTable ((h.table? htable).becomes hplain hbecomes)

theorem Keyed.define (h : s.Keyed) (hplain : d.Plain) (hdefine : s.define d = .ok s') :
    s'.Keyed := by
  rcases define_cases hdefine with
    ⟨spec, rfl, ⟨-, rfl⟩ | ⟨-, rfl⟩⟩ | ⟨table, c, t, t', rfl, htable, hadd, rfl⟩
  · exact h
  · intro t ht
    rcases List.mem_append.mp ht with ht | ht
    · exact h t ht
    · obtain rfl := List.mem_singleton.mp ht
      exact TableSpec.keyed_table hplain
  · exact h.setTable ((h.table? htable).addColumn hplain hadd)

end Store

end EntityStore
