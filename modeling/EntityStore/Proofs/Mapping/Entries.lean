import EntityStore.Proofs.Mapping.Batch
import EntityStore.Proofs.Mapping.Rows
import EntityStore.Proofs.Mapping.Whole
import EntityStore.Proofs.Query.Distinct

/-!
What a row holds that a query answers: every name once, under the names of the selected fields the
values of its record, and under the name of each selected relation the rows of just this relation,
with the filter, the page and the selection that stand at it (`read_selected`).
-/

set_option autoImplicit false

namespace EntityStore

open Query (HasField Leads Tree)

namespace Mapping

/-! ### What a row has to hold -/

/-- Whether more than one link of a linked relation starts at a row. -/
def Several (store : Store) (entity : String) (r : Query.Relation) (a : Record) : Prop :=
  ¬r.isParent ∧ r.kind = .linked ∧
    1 < (store.records (linkTableName entity r.name)).countP
      fun l ↦ l.cell ownerColumn == .integer a.row.id

/-- What stands on a page, counted from a position. -/
def PageBounds.cut {α : Type} (b : PageBounds) : Nat → List α → List α
  | _, [] => []
  | n, x :: xs => if onPage b n then x :: b.cut (n + 1) xs else b.cut (n + 1) xs

/-- The rows that a level lists: all that its filter is true of, in their order, or those on its
page. The owners of a scope have pages of their own, so there is one owner at most. -/
def listed (store : Store) (bindings : Query.Bindings) (t : Tree) (scope : Option Scope)
    (page : Option PageBounds) : List Found :=
  match scope, page with
  | some _, some b => b.cut 0 (shown store bindings t scope page)
  | _, _ => shown store bindings t scope page

section

variable (store : Store) (bindings : Query.Bindings)

mutual

/-- A row holds what a level selects of a record: names of the selection only, none of them twice,
the number of the record, under the names of the fields their values, and under those of the
relations their rows. -/
inductive Selected : Tree → Record → Row → Prop where
  | node {level : Query.Level} {relations : List (Query.Relation × Tree)} {a : Record} {row : Row}
    (distinct : (row.map Prod.fst).Nodup)
    (known : ∀ name ∈ row.map Prod.fst, name = idName ∨ name ∈ level.fields.map (·.name) ∨
      name ∈ relations.map fun x ↦ x.1.name)
    (number : row.id? = some a.row.id)
    (fields : ∀ f ∈ level.fields, ∃ v, f.type.readCell (a.cell f.name) = .ok v ∧
      row.get? f.name = some (.value v))
    (related : ∀ r t, (r, t) ∈ relations → SelectedRelation level.entity r t a row) :
    Selected (.node level relations) a row

/-- A row holds what a relation leads to from its record: the row of a related record that the
filter of the relation is true of, or none if there is no such record; all rows of a relation to
many rows, in their order or those of them on its page. Where several links start at a record, a row
is left out that only some of them lead to. -/
inductive SelectedRelation : String → Query.Relation → Tree → Record → Row → Prop where
  | one {entity : String} {r : Query.Relation} {t : Tree} {a c : Record}
    {row inner : Row} (single : ¬r.many) (entry : row.get? r.name = some (.one inner))
    (record : c ∈ store.records t.level.entity) (leads : store.leads entity r.name r.kind a c)
    (passes : passes store bindings t.level.filter c) (selected : Selected t c inner) :
    SelectedRelation entity r t a row
  | absent {entity : String} {r : Query.Relation} {t : Tree} {a : Record}
    {row : Row} (single : ¬r.many) (entry : row.get? r.name = none)
    (lacks : ∀ c ∈ store.records t.level.entity, store.leads entity r.name r.kind a c →
      passes store bindings t.level.filter c → Several store entity r a) :
      SelectedRelation entity r t a row
  | many {entity : String} {r : Query.Relation} {t : Tree} {a : Record} {row : Row}
    {page : Option PageBounds} {rows : List Row} (many : r.many)
    (entry : row.get? r.name = some (.many rows)) (paged : pageBounds bindings t.level = .ok page)
    (selected : SelectedRows t (listed store bindings t (some ⟨entity, r, [a.row.id]⟩) page) rows) :
    SelectedRelation entity r t a row

/-- Rows that hold, in their order, what a level selects of the records it lists. -/
inductive SelectedRows : Tree → List Found → List Row → Prop where
  | nil {t : Tree} : SelectedRows t [] []
  | cons {t : Tree} {f : Found} {fs : List Found} {row : Row} {rows : List Row}
    (first : Selected t f.row row) (rest : SelectedRows t fs rows) :
    SelectedRows t (f :: fs) (row :: rows)

end

end

variable {store : Store} {bindings : Query.Bindings} {s : Schema} {e : Entity}
  {entity name : String} {r : Query.Relation} {t : Tree} {a c : Record} {row related : Row}
  {relations : List (Query.Relation × Tree)} {notes : List Query.Note} {cells : List Cell}

theorem selectedRows_iff {fs : List Found} {rows : List Row} :
    SelectedRows store bindings t fs rows ↔
    List.Forall₂ (fun f row ↦ Selected store bindings t f.row row) fs rows := by
  constructor
  · intro h
    induction fs generalizing rows with
    | nil =>
      cases h
      exact .nil
    | cons f fs ih =>
      cases h with
      | cons first rest => exact .cons first (ih rest)
  · intro h
    induction h with
    | nil => exact .nil
    | cons first _ ih => exact .cons first ih

/-! ### The rows that a single relation finds -/

theorem cell_id_of_has (h : store.Keyed) (hhas : store.Has entity idName)
    (ha : a ∈ store.records entity) :
    a.cell idName = .integer a.row.id := by
  obtain ⟨htable, -⟩ := mem_records.mp ha
  have hcolumn : a.table.column? idName = none := by
    refine List.find?_eq_none.mpr fun c hc ↦ ?_
    rw [(h.record ha).table.other c hc]
    exact Bool.false_ne_true
  unfold Store.Has at hhas
  rw [htable, Option.any_some, Table.hasColumn, hcolumn, Option.isSome_none, Bool.or_false] at hhas
  rw [Record.cell, Table.cellOf, if_pos hhas]

theorem joinedRows_absent {table : String} {fits : Record → Bool}
    (h : none ∈ store.joinedRows table fits) :
    ∀ c ∈ store.records table, ¬fits c := by
  unfold Store.joinedRows at h
  split at h
  · contradiction
  · split at h
    · next hempty =>
      intro c hc
      exact List.filter_eq_nil_iff.mp hempty c ((Store.considered_perm store table).mem_iff.mpr hc)
    · obtain ⟨c, -, hnone⟩ := List.mem_map.mp h
      cases hnone

theorem joinedRows_some {table : String} {fits : Record → Bool}
    (h : some c ∈ store.joinedRows table fits) :
    c ∈ store.records table ∧ fits c := by
  obtain hnone | ⟨c', hc', hfits, heq⟩ := Store.joinedRows_mem h
  · cases hnone
  · cases heq
    exact ⟨hc', hfits⟩

/-- What a join of a single relation fits: a row that its filter is true of and whose column holds
the number that stands in the other column. -/
theorem fits_iff (h : store.Keyed) {child : Query.Level}
    (hc : c ∈ store.records child.entity) {x : Option Record} (hx : Record.KeyedIf x)
    {column other : String} (hcolumn : column ∈ Record.names) (hother : other ∈ Record.names) :
    (Record.meet (some c) column x other && passes store bindings child.filter c) = true ↔
      (∃ n, c.cell column = .integer n ∧ Record.cell? x other = .integer n) ∧
        passes store bindings child.filter c := by
  have hmeet := Record.meet_iff (a :=
    some c) (fun _ heq ↦ Option.some.inj heq ▸ h.record hc) hx hcolumn hother
  rw [Bool.and_eq_true, hmeet]
  rfl

/-- A row that the joins of a single relation find is one that the relation leads to and its filter
is true of. -/
theorem singleRows_found (h : store.Keyed) {child : Query.Level} (ha : a.Keyed)
    (hc : some c ∈ singleRows store bindings entity r child (some a)) :
      c ∈ store.records child.entity ∧ store.leads entity r.name r.kind a c ∧
      passes store bindings child.filter c := by
  have hkeyed : Record.KeyedIf (some a) := fun _ heq ↦ Option.some.inj heq ▸ ha
  have hid : idName ∈ Record.names := by decide
  have hback : parentName ∈ Record.names := by decide
  suffices hby : c ∈ store.records child.entity ∧ store.LeadsBy entity r.name r.kind (some a) c ∧
      passes store bindings child.filter c from
    ⟨hby.1, (h.leads_iff ha (h.record hby.1)).mpr hby.2.1, hby.2.2⟩
  unfold singleRows at hc
  unfold Store.LeadsBy
  dsimp only at hc
  split at hc
  · next hparent =>
    obtain ⟨hrecord, hfits⟩ := joinedRows_some hc
    rw [if_pos (show (r.name == parentName) = true from hparent)]
    exact ⟨hrecord, (fits_iff h hrecord hkeyed hid hback).mp hfits⟩
  · next hparent =>
    rw [if_neg (show ¬(r.name == parentName) = true from hparent)]
    cases hkind : r.kind with
    | owned =>
      rw [hkind] at hc
      obtain ⟨hrecord, hfits⟩ := joinedRows_some hc
      exact ⟨hrecord, (fits_iff h hrecord hkeyed hback hid).mp hfits⟩
    | linked =>
      rw [hkind] at hc
      obtain ⟨l, hl, hc⟩ := List.mem_flatMap.mp hc
      obtain ⟨hrecord, hfits⟩ := joinedRows_some hc
      obtain ⟨⟨n, hn, htarget⟩, hpasses⟩ :=
        (fits_iff h hrecord (h.joinedRows hl) hid (by decide)).mp hfits
      cases l with
      | none => cases htarget
      | some l =>
        obtain ⟨hlink, hmeet⟩ := joinedRows_some hl
        have howner := (Record.meet_iff (h.joinedRows hl) hkeyed (by decide) hid).mp hmeet
        exact ⟨hrecord, ⟨l, hlink, ⟨n, hn, htarget⟩, howner⟩, hpasses⟩

/-- Where the joins of a single relation find no row, the relation leads to none that its filter is
true of, but for rows that only some of several links lead to. -/
theorem singleRows_absent (h : store.Keyed) {child : Query.Level} (ha : a.Keyed)
    (hnone : none ∈ singleRows store bindings entity r child (some a)) {c : Record}
    (hc : c ∈ store.records child.entity) (hleads : store.leads entity r.name r.kind a c)
    (hpasses : passes store bindings child.filter c) : Several store entity r a := by
  have hkeyed : Record.KeyedIf (some a) := fun _ heq ↦ Option.some.inj heq ▸ ha
  have hid : idName ∈ Record.names := by decide
  have hback : parentName ∈ Record.names := by decide
  have howner : ownerColumn ∈ Record.names := by decide
  rw [h.leads_iff ha (h.record hc)] at hleads
  unfold singleRows at hnone
  unfold Store.LeadsBy at hleads
  dsimp only at hnone
  split at hnone
  · next hparent =>
    rw [if_pos (show (r.name == parentName) = true from hparent)] at hleads
    exact absurd ((fits_iff h hc hkeyed hid hback).mpr ⟨hleads, hpasses⟩)
      (joinedRows_absent hnone c hc)
  · next hparent =>
    rw [if_neg (show ¬(r.name == parentName) = true from hparent)] at hleads
    cases hkind : r.kind with
    | owned =>
      rw [hkind] at hnone hleads
      exact absurd ((fits_iff h hc hkeyed hback hid).mpr ⟨hleads, hpasses⟩)
        (joinedRows_absent hnone c hc)
    | linked =>
      rw [hkind] at hnone hleads
      obtain ⟨l, hl, hleft⟩ := List.mem_flatMap.mp hnone
      obtain ⟨k, hk, htarget, n, hn, han⟩ := hleads
      have hkkeyed : Record.KeyedIf (some k) := fun _ heq ↦ Option.some.inj heq ▸ h.record hk
      have hkmeet : Record.meet (some k) ownerColumn (some a) idName :=
        (Record.meet_iff hkkeyed hkeyed howner hid).mpr ⟨n, hn, han⟩
      have hcell : a.row.id = n := (ha.row_id han).symm
      cases l with
      | none => exact absurd hkmeet (joinedRows_absent hl k hk)
      | some l =>
        obtain ⟨hlink, hmeet⟩ := joinedRows_some hl
        obtain ⟨m, hm, ham⟩ := (Record.meet_iff (h.joinedRows hl) hkeyed howner hid).mp hmeet
        refine ⟨hparent, hkind, ?_⟩
        by_contra hfew
        -- the link that no row fits is not the one that leads to the row
        have hsame : l = k := by
          refine Store.eq_of_countP_le_one (Nat.le_of_not_lt hfew) hlink hk ?_ ?_
          · rw [ha.row_id ham] at hm
            exact beq_iff_eq.mpr hm
          · rw [← hcell] at hn
            exact beq_iff_eq.mpr hn
        subst hsame
        exact absurd ((fits_iff h hc (h.joinedRows hl) hid (by decide)).mpr ⟨htarget, hpasses⟩)
          (joinedRows_absent hleft c hc)

/-! ### The names of a row -/

theorem get?_isSome_iff : (row.get? name).isSome ↔ name ∈ row.map Prod.fst := by
  induction row with
  | nil => exact iff_of_false nofun nofun
  | cons x row ih =>
    rw [Row.get?_cons, List.map_cons, List.mem_cons, ← ih]
    by_cases heq : x.1 = name
    · simp [heq]
    · simp [heq, Ne.symm heq]

theorem modify_names (name : String) (f : Data → Data) (row : Row) :
    (row.modify name f).map Prod.fst = row.map Prod.fst := by
  induction row with
  | nil => rfl
  | cons x row ih =>
    unfold Row.modify
    split
    · rfl
    · exact congrArg (x.1 :: ·) ih

/-- Completing a row gives it no names if the relations to many rows have their entries. -/
theorem completed_names (hmany : ∀ r t, (r, t) ∈ relations → r.many → r.name ∈ row.map Prod.fst) :
    (completed store bindings entity relations row).map Prod.fst = row.map Prod.fst := by
  induction relations generalizing row with
  | nil => rfl
  | cons x rest ih =>
    obtain ⟨r, t⟩ := x
    have hfirst : (completedBy store bindings entity r t row).map Prod.fst = row.map Prod.fst := by
      by_cases hr : r.many
      · cases hid : row.id? with
        | none =>
          cases t
          rw [completedBy, if_pos hr, hid]
        | some id =>
          rw [completedBy_many hr hid, Row.set,
            if_pos (get?_isSome_iff.mpr (hmany r t List.mem_cons_self hr))]
          exact modify_names _ _ row
      · rw [completedBy_single hr]
        exact modify_names _ _ row
    unfold completed
    rw [ih fun r' t' hmem hr' ↦ hfirst ▸ hmany r' t' (List.mem_cons_of_mem _ hmem) hr', hfirst]

/-- Under the name of a single relation stands, completed, the row that stood there. -/
theorem completed_one (hnames : (relations.map fun x ↦ x.1.name).Nodup) (hmem : (r, t) ∈ relations)
    (hsingle : ¬r.many) (row : Row) : (completed store bindings entity relations row).get? r.name =
      (row.get? r.name).map
        (Data.mapOne (completed store bindings t.level.entity t.relations)) := by
  induction relations generalizing row with
  | nil => contradiction
  | cons x rest ih =>
    obtain ⟨q, u⟩ := x
    rw [List.map_cons, List.nodup_cons] at hnames
    unfold completed
    rcases List.mem_cons.mp hmem with heq | hmem
    · cases heq
      have hother : ∀ x ∈ rest, x.1.name ≠ r.name :=
        fun x hx heq ↦ hnames.1 (List.mem_map.mpr ⟨x, hx, heq⟩)
      rw [completed_get? hother, completedBy_single hsingle, Row.get?_modify, if_pos rfl]
    · have hother : q.name ≠ r.name := fun heq ↦ hnames.1 (List.mem_map.mpr ⟨_, hmem, heq.symm⟩)
      rw [ih hnames.2 hmem, completedBy_get? store bindings entity u hother]

/-! ### Related rows as they are assembled -/

/-- Related rows have the names of their relations, in their order. -/
theorem assembleRelations_names (h : assembleRelations relations cells = .ok related) :
    (related.map Prod.fst).Sublist (relations.map fun x ↦ x.1.name) := by
  induction relations generalizing cells related with
  | nil =>
    cases h
    exact .slnil
  | cons x rest ih =>
    obtain ⟨r, t⟩ := x
    unfold assembleRelations at h
    split at h
    · obtain ⟨others, hothers, h⟩ := Except.bind_eq_ok.mp h
      cases h
      exact (ih hothers).cons_cons _
    · obtain ⟨inner, -, h⟩ := Except.bind_eq_ok.mp h
      obtain ⟨others, hothers, h⟩ := Except.bind_eq_ok.mp h
      cases h
      cases inner with
      | none => exact (ih hothers).cons _
      | some row => exact (ih hothers).cons_cons _

theorem assembleRelations_get?_eq_none (h : assembleRelations relations cells = .ok related)
    (hname : ∀ x ∈ relations, x.1.name ≠ name) : related.get? name = none := by
  by_contra hsome
  have hin : name ∈ related.map Prod.fst := get?_isSome_iff.mp (Option.isSome_iff_ne_none.mpr hsome)
  obtain ⟨x, hx, heq⟩ := List.mem_map.mp ((assembleRelations_names h).subset hin)
  exact hname x hx heq

/-- A relation to many rows has an entry from the start. -/
theorem assembleRelations_many (h : assembleRelations relations cells = .ok related)
    (hmem : (r, t) ∈ relations) (hmany : r.many) : r.name ∈ related.map Prod.fst := by
  induction relations generalizing cells related with
  | nil => contradiction
  | cons x rest ih =>
    obtain ⟨q, u⟩ := x
    unfold assembleRelations at h
    split at h
    · obtain ⟨others, hothers, h⟩ := Except.bind_eq_ok.mp h
      cases h
      rcases List.mem_cons.mp hmem with heq | hmem
      · cases heq
        exact List.mem_cons_self
      · exact List.mem_cons_of_mem _ (ih hothers hmem)
    · next hsingle =>
      obtain ⟨inner, -, h⟩ := Except.bind_eq_ok.mp h
      obtain ⟨others, hothers, h⟩ := Except.bind_eq_ok.mp h
      cases h
      rcases List.mem_cons.mp hmem with heq | hmem
      · cases heq
        exact absurd hmany hsingle
      · rw [List.map_append]
        exact List.mem_append_right _ (ih hothers hmem)

/-- The entry of a single relation, which is there if a row was found. -/
theorem get?_single (entry name : String) (inner : Option Row) :
    Row.get? (inner.map fun row ↦ (entry, Data.one row)).toList name =
      if entry = name then inner.map Data.one else none := by
  cases inner with
  | none => split <;> rfl
  | some row =>
    rw [Option.map_some, Option.toList_some, Row.get?_cons, Row.get?_nil, Option.map_some]

/-- Under the name of a single relation stands the row assembled from what its joins found. -/
theorem assembleRelations_one (hnames : (relations.map fun x ↦ x.1.name).Nodup)
    (hmem : (r, t) ∈ relations) (hsingle : ¬r.many) {depth : Nat} {v : View} {rest : List Cell}
    (hv : v ∈ relationViews store bindings depth entity relations (some a))
    (h : assembleRelations relations (v.cells ++ rest) = .ok related) :
    ∃ c ∈ singleRows store bindings entity r t.level (some a),
      ∃ w ∈ views store bindings (depth + 1) t c, ∃ rest' inner, assemble t (w.cells ++ rest') =
        .ok inner ∧ related.get? r.name = inner.map Data.one := by
  induction relations generalizing v related with
  | nil => contradiction
  | cons x others ih =>
    obtain ⟨q, u⟩ := x
    rw [List.map_cons, List.nodup_cons] at hnames
    unfold relationViews at hv
    unfold assembleRelations at h
    split at hv
    · next hmany =>
      rw [if_pos hmany] at h
      obtain ⟨tail, htail, h⟩ := Except.bind_eq_ok.mp h
      cases h
      rcases List.mem_cons.mp hmem with heq | hmem
      · cases heq
        exact absurd hmany hsingle
      · have hother : q.name ≠ r.name := fun heq ↦ hnames.1 (List.mem_map.mpr ⟨_, hmem, heq.symm⟩)
        rw [Row.get?_cons, if_neg hother]
        exact ih hnames.2 hmem hv htail
    · next hone =>
      rw [if_neg hone] at h
      obtain ⟨c, hc, hv⟩ := List.mem_flatMap.mp hv
      obtain ⟨w, hw, hv⟩ := List.mem_flatMap.mp hv
      obtain ⟨x, hx, rfl⟩ := List.mem_map.mp hv
      obtain ⟨inner, hinner, h⟩ := Except.bind_eq_ok.mp h
      obtain ⟨tail, htail, h⟩ := Except.bind_eq_ok.mp h
      cases h
      rw [View.append, List.append_assoc] at hinner htail
      rw [← views_wide u hw, List.drop_left] at htail
      rw [Row.get?_append]
      rcases List.mem_cons.mp hmem with heq | hmem
      · cases heq
        have hnone : tail.get? r.name = none :=
          assembleRelations_get?_eq_none htail fun x hx heq ↦ hnames.1
            (List.mem_map.mpr ⟨x, hx, heq⟩)
        exact ⟨c, hc, w, hw, _, inner, hinner, by
          rw [hnone, Option.or_none, get?_single, if_pos rfl]⟩
      · have hother : q.name ≠ r.name := fun heq ↦ hnames.1 (List.mem_map.mpr ⟨_, hmem, heq.symm⟩)
        rw [get?_single, if_neg hother, Option.none_or]
        exact ih hnames.2 hmem hx htail

/-! ### The fields of a row -/

theorem entries_names {fields : List Query.SelectedField} {own : Row}
    (h : fields.mapM (entryOf a) = .ok own) :
    own.map Prod.fst = fields.map (·.name) := by
  have hall := Except.mapM_eq_ok.mp h
  clear h
  induction hall with
  | nil => rfl
  | cons hx _ ih =>
    obtain ⟨v, -, hv⟩ := Except.bind_eq_ok.mp hx
    cases hv
    exact congrArg _ ih

theorem entries_mem {fields : List Query.SelectedField} {own : Row}
    (h : fields.mapM (entryOf a) = .ok own) {f : Query.SelectedField} (hf : f ∈ fields) :
    ∃ v, f.type.readCell (a.cell f.name) = .ok v ∧ (f.name, .value v) ∈ own := by
  obtain ⟨x, hx, hentry⟩ := List.forall₂_exists_left (Except.mapM_eq_ok.mp h) f hf
  obtain ⟨v, hv, heq⟩ := Except.bind_eq_ok.mp hentry
  cases heq
  exact ⟨v, hv, hx⟩

/-- The row that a level's cells assemble to, in its parts. -/
theorem assemble_view {level : Query.Level} {depth : Nat} {v : View} {rest : List Cell}
    (hid : a.cell idName = .integer a.row.id)
    (hv : v ∈ views store bindings depth (.node level relations) (some a))
    (h : assemble (.node level relations) (v.cells ++ rest) = .ok (some row)) :
    ∃ w ∈ relationViews store bindings depth level.entity relations (some a), ∃ own related,
      (Plan.ownFields level).mapM (entryOf a) = .ok own ∧
        assembleRelations relations (w.cells ++ rest) = .ok related ∧
        row = (idName, .value (.long a.row.id)) :: own ++ related := by
  unfold views at hv
  obtain ⟨w, hw, rfl⟩ := List.mem_map.mp hv
  obtain ⟨id, cells, own, related, hcells, hown, hrelated, rfl⟩ := assemble_node h
  obtain ⟨hcell, rfl⟩ := List.cons.inj hcells
  obtain rfl : a.row.id = id := Cell.integer.inj (hid.symm.trans hcell)
  change readFields (Plan.ownFields level)
    ((((Plan.ownFields level).map fun f ↦ a.cell f.name) ++ w.cells) ++ rest) = .ok own at hown
  change assembleRelations relations
    (((((Plan.ownFields level).map fun f ↦ a.cell f.name) ++ w.cells) ++ rest).drop
    (Plan.ownFields level).length) = .ok related at hrelated
  rw [List.append_assoc, readFields_map] at hown
  rw [List.append_assoc, List.drop_left' (List.length_map _)] at hrelated
  exact ⟨w, hw, own, related, hown, hrelated, rfl⟩

/-! ### What a row holds -/

/-- The row of a record that was found holds, when it is complete, what its level selects. -/
def Selects (store : Store) (bindings : Query.Bindings) (t : Tree) : Prop :=
  ∀ {a : Record} {depth : Nat} {v : View} {rest : List Cell} {row : Row},
    a ∈ store.records t.level.entity → t.Served store bindings →
      v ∈ views store bindings depth t (some a) → assemble t (v.cells ++ rest) = .ok (some row) →
        Complete store bindings t (completed store bindings t.level.entity t.relations row) →
          Selected store bindings t a (completed store bindings t.level.entity t.relations row)

/-- What is listed for one owner stands in the same places as the rows on its page. -/
theorem cut_forall₂ {R : Found → OwnedRow → Prop} {fs : List Found} {rows : List OwnedRow}
    (h : List.Forall₂ R fs rows) {id : Int64} (hown : ∀ c ∈ rows, c.1 = id) (b : PageBounds)
    (before : List Int64) :
    List.Forall₂ R (b.cut (before.count id) fs) (pagePerOwner b before rows) := by
  induction h generalizing before with
  | nil => exact .nil
  | @cons f c fs rows hfc _ ih =>
    obtain ⟨hc, hrows⟩ := List.forall_mem_cons.mp hown
    obtain ⟨owner, row⟩ := c
    obtain rfl : owner = id := hc
    have hrest := ih hrows (owner :: before)
    rw [List.count_cons_self] at hrest
    unfold PageBounds.cut pagePerOwner
    dsimp only
    split
    · exact .cons hfc hrest
    · exact hrest

theorem filterMap_forall₂ {α β : Type} {R : α → Option β → Prop} {xs : List α}
    {os : List (Option β)} (h : List.Forall₂ R xs os) (hsome : ∀ x ∈ xs, ¬R x none) :
    List.Forall₂ (fun x y ↦ R x (some y)) xs (os.filterMap id) := by
  induction h with
  | nil => exact .nil
  | @cons x o xs os hxo _ ih =>
    obtain ⟨hx, hxs⟩ := List.forall_mem_cons.mp hsome
    cases o with
    | none => exact absurd hxo hx
    | some y => exact .cons hxo (ih hxs)

theorem assemble_isSome {level : Query.Level} {id : Int64} {rest : List Cell} {o : Option Row}
    (h : assemble (.node level relations) (.integer id :: rest) = .ok o) : o.isSome := by
  obtain ⟨own, -, h⟩ := Except.bind_eq_ok.mp h
  obtain ⟨related, -, h⟩ := Except.bind_eq_ok.mp h
  cases h
  rfl

/-- The cells of a record that is there assemble to a row. -/
theorem assemble_view_isSome {depth : Nat} {v : View} {rest : List Cell} {o : Option Row}
    (hid : a.cell idName = .integer a.row.id) (hv : v ∈ views store bindings depth t (some a))
    (h : assemble t (v.cells ++ rest) = .ok o) : o.isSome := by
  obtain ⟨level, relations⟩ := t
  unfold views at hv
  obtain ⟨w, -, rfl⟩ := List.mem_map.mp hv
  have hcells : ((View.ofLevel level depth (some a)).append w).cells ++ rest = .integer a.row.id ::
      (((Plan.ownFields level).map fun f ↦ a.cell f.name) ++ w.cells ++ rest) := by
    rw [← hid]
    rfl
  rw [hcells] at h
  exact assemble_isSome h

/-- Reading a level answers the rows of all records that its statement shows, but for those on other
pages. -/
theorem levelRows_shown (hstore : store.Keyed) (hhas : store.Has t.level.entity idName)
    {scope : Option Scope} {page : Option PageBounds} {rows : List OwnedRow}
    (h : levelRows store bindings t scope page = .ok rows) :
    ∃ all, rows = onPages scope page all ∧
      List.Forall₂ (fun f c ↦ f ∈ found store bindings t scope ∧
          record t (f.cells scope) = .ok (some c))
        (shown store bindings t scope page) all := by
  obtain ⟨records, hrecords, heq⟩ := Except.bind_eq_ok.mp h
  cases heq
  have hall :=
    (List.forall₂_and_left _ _).mpr ⟨fun f hf ↦ mem_shown hf, Except.mapM_eq_ok.mp hrecords⟩
  refine ⟨_, rfl, filterMap_forall₂ hall fun f _ ⟨hf, hnone⟩ ↦ ?_⟩
  obtain ⟨hin, -, -, hview⟩ := mem_found hf
  obtain ⟨o, ho, heq⟩ := Except.bind_eq_ok.mp hnone
  have hsome :=
    assemble_view_isSome (cell_id_of_has hstore hhas (scopeRows_keyed hstore hin).1) hview ho
  cases o with
  | none => cases hsome
  | some row => cases heq

/-- The rows that reading a level answers for one owner at most, before its lists are read, are
those of what the level lists. -/
theorem levelRows_listed (hstore : store.Keyed) (hhas : store.Has t.level.entity idName)
    {scope : Option Scope} (hone : ∀ s, scope = some s → ∃ id, s.owners = [id])
    {page : Option PageBounds} {rows : List OwnedRow}
    (h : levelRows store bindings t scope page = .ok rows) :
    List.Forall₂ (fun f c ↦ f ∈ found store bindings t scope ∧
        record t (f.cells scope) = .ok (some c))
      (listed store bindings t scope page) rows := by
  obtain ⟨all, rfl, hrows⟩ := levelRows_shown hstore hhas h
  unfold listed onPages
  cases scope with
  | none => exact hrows
  | some s =>
    cases page with
    | none => exact hrows
    | some b =>
      obtain ⟨owner, honly⟩ := hone s rfl
      have hown : ∀ c ∈ all, c.1 = owner := by
        intro c hc
        obtain ⟨f, -, hf, hrecord⟩ := List.forall₂_exists_right hrows c hc
        obtain ⟨n, hn, -, howner⟩ := record_owner hstore hf
        rw [honly, List.mem_singleton] at hn
        rw [howner c hrecord, hn]
      exact cut_forall₂ hrows hown b []

/-- Reading a level for one owner at most answers rows that hold what it selects of the records it
lists. -/
theorem readLevel_selected (hstore : store.Keyed) (h : Fillable bindings t)
    (hselects : Selects store bindings t) {scope : Option Scope}
    (hone : ∀ s, scope = some s → ∃ id, s.owners = [id]) {children : List OwnedRow}
    (hread : (readLevel store bindings t scope).Returns children) :
      ∃ page, pageBounds bindings t.level = .ok page ∧
      SelectedRows store bindings t (listed store bindings t scope page)
        (children.map Prod.snd) := by
  have hcomplete := readLevel_complete hstore h (completes hstore h) hread
  obtain ⟨rows, page, hserved, hpage, hrows, -, -, rfl⟩ :=
    readLevel_returns hstore h.suited (fills hstore h.suited) hread
  have hhas : store.Has t.level.entity idName := by
    cases t
    exact hserved.tree.1.1
  have hlisted := levelRows_listed hstore hhas hone hrows
  refine ⟨page, hpage, selectedRows_iff.mpr ?_⟩
  unfold changedAt
  rw [List.map_map, List.forall₂_map_right_iff]
  have hboth := (List.forall₂_and_left (R := flip _) _ _).mpr
    ⟨fun c hc ↦ hcomplete _ (List.mem_map_of_mem (f := fun c ↦ (c.1, Row.modifyAt _ [] c.2)) hc),
      hlisted.flip⟩
  refine hboth.flip.imp fun f c ⟨hdone, hf, hrecord⟩ ↦ ?_
  obtain ⟨hin, -, -, hview⟩ := mem_found hf
  obtain ⟨o, ho, heq⟩ := Except.bind_eq_ok.mp hrecord
  cases o with
  | none => cases heq
  | some row =>
    cases heq
    exact hselects (scopeRows_keyed hstore hin).1 hserved.tree hview ho hdone

theorem served_relation (h : Query.RelationsServed store bindings entity relations)
    (hmem : (r, t) ∈ relations) (hsingle : ¬r.many) : t.Served store bindings := by
  induction relations with
  | nil => contradiction
  | cons x rest ih =>
    obtain ⟨q, u⟩ := x
    unfold Query.RelationsServed at h
    rcases List.mem_cons.mp hmem with heq | hmem
    · cases heq
      exact (h.1.resolve_left hsingle).2.2
    · exact ih h.2 hmem

theorem relationsComplete_mem (h : RelationsComplete store bindings entity relations row)
    (hmem : (r, t) ∈ relations) :
    RelationComplete store bindings entity r t row := by
  induction relations with
  | nil => contradiction
  | cons x rest ih =>
    obtain ⟨q, u⟩ := x
    unfold RelationsComplete at h
    rcases List.mem_cons.mp hmem with heq | hmem
    · cases heq
      exact h.1
    · exact ih h.2 hmem

/-- The entry of a relation to many rows. -/
theorem selectedRelation_many (hstore : store.Keyed) (h : Fillable bindings t)
    (hselects : Selects store bindings t) (hmany : r.many)
    (hcomplete : RelationComplete store bindings entity r t row) (hid : row.id? = some a.row.id) :
    SelectedRelation store bindings entity r t a row := by
  obtain ⟨id, children, hown, hread, hentry, -⟩ := (relationComplete_many hmany).mp hcomplete
  obtain rfl : a.row.id = id := Option.some.inj (hid.symm.trans hown)
  have hone : ∀ s, some (Scope.mk entity r [a.row.id]) = some s → ∃ id, s.owners = [id] := by
    rintro s ⟨⟩
    exact ⟨_, rfl⟩
  obtain ⟨page, hpage, hrows⟩ := readLevel_selected hstore h hselects hone hread
  exact .many hmany hentry hpage hrows

/-- The entry of a single relation, given the row assembled for it. -/
theorem selectedRelation_single (hstore : store.Keyed)
    (hselects : Selects store bindings t) (hsingle : ¬r.many)
    (hcomplete : RelationComplete store bindings entity r t row) (ha : a.Keyed)
    (hserved : t.Served store bindings) {x : Option Record}
    (hx : x ∈ singleRows store bindings entity r t.level (some a)) {depth : Nat} {w : View}
    (hw : w ∈ views store bindings depth t x) {rest : List Cell} {inner : Option Row}
    (hinner : assemble t (w.cells ++ rest) = .ok inner) (hentry : row.get? r.name =
      inner.map fun row ↦ .one (completed store bindings t.level.entity t.relations row)) :
    SelectedRelation store bindings entity r t a row := by
  rw [relationComplete_single hsingle] at hcomplete
  cases x with
  | none =>
    have hnone : inner = none := by
      obtain ⟨level, relations⟩ := t
      unfold views at hw
      obtain ⟨u, -, rfl⟩ := List.mem_map.mp hw
      cases hinner
      rfl
    rw [hnone] at hentry
    exact .absent hsingle hentry fun c hc hleads hpasses ↦
      singleRows_absent hstore ha hx hc hleads hpasses
  | some c =>
    obtain ⟨hc, hleads, hpasses⟩ := singleRows_found hstore ha hx
    have hhas : store.Has t.level.entity idName := by
      cases t
      exact hserved.1.1
    obtain ⟨row', rfl⟩ := Option.isSome_iff_exists.mp
      (assemble_view_isSome (cell_id_of_has hstore hhas hc) hw hinner)
    exact .one hsingle hentry hc hleads hpasses
      (hselects hc hserved hw hinner (hcomplete _ (Row.one?_eq_some.mpr hentry)))

/-- The names of a row as it is assembled: the number of the record, the fields, then the
relations. -/
theorem assembled_names {level : Query.Level} (hs : s.WellFormed) (he : e ∈ s.entities)
    (hsound : Tree.Sound s notes e (.node level relations)) (hdistinct : level.Distinct)
    (hnames : (relations.map fun x ↦ x.1.name).Nodup) {own : Row}
    (hown : (Plan.ownFields level).mapM (entryOf a) = .ok own)
    (hrelated : assembleRelations relations cells = .ok related) :
    (((idName, .value (.long a.row.id)) :: own ++ related).map Prod.fst).Nodup ∧
      ∀ name ∈ ((idName, .value (.long a.row.id)) :: own ++ related).map Prod.fst,
        name = idName ∨ name ∈ level.fields.map (·.name) ∨
        name ∈ relations.map fun x ↦ x.1.name := by
  have hsub := assembleRelations_names hrelated
  have hfields : ((Plan.ownFields level).map (·.name)).Sublist (level.fields.map (·.name)) :=
    List.filter_sublist.map _
  rw [List.map_append, List.map_cons, entries_names hown]
  constructor
  · refine List.Nodup.append (List.nodup_cons.mpr ⟨fun hmem ↦ ?_, hfields.nodup hdistinct⟩)
      (hsub.nodup hnames) ?_
    · obtain ⟨f, hf, heq⟩ := List.mem_map.mp hmem
      have hother := (List.mem_filter.mp hf).2
      rw [heq] at hother
      contradiction
    · intro name hbefore hafter
      obtain ⟨x, hx, rfl⟩ := List.mem_map.mp (hsub.subset hafter)
      have hnone := fields_get?_eq_none hs he hsound hown x hx
      rw [← entries_names hown, ← List.map_cons (f := Prod.fst) (a :=
          (idName, Data.value (.long a.row.id))),
        ← get?_isSome_iff, hnone] at hbefore
      contradiction
  · intro name hname
    rcases List.mem_append.mp hname with hname | hname
    · exact (List.mem_cons.mp hname).imp_right fun hmem ↦ .inl (hfields.subset hmem)
    · exact .inr (.inr (hsub.subset hname))

/-- The fields of a row as it is assembled. -/
theorem assembled_field {level : Query.Level} (hs : s.WellFormed) (he : e ∈ s.entities)
    (hsound : Tree.Sound s notes e (.node level relations))
    (hid : a.cell idName = .integer a.row.id) {own : Row}
    (hown : (Plan.ownFields level).mapM (entryOf a) = .ok own) (related : Row)
    {f : Query.SelectedField} (hf : f ∈ level.fields) :
    ∃ v, f.type.readCell (a.cell f.name) = .ok v ∧
      (f.name, .value v) ∈ (idName, .value (.long a.row.id)) :: own ++ related := by
  by_cases hname : f.name = idName
  · obtain ⟨p, hp, g, hpname, hkind, htype⟩ := hsound.field f hf
    obtain rfl := (hs.entity e he).eq_id hp (hpname.trans hname)
    cases hkind
    rw [hname, hid, ← htype]
    exact ⟨.long a.row.id, rfl, List.mem_cons_self⟩
  · have hown' : f ∈ Plan.ownFields level := List.mem_filter.mpr ⟨hf, bne_iff_ne.mpr hname⟩
    obtain ⟨v, hv, hmem⟩ := entries_mem hown hown'
    exact ⟨v, hv, List.mem_append_left _ (List.mem_cons_of_mem _ hmem)⟩

theorem selects (hstore : store.Keyed) (hs : s.WellFormed) (ht : t.Everywhere s notes)
    (hfillable : Fillable bindings t) (hdistinct : ∀ u ∈ t.nodes, u.level.Distinct) :
    Selects store bindings t := by
  induction t using Tree.induction with
  | node level relations ih =>
    intro a depth v rest row ha hserved hv hrow hcomplete
    obtain ⟨e, he, hsound⟩ := ht _ (Tree.mem_nodes_self _)
    have hnames : (relations.map fun x ↦ x.1.name).Nodup :=
      hfillable.names _ (Tree.mem_nodes_self _)
    have hkeyed : a.Keyed := hstore.record ha
    have hid : a.cell idName = .integer a.row.id := cell_id_of_has hstore hserved.1.1 ha
    obtain ⟨w, hw, own, related, hown, hrelated, rfl⟩ := assemble_view hid hv hrow
    obtain ⟨hnodup, hknown⟩ :=
      assembled_names hs he hsound (hdistinct _ (Tree.mem_nodes_self _)) hnames hown hrelated
    have hbefore : ∀ x ∈ relations, Row.get? ((idName, .value (.long a.row.id)) :: own) x.1.name =
        none :=
      fields_get?_eq_none hs he hsound hown
    generalize hwhole : (idName, Data.value (.long a.row.id)) :: own ++ related = whole at *
    change Selected store bindings (.node level relations) a
      (completed store bindings level.entity relations whole)
    have hkept : (completed store bindings level.entity relations whole).map Prod.fst =
        whole.map Prod.fst := by
      refine completed_names fun r t hmem hmany ↦ ?_
      rw [← hwhole, List.map_append]
      exact List.mem_append_right _ (assembleRelations_many hrelated hmem hmany)
    have hother : ∀ x ∈ relations, x.1.name ≠ idName := hfillable.other _ (Tree.mem_nodes_self _)
    have hnumber : (completed store bindings level.entity relations whole).id? = some a.row.id := by
      rw [completed_id? hother, ← hwhole]
      rfl
    refine .node (hkept ▸ hnodup) (hkept ▸ hknown) hnumber (fun f hf ↦ ?_) fun r t hmem ↦ ?_
    · obtain ⟨v, hv, hmem⟩ := assembled_field hs he hsound hid hown related hf
      rw [hwhole] at hmem
      have hfree : ∀ x ∈ relations, x.1.name ≠ f.name :=
        fun x hx heq ↦ field_ne_relation hs he (hsound.field f hf)
          (hsound.relation x.1 x.2 hx) heq.symm
      rw [completed_get? hfree]
      exact ⟨v, hv, (lookup_eq_some_iff hnodup).mpr hmem⟩
    · have hfill : Fillable bindings t := hfillable.relation (t := .node level relations) hmem
      have hbelow : Selects store bindings t :=
        ih r t hmem (fun u hu ↦ ht u (Tree.mem_nodes.mpr (.inr ⟨r, t, hmem, hu⟩)))
        hfill fun u hu ↦ hdistinct u (Tree.mem_nodes.mpr (.inr ⟨r, t, hmem, hu⟩))
      have hdone := relationsComplete_mem hcomplete hmem
      by_cases hmany : r.many
      · exact selectedRelation_many hstore hfill hbelow hmany hdone hnumber
      · obtain ⟨x, hx, u, hu, rest', inner, hinner, hget⟩ :=
          assembleRelations_one hnames hmem hmany hw hrelated
        have hentry : (completed store bindings level.entity relations whole).get? r.name =
            inner.map fun row ↦ .one (completed store bindings t.level.entity t.relations row) := by
          rw [completed_one hnames hmem hmany, ← hwhole, Row.get?_append, hbefore _ hmem,
            Option.none_or, hget, Option.map_map]
          rfl
        exact selectedRelation_single hstore hbelow hmany hdone hkeyed
          (served_relation hserved.2 hmem hmany) hx hu hinner hentry

/-- The rows that a query answers hold, at every level, each selected name once: the fields with the
values of their record, and each relation with the rows that its own filter, its own page and its
own selection ask for. No relation may be selected twice at one level. -/
theorem read_selected (hs : s.Reachable) {form : Language.QueryForm Value Int64}
    {q : Query.Compiled} (hq : s.compileQuery form = .ok q)
    (hnames : ∀ u ∈ q.tree.nodes, (u.relations.map fun x ↦ x.1.name).Nodup)
    {slots : Slots} {args : Args} (hb : Query.bind q.parameters slots args = .ok bindings)
    (hstore : store.Keyed) {rows : List Row} (h : (read store bindings q.tree).1 = .ok rows) :
    ∃ page, pageBounds bindings q.tree.level = .ok page ∧
      SelectedRows store bindings q.tree (listed store bindings q.tree none page) rows := by
  have hfillable := compileQuery_fillable hs hq hnames hb
  obtain ⟨-, notes, hsound, -⟩ := Query.compileQuery_sound hs.wellFormed hq
  have hselects : Selects store bindings q.tree :=
    selects hstore hs.wellFormed hsound hfillable (Query.compileQuery_distinct hs.wellFormed hq)
  obtain ⟨children, progress, hread, hrows⟩ := Reading.run_bind_ok h
  have hreturns := readLevel_settled hfillable.bound none _ _ (congrArg Prod.fst hread)
  cases hrows
  exact readLevel_selected hstore hfillable hselects (fun _ hsome ↦ by cases hsome) hreturns

theorem read_selected_of_friends :
    ∃ q rows, (Schema.empty.after friendsCalls).compileQuery friendsForm = .ok q ∧
      Query.bind q.parameters .empty [("friend", .value (.text "Bob"))] =
        .ok [("friend", .text "Bob")] ∧
      (read friendsStore [("friend", .text "Bob")] q.tree).1 = .ok rows ∧
      ∃ page, pageBounds [("friend", .text "Bob")] q.tree.level = .ok page ∧
        SelectedRows friendsStore [("friend", .text "Bob")] q.tree
          (listed friendsStore [("friend", .text "Bob")] q.tree none page) rows := by
  have hs : (Schema.empty.after friendsCalls).Reachable := ⟨friendsCalls, rfl⟩
  obtain ⟨q, hq, hb, hnames, -, rows, hrows⟩ := friends_read
  exact ⟨q, rows, hq, hb, hrows, read_selected hs hq hnames hb (by decide) hrows⟩

/-- The notes about tea of the first person, asked for twice. -/
def teaTwiceForm : Language.QueryForm Value Int64 :=
  have tea : Language.Item Value Int64 :=
    .relation "notes" (some (.predicate ["text"] (.compare .eq) (.literal (.text "tea")))) none none
      [.field "text" none]
  ⟨"Person", some (.predicate ["@id"] (.compare .eq) (.literal (.long 1))), none, none, [tea, tea]⟩

/-- A relation selected twice has two entries of one name, and the rows of both selections are put
in the first: the second is empty though there is a note about tea. -/
theorem notes_twice : (Schema.empty.after friendsCalls).Reachable ∧ friendsStore.Keyed ∧
    ∃ q row, (Schema.empty.after friendsCalls).compileQuery teaTwiceForm = .ok q ∧
      Query.bind q.parameters .empty [] = .ok [] ∧ (read friendsStore [] q.tree).1 = .ok [row] ∧
      ¬(row.map Prod.fst).Nodup ∧
      (Data.one row).text = "\x7b@id=1, notes=[\x7b@id=1, text=tea\x7d], notes=[]\x7d" := by
  have hread : (((Schema.empty.after friendsCalls).compileQuery teaTwiceForm).toOption.any fun q ↦
      (read friendsStore [] q.tree).1.toOption.any fun rows ↦ rows.length == 1 && rows.all fun row ↦
        ¬(row.map Prod.fst).Nodup &&
          (Data.one row).text == "\x7b@id=1, notes=[\x7b@id=1, text=tea\x7d], notes=[]\x7d") := by
    decide +kernel
  obtain ⟨q, hq, hread⟩ := (Option.any_eq_true _ _).mp hread
  obtain ⟨rows, hrows, hread⟩ := (Option.any_eq_true _ _).mp hread
  obtain ⟨hlength, hread⟩ := Bool.and_eq_true_iff.mp hread
  obtain ⟨row, rfl⟩ := List.length_eq_one_iff.mp (beq_iff_eq.mp hlength)
  obtain ⟨hnames, htext⟩ :=
    Bool.and_eq_true_iff.mp (List.all_eq_true.mp hread row List.mem_cons_self)
  have hq := Except.toOption_eq_some_iff.mp hq
  have hb : Query.bind q.parameters .empty [] = .ok [] := by
    cases hq
    rfl
  exact ⟨⟨friendsCalls, rfl⟩, by decide, q, row, hq, hb, Except.toOption_eq_some_iff.mp hrows,
    of_decide_eq_true hnames, beq_iff_eq.mp htext⟩

end Mapping

end EntityStore
