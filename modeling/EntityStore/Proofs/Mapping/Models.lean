import EntityStore.Proofs.Mapping.Shape
import EntityStore.Proofs.Mapping.Tables

/-!
Stores of a schema: the tables are there, and single relations lead to one row at most, so that a
join finds one row or an absent one.
-/

set_option autoImplicit false

namespace EntityStore

open Mapping (linkTableName ownerColumn targetColumn)

namespace Store

/-- Whether a relation to a single row leads from a row to one row at most: to one child that names
it as its owner, or over one link. -/
def leadsOnce (store : Store) (entity : String) (p : Property) (a : Record) : Bool :=
  match p.kind with
  | .reference r =>
    p.isParent || match r.kind with
      | .owned =>
        (store.records r.target).countP (fun c ↦ c.cell parentName == .integer a.row.id) ≤ 1
      | .linked => (store.records (linkTableName entity p.name)).countP
          (fun l ↦ l.cell ownerColumn == .integer a.row.id) ≤ 1
  | _ => true

/-- A store of a schema: the tables are there and keep their keys, and relations to a single row
lead to one row at most. -/
structure Models (store : Store) (s : Schema) : Prop where
  keyed : store.Keyed
  serves : store.Serves s
  single :
    ∀ e ∈ s.entities, ∀ p ∈ e.properties, ∀ a ∈ store.records e.name, store.leadsOnce e.name p a

instance (store : Store) (s : Schema) : Decidable (store.Models s) :=
  decidable_of_iff (store.Keyed ∧ store.Serves s ∧
    ∀ e ∈ s.entities, ∀ p ∈ e.properties, ∀ a ∈ store.records e.name, store.leadsOnce e.name p a)
    ⟨fun ⟨h₁, h₂, h₃⟩ ↦ ⟨h₁, h₂, h₃⟩, fun ⟨h₁, h₂, h₃⟩ ↦ ⟨h₁, h₂, h₃⟩⟩

variable {store : Store} {table : String}

/-! ### Joins that find one row -/

theorem Keyed.nodup_records (h : store.Keyed) (table : String) : (store.records table).Nodup := by
  refine (h.pairwise_records table).imp fun {a b} hlt heq ↦ ?_
  rw [heq] at hlt
  exact Int64.lt_irrefl hlt

/-- A join that at most one row fits finds that row or an absent one. -/
theorem Keyed.joinedRows_eq (h : store.Keyed) (htable : (store.table? table).isSome)
    {fits : Record → Bool} {found : Option Record}
    (hfound : ∀ c, found = some c ↔ c ∈ store.records table ∧ fits c) :
    store.joinedRows table fits = [found] := by
  have hperm := considered_perm store table
  have hnodup : ((store.considered table).filter fits).Nodup :=
    (hperm.nodup_iff.mpr (h.nodup_records table)).filter _
  have hmem (c : Record) : c ∈ (store.considered table).filter fits ↔ c ∈ found.toList := by
    rw [List.mem_filter, hperm.mem_iff, Option.mem_toList, hfound]
  have heq : (store.considered table).filter fits = found.toList := by
    have hlist : found.toList.Nodup := by cases found <;> simp
    have hsame := (List.perm_ext_iff_of_nodup hnodup hlist).mpr hmem
    cases found with
    | none => exact List.perm_nil.mp hsame
    | some c => exact List.perm_singleton.mp hsame
  obtain ⟨t, ht⟩ := Option.isSome_iff_exists.mp htable
  unfold Store.joinedRows
  rw [ht, heq]
  cases found <;> rfl

theorem eq_of_countP_le_one {α : Type} {p : α → Bool} {l : List α} (h : l.countP p ≤ 1)
    {a b : α} (ha : a ∈ l) (hb : b ∈ l) (hpa : p a) (hpb : p b) : a = b := by
  rw [List.countP_eq_length_filter] at h
  have ha := List.mem_filter.mpr ⟨ha, hpa⟩
  have hb := List.mem_filter.mpr ⟨hb, hpb⟩
  match hl : l.filter p with
  | [] =>
    rw [hl] at ha
    cases ha
  | [c] =>
    rw [hl] at ha hb
    rw [List.mem_singleton.mp ha, List.mem_singleton.mp hb]
  | c :: d :: rest =>
    rw [hl] at h
    simp at h

end Store

/-! ### Where relations lead -/

namespace Record

variable {a b : Record} {n : Int64}

theorem Keyed.row_id (h : a.Keyed) (hid : a.cell idName = .integer n) : n = a.row.id := by
  rcases h.cell_id with hnull | ⟨heq, -⟩
  · rw [hnull] at hid
    cases hid
  · rw [heq] at hid
    exact (Cell.integer.inj hid).symm

end Record

namespace Store

variable {store : Store} {s : Schema} {e d : Entity} {p : Property}
  {kind : RelationKind} {table : String} {a c c' : Record}

/-- The tables of entities show the row numbers. -/
theorem Models.cell_id (h : store.Models s) (he : e ∈ s.entities) (ha : a ∈ store.records e.name) :
    a.cell idName = .integer a.row.id := by
  obtain ⟨t, ht, hcounted, -, -⟩ := holds_iff.mp (h.serves.entity he)
  have hname : store.table? e.name = some t := ht
  obtain ⟨htable, -⟩ := mem_records.mp ha
  obtain rfl := Option.some.inj (hname.symm.trans htable)
  simp [Record.cell, Table.cellOf, Table.isRowColumn, hcounted rfl, sameName]

theorem Keyed.eq_of_cell_id (h : store.Keyed) (hc : c ∈ store.records table)
    (hc' : c' ∈ store.records table) {n : Int64} (hid : c.cell idName = .integer n)
    (hid' : c'.cell idName = .integer n) : c = c' :=
  h.record_ext hc hc' (((h.record hc).row_id hid).symm.trans ((h.record hc').row_id hid'))

/-- Whether a relation leads from a row, which may be absent, to another: the columns that it goes
by hold the same numbers. -/
def LeadsBy (store : Store) (source relation : String) (kind : RelationKind)
    (a : Option Record) (c : Record) :
    Prop :=
  if relation == parentName then ∃ n, c.cell idName = .integer n ∧
    Record.cell? a parentName = .integer n
  else match kind with
    | .owned => ∃ n, c.cell parentName = .integer n ∧ Record.cell? a idName = .integer n
    | .linked => ∃ l ∈ store.records (linkTableName source relation),
        (∃ n, c.cell idName = .integer n ∧ l.cell targetColumn = .integer n) ∧
          ∃ n, l.cell ownerColumn = .integer n ∧ Record.cell? a idName = .integer n

theorem Keyed.leads_iff (h : store.Keyed) (ha : a.Keyed) (hc : c.Keyed) {source relation : String} :
    store.leads source relation kind a c ↔ store.LeadsBy source relation kind (some a) c := by
  have hid : idName ∈ Record.names := by decide
  have hparent : parentName ∈ Record.names := by decide
  have howner : ownerColumn ∈ Record.names := by decide
  have htarget : targetColumn ∈ Record.names := by decide
  have hswap {x y : Record} {name other : String} (hx : x.Keyed) (hy : y.Keyed)
      (hname : name ∈ Record.names) (hother : other ∈ Record.names) : x.equals name (y.cell other) ↔
        ∃ n, y.cell other = .integer n ∧ x.cell name = .integer n := by
    rw [hx.equals_cell_iff hy hname hother]
    exact exists_congr fun n ↦ and_comm
  unfold leads LeadsBy
  split
  · exact hswap ha hc hparent hid
  · cases kind with
    | owned => exact hswap ha hc hid hparent
    | linked =>
      rw [List.any_eq_true]
      refine exists_congr fun l ↦ and_congr_right fun hl ↦ ?_
      have hmeet :=
        Record.meet_iff (a := some c) (b := some l) (fun _ heq ↦ Option.some.inj heq ▸ hc)
        (fun _ heq ↦ Option.some.inj heq ▸ h.record hl) hid htarget
      rw [Bool.and_eq_true, hswap ha (h.record hl) hid howner]
      exact and_congr_left fun _ ↦ hmeet

/-- A relation leads nowhere from an absent row. -/
theorem not_leadsBy_none {source relation : String} :
    ¬store.LeadsBy source relation kind none c := by
  unfold LeadsBy
  split
  · rintro ⟨_, -, ⟨⟩⟩
  · cases kind with
    | owned => rintro ⟨_, -, ⟨⟩⟩
    | linked => rintro ⟨_, -, -, _, -, ⟨⟩⟩

/-- No two children name a row as the owner of a single one. -/
theorem Models.child_unique (h : store.Models s) (he : e ∈ s.entities)
    (hp : p ∈ e.properties) {r : Reference} (hkind : p.kind = .reference r)
    (howned : r.kind = .owned) (hparent : p.isParent = false) (ha : a ∈ store.records e.name)
    (hc : c ∈ store.records r.target) (hc' : c' ∈ store.records r.target)
    (howner : c.cell parentName = .integer a.row.id)
    (howner' : c'.cell parentName = .integer a.row.id) :
    c = c' := by
  have honce := h.single e he p hp a ha
  simp only [leadsOnce, hkind, howned, hparent, Bool.false_or, decide_eq_true_eq] at honce
  exact eq_of_countP_le_one honce hc hc' (beq_iff_eq.mpr howner) (beq_iff_eq.mpr howner')

/-- No two links of a single relation start at a row. -/
theorem Models.link_unique (h : store.Models s) (he : e ∈ s.entities)
    (hp : p ∈ e.properties) {r : Reference} (hkind : p.kind = .reference r)
    (hlinked : r.kind = .linked) (hparent : p.isParent = false) (ha : a ∈ store.records e.name)
    {l l' : Record} (hl : l ∈ store.records (linkTableName e.name p.name))
    (hl' : l' ∈ store.records (linkTableName e.name p.name))
    (howner : l.cell ownerColumn = .integer a.row.id)
    (howner' : l'.cell ownerColumn = .integer a.row.id) : l = l' := by
  have honce := h.single e he p hp a ha
  simp only [leadsOnce, hkind, hlinked, hparent, Bool.false_or, decide_eq_true_eq] at honce
  exact eq_of_countP_le_one honce hl hl' (beq_iff_eq.mpr howner) (beq_iff_eq.mpr howner')

/-- A relation to a single row leads to one row at most. -/
theorem Models.leads_unique (h : store.Models s) (he : e ∈ s.entities)
    (hp : p ∈ e.properties) {r : Reference} (hkind : p.kind = .reference r)
    (ha : a ∈ store.records e.name) (hc : c ∈ store.records r.target)
    (hc' : c' ∈ store.records r.target) (hlead : store.leads e.name p.name r.kind a c)
    (hlead' : store.leads e.name p.name r.kind a c') : c = c' := by
  have hk := h.keyed
  have hid : Record.cell? (some a) idName = .integer a.row.id := h.cell_id he ha
  rw [hk.leads_iff (hk.record ha) (hk.record hc)] at hlead
  rw [hk.leads_iff (hk.record ha) (hk.record hc')] at hlead'
  unfold LeadsBy at hlead hlead'
  rw [hid] at hlead hlead'
  split at hlead
  · next hparent =>
    rw [if_pos hparent] at hlead'
    obtain ⟨n, hcid, hn⟩ := hlead
    obtain ⟨m, hcid', hm⟩ := hlead'
    obtain rfl : n = m := Cell.integer.inj (hn.symm.trans hm)
    exact hk.eq_of_cell_id hc hc' hcid hcid'
  · next hparent =>
    rw [if_neg hparent] at hlead'
    have hparent : p.isParent = false := Bool.eq_false_iff.mpr hparent
    cases howned : r.kind with
    | owned =>
      rw [howned] at hlead hlead'
      obtain ⟨_, howner, ⟨⟩⟩ := hlead
      obtain ⟨_, howner', ⟨⟩⟩ := hlead'
      exact h.child_unique he hp hkind howned hparent ha hc hc' howner howner'
    | linked =>
      rw [howned] at hlead hlead'
      obtain ⟨l, hl, ⟨n, hcid, htarget⟩, _, howner, ⟨⟩⟩ := hlead
      obtain ⟨l', hl', ⟨m, hcid', htarget'⟩, _, howner', ⟨⟩⟩ := hlead'
      obtain rfl := h.link_unique he hp hkind howned hparent ha hl hl' howner howner'
      obtain rfl : n = m := Cell.integer.inj (htarget.symm.trans htarget')
      exact hk.eq_of_cell_id hc hc' hcid hcid'

/-- A pair of rows has one link at most. -/
theorem Models.link_ext (h : store.Models s) (he : e ∈ s.entities)
    (hp : p ∈ e.properties) {target : String} (hrelation : p.relation? = some (target, .linked))
    (hparent : ¬p.isParent) {l l' : Record} (hl : l ∈ store.records (linkTableName e.name p.name))
    (hl' : l' ∈ store.records (linkTableName e.name p.name)) {n m : Int64}
    (howner : l.cell ownerColumn = .integer n) (howner' : l'.cell ownerColumn = .integer n)
    (htarget : l.cell targetColumn = .integer m) (htarget' : l'.cell targetColumn = .integer m) :
    l = l' := by
  obtain ⟨_, hspec⟩ := Schema.linkTable_eq (e := e) hrelation hparent
  obtain ⟨t, ht, -, -, hkey⟩ := holds_iff.mp (h.serves.link he hp hspec)
  obtain rfl := Option.some.inj (ht.symm.trans (mem_records.mp hl).1)
  refine h.keyed.record_unique hl hl' (hkey.resolve_left (List.cons_ne_nil _ _)) fun c hc ↦ ?_
  rcases List.mem_cons.mp hc with rfl | hc
  · exact ⟨n, howner, howner'⟩
  · obtain rfl := List.mem_singleton.mp hc
    exact ⟨m, htarget, htarget'⟩

end Store

end EntityStore
