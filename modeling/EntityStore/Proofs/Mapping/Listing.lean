import Mathlib.Data.List.Sort
import EntityStore.Proofs.Mapping.Cardinality
import EntityStore.Proofs.Mapping.Readable
import EntityStore.Proofs.Mapping.References

/-!
What levels without sorting list, told over the content of a store: the rows of an owned relation by
their numbers, and those of a linked relation in the order of the links.
-/

set_option autoImplicit false

namespace EntityStore

open Mapping (entityTable linkTable linkTableName ownerColumn targetColumn)
open Query (Leads Tree)

/-! ### The stores that batches lead to -/

/-- What a link holds is what is stored. -/
theorem Table.Keyed.link_cell {t : Table} {entity : String} {p : Property}
    {spec : TableSpec} (h : t.Keyed) (hspec : linkTable entity p = some spec)
    (ht : spec.Shapes t) (l : StoredRow) :
    t.cellOf l ownerColumn = l.cell ownerColumn ∧
    t.cellOf l targetColumn = l.cell targetColumn := by
  obtain ⟨-, hcolumns, -⟩ := Table.link_columns hspec ht
  have hdistinct : Table.Distinct t.columns := hcolumns ▸ Table.distinct_linkColumns
  exact ⟨h.cellOf_name hdistinct (c := ⟨ownerColumn, .integer, true⟩)
    (hcolumns ▸ List.mem_cons_self), h.cellOf_name hdistinct (c := ⟨targetColumn, .integer, true⟩)
      (hcolumns ▸ List.mem_cons_of_mem _ List.mem_cons_self)⟩

/-- An owned entity refers back to its owner. -/
theorem Schema.WellFormed.parent_mem {s : Schema} (hs : s.WellFormed) {d : Entity}
    (hd : d ∈ s.entities) {owner : String} {p : Property} (h : s.Owns owner p d.name) :
    .parent d.name owner p.isSingle ∈ d.properties := by
  obtain ⟨own, hown⟩ := hs.ownership d hd
  cases hown with
  | free _ hnone _ => exact absurd h (hnone _ _)
  | owned _ honly hback _ =>
    obtain ⟨rfl, rfl⟩ := (honly _ _).mp h
    exact ((hback _).mpr rfl).1

namespace Store

variable {s : Schema} {enforced : Bool} {given : List (String × Int64)} {store : Store}
  {e d : Entity} {p : Property} {id : Int64}

/-- The rows of an entity are those of its table. -/
theorem Shaped.row_iff (hs : s.WellFormed) (h : store.Shaped s) (he : e ∈ s.entities) {x : Entry} :
    (store.content s).row e.name id = some x ↔ ∃ a ∈ store.records e.name, a.row.id = id ∧
    a.row.entry = x := by
  obtain ⟨t, ht, -, hkeyed⟩ := h.entityTable? he
  rw [content_row hs he ht, Option.map_eq_some_iff]
  constructor
  · rintro ⟨r, hr, rfl⟩
    obtain ⟨hr, hid⟩ := (Table.row?_eq_some_iff hkeyed.ascending).mp hr
    exact ⟨⟨t, r⟩, mem_records.mpr ⟨ht, hr⟩, hid, rfl⟩
  · rintro ⟨⟨u, r⟩, ha, rfl, rfl⟩
    obtain ⟨hu, hr⟩ := mem_records.mp ha
    obtain rfl := Option.some.inj (ht.symm.trans hu)
    exact ⟨r, (Table.row?_eq_some_iff hkeyed.ascending).mpr ⟨hr, rfl⟩, rfl⟩

/-- What a row holds in a column of its entity is what is stored there. -/
theorem Shaped.record_cell (h : store.Shaped s) (he : e ∈ s.entities) {a : Record}
    (ha : a ∈ store.records e.name) {c : ColumnSpec} (hc : c ∈ Mapping.columns e) :
    a.cell c.name = a.row.cell c.name := by
  obtain ⟨t, ht, hshapes, hkeyed⟩ := h.entityTable? he
  obtain ⟨hu, -⟩ := mem_records.mp ha
  have htable : a.table = t := Option.some.inj (hu.symm.trans ht)
  have hcolumn : c.column ∈ t.columns := by
    rw [hshapes.columns_eq]
    exact List.mem_map_of_mem hc
  unfold Record.cell
  rw [htable]
  exact hkeyed.cellOf_name (hshapes.columns_eq ▸ h.columns _ (Schema.entityTable_mem he)) hcolumn

/-- A row of an owned entity has a column for its owner. -/
theorem Shaped.parent_cell (hs : s.WellFormed) (h : store.Shaped s) (hd : d ∈ s.entities)
    (hp : p ∈ d.properties) (hparent : p.name = parentName) {a : Record}
    (ha : a ∈ store.records d.name) :
    a.cell parentName = a.row.cell parentName := by
  obtain ⟨own, hown⟩ := hs.ownership d hd
  obtain ⟨o, r, -, rfl⟩ := hown.eq_parent hp hparent
  exact h.record_cell hd ha (c := ⟨parentName, .integer, true, r.isSingle, some o⟩)
    (List.mem_append_right _ (List.mem_filterMap.mpr ⟨_, hp, rfl⟩))

/-- What a row holds in the column of a field is what its entry has for the field. -/
theorem Shaped.field_cell (hs : s.WellFormed) (h : store.Shaped s) (he : e ∈ s.entities)
    (hp : p ∈ e.properties) {f : Field} (hkind : p.kind = .field f) (hname : p.name ≠ idName)
    {a : Record} (ha : a ∈ store.records e.name) :
    a.cell p.name = a.row.entry.value p.name := by
  have hcolumn : Mapping.fieldColumn p.name p.input f ∈ Mapping.columns e := by
    refine List.mem_append_left _ (List.mem_filterMap.mpr ⟨p, hp, ?_⟩)
    unfold Mapping.ownColumn
    rw [hkind]
    exact if_neg hname
  have hparent : p.name ≠ parentName := by
    intro hparent
    obtain ⟨q, hq⟩ := Update.isParent_reference hs he hp (beq_iff_eq.mpr hparent)
    cases hkind.symm.trans hq
  exact (h.record_cell he ha hcolumn).trans (if_neg hparent).symm

theorem countP_le_one {α : Type} {p : α → Bool} {l : List α} (hnodup : l.Nodup)
    (h : ∀ a ∈ l, ∀ b ∈ l, p a → p b → a = b) : l.countP p ≤ 1 := by
  rw [List.countP_eq_length_filter]
  have hfilter := hnodup.filter p
  match hl : l.filter p with
  | [] => exact Nat.zero_le 1
  | [a] => exact Nat.le_refl 1
  | a :: b :: rest =>
    have ha : a ∈ l.filter p := by rw [hl]; exact List.mem_cons_self
    have hb : b ∈ l.filter p := by rw [hl]; exact List.mem_cons_of_mem _ List.mem_cons_self
    obtain ⟨ha, hpa⟩ := List.mem_filter.mp ha
    obtain ⟨hb, hpb⟩ := List.mem_filter.mp hb
    rw [hl, h a ha b hb hpa hpb] at hfilter
    exact absurd List.mem_cons_self (List.nodup_cons.mp hfilter).1

theorem Shaped.serves (h : store.Shaped s) : store.Serves s := by
  intro spec hspec
  obtain ⟨t, ht, hshapes, -⟩ := h.table? hspec
  refine holds_iff.mpr ⟨t, ht, fun hcounted ↦ ?_, fun c hc ↦ ?_, ?_⟩
  · rw [hshapes.rowColumn_eq]
    exact if_pos hcounted
  · exact Table.hasColumn_of_mem (c :=
      c.column) (by rw [hshapes.columns_eq]; exact List.mem_map_of_mem hc)
  · cases hkey : spec.key with
    | nil => exact .inl rfl
    | cons name names =>
      refine .inr ?_
      rw [hshapes.unique_eq, ← hkey]
      refine List.mem_reverse.mpr ?_
      refine List.mem_append_left _ (List.mem_append_right _ ?_)
      rw [if_neg (by simp [hkey])]
      exact List.mem_singleton_self _

/-- In the stores that batches lead to single relations lead to one row at most. -/
theorem Arises.models (hs : s.WellFormed) (hdistinct : s.Distinct)
    (h : store.Arises s enforced given) :
    store.Models s := by
  obtain ⟨c, top, harises, ⟨hshaped, hcontent, -⟩, -⟩ := h.shows hs hdistinct
  have hfilled := h.filled hs hdistinct
  refine ⟨hshaped.keyed, hshaped.serves, fun e he p hp a ha ↦ ?_⟩
  unfold leadsOnce
  cases hkind : p.kind with
  | field f => rfl
  | collection q => rfl
  | reference r =>
    by_cases hparent : p.isParent
    · rw [hparent]
      rfl
    · simp only [hparent, Bool.false_or]
      cases hr : r.kind with
      | owned =>
        obtain ⟨d, hd, hname⟩ :=
          hs.target e he p hp r.target r.kind (by simp [Property.relation?, hkind])
        have howned : p.owned? = some d.name := by
          simp [Property.owned?, Property.relation?, hkind, hr, hname]
        have hback := hs.parent_mem hd ⟨⟨e, he, rfl, hp⟩, howned⟩
        refine decide_eq_true (countP_le_one (hshaped.keyed.nodup_records _)
          fun x hx y hy hxa hya ↦ ?_)
        rw [← hname] at hx hy
        obtain ⟨hu, hxrow⟩ := mem_records.mp hx
        obtain ⟨hv, hyrow⟩ := mem_records.mp hy
        have hcell {z : Record} (hz : z ∈ store.records d.name)
            (hza : z.cell parentName == .integer a.row.id) :
            z.row.cell parentName = .integer a.row.id :=
          (hshaped.parent_cell hs hd hback rfl hz).symm.trans (beq_iff_eq.mp hza)
        have htable : x.table = y.table := Option.some.inj (hu.symm.trans hv)
        have hrow := hshaped.eq_of_parent hs he hd hp hkind howned hv (htable ▸ hxrow) hyrow
          (hcell hx hxa) (hcell hy hya)
        cases x
        cases y
        exact congrArg₂ Record.mk htable hrow
      | linked =>
        have hlinked : p.isLinked := Property.isLinked_iff.mpr
          ⟨⟨r.target, by simp [Property.relation?, hkind, hr]⟩, hparent⟩
        obtain ⟨spec, links, hspec, hlinks, hshapes, hkeyed, -, hlength⟩ :=
          hshaped.linkRows hs hfilled he hp hlinked
        have hcount : (store.records (linkTableName e.name p.name)).countP
            (fun l ↦ l.cell ownerColumn == .integer a.row.id) =
              (links.linkRows a.row.id).length := by
          unfold records
          rw [hlinks]
          dsimp only
          rw [List.countP_map, Table.linkRows, List.countP_eq_length_filter]
          refine congrArg List.length (List.filter_congr fun l _ ↦ ?_)
          rw [Function.comp_apply, Record.cell, (hkeyed.link_cell hspec hshapes l).1,
            Bool.eq_iff_iff, beq_iff_eq, decide_eq_true_iff]
        refine decide_eq_true ?_
        rw [hcount, hlength, hcontent]
        exact (harises.cardinal hs).single e he p hp r hkind hlinked a.row.id

end Store

/-! ### Levels without sorting -/

/-- Neither a level of a tree nor one below it sorts its rows. -/
def Query.Tree.Unsorted (t : Tree) : Prop :=
  ∀ u ∈ t.nodes, ∀ f ∈ u.level.fields, f.sort = none

namespace Mapping

variable {s : Schema} {store : Store} {bindings : Query.Bindings} {e d : Entity} {t : Tree}
  {scope : Option Scope} {notes : List Query.Note} {r : Query.Relation} {n m : Int64}

theorem viewOf_keys (h : t.Unsorted) (depth : Nat) (a : Option Record) :
    (viewOf store bindings depth t a).keys = [] := by
  induction t using Tree.induction generalizing depth a with
  | node level relations ih =>
    have hown : (View.ofLevel level depth a).keys = [] :=
      List.filterMap_eq_nil_iff.mpr fun f hf ↦ by rw [h _ (Tree.mem_nodes_self _) f hf]; rfl
    have hrelated : (relatedView store bindings depth level.entity relations a).keys = [] := by
      have hbelow : ∀ r u, (r, u) ∈ relations →
          ∀ depth a, (viewOf store bindings depth u a).keys = [] :=
        fun r u hmem depth a ↦ ih r u hmem
          (fun v hv ↦ h v (Tree.mem_nodes.mpr (.inr ⟨r, u, hmem, hv⟩))) depth a
      clear ih h hown
      induction relations with
      | nil => rfl
      | cons x rest ihrest =>
        obtain ⟨r, u⟩ := x
        have hrest := ihrest fun r' u' hmem ↦ hbelow r' u' (List.mem_cons_of_mem _ hmem)
        unfold relatedView
        split
        · exact hrest
        · exact List.append_eq_nil_iff.mpr ⟨hbelow r u List.mem_cons_self _ _, hrest⟩
    unfold viewOf
    exact List.append_eq_nil_iff.mpr ⟨hown, hrelated⟩

/-- Without sorting rows are listed by links, then by their numbers. -/
theorem order_unsorted (h : t.Unsorted) (f g : Hit) : f.order store bindings t g =
    ((f.link.elim Cell.null fun l ↦ .integer l.row.id).order
        (g.link.elim Cell.null fun l ↦ .integer l.row.id)).then
      ((f.record.cell idName).order (g.record.cell idName)) := by
  unfold Hit.order Found.order Found.keys Hit.found
  rw [viewOf_keys h, List.mergeSort_nil]
  rfl

/-- The link over which the one row is reached stands before that of the other. -/
def Hit.Before (f g : Hit) : Prop :=
  ∃ l l', f.link = some l ∧ g.link = some l' ∧ l.row.id < l'.row.id

instance : Std.Irrefl Hit.Before where
  irrefl := by
    rintro f ⟨l, l', hl, hl', hless⟩
    rw [Option.some.inj (hl.symm.trans hl')] at hless
    exact Int64.lt_irrefl hless

instance : Std.Antisymm Hit.Before where
  antisymm := by
    rintro f g ⟨l, l', hl, hl', hless⟩ ⟨k, k', hk, hk', hmore⟩
    rw [Option.some.inj (hk.symm.trans hl'), Option.some.inj (hk'.symm.trans hl)] at hmore
    exact absurd (Int64.lt_trans hless hmore) Int64.lt_irrefl

theorem integer_order_lt : (Cell.integer n).order (.integer m) = .lt ↔ n < m := by
  change compare n.toInt m.toInt = .lt ↔ _
  rw [compare_lt_iff_lt, Int64.lt_iff_toInt_lt]

section

variable (h : store.Models s) (hs : s.WellFormed) (he : e ∈ s.entities)
  (hentity : t.level.entity = e.name) (ht : t.Everywhere s notes)
  (hbound : ∀ u ∈ t.nodes, u.Bound bindings) (hunsorted : t.Unsorted)

include h hs he hentity ht hbound hunsorted

/-- Rows that are not reached over links are listed by their numbers. -/
theorem hits_ascending (hlinks : ∀ f ∈ hits store bindings t scope, f.link = none) :
    ((hits store bindings t scope).map fun f ↦ f.record.row.id).Pairwise (· < ·) := by
  rw [List.pairwise_map]
  refine (pairwise_hits h hs he hentity ht hbound).imp_of_mem fun {f g} hf hg hless ↦ ?_
  have hrecord (f : Hit) (hf : f ∈ hits store bindings t scope) :=
    ((mem_hits h he hentity f).mp hf).record
  rw [order_unsorted hunsorted, hlinks f hf, hlinks g hg, h.cell_id he (hentity ▸ hrecord f hf),
    h.cell_id he (hentity ▸ hrecord g hg)] at hless
  exact integer_order_lt.mp hless

/-- Rows that are reached over links are listed in the order of these. -/
theorem hits_linked (hlinked : r.kind = .linked) {entity : String} {ids : List Int64} :
    (hits store bindings t (some ⟨entity, r, ids⟩)).Pairwise Hit.Before := by
  refine (pairwise_hits h hs he hentity ht hbound).imp_of_mem fun {f g} hf hg hless ↦ ?_
  obtain ⟨hfrecord, hfreached, -⟩ := (mem_hits h he hentity f).mp hf
  obtain ⟨hgrecord, hgreached, -⟩ := (mem_hits h he hentity g).mp hg
  unfold Hit.Reached at hfreached hgreached
  simp only [hlinked] at hfreached hgreached
  obtain ⟨l, hl, hfl, htarget, -⟩ := hfreached
  obtain ⟨l', hl', hgl, htarget', -⟩ := hgreached
  refine ⟨l, l', hfl, hgl, ?_⟩
  rw [order_unsorted hunsorted, hfl, hgl, h.cell_id he (hentity ▸ hfrecord),
    h.cell_id he (hentity ▸ hgrecord)] at hless
  rcases Ordering.then_eq_lt.mp hless with hlinks | ⟨hsame, hrows⟩
  · exact integer_order_lt.mp hlinks
  · -- one link leads to one row only
    have hlink := h.keyed.record_ext hl hl' (order_eq_eq rfl rfl hsame)
    rw [← hlink] at htarget'
    rw [Cell.integer.inj (htarget.symm.trans htarget')] at hrows
    exact absurd (integer_order_lt.mp hrows) Int64.lt_irrefl

end

end Mapping

/-! ### What relations lead to -/

/-- Whether a relation of an entity leads from one row to another: to its owner, to a row that names
it as its owner, or to one that it is linked to. -/
def Content.Leads (c : Content) (entity : String) (r : Query.Relation) (target : String)
    (n m : Int64) : Prop :=
  if r.isParent then ∃ x, c.row entity n = some x ∧ x.parent = some m
  else match r.kind with
    | .owned => ∃ x, c.row target m = some x ∧ x.parent = some n
    | .linked => m ∈ c.links entity r.name n

section

variable {c : Content} {entity target : String} {r : Query.Relation} {n m : Int64}

theorem Content.leads_parent (h : r.isParent) :
    c.Leads entity r target n m ↔ ∃ x, c.row entity n = some x ∧ x.parent = some m := by
  unfold Leads
  rw [if_pos h]

theorem Content.leads_owned (h : ¬r.isParent) (hkind : r.kind = .owned) :
    c.Leads entity r target n m ↔ ∃ x, c.row target m = some x ∧ x.parent = some n := by
  unfold Leads
  rw [if_neg h, hkind]

theorem Content.leads_linked (h : ¬r.isParent) (hkind : r.kind = .linked) :
    c.Leads entity r target n m ↔ m ∈ c.links entity r.name n := by
  unfold Leads
  rw [if_neg h, hkind]

end

namespace Mapping

variable {s : Schema} {store : Store} {bindings : Query.Bindings} {e d : Entity} {t : Tree}
  {scope : Option Scope} {notes : List Query.Note} {r : Query.Relation} {n m : Int64}

/-- A row of an owned entity names the owner that the content has for it. -/
theorem parent_iff (hs : s.WellFormed) (hshaped : store.Shaped s) {p : Property}
    (hd : d ∈ s.entities) (hp : p ∈ d.properties) (hparent : p.name = parentName) {c : Record}
    (hc : c ∈ store.records d.name) :
    c.cell parentName = .integer n ↔ ∃ x, (store.content s).row d.name c.row.id = some x ∧
    x.parent = some n := by
  rw [hshaped.parent_cell hs hd hp hparent hc, ← StoredRow.number?_eq_some_iff]
  constructor
  · exact fun hnumber ↦ ⟨c.row.entry, (hshaped.row_iff hs hd).mpr ⟨c, hc, rfl, rfl⟩, hnumber⟩
  · rintro ⟨x, hx, hnumber⟩
    obtain ⟨c', hc', hid, rfl⟩ := (hshaped.row_iff hs hd).mp hx
    rwa [hshaped.keyed.record_ext hc' hc hid] at hnumber

/-- The links of the content are those of the table of the relation. -/
theorem link_iff (hs : s.WellFormed) (hshaped : store.Shaped s) {p : Property} (he : e ∈ s.entities)
    (hp : p ∈ e.properties) (hlinked : p.isLinked) : m ∈ (store.content s).links e.name p.name n ↔
      ∃ l ∈ store.records (linkTableName e.name p.name), l.cell ownerColumn = .integer n ∧
        l.cell targetColumn = .integer m := by
  obtain ⟨spec, t, hspec, -, ht, hshapes, hkeyed⟩ := hshaped.linkTable? he hp hlinked
  rw [Store.content_links hs he hp hlinked ht, Table.targets, List.mem_filterMap]
  constructor
  · rintro ⟨l, hl, htarget⟩
    obtain ⟨hl, howner⟩ := List.mem_filter.mp hl
    obtain ⟨howner', htarget'⟩ := hkeyed.link_cell hspec hshapes l
    exact ⟨⟨t, l⟩, mem_records.mpr ⟨ht, hl⟩,
      howner'.trans (StoredRow.number?_eq_some_iff.mp (beq_iff_eq.mp howner)),
      htarget'.trans (StoredRow.number?_eq_some_iff.mp htarget)⟩
  · rintro ⟨⟨u, l⟩, hl, howner, htarget⟩
    obtain ⟨hu, hl⟩ := mem_records.mp hl
    obtain rfl := Option.some.inj (ht.symm.trans hu)
    obtain ⟨howner', htarget'⟩ := hkeyed.link_cell hspec hshapes l
    exact ⟨l,
      List.mem_filter.mpr
        ⟨hl, beq_iff_eq.mpr (StoredRow.number?_eq_some_iff.mpr (howner'.symm.trans howner))⟩,
      StoredRow.number?_eq_some_iff.mpr (htarget'.symm.trans htarget)⟩

/-- A relation over links is one of a property that has a table of them. -/
theorem exists_linked (hleads : Leads s e r d.name) (hparent : ¬r.isParent)
    (hlinked : r.kind = .linked) :
    ∃ p ∈ e.properties, p.name = r.name ∧ p.relation? = some (d.name, r.kind) ∧ p.isLinked := by
  obtain ⟨p, hp, child, -, hname, hrelation, -, htarget⟩ := hleads
  rw [← htarget] at hrelation
  refine ⟨p, hp, hname, hrelation, Property.isLinked_iff.mpr ⟨⟨d.name, hlinked ▸ hrelation⟩, ?_⟩⟩
  rwa [Property.isParent, hname]

/-- The row that a link leads to, with the link. -/
def hitOf (store : Store) (target : String) (links : Table) (l : StoredRow) : Option Hit :=
  (l.number? targetColumn).bind fun m ↦
    ((store.records target).find? fun c ↦ c.row.id == m).map fun c ↦ ⟨c, some ⟨links, l⟩⟩

theorem hitOf_eq_some_iff (hkeyed : store.Keyed) {target : String} {links : Table}
    {l : StoredRow} {f : Hit} :
    hitOf store target links l = some f ↔ f.record ∈ store.records target ∧
      l.number? targetColumn = some f.record.row.id ∧ f.link = some ⟨links, l⟩ := by
  have hfind (m : Int64) (c : Record) :
      (store.records target).find? (fun c ↦ c.row.id == m) = some c ↔
      c ∈ store.records target ∧ c.row.id = m := by
    have hunique : ∀ a ∈ store.records target, ∀ b ∈ store.records target, (a.row.id == m) →
        (b.row.id == m) → a = b :=
      fun a ha b hb ham hbm ↦ hkeyed.record_ext ha hb
        ((beq_iff_eq.mp ham).trans (beq_iff_eq.mp hbm).symm)
    refine (find?_eq_some_iff_of_unique (p := fun c : Record ↦ c.row.id == m) hunique).trans ?_
    rw [beq_iff_eq]
  constructor
  · intro heq
    obtain ⟨m, hm, heq⟩ := Option.bind_eq_some_iff.mp heq
    obtain ⟨c, hc, rfl⟩ := Option.map_eq_some_iff.mp heq
    obtain ⟨hin, rfl⟩ := (hfind m c).mp hc
    exact ⟨hin, hm, rfl⟩
  · rintro ⟨hrecord, htarget, hlink⟩
    refine Option.bind_eq_some_iff.mpr ⟨_, htarget,
      Option.map_eq_some_iff.mpr ⟨_, (hfind _ _).mpr ⟨hrecord, rfl⟩, ?_⟩⟩
    rw [← hlink]

section

variable (h : store.Models s) (hd : d ∈ s.entities) (hentity : t.level.entity = d.name)
  (hfilter : t.level.filter = none) (hlinked : r.kind = .linked) {p : Property}
  {spec : TableSpec} {links : Table} (hspec : linkTable e.name p = some spec)
  (hname : p.name = r.name) (hlinks : store.table? (linkTableName e.name p.name) = some links)
  (hshapes : spec.Shapes links) (hkeyed : links.Keyed)

include h hd hentity hfilter hlinked hspec hname hlinks hshapes hkeyed

/-- The rows that a level lists for an owner over links are those that its links lead to. -/
theorem mem_hits_linked (f : Hit) : f ∈ hits store bindings t (some ⟨e.name, r, [n]⟩) ↔
    f ∈ (links.rows.filter fun l ↦ l.number? ownerColumn == some n).filterMap
      (hitOf store d.name links) := by
  rw [mem_hits h hd hentity, List.mem_filterMap]
  constructor
  · rintro ⟨hrecord, hscope, -⟩
    unfold Hit.Reached at hscope
    simp only [hlinked] at hscope
    obtain ⟨⟨u, l⟩, hl, hlink, hto, k, hk, howner⟩ := hscope
    rw [List.mem_singleton.mp hk] at howner
    obtain ⟨hu, hl⟩ := mem_records.mp (hname ▸ hl)
    obtain rfl := Option.some.inj (hlinks.symm.trans hu)
    obtain ⟨howner', hto'⟩ := hkeyed.link_cell hspec hshapes l
    exact ⟨l,
      List.mem_filter.mpr
        ⟨hl, beq_iff_eq.mpr (StoredRow.number?_eq_some_iff.mpr (howner'.symm.trans howner))⟩,
      (hitOf_eq_some_iff h.keyed).mpr
        ⟨hentity ▸ hrecord, StoredRow.number?_eq_some_iff.mpr (hto'.symm.trans hto), hlink⟩⟩
  · rintro ⟨l, hl, hf⟩
    obtain ⟨hl, howner⟩ := List.mem_filter.mp hl
    obtain ⟨hrecord, hto, hlink⟩ := (hitOf_eq_some_iff h.keyed).mp hf
    obtain ⟨howner', hto'⟩ := hkeyed.link_cell hspec hshapes l
    refine ⟨hentity ▸ hrecord, ?_, by rw [hfilter]; rfl⟩
    unfold Hit.Reached
    simp only [hlinked]
    exact ⟨⟨links, l⟩, hname ▸ mem_records.mpr ⟨hlinks, hl⟩, hlink,
      hto'.trans (StoredRow.number?_eq_some_iff.mp hto),
      n, List.mem_singleton_self n,
      howner'.trans (StoredRow.number?_eq_some_iff.mp (beq_iff_eq.mp howner))⟩

theorem hits_linked_eq (hs : s.WellFormed) (ht : t.Everywhere s notes)
    (hbound : ∀ u ∈ t.nodes, u.Bound bindings) (hunsorted : t.Unsorted) :
      hits store bindings t (some ⟨e.name, r, [n]⟩) =
        (links.rows.filter fun l ↦ l.number? ownerColumn == some n).filterMap
          (hitOf store d.name links) := by
  have hsorted : (hits store bindings t (some ⟨e.name, r, [n]⟩)).Pairwise Hit.Before :=
    hits_linked h hs hd hentity ht hbound hunsorted hlinked
  refine hsorted.eq_of_mem_iff ?_
    (mem_hits_linked h hd hentity hfilter hlinked hspec hname hlinks hshapes hkeyed)
  refine List.pairwise_filterMap.mpr ((hkeyed.ascending.filter _).imp
    fun {l l'} hless f hf g hg ↦ ?_)
  exact ⟨_, _, ((hitOf_eq_some_iff h.keyed).mp hf).2.2,
    ((hitOf_eq_some_iff h.keyed).mp hg).2.2, hless⟩

end

section

variable (h : store.Models s) (hs : s.WellFormed) (hshaped : store.Shaped s) (he : e ∈ s.entities)
  (hd : d ∈ s.entities) (hleads : Leads s e r d.name) (hentity : t.level.entity = d.name)
  (hfilter : t.level.filter = none)

include h hs hshaped he hd hleads hentity hfilter

/-- The rows that a level lists for an owner are those that the relation leads to from it. -/
theorem mem_hits_owned (hparent : ¬r.isParent) (howned : r.kind = .owned) :
    (∃ f ∈ hits store bindings t (some ⟨e.name, r, [n]⟩), f.record.row.id = m) ↔
      (store.content s).Leads e.name r d.name n m := by
  obtain ⟨p, hp, child, -, hname, hrelation, -, htarget⟩ := hleads
  have howns : p.owned? = some d.name := by simp [Property.owned?, hrelation, howned, htarget]
  have hback := hs.parent_mem hd ⟨⟨e, he, rfl, hp⟩, howns⟩
  rw [Content.leads_owned hparent howned]
  constructor
  · rintro ⟨f, hf, rfl⟩
    obtain ⟨hrecord, hreached, -⟩ := (mem_hits h hd hentity f).mp hf
    unfold Hit.Reached at hreached
    simp only [howned] at hreached
    obtain ⟨-, k, hk, hcell⟩ := hreached
    rw [List.mem_singleton.mp hk] at hcell
    exact (parent_iff hs hshaped hd hback rfl (hentity ▸ hrecord)).mp hcell
  · rintro ⟨x, hx, howner⟩
    obtain ⟨c, hc, rfl, hentry⟩ := (hshaped.row_iff hs hd).mp hx
    refine ⟨⟨c, none⟩, (mem_hits h hd hentity _).mpr ⟨hentity ▸ hc, ?_, ?_⟩, rfl⟩
    · unfold Hit.Reached
      simp only [howned]
      exact ⟨trivial, n, List.mem_singleton_self n,
        (parent_iff hs hshaped hd hback rfl hc).mpr ⟨x, hx, howner⟩⟩
    · rw [hfilter]
      rfl

/-- A relation to a single row leads to the row that the content has for it. -/
theorem partner_eq_iff (hsingle : ¬r.many) {a c : Record} (ha : a ∈ store.records e.name)
    (hc : c ∈ store.records d.name) : partner store bindings e.name r t.level a = some c ↔
      (store.content s).Leads e.name r d.name a.row.id c.row.id := by
  have hpasses : passes store bindings t.level.filter c = true := by
    rw [hfilter]
    rfl
  rw [partner_eq_some_iff h he (hentity ▸ hleads) hsingle ha, and_iff_right (hentity ▸ hc),
    and_iff_left hpasses, h.keyed.leads_iff (h.keyed.record ha) (h.keyed.record hc)]
  obtain ⟨p, hp, child, -, hname, hrelation, -, htarget⟩ := hleads
  have hself : a.cell idName = .integer a.row.id := h.cell_id he ha
  have hother : c.cell idName = .integer c.row.id := h.cell_id hd hc
  unfold Store.LeadsBy
  by_cases hparent : r.isParent
  · rw [Content.leads_parent hparent,
      ← parent_iff hs hshaped he hp (hname.trans (beq_iff_eq.mp hparent)) ha]
    refine (iff_of_eq (if_pos hparent)).trans ?_
    constructor
    · rintro ⟨k, hk, howner⟩
      rwa [Cell.integer.inj (hother.symm.trans hk)]
    · exact fun howner ↦ ⟨_, hother, howner⟩
  refine (iff_of_eq (if_neg hparent)).trans ?_
  cases hkind : r.kind with
  | owned =>
    have howns : p.owned? = some d.name := by simp [Property.owned?, hrelation, hkind, htarget]
    rw [Content.leads_owned hparent hkind,
      ← parent_iff hs hshaped hd (hs.parent_mem hd ⟨⟨e, he, rfl, hp⟩, howns⟩) rfl hc]
    constructor
    · rintro ⟨k, hk, hid⟩
      rwa [Cell.integer.inj (hself.symm.trans hid)]
    · exact fun howner ↦ ⟨_, howner, hself⟩
  | linked =>
    have hlinked : p.isLinked := Property.isLinked_iff.mpr ⟨⟨child.name, hkind ▸ hrelation⟩, by
      rw [Property.isParent, hname]
      exact hparent⟩
    rw [Content.leads_linked hparent hkind, ← hname, link_iff hs hshaped he hp hlinked]
    refine exists_congr fun l ↦ and_congr_right fun _ ↦ ?_
    constructor
    · rintro ⟨⟨k, hk, hto⟩, i, howner, hi⟩
      have hk' : Cell.integer c.row.id = .integer k := hother.symm.trans hk
      have hi' : Cell.integer a.row.id = .integer i := hself.symm.trans hi
      exact ⟨hi' ▸ howner, hk' ▸ hto⟩
    · rintro ⟨howner, hto⟩
      exact ⟨⟨_, hother, hto⟩, _, howner, hself⟩

/-- The rows that a level lists for an owner over links are those that the content links to it, in
their order. -/
theorem hits_links (ht : t.Everywhere s notes) (hbound : ∀ u ∈ t.nodes, u.Bound bindings)
    (hunsorted : t.Unsorted) (hparent : ¬r.isParent) (hlinked : r.kind = .linked)
    (hclosed : (store.content s).Closed s) :
    ((hits store bindings t (some ⟨e.name, r, [n]⟩)).map fun f ↦ f.record.row.id) =
      (store.content s).links e.name r.name n := by
  obtain ⟨p, hp, hname, hrelation, hislinked⟩ := exists_linked hleads hparent hlinked
  obtain ⟨spec, links, hspec, -, hlinks, hshapes, hkeyed⟩ := hshaped.linkTable? he hp hislinked
  rw [hits_linked_eq h hd hentity hfilter hlinked hspec hname hlinks hshapes hkeyed hs ht
    hbound hunsorted, ← hname, Store.content_links hs he hp hislinked hlinks,
    Table.targets, List.map_filterMap]
  refine List.filterMap_congr fun l hl ↦ ?_
  obtain ⟨hl, howner⟩ := List.mem_filter.mp hl
  cases hto : l.number? targetColumn with
  | none => simp [hitOf, hto]
  | some m =>
    -- the row of the target stands
    have hlinked' : m ∈ (store.content s).links e.name p.name n := by
      rw [Store.content_links hs he hp hislinked hlinks]
      exact List.mem_filterMap.mpr ⟨l, List.mem_filter.mpr ⟨hl, howner⟩, hto⟩
    obtain ⟨x, hx⟩ := Option.isSome_iff_exists.mp
      (hclosed.target e he p hp d.name r.kind hrelation hislinked n m hlinked')
    obtain ⟨c, hc, hid, -⟩ := (hshaped.row_iff hs hd).mp hx
    have hhit : hitOf store d.name links l = some ⟨c, some ⟨links, l⟩⟩ :=
      (hitOf_eq_some_iff h.keyed).mpr ⟨hc, hid ▸ hto, rfl⟩
    rw [hhit]
    exact congrArg some hid

end

end Mapping

end EntityStore
