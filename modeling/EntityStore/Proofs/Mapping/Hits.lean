import EntityStore.Proofs.Mapping.Owners
import EntityStore.Proofs.Mapping.Rows

/-!
The rows that a level answers, told over the rows of the store: those that a scope reaches and the
filter is true of, each once for every link that reaches it, in an order that no two of them share.
-/

set_option autoImplicit false

namespace EntityStore

open Query (Tree)

namespace Mapping

/-- A row that a level answers, with the link that leads to it in a linked scope. -/
structure Hit where
  record : Record
  link : Option Record

namespace Hit

/-- Whether the relation of a scope leads to a row from one of the owners: by the owner that the row
names, or over a link. -/
def Reached (store : Store) (h : Hit) : Option Scope → Prop
  | none => h.link = none
  | some s => match s.relation.kind with
    | .owned => h.link = none ∧ ∃ n ∈ s.owners, h.record.cell parentName = .integer n
    | .linked => ∃ l ∈ store.records (linkTableName s.source s.relation.name), h.link = some l ∧
      l.cell targetColumn = .integer h.record.row.id ∧
      ∃ n ∈ s.owners, l.cell ownerColumn = .integer n

/-- The rows of a level: rows of its entity, in scope, that its filter is true of. -/
structure In (store : Store) (bindings : Query.Bindings) (t : Tree) (scope : Option Scope)
    (h : Hit) : Prop where
  record : h.record ∈ store.records t.level.entity
  reached : h.Reached store scope
  passes : passes store bindings t.level.filter h.record

/-- The owner that a row is read for. -/
def owner (scope : Option Scope) (h : Hit) : Int64 :=
  match ownerCell? scope h.record h.link with
  | some (.integer n) => n
  | _ => 0

/-- A row of a level with its sort keys and those of the single relations below it. -/
def found (store : Store) (bindings : Query.Bindings) (t : Tree) (h : Hit) : Found :=
  ⟨h.record, h.link, viewOf store bindings 0 t (some h.record)⟩

/-- Rows are listed by the sort keys, merged by rank and depth, then by links, then by their
numbers. -/
def order (store : Store) (bindings : Query.Bindings) (t : Tree) (g h : Hit) : Ordering :=
  (g.found store bindings t).order (h.found store bindings t)

end Hit

/-- The rows of a level in their order. -/
def hits (store : Store) (bindings : Query.Bindings) (t : Tree) (scope : Option Scope) : List Hit :=
  (((scopeRows store t.level.entity scope).filter fun (r, l) ↦
    inScope scope r l && passes store bindings t.level.filter r).map fun (r, l) ↦ ⟨r, l⟩).mergeSort
      fun g h ↦ g.order store bindings t h != .gt

variable {store : Store} {bindings : Query.Bindings} {s : Schema} {e : Entity} {t : Tree}
  {scope : Option Scope} {notes : List Query.Note}

/-! ### Which rows there are -/

theorem mem_scopeRows {entity : String} {r : Record} {l : Option Record} :
    (r, l) ∈ scopeRows store entity scope ↔ r ∈ store.records entity ∧ match scope with
      | none => l = none
      | some s => match s.relation.kind with
        | .owned => l = none
        | .linked => ∃ l' ∈ store.records (linkTableName s.source s.relation.name), l = some l' ∧
          Record.meet (some l') targetColumn (some r) idName := by
  have hplain : (r, l) ∈ (store.records entity).map (·, (none : Option Record)) ↔
      r ∈ store.records entity ∧ l = none := by
    simp [eq_comm]
  cases scope with
  | none => exact hplain
  | some s =>
    unfold scopeRows
    dsimp only
    cases s.relation.kind with
    | owned => exact hplain
    | linked =>
      simp only [List.mem_flatMap, List.mem_map, List.mem_filter, Prod.mk.injEq]
      constructor
      · rintro ⟨r', hr', l', ⟨hl', hmeet⟩, rfl, rfl⟩
        exact ⟨hr', l', hl', rfl, hmeet⟩
      · rintro ⟨hr, l', hl', rfl, hmeet⟩
        exact ⟨r, hr, l', ⟨hl', hmeet⟩, rfl, rfl⟩

theorem nodup_scopeRows (h : store.Keyed) (entity : String) (scope : Option Scope) :
    (scopeRows store entity scope).Nodup := by
  have hplain : ((store.records entity).map (·, (none : Option Record))).Nodup :=
    (h.nodup_records entity).map fun _ _ heq ↦ congrArg Prod.fst heq
  unfold scopeRows
  split
  · exact hplain
  · split
    · exact hplain
    · refine List.nodup_flatMap.mpr ⟨fun r _ ↦ ?_, (h.nodup_records entity).imp
        fun hne x hx hy ↦ ?_⟩
      · exact ((h.nodup_records _).filter _).map fun _ _ heq ↦ Option.some.inj
          (congrArg Prod.snd heq)
      · obtain ⟨_, -, rfl⟩ := List.mem_map.mp hx
        obtain ⟨_, -, heq⟩ := List.mem_map.mp hy
        exact hne (congrArg Prod.fst heq).symm

/-- A statement starts from the rows that its scope reaches. -/
theorem reached_iff (h : store.Keyed) {entity : String} {f : Hit}
    (hrecord : f.record ∈ store.records entity)
    (hid : f.record.cell idName = .integer f.record.row.id) : f.Reached store scope ↔
      (f.record, f.link) ∈ scopeRows store entity scope ∧ inScope scope f.record f.link := by
  obtain ⟨r, l⟩ := f
  have hr : r.Keyed := h.record hrecord
  rw [mem_scopeRows, and_iff_right hrecord]
  cases scope with
  | none => exact (and_iff_left rfl).symm
  | some s =>
    unfold Hit.Reached
    dsimp only
    cases hkind : s.relation.kind with
    | owned =>
      refine and_congr_right fun hl ↦ ?_
      obtain rfl : l = none := hl
      rw [inScope_iff (l := none) hr nofun]
      simp only [ownerCell?, hkind, Option.map_some, Option.some.injEq]
    | linked =>
      constructor
      · rintro ⟨l, hl, rfl, htarget, howner⟩
        have hlink : Record.KeyedIf (some l) := fun _ heq ↦ Option.some.inj heq ▸ h.record hl
        refine ⟨⟨l, hl, rfl, ?_⟩, ?_⟩
        · rw [Record.meet_iff hlink (fun _ heq ↦ Option.some.inj heq ▸ hr) (by decide) (by decide)]
          exact ⟨r.row.id, htarget, hid⟩
        · rw [inScope_iff hr hlink]
          simpa [ownerCell?, hkind, Record.cell?] using howner
      · rintro ⟨⟨l, hl, rfl, hmeet⟩, howner⟩
        have hlink : Record.KeyedIf (some l) := fun _ heq ↦ Option.some.inj heq ▸ h.record hl
        rw [Record.meet_iff hlink (fun _ heq ↦ Option.some.inj heq ▸ hr) (by decide) (by decide)]
          at hmeet
        rw [inScope_iff hr hlink] at howner
        obtain ⟨n, htarget, hn⟩ := hmeet
        obtain rfl : n = r.row.id := Cell.integer.inj (hn.symm.trans hid)
        exact ⟨l, hl, rfl, htarget, by simpa [ownerCell?, hkind, Record.cell?] using howner⟩

/-- The rows of a level are those that its statement starts from and keeps. -/
theorem mem_hits (h : store.Models s) (he : e ∈ s.entities)
    (hentity : t.level.entity = e.name) (f : Hit) :
    f ∈ hits store bindings t scope ↔ f.In store bindings t scope := by
  have hkeep : f ∈ hits store bindings t scope ↔
      (f.record, f.link) ∈ scopeRows store t.level.entity scope ∧
      inScope scope f.record f.link ∧ passes store bindings t.level.filter f.record := by
    obtain ⟨r, l⟩ := f
    simp [hits, List.mem_mergeSort]
  rw [hkeep, ← and_assoc]
  constructor
  · rintro ⟨hreached, hpasses⟩
    have hrecord := (scopeRows_keyed h.keyed hreached.1).1
    have hid := h.cell_id he (hentity ▸ hrecord)
    exact ⟨hrecord, (reached_iff h.keyed hrecord hid).mpr hreached, hpasses⟩
  · rintro ⟨hrecord, hreached, hpasses⟩
    have hid := h.cell_id he (hentity ▸ hrecord)
    exact ⟨(reached_iff h.keyed hrecord hid).mp hreached, hpasses⟩

/-! ### Their order -/

/-- What a statement meets are the rows of the level, each once. -/
theorem found_sorted (h : store.Models s) (hs : s.WellFormed) (ht : t.Everywhere s notes) :
    ((found store bindings t scope).mergeSort fun a b ↦ a.order b != .gt) =
      (hits store bindings t scope).map (Hit.found store bindings t) := by
  have hfound : found store bindings t scope =
      (((scopeRows store t.level.entity scope).filter fun (r, l) ↦
        inScope scope r l && passes store bindings t.level.filter r).map
            fun (r, l) ↦ (⟨r, l⟩ : Hit)).map
          (Hit.found store bindings t) := by
    unfold found
    rw [List.map_map, List.map_eq_flatMap]
    refine List.flatMap_congr fun ⟨r, l⟩ hin ↦ ?_
    have hrecord := (scopeRows_keyed h.keyed (List.mem_filter.mp hin).1).1
    dsimp only
    rw [views_eq h hs ht fun _ heq ↦ Option.some.inj heq ▸ hrecord]
    rfl
  rw [hfound, hits]
  exact (List.map_mergeSort (f := Hit.found store bindings t) fun _ _ _ _ ↦ rfl).symm

theorem order_eq_eq {a b : Cell} {n m : Int64} (ha : a = .integer n) (hb : b = .integer m)
    (h : a.order b = .eq) : n = m := by
  rw [ha, hb] at h
  simpa [Cell.order, Int64.toInt_inj] using h

/-- No two rows of a level share their place in the order. -/
theorem Hit.eq_of_order_eq (h : store.Models s) (he : e ∈ s.entities)
    (hentity : t.level.entity = e.name) {f g : Hit} (hf : f.In store bindings t scope)
    (hg : g.In store bindings t scope) (horder : f.order store bindings t g = .eq) : f = g := by
  obtain ⟨-, hrest⟩ := Ordering.then_eq_eq.mp horder
  obtain ⟨hlinks, hids⟩ := Ordering.then_eq_eq.mp hrest
  have hrecord : f.record = g.record := h.keyed.record_ext hf.record hg.record
    (order_eq_eq (h.cell_id he (hentity ▸ hf.record)) (h.cell_id he (hentity ▸ hg.record)) hids)
  have hlink : f.link = g.link := by
    have hreachf := hf.reached
    have hreachg := hg.reached
    unfold Hit.Reached at hreachf hreachg
    cases scope with
    | none => exact hreachf.trans hreachg.symm
    | some s =>
      cases hkind : s.relation.kind with
      | owned =>
        simp only [hkind] at hreachf hreachg
        exact hreachf.1.trans hreachg.1.symm
      | linked =>
        simp only [hkind] at hreachf hreachg
        obtain ⟨l, hl, hlf, -⟩ := hreachf
        obtain ⟨l', hl', hlg, -⟩ := hreachg
        have hcells : (Cell.integer l.row.id).order (.integer l'.row.id) = .eq := by
          simpa [Found.linkCell, Hit.found, hlf, hlg] using hlinks
        rw [hlf, hlg, h.keyed.record_ext hl hl' (order_eq_eq rfl rfl hcells)]
  cases f
  cases g
  exact congrArg₂ Hit.mk hrecord hlink

theorem nodup_hits (h : store.Keyed) : (hits store bindings t scope).Nodup := by
  refine (List.mergeSort_perm _ _).nodup_iff.mpr (((nodup_scopeRows h _ scope).filter _).map ?_)
  rintro ⟨r, l⟩ ⟨r', l'⟩ heq
  cases heq
  rfl

/-- The rows of a level stand in their order. -/
theorem pairwise_hits (h : store.Models s) (hs : s.WellFormed) (he : e ∈ s.entities)
    (hentity : t.level.entity = e.name) (ht : t.Everywhere s notes)
    (hbound : ∀ u ∈ t.nodes, u.Bound bindings) :
    (hits store bindings t scope).Pairwise fun f g ↦ f.order store bindings t g = .lt := by
  have hsorted := pairwise_found store hbound scope
  rw [found_sorted h hs ht, List.pairwise_map] at hsorted
  refine (hsorted.and (nodup_hits h.keyed)).imp_of_mem fun {f g} hf hg hle ↦ ?_
  have hne : f.order store bindings t g ≠ .eq := fun heq ↦ hle.2 <|
    Hit.eq_of_order_eq h he hentity ((mem_hits h he hentity f).mp hf)
      ((mem_hits h he hentity g).mp hg) heq
  have hnot : f.order store bindings t g ≠ .gt := hle.1
  cases horder : f.order store bindings t g with
  | lt => rfl
  | eq => exact absurd horder hne
  | gt => exact absurd horder hnot

/-- No row of a level is there twice for an owner. -/
theorem Hit.eq_of_owner_eq (h : store.Models s) (hs : s.WellFormed) {root : Tree}
    (hroot : root.Everywhere s notes) (hscope : ScopedIn root t scope) {f g : Hit}
    (hf : f.In store bindings t scope) (hg : g.In store bindings t scope)
    (hrecord : f.record = g.record) (howner : f.owner scope = g.owner scope) :
    f = g := by
  have hreachf := hf.reached
  have hreachg := hg.reached
  obtain ⟨r, l⟩ := f
  obtain ⟨r', l'⟩ := g
  obtain rfl : r = r' := hrecord
  refine congrArg (Hit.mk r) ?_
  unfold Hit.Reached at hreachf hreachg
  cases scope with
  | none => exact hreachf.trans hreachg.symm
  | some scope =>
    obtain ⟨u, hu, hrelation, hmany, hsource⟩ := hscope
    obtain ⟨d, hd, hsound⟩ := hroot u hu
    have hleads := hsound.relation _ _ hrelation
    have hparent := hleads.not_parent hs hd hmany
    cases hkind : scope.relation.kind with
    | owned =>
      simp only [hkind] at hreachf hreachg
      exact hreachf.1.trans hreachg.1.symm
    | linked =>
      simp only [hkind] at hreachf hreachg
      obtain ⟨k, hk, rfl, htarget, n, -, hn⟩ := hreachf
      obtain ⟨k', hk', rfl, htarget', m, -, hm⟩ := hreachg
      have heq : n = m := by simpa [Hit.owner, ownerCell?, hkind, Record.cell?, hn, hm] using howner
      obtain ⟨p, hp, c, -, hname, hrel, -⟩ := hleads
      rw [hsource, hsound.entity, ← hname] at hk hk'
      rw [hkind] at hrel
      have hself : ¬p.isParent := by
        rw [Property.isParent, hname]
        exact Bool.eq_false_iff.mp hparent
      exact congrArg some (h.link_ext hd hp hrel hself hk hk' (heq ▸ hn) hm htarget htarget')

theorem nodup_owners (h : store.Models s) (hs : s.WellFormed) (he : e ∈ s.entities)
    (hentity : t.level.entity = e.name) {root : Tree} (hroot : root.Everywhere s notes)
    (hscope : ScopedIn root t scope) :
    ((hits store bindings t scope).map fun f ↦ (f.owner scope, f.record)).Nodup := by
  refine List.Nodup.map_on (fun f hf g hg heq ↦ ?_) (nodup_hits h.keyed)
  obtain ⟨howner, hrecord⟩ := Prod.mk.inj heq
  exact Hit.eq_of_owner_eq h hs hroot hscope ((mem_hits h he hentity f).mp hf)
    ((mem_hits h he hentity g).mp hg) hrecord howner

end Mapping

end EntityStore
