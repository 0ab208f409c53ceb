import EntityStore.Proofs.Mapping.Reading
import EntityStore.Proofs.Mapping.Shape

/-!
Reading a level for many owners at once reads for each of them what it would read for some of the
owners alone: the rows carry the owner they were found for, and neither sorting nor paging mixes
owners.
-/

set_option autoImplicit false

namespace EntityStore

open Query (Tree)

namespace Mapping

variable {store : Store} {bindings : Query.Bindings} {t : Tree} {s : Scope} {ids : List Int64}
  {page : Option PageBounds} {rows : List OwnedRow}

/-! ### The owners of rows -/

/-- A scope for other owners. -/
def Scope.for (s : Scope) (ids : List Int64) : Scope := { s with owners := ids }

theorem scopeRows_keyed (h : store.Keyed) {entity : String} {scope : Option Scope} {r : Record}
    {l : Option Record} (hin : (r, l) ∈ scopeRows store entity scope) :
    r ∈ store.records entity ∧ Record.KeyedIf l := by
  have hplain (hin : (r, l) ∈ (store.records entity).map (·, (none : Option Record))) :
      r ∈ store.records entity ∧ Record.KeyedIf l := by
    obtain ⟨r', hr', heq⟩ := List.mem_map.mp hin
    cases heq
    exact ⟨hr', nofun⟩
  unfold scopeRows at hin
  split at hin
  · exact hplain hin
  · split at hin
    · exact hplain hin
    · obtain ⟨r', hr', hin⟩ := List.mem_flatMap.mp hin
      obtain ⟨l', hl', heq⟩ := List.mem_map.mp hin
      cases heq
      refine ⟨hr', fun l hl ↦ ?_⟩
      cases hl
      exact h.record (List.mem_filter.mp hl').1

/-- A row is in a scope if the cell that tells its owner holds one of the owners. -/
theorem inScope_iff {r : Record} {l : Option Record} (hr : r.Keyed) (hl : Record.KeyedIf l) :
    inScope (some s) r l ↔ ∃ n ∈ s.owners, ownerCell? (some s) r l = some (.integer n) := by
  have hparent : parentName ∈ Record.names := by decide
  have howner : ownerColumn ∈ Record.names := by decide
  unfold inScope ownerCell?
  rw [Option.all_some, List.any_eq_true, Option.map_some]
  refine exists_congr fun n ↦ and_congr_right fun _ ↦ ?_
  cases s.relation.kind with
  | owned => rw [hr.equals_iff hparent, Option.some.injEq]
  | linked =>
    cases l with
    | none => exact iff_of_false nofun nofun
    | some l =>
      have hiff := (hl l rfl).equals_iff howner n
      rw [Option.any_some, hiff, Option.some.injEq]
      rfl

theorem mem_found {scope : Option Scope} {f : Found} (h : f ∈ found store bindings t scope) :
    (f.row, f.link) ∈ scopeRows store t.level.entity scope ∧ inScope scope f.row f.link ∧
      passes store bindings t.level.filter f.row ∧
      f.view ∈ views store bindings 0 t (some f.row) := by
  obtain ⟨⟨r, l⟩, hin, hf⟩ := List.mem_flatMap.mp h
  obtain ⟨v, hv, rfl⟩ := List.mem_map.mp hf
  obtain ⟨hin, hpasses⟩ := List.mem_filter.mp hin
  obtain ⟨hscope, hpasses⟩ := Bool.and_eq_true_iff.mp hpasses
  exact ⟨hin, hscope, hpasses, hv⟩

theorem found_keyed (h : store.Keyed) {scope : Option Scope} {f : Found}
    (hf : f ∈ found store bindings t scope) : f.row.Keyed ∧ Record.KeyedIf f.link := by
  obtain ⟨hrow, hlink⟩ := scopeRows_keyed h (mem_found hf).1
  exact ⟨h.record hrow, hlink⟩

/-- The rows found for some of the owners are those of all that belong to them. -/
theorem found_for (hsub : ids ⊆ s.owners) : found store bindings t (some (s.for ids)) =
    (found store bindings t (some s)).filter fun f ↦ inScope (some (s.for ids)) f.row f.link := by
  have hmono (r : Record) (l : Option Record) (hin : inScope (some (s.for ids)) r l) :
      inScope (some s) r l := by
    obtain ⟨n, hn, hin⟩ := List.any_eq_true.mp hin
    exact List.any_eq_true.mpr ⟨n, hsub hn, hin⟩
  unfold found
  rw [List.filter_flatMap, flatMap_filter, flatMap_filter]
  refine List.flatMap_congr fun ⟨r, l⟩ _ ↦ ?_
  rw [List.filter_map]
  dsimp only [Function.comp_def]
  by_cases hin : inScope (some (s.for ids)) r l
  · simp [hin, hmono r l hin]
  · simp [hin]

/-- The row of a record carries the owner it was found for. -/
theorem record_owner (h : store.Keyed) {f : Found} (hf : f ∈ found store bindings t (some s)) :
    ∃ n ∈ s.owners, ownerCell? (some s) f.row f.link = some (.integer n) ∧
      ∀ c, record t (f.cells (some s)) = .ok (some c) → c.1 = n := by
  obtain ⟨-, hin, -, hview⟩ := mem_found hf
  obtain ⟨hrow, hlink⟩ := found_keyed h hf
  obtain ⟨n, hn, hcell⟩ := (inScope_iff hrow hlink).mp hin
  refine ⟨n, hn, hcell, fun c hc ↦ ?_⟩
  obtain ⟨row, -, heq⟩ := Except.bind_eq_ok.mp hc
  have hat : (f.cells (some s))[width t]? = some (.integer n) := by
    rw [Found.cells, hcell, ← views_wide t hview]
    simp
  rw [hat] at heq
  cases row with
  | none => cases heq
  | some row =>
    cases heq
    rfl

/-! ### Pages -/

/-- Cutting pages for each owner cuts them as for some of the owners alone. -/
theorem filter_pagePerOwner (b : PageBounds) (q : Int64 → Bool) (before : List Int64)
    (rows : List OwnedRow) :
    (pagePerOwner b before rows).filter (fun c ↦ q c.1) =
      pagePerOwner b (before.filter q) (rows.filter fun c ↦ q c.1) := by
  induction rows generalizing before with
  | nil => rfl
  | cons c rows ih =>
    obtain ⟨o, row⟩ := c
    have hrest := ih (o :: before)
    by_cases ho : q o
    · rw [List.filter_cons_of_pos ho] at hrest
      rw [List.filter_cons_of_pos (p := fun c : OwnedRow ↦ q c.1) ho]
      unfold pagePerOwner
      rw [List.count_filter ho]
      dsimp only
      split
      · rw [List.filter_cons_of_pos (p := fun c : OwnedRow ↦ q c.1) ho, hrest]
      · exact hrest
    · rw [List.filter_cons_of_neg ho] at hrest
      rw [List.filter_cons_of_neg (p := fun c : OwnedRow ↦ q c.1) ho, ← hrest]
      conv_lhs => unfold pagePerOwner
      dsimp only
      split
      · rw [List.filter_cons_of_neg (p := fun c : OwnedRow ↦ q c.1) ho]
      · rfl

theorem mem_pagePerOwner {b : PageBounds} {before : List Int64} {c : OwnedRow}
    (h : c ∈ pagePerOwner b before rows) : c ∈ rows := by
  induction rows generalizing before with
  | nil => exact h
  | cons d rows ih =>
    unfold pagePerOwner at h
    dsimp only at h
    split at h
    · rcases List.mem_cons.mp h with rfl | h
      · exact List.mem_cons_self
      · exact List.mem_cons_of_mem _ (ih h)
    · exact List.mem_cons_of_mem _ (ih h)

/-! ### The rows of a level -/

theorem mem_onPages {scope : Option Scope} {c : OwnedRow} (h : c ∈ onPages scope page rows) :
    c ∈ rows := by
  unfold onPages at h
  split at h
  · exact mem_pagePerOwner h
  · exact h

theorem filter_onPages (q : Int64 → Bool) :
    (onPages (some s) page rows).filter (fun c ↦ q c.1) =
      onPages (some (s.for ids)) page (rows.filter fun c ↦ q c.1) := by
  cases page with
  | none => rfl
  | some b => exact filter_pagePerOwner b q [] rows

theorem mem_shown {scope : Option Scope} {f : Found} (h : f ∈ shown store bindings t scope page) :
    f ∈ found store bindings t scope := by
  unfold shown at h
  dsimp only at h
  split at h
  · unfold Select.paged at h
    split at h
    · split at h
      · exact List.mem_mergeSort.mp (List.mem_of_mem_drop h)
      · exact List.mem_mergeSort.mp (List.mem_of_mem_drop (List.mem_of_mem_take h))
    · exact List.mem_mergeSort.mp h
  · exact List.mem_mergeSort.mp h

/-- Every row of a level is the row of a record found. -/
theorem levelRows_mem {scope : Option Scope} (h : levelRows store bindings t scope page = .ok rows)
    {c : OwnedRow} (hc : c ∈ rows) :
    ∃ f ∈ found store bindings t scope, record t (f.cells scope) = .ok (some c) := by
  obtain ⟨records, hrecords, h⟩ := Except.bind_eq_ok.mp h
  cases h
  have hc : some c ∈ records := by simpa using mem_onPages hc
  obtain ⟨f, hf, hrecord⟩ := Except.mapM_ok_mem hrecords hc
  exact ⟨f, mem_shown hf, hrecord⟩

/-- The rows of a level have numbers. -/
theorem levelRows_numbered (h : store.Keyed) {scope : Option Scope}
    (hrows : levelRows store bindings t scope page = .ok rows) : ∀ c ∈ rows, c.2.Numbered := by
  intro c hc
  obtain ⟨f, hf, hrecord⟩ := levelRows_mem hrows hc
  obtain ⟨row, hrow, heq⟩ := Except.bind_eq_ok.mp hrecord
  cases row with
  | none => cases heq
  | some row =>
    cases heq
    exact assembled_numbered h t (fun r hr ↦ Option.some.inj hr ▸ (found_keyed h hf).1)
      (mem_found hf).2.2.2 hrow

/-- A level read for some of the owners answers what it answers for these when it is read for
all. -/
theorem levelRows_for (h : store.Keyed) (hbound : ∀ u ∈ t.nodes, u.Bound bindings)
    (hsub : ids ⊆ s.owners) (hrows : levelRows store bindings t (some s) page = .ok rows) :
    levelRows store bindings t (some (s.for ids)) page =
      .ok (rows.filter fun c ↦ ids.contains c.1) := by
  obtain ⟨records, hrecords, heq⟩ := Except.bind_eq_ok.mp hrows
  cases heq
  have hshown : shown store bindings t (some (s.for ids)) page =
      (shown store bindings t (some s) page).filter fun f ↦ inScope
        (some (s.for ids)) f.row f.link := by
    have hsorted :=
      filter_found store hbound (some s) fun f ↦ inScope (some (s.for ids)) f.row f.link
    rw [← found_for hsub] at hsorted
    exact hsorted.symm
  have howner : ∀ f ∈ shown store bindings t (some s) page, ∀ c, record t
      (f.cells (some s)) = .ok (some c) →
      ids.contains c.1 = inScope (some (s.for ids)) f.row f.link := by
    intro f hf c hc
    obtain ⟨hrow, hlink⟩ := found_keyed h (mem_shown hf)
    obtain ⟨n, -, hcell, hn⟩ := record_owner h (mem_shown hf)
    have hcell' : ownerCell? (some (s.for ids)) f.row f.link = some (.integer n) := hcell
    have hin := inScope_iff (s := s.for ids) hrow hlink
    rw [Bool.eq_iff_iff, hin, hcell', hn c hc, List.contains_iff_mem]
    constructor
    · exact fun hmem ↦ ⟨n, hmem, rfl⟩
    · rintro ⟨m, hm, heq⟩
      cases heq
      exact hm
  obtain ⟨records', hrecords', hfilter⟩ :=
    Except.mapM_filter_ok (q := fun c : OwnedRow ↦ ids.contains c.1) hrecords howner
  refine Except.bind_eq_ok.mpr ⟨records', ?_, ?_⟩
  · rw [hshown]
    exact hrecords'
  · rw [filter_onPages, hfilter]
    rfl

end Mapping

end EntityStore
