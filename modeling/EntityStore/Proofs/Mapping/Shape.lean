import EntityStore.Proofs.Mapping.Keyed
import EntityStore.Proofs.Mapping.Plan
import EntityStore.Proofs.Result.Row

/-!
Views have as many cells as their level has columns, so that rows are assembled from the cells that
are theirs, and the assembled rows have the numbers of the rows they were found at.
-/

set_option autoImplicit false

namespace EntityStore

open Query (Tree)

/-! ### The rows that joins find -/

namespace Store

theorem considered_perm (s : Store) (table : String) : (s.considered table).Perm
    (s.records table) := by
  unfold considered candidates records
  cases s.table? table with
  | none => exact .nil
  | some t =>
    simp only [List.filterMap_map, Function.comp_def, Option.map_some]
    rw [List.filterMap_eq_map']
    refine List.Perm.map _ ?_
    split
    · exact .refl _
    · exact List.mergeSort_perm ..

theorem joinedRows_mem {s : Store} {table : String} {fits : Record → Bool} {c : Option Record}
    (hc : c ∈ s.joinedRows table fits) : c = none ∨ ∃ r ∈ s.records table, fits r ∧ c = some r := by
  unfold joinedRows at hc
  split at hc
  · contradiction
  · split at hc
    · exact .inl (List.mem_singleton.mp hc)
    · next hrows =>
      obtain ⟨r, hr, rfl⟩ := List.mem_map.mp hc
      obtain ⟨hr, hfits⟩ := List.mem_filter.mp hr
      exact .inr ⟨r, (considered_perm s table).mem_iff.mp hr, hfits, rfl⟩

theorem Keyed.joinedRows {s : Store} (h : s.Keyed) {table : String} {fits : Record → Bool}
    {c : Option Record} (hc : c ∈ s.joinedRows table fits) : Record.KeyedIf c := by
  rintro r rfl
  obtain heq | ⟨r', hr', -, heq⟩ := joinedRows_mem hc
  · cases heq
  · cases heq
    exact h.record hr'

end Store

namespace Mapping

variable {store : Store} {bindings : Query.Bindings}

theorem singleRows_keyed (h : store.Keyed) {entity : String} {r : Query.Relation}
    {child : Query.Level} {a c : Option Record}
    (hc : c ∈ singleRows store bindings entity r child a) : Record.KeyedIf c := by
  unfold singleRows at hc
  dsimp only at hc
  split at hc
  · exact h.joinedRows hc
  · split at hc
    · exact h.joinedRows hc
    · obtain ⟨l, -, hc⟩ := List.mem_flatMap.mp hc
      exact h.joinedRows hc

/-! ### How many cells a view has -/

/-- Every view of a tree has a cell for every column. -/
def ViewsWide (store : Store) (bindings : Query.Bindings) (t : Tree) : Prop :=
  ∀ {depth : Nat} {a : Option Record} {v : View}, v ∈ views store bindings depth t a →
    v.cells.length = width t

theorem relationViews_wide {relations : List (Query.Relation × Tree)}
    (ih : ∀ r t, (r, t) ∈ relations → ViewsWide store bindings t) {depth : Nat} {entity : String}
    {a : Option Record} {v : View}
    (hv : v ∈ relationViews store bindings depth entity relations a) :
    v.cells.length = relationsWidth relations := by
  induction relations generalizing v with
  | nil =>
    unfold relationViews at hv
    rw [List.mem_singleton.mp hv]
    rfl
  | cons x rest ihrest =>
    obtain ⟨r, t⟩ := x
    have hrest : ∀ r' t', (r', t') ∈ rest → ViewsWide store bindings t' :=
      fun r' t' hmem ↦ ih r' t' (List.mem_cons_of_mem _ hmem)
    unfold relationViews at hv
    unfold relationsWidth
    split at hv
    · next hmany => rw [if_pos hmany, ihrest hrest hv, Nat.zero_add]
    · next hmany =>
      rw [if_neg hmany]
      obtain ⟨c, -, hv⟩ := List.mem_flatMap.mp hv
      obtain ⟨w, hw, hv⟩ := List.mem_flatMap.mp hv
      obtain ⟨u, hu, rfl⟩ := List.mem_map.mp hv
      rw [View.append, List.length_append, ih r t List.mem_cons_self hw, ihrest hrest hu]

theorem views_wide (t : Tree) : ViewsWide store bindings t := by
  induction t using Tree.induction with
  | node level relations ih =>
    intro depth a v hv
    unfold views at hv
    obtain ⟨w, hw, rfl⟩ := List.mem_map.mp hv
    have hbelow := relationViews_wide ih hw
    rw [View.append, List.length_append, hbelow, View.ofLevel, List.length_cons,
      List.length_map, width]
    omega

/-! ### Assembling rows -/

/-- Fields are values, not rows. -/
theorem readFields_values {fields : List Query.SelectedField} {cells : List Cell} {own : Row}
    (h : readFields fields cells = .ok own) {name : String} {d : Data}
    (hd : own.get? name = some d) :
    ∃ v, d = .value v := by
  have hall := Except.mapM_eq_ok.mp h
  generalize fields.zip cells = pairs at hall
  clear h
  induction hall with
  | nil => cases hd
  | @cons x y xs ys hxy _ ih =>
    obtain ⟨v, -, hv⟩ := Except.bind_eq_ok.mp hxy
    cases hv
    rw [Row.get?_cons] at hd
    split at hd
    · exact ⟨v, (Option.some.inj hd).symm⟩
    · exact ih hd

theorem assemble_node {level : Query.Level}
    {relations : List (Query.Relation × Tree)} {cells : List Cell}
    {row : Row} (h : assemble (.node level relations) cells = .ok (some row)) :
    ∃ id rest own related, cells = .integer id :: rest ∧
      readFields (Plan.ownFields level) rest = .ok own ∧
      assembleRelations relations (rest.drop (Plan.ownFields level).length) = .ok related ∧
      row = (idName, .value (.long id)) :: own ++ related := by
  cases cells with
  | nil => cases h
  | cons c rest =>
    cases c with
    | integer id =>
      obtain ⟨own, hown, h⟩ := Except.bind_eq_ok.mp h
      obtain ⟨related, hrelated, h⟩ := Except.bind_eq_ok.mp h
      cases h
      exact ⟨id, rest, own, related, rfl, hown, hrelated, rfl⟩
    | null | real x | text x | blob x => cases h

/-- Assembling cells that begin with those of a view gives rows with numbers. -/
def AssembledNumbered (store : Store) (bindings : Query.Bindings) (t : Tree) : Prop :=
  ∀ {depth : Nat} {a : Option Record} {v : View} {rest : List Cell} {row : Row}, Record.KeyedIf a →
    v ∈ views store bindings depth t a → assemble t (v.cells ++ rest) = .ok (some row) →
    row.Numbered

theorem assembleRelations_numbered (h : store.Keyed) {relations : List (Query.Relation × Tree)}
    (ih : ∀ r t, (r, t) ∈ relations → AssembledNumbered store bindings t)
    {depth : Nat} {entity : String} {a : Option Record} {v : View}
    {rest : List Cell} {related : Row}
    (hv : v ∈ relationViews store bindings depth entity relations a)
    (hrelated : assembleRelations relations (v.cells ++ rest) = .ok related)
    {name : String} {next : Row} (hnext : related.get? name = some (.one next)) :
    next.Numbered := by
  induction relations generalizing v related with
  | nil =>
    cases hrelated
    cases hnext
  | cons x others ihothers =>
    obtain ⟨r, t⟩ := x
    have hothers : ∀ r' t', (r', t') ∈ others → AssembledNumbered store bindings t' :=
      fun r' t' hmem ↦ ih r' t' (List.mem_cons_of_mem _ hmem)
    unfold relationViews at hv
    unfold assembleRelations at hrelated
    split at hv
    · next hmany =>
      rw [if_pos hmany] at hrelated
      obtain ⟨tail, htail, hrelated⟩ := Except.bind_eq_ok.mp hrelated
      cases hrelated
      rw [Row.get?_cons] at hnext
      split at hnext
      · cases hnext
      · exact ihothers hothers hv htail hnext
    · next hmany =>
      rw [if_neg hmany] at hrelated
      obtain ⟨c, hc, hv⟩ := List.mem_flatMap.mp hv
      obtain ⟨w, hw, hv⟩ := List.mem_flatMap.mp hv
      obtain ⟨u, hu, rfl⟩ := List.mem_map.mp hv
      obtain ⟨inner, hinner, hrelated⟩ := Except.bind_eq_ok.mp hrelated
      obtain ⟨tail, htail, hrelated⟩ := Except.bind_eq_ok.mp hrelated
      cases hrelated
      rw [View.append, List.append_assoc] at hinner htail
      rw [← views_wide t hw, List.drop_left] at htail
      rw [Row.get?_append] at hnext
      cases inner with
      | none => exact ihothers hothers hu htail hnext
      | some row =>
        rw [Option.map_some, Option.toList_some, Row.get?_cons] at hnext
        split at hnext
        · cases hnext
          exact ih r t List.mem_cons_self (singleRows_keyed h hc) hw hinner
        · exact ihothers hothers hu htail hnext

theorem assembled_numbered (h : store.Keyed) (t : Tree) : AssembledNumbered store bindings t := by
  induction t using Tree.induction with
  | node level relations ih =>
    intro depth a v rest row ha hv hrow
    unfold views at hv
    obtain ⟨w, hw, rfl⟩ := List.mem_map.mp hv
    obtain ⟨id, cells, own, related, hcells, hown, hrelated, rfl⟩ := assemble_node hrow
    obtain ⟨hid, rfl⟩ := List.cons.inj hcells
    have hdrop : (((Plan.ownFields level).map fun f ↦ Record.cell? a f.name) ++
          w.cells ++ rest).drop
        (Plan.ownFields level).length = w.cells ++ rest := by
      rw [List.append_assoc, List.drop_left' (List.length_map _)]
    change assembleRelations relations
      ((((Plan.ownFields level).map fun f ↦ Record.cell? a f.name) ++
      w.cells ++ rest).drop (Plan.ownFields level).length) = .ok related at hrelated
    rw [hdrop] at hrelated
    refine Row.numbered_iff.mpr ⟨⟨id, rfl, ?_⟩, fun name next hnext ↦ ?_⟩
    · cases a with
      | none => cases hid
      | some r =>
        have hcell : r.cell idName = .integer id := hid
        rcases (ha r rfl).cell_id with hnull | ⟨hid, hpositive⟩
        · rw [hcell] at hnull
          cases hnull
        · rw [hcell] at hid
          cases hid
          exact Int64.le_of_lt hpositive
    · rw [Row.one?_eq_some, List.cons_append, Row.get?_cons] at hnext
      split at hnext
      · cases hnext
      · rw [Row.get?_append] at hnext
        cases hget : Row.get? own name with
        | none =>
          rw [hget] at hnext
          exact assembleRelations_numbered h ih hw hrelated hnext
        | some d =>
          obtain ⟨v, rfl⟩ := readFields_values hown hget
          rw [hget] at hnext
          cases hnext

end Mapping

end EntityStore
