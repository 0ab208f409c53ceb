import EntityStore.Proofs.Mapping.Owners

/-!
Rows of relations to many rows are read for all owners at once, yet every owner gets what reading
for it alone answers (`read_complete`).
-/

set_option autoImplicit false

namespace EntityStore

namespace Mapping

open Query (Tree)

/-! ### Complete rows -/

mutual

/-- A row holds what its relations lead to, and so do the rows it holds: see `RelationComplete`. -/
def RelationsComplete (store : Store) (bindings : Query.Bindings) (entity : String) :
    List (Query.Relation × Tree) → Row → Prop
  | [], _ => True
  | (r, t) :: rest, row =>
    RelationComplete store bindings entity r t row ∧
      RelationsComplete store bindings entity rest row

/-- Under the name of a relation to many rows a row holds exactly the rows that reading the relation
for it alone answers, in their order, which are complete themselves; a row of a single relation is
complete. -/
def RelationComplete (store : Store) (bindings : Query.Bindings) (entity : String)
    (r : Query.Relation) :
    Tree → Row → Prop
  | .node level relations, row =>
    if r.many then ∃ id children, row.id? = some id ∧
      (readLevel store bindings (.node level relations) (some ⟨entity, r, [id]⟩)).Returns children ∧
        row.get? r.name = some (.many (children.map Prod.snd)) ∧
          ∀ c ∈ children, RelationsComplete store bindings level.entity relations c.2
    else ∀ inner, row.one? r.name = some inner →
      RelationsComplete store bindings level.entity relations inner

end

/-- A row of a level holds what the relations of the level lead to. -/
def Complete (store : Store) (bindings : Query.Bindings) (t : Tree) (row : Row) : Prop :=
  RelationsComplete store bindings t.level.entity t.relations row

/-! ### What is read for one owner -/

/-- The rows that reading a level for a scope answers. -/
def childRows (store : Store) (bindings : Query.Bindings) (t : Tree) (s : Scope) : List Row :=
  match ((readLevel store bindings t (some s)).run ⟨0, []⟩).1 with
  | .ok rows => rows.map Prod.snd
  | .error _ => []

mutual

/-- A row with all its relations to many rows, and those of its single relations, read for it
alone. -/
def completed (store : Store) (bindings : Query.Bindings) (entity : String) :
    List (Query.Relation × Tree) → Row → Row
  | [], row => row
  | (r, t) :: rest, row =>
    completed store bindings entity rest (completedBy store bindings entity r t row)

def completedBy (store : Store) (bindings : Query.Bindings) (entity : String) (r : Query.Relation) :
    Tree → Row → Row
  | .node level relations, row =>
    if r.many then match row.id? with
      | some id =>
        row.set r.name (.many (childRows store bindings (.node level relations) ⟨entity, r, [id]⟩))
      | none => row
    else
      row.modify r.name
        (Data.mapOne fun inner ↦ completed store bindings level.entity relations inner)

end

variable {store : Store} {bindings : Query.Bindings} {entity : String}
  {r : Query.Relation} {t : Tree} {path : List String}

theorem Reading.Returns.childRows {s : Scope} {children : List OwnedRow}
    (h : (readLevel store bindings t (some s)).Returns children) :
    Mapping.childRows store bindings t s = children.map Prod.snd := by
  unfold Mapping.childRows
  rw [h ⟨0, []⟩]

theorem relationComplete_many (hmany : r.many) {row : Row} :
    RelationComplete store bindings entity r t row ↔
    ∃ id children, row.id? = some id ∧
      (readLevel store bindings t (some ⟨entity, r, [id]⟩)).Returns children ∧
      row.get? r.name = some (.many (children.map Prod.snd)) ∧
      ∀ c ∈ children, Complete store bindings t c.2 := by
  cases t
  rw [RelationComplete, if_pos hmany]
  rfl

theorem relationComplete_single (hmany : ¬r.many) {row : Row} :
    RelationComplete store bindings entity r t row ↔
      ∀ inner, row.one? r.name = some inner → Complete store bindings t inner := by
  cases t
  rw [RelationComplete, if_neg hmany]
  rfl

theorem completedBy_many (hmany : r.many) {row : Row} {id : Int64} (hid : row.id? = some id) :
    completedBy store bindings entity r t row =
      row.set r.name (.many (childRows store bindings t ⟨entity, r, [id]⟩)) := by
  cases t
  rw [completedBy, if_pos hmany, hid]

theorem completedBy_single (hmany : ¬r.many) {row : Row} :
    completedBy store bindings entity r t row = row.modify r.name
      (Data.mapOne (completed store bindings t.level.entity t.relations)) := by
  cases t
  rw [completedBy, if_neg hmany]
  rfl

/-! ### Filling rows -/

theorem fillRelation_single (hmany : ¬r.many) (rows : List OwnedRow) :
    fillRelation store bindings entity path r t rows =
      fill store bindings t.level.entity (path ++ [r.name]) t.relations rows := by
  cases t
  rw [fillRelation, if_pos (by simpa using hmany)]
  rfl

theorem fillRelation_many (hmany : r.many) (rows : List OwnedRow) :
    fillRelation store bindings entity path r t rows =
      if (owners path rows).isEmpty then pure rows
      else readLevel store bindings t (some ⟨entity, r, owners path rows⟩) >>= fun children ↦
        pure (rows.map fun (owner, row) ↦ (owner, attach path r.name children row)) := by
  cases t
  rw [fillRelation, if_neg (by simpa using hmany)]
  simp only [readLevel, bind_assoc]
  rfl

/-- A property of actions that answer rows: every answer has it, and what goes on from one with
one. -/
structure Reading.Closed (P : Reading (List OwnedRow) → Prop) : Prop where
  pure : ∀ rows, P (pure rows)
  bind : ∀ {x : Reading (List OwnedRow)} {f : List OwnedRow → Reading (List OwnedRow)}, P x →
    (∀ rows, P (f rows)) → P (x >>= f)

/-- Filling rows has such a property if running the levels below, for whatever owners, has it. -/
theorem fill_closed {P : Reading (List OwnedRow) → Prop} (hP : Reading.Closed P)
    (hrun : ∀ u ∈ t.nodes, ∀ r v, (r, v) ∈ u.relations → r.many →
      ∀ ids, P (runLevel store bindings v (some ⟨u.level.entity, r, ids⟩))) (path : List String)
    (rows : List OwnedRow) :
    P (fill store bindings t.level.entity path t.relations rows) := by
  induction t using Tree.induction generalizing path rows with
  | node level relations ih =>
    have hbelow : ∀ r u, (r, u) ∈ relations →
        (∀ path rows, P (fill store bindings u.level.entity path u.relations rows)) ∧
          (r.many → ∀ ids, P (runLevel store bindings u (some ⟨level.entity, r, ids⟩))) := by
      intro r u hmem
      have hu : u ∈ (Query.Tree.node level relations).nodes := Tree.mem_nodes_relation hmem
      exact ⟨ih r u hmem fun v hv ↦ hrun v (Tree.mem_nodes_trans hu hv),
        hrun _ (Tree.mem_nodes_self _) r u hmem⟩
    clear ih hrun
    change P (fill store bindings level.entity path relations rows)
    induction relations generalizing rows with
    | nil => exact hP.pure rows
    | cons x rest ihrest =>
      obtain ⟨r, u⟩ := x
      obtain ⟨hfill, hrun⟩ := hbelow r u List.mem_cons_self
      have hrest :=
        fun rows ↦ ihrest rows fun r' u' hmem ↦ hbelow r' u' (List.mem_cons_of_mem _ hmem)
      have hfirst : P (fillRelation store bindings level.entity path r u rows) := by
        by_cases hmany : r.many
        · rw [fillRelation_many hmany]
          split
          · exact hP.pure rows
          · exact hP.bind (hP.bind (hrun hmany _) (hfill [])) fun children ↦ hP.pure _
        · rw [fillRelation_single hmany]
          exact hfill _ rows
      exact hP.bind hfirst hrest

/-- What filling rows does is settled for every tree. -/
def FillSettled (store : Store) (bindings : Query.Bindings) (t : Tree) : Prop :=
  ∀ path rows, (fill store bindings t.level.entity path t.relations rows).Settled

theorem readLevel_settled' (h : ∀ u ∈ t.nodes, u.Bound bindings)
    (hfill : FillSettled store bindings t) (scope : Option Scope) :
    (readLevel store bindings t scope).Settled :=
  (runLevel_settled h scope).bind (hfill [])

theorem fillRelation_settled (h : ∀ u ∈ t.nodes, u.Bound bindings)
    (hfill : FillSettled store bindings t) (rows : List OwnedRow) :
    (fillRelation store bindings entity path r t rows).Settled := by
  by_cases hmany : r.many
  · rw [fillRelation_many hmany]
    split
    · exact .pure _
    · exact (readLevel_settled' h hfill _).bind fun children ↦ .pure _
  · rw [fillRelation_single hmany]
    exact hfill _ rows

theorem fillAll_settled {relations : List (Query.Relation × Tree)}
    (h : ∀ r t, (r, t) ∈ relations → (∀ u ∈ t.nodes, u.Bound bindings) ∧
      FillSettled store bindings t)
    (rows : List OwnedRow) : (fill store bindings entity path relations rows).Settled := by
  induction relations generalizing rows with
  | nil => exact .pure rows
  | cons x rest ih =>
    obtain ⟨r, t⟩ := x
    obtain ⟨hbound, hfill⟩ := h r t List.mem_cons_self
    exact (fillRelation_settled hbound hfill rows).bind
      (ih fun r' t' hmem ↦ h r' t' (List.mem_cons_of_mem _ hmem))

theorem fill_settled (h : ∀ u ∈ t.nodes, u.Bound bindings) : FillSettled store bindings t := by
  induction t using Tree.induction with
  | node level relations ih =>
    refine fun path rows ↦ fillAll_settled (fun r t hmem ↦ ?_) rows
    have hbound : ∀ u ∈ t.nodes, u.Bound bindings :=
      fun u hu ↦ h u (Tree.mem_nodes.mpr (.inr ⟨r, t, hmem, hu⟩))
    exact ⟨hbound, ih r t hmem hbound⟩

theorem readLevel_settled (h : ∀ u ∈ t.nodes, u.Bound bindings) (scope : Option Scope) :
    (readLevel store bindings t scope).Settled :=
  readLevel_settled' h (fill_settled h) scope

/-! ### What completing a row changes -/

/-- A tree with all arguments it asks for, whose relations have other names than the row number. -/
structure Suited (bindings : Query.Bindings) (t : Tree) : Prop where
  bound : ∀ u ∈ t.nodes, u.Bound bindings
  other : ∀ u ∈ t.nodes, ∀ x ∈ u.relations, x.1.name ≠ idName

theorem Suited.node (h : Suited bindings t) {u : Tree} (hu : u ∈ t.nodes) : Suited bindings u := by
  have hsub : ∀ v ∈ u.nodes, v ∈ t.nodes := fun v hv ↦ Tree.mem_nodes_trans hu hv
  exact ⟨fun v hv ↦ h.bound v (hsub v hv), fun v hv ↦ h.other v (hsub v hv)⟩

theorem Suited.relation (h : Suited bindings t) {u : Tree} (hu : (r, u) ∈ t.relations) :
    Suited bindings u :=
  h.node (Tree.mem_nodes_relation hu)

/-- A tree with all arguments it asks for, whose relations have at every level different names, none
of them that of the row number. -/
structure Fillable (bindings : Query.Bindings) (t : Tree) : Prop where
  bound : ∀ u ∈ t.nodes, u.Bound bindings
  names : ∀ u ∈ t.nodes, (u.relations.map fun x ↦ x.1.name).Nodup
  other : ∀ u ∈ t.nodes, ∀ x ∈ u.relations, x.1.name ≠ idName

theorem Fillable.node (h : Fillable bindings t) {u : Tree} (hu : u ∈ t.nodes) :
    Fillable bindings u := by
  have hsub : ∀ v ∈ u.nodes, v ∈ t.nodes := fun v hv ↦ Tree.mem_nodes_trans hu hv
  exact ⟨fun v hv ↦ h.bound v (hsub v hv), fun v hv ↦ h.names v (hsub v hv),
    fun v hv ↦ h.other v (hsub v hv)⟩

theorem Fillable.suited (h : Fillable bindings t) : Suited bindings t :=
  ⟨h.bound, h.other⟩

theorem Fillable.relation (h : Fillable bindings t) {u : Tree} (hu : (r, u) ∈ t.relations) :
    Fillable bindings u :=
  h.node (Tree.mem_nodes_relation hu)

theorem completedBy_get? (store : Store) (bindings : Query.Bindings) (entity : String)
    (t : Tree) {name : String} (hname : r.name ≠ name) (row : Row) :
    (completedBy store bindings entity r t row).get? name = row.get? name := by
  by_cases hmany : r.many
  · cases hid : row.id? with
    | none =>
      cases t
      rw [completedBy, if_pos hmany, hid]
    | some id => rw [completedBy_many hmany hid, Row.get?_set, if_neg hname]
  · rw [completedBy_single hmany, Row.get?_modify, if_neg hname]

/-- What stands under other names than those of the relations stays. -/
theorem completed_get? {relations : List (Query.Relation × Tree)} {name : String}
    (hname : ∀ x ∈ relations, x.1.name ≠ name) (row : Row) :
    (completed store bindings entity relations row).get? name = row.get? name := by
  induction relations generalizing row with
  | nil => rfl
  | cons x rest ih =>
    obtain ⟨r, t⟩ := x
    unfold completed
    rw [ih fun x hx ↦ hname x (List.mem_cons_of_mem _ hx),
      completedBy_get? store bindings entity t (hname (r, t) List.mem_cons_self)]

theorem completed_id? {relations : List (Query.Relation × Tree)}
    (hname : ∀ x ∈ relations, x.1.name ≠ idName) (row : Row) :
    (completed store bindings entity relations row).id? = row.id? := by
  unfold Row.id?
  rw [completed_get? hname]

theorem completedBy_numbered (hname : r.name ≠ idName)
    (ht : ∀ row : Row, row.Numbered →
      (completed store bindings t.level.entity t.relations row).Numbered)
    {row : Row} (hrow : row.Numbered) : (completedBy store bindings entity r t row).Numbered := by
  by_cases hmany : r.many
  · obtain ⟨⟨id, hid, -⟩, -⟩ := Row.numbered_iff.mp hrow
    rw [completedBy_many hmany hid]
    exact hrow.set hname _
  · rw [completedBy_single hmany]
    exact hrow.modify fun inner hinner ↦ ht inner ((Row.numbered_iff.mp hrow).2 _ _ hinner)

/-- Completing rows keeps their numbers. -/
theorem completed_numbered (h : Suited bindings t) {row : Row} (hrow : row.Numbered) :
    (completed store bindings t.level.entity t.relations row).Numbered := by
  induction t using Tree.induction generalizing row with
  | node level relations ih =>
    have hbelow : ∀ r t, (r, t) ∈ relations → r.name ≠ idName ∧
        ∀ row : Row, row.Numbered →
        (completed store bindings t.level.entity t.relations row).Numbered :=
      fun r t hmem ↦ ⟨h.other _ (Tree.mem_nodes_self _) (r, t) hmem,
        fun row ↦ ih r t hmem (h.relation (t := .node level relations) hmem)⟩
    clear h ih
    change (completed store bindings level.entity relations row).Numbered
    induction relations generalizing row with
    | nil => exact hrow
    | cons x rest ihrest =>
      obtain ⟨r, t⟩ := x
      obtain ⟨hname, ht⟩ := hbelow r t List.mem_cons_self
      exact ihrest (completedBy_numbered hname ht hrow) fun r' t' hmem ↦ hbelow r' t'
        (List.mem_cons_of_mem _ hmem)

/-! ### Owners -/

theorem mem_owners {n : Int64} {rows : List OwnedRow} : n ∈ owners path rows ↔
    0 ≤ n ∧ ∃ c ∈ rows, ∃ inner, c.2.at? path = some inner ∧ inner.id? = some n := by
  unfold owners
  rw [List.mem_eraseDups, List.mem_mergeSort, List.mem_filter, List.mem_filterMap,
    and_comm, decide_eq_true_iff]
  simp only [Option.bind_eq_some_iff]

theorem owners_subset (path : List String) {rows sub : List OwnedRow} (hsub : sub ⊆ rows) :
    owners path sub ⊆ owners path rows := by
  intro n hn
  obtain ⟨hpositive, c, hc, hinner⟩ := mem_owners.mp hn
  exact mem_owners.mpr ⟨hpositive, c, hsub hc, hinner⟩

/-- Rows with numbers that stand at a path are among the owners. -/
theorem owners_of_numbered {rows : List OwnedRow} (h : ∀ c ∈ rows, c.2.Numbered)
    {c : OwnedRow} (hc : c ∈ rows) {inner : Row} (hinner : c.2.at? path = some inner) :
    ∃ id, inner.id? = some id ∧ id ∈ owners path rows := by
  obtain ⟨id, hid, hpositive⟩ := h c hc path inner hinner
  exact ⟨id, hid, mem_owners.mpr ⟨hpositive, c, hc, inner, hinner, hid⟩⟩

/-! ### One owner at a time -/

/-- Rows with what is done to those at a path. -/
def changedAt (path : List String) (f : Row → Row) (rows : List OwnedRow) : List OwnedRow :=
  rows.map fun c ↦ (c.1, Row.modifyAt f path c.2)

theorem changedAt_subset {f : Row → Row} {rows sub : List OwnedRow} (h : sub ⊆ rows) :
    changedAt path f sub ⊆ changedAt path f rows :=
  List.map_subset _ h

theorem changedAt_numbered {f : Row → Row} {rows : List OwnedRow} (h : ∀ c ∈ rows, c.2.Numbered)
    (hf : ∀ row, row.Numbered → (f row).Numbered) : ∀ c ∈ changedAt path f rows, c.2.Numbered := by
  intro c hc
  obtain ⟨d, hd, rfl⟩ := List.mem_map.mp hc
  exact (h d hd).modifyAt fun inner hinner ↦ hf inner ((h d hd).at? hinner)

/-- Filling some rows changes each of them as it would alone; what fills many rows fills some of
them. -/
def Fills (store : Store) (bindings : Query.Bindings) (t : Tree) : Prop :=
  ∀ {path : List String} {rows rows' sub : List OwnedRow}, (∀ c ∈ rows, c.2.Numbered) →
    (fill store bindings t.level.entity path t.relations rows).Returns rows' → sub ⊆ rows →
      (fill store bindings t.level.entity path t.relations sub).Returns
        (changedAt path (completed store bindings t.level.entity t.relations) sub)

/-- The rows that reading a level answers are those of its statement, completed. -/
theorem readLevel_returns (hstore : store.Keyed) (h : Suited bindings t)
    (hfills : Fills store bindings t) {scope : Option Scope} {children : List OwnedRow}
    (hread : (readLevel store bindings t scope).Returns children) :
    ∃ rows page, LevelServed store bindings t scope ∧ pageBounds bindings t.level = .ok page ∧
      levelRows store bindings t scope page = .ok rows ∧ (∀ c ∈ rows, c.2.Numbered) ∧
        (fill store bindings t.level.entity [] t.relations rows).Returns children ∧
          children = changedAt [] (completed store bindings t.level.entity t.relations) rows := by
  obtain ⟨rows, hrun, hfill⟩ := ((runLevel_settled h.bound scope).returns_bind
    (fill_settled h.bound [])).mp hread
  obtain ⟨hserved, page, hpage, hrows⟩ := (runLevel_returns h.bound).mp hrun
  have hnumbered := levelRows_numbered hstore hrows
  exact ⟨rows, page, hserved, hpage, hrows, hnumbered, hfill,
    hfill.unique (hfills hnumbered hfill (List.Subset.refl rows))⟩

/-- Reading a level for some of the owners gives them what it gives them among all. -/
theorem readLevel_for (hstore : store.Keyed) (h : Suited bindings t)
    (hfills : Fills store bindings t) {s : Scope} {children : List OwnedRow}
    (hread : (readLevel store bindings t (some s)).Returns children)
    {ids : List Int64} (hsub : ids ⊆ s.owners) :
    (readLevel store bindings t (some (s.for ids))).Returns
      (children.filter fun c ↦ ids.contains c.1) := by
  obtain ⟨rows, page, hserved, hpage, hrows, hnumbered, hfill, rfl⟩ :=
    readLevel_returns hstore h hfills hread
  have hrun : (runLevel store bindings t (some (s.for ids))).Returns
      (rows.filter fun c ↦ ids.contains c.1) :=
    (runLevel_returns h.bound).mpr ⟨⟨hserved.tree, hserved.filter, hserved.scope⟩, page, hpage,
      levelRows_for hstore h.bound hsub hrows⟩
  have hfilter : (changedAt [] (completed store bindings t.level.entity t.relations) rows).filter
      (fun c ↦ ids.contains c.1) = changedAt []
        (completed store bindings t.level.entity t.relations)
          (rows.filter fun c ↦ ids.contains c.1) := List.filter_map
  rw [hfilter]
  exact hrun.bind (hfills hnumbered hfill (List.filter_subset_self rows))

/-- Of the rows read for many owners, those of one owner are the rows read for it alone. -/
theorem childRows_owner (hstore : store.Keyed) (h : Suited bindings t)
    (hfills : Fills store bindings t) {s : Scope} {children : List OwnedRow}
    (hread : (readLevel store bindings t (some s)).Returns children)
    {id : Int64} (hid : id ∈ s.owners) :
    (children.filter fun c ↦ c.1 == id).map Prod.snd = childRows store bindings t (s.for [id]) := by
  have hone := readLevel_for hstore h hfills hread (List.cons_subset.mpr ⟨hid, List.nil_subset _⟩)
  rw [hone.childRows]
  exact congrArg (List.map Prod.snd) (List.filter_congr fun c _ ↦ Bool.eq_iff_iff.mpr (by simp))

/-- Filling a relation to many rows. -/
theorem fillRelation_many_fills (hstore : store.Keyed) (h : Suited bindings t)
    (hfills : Fills store bindings t) (hmany : r.many) {rows rows' sub : List OwnedRow}
    (hnumbered : ∀ c ∈ rows, c.2.Numbered)
    (hfill : (fillRelation store bindings entity path r t rows).Returns rows') (hsub : sub ⊆ rows) :
    (fillRelation store bindings entity path r t sub).Returns
      (changedAt path (completedBy store bindings entity r t) sub) := by
  have hsubnumbered : ∀ c ∈ sub, c.2.Numbered := fun c hc ↦ hnumbered c (hsub hc)
  rw [fillRelation_many hmany] at hfill ⊢
  by_cases hempty : (owners path sub).isEmpty
  · -- no row stands at the path
    have hsame : changedAt path (completedBy store bindings entity r t) sub = sub := by
      refine (List.map_congr_left fun c hc ↦ ?_).trans (List.map_id sub)
      refine Prod.ext rfl
        ((Row.modifyAt_congr fun inner hinner ↦ ?_).trans (Row.modifyAt_id path c.2))
      obtain ⟨id, -, hin⟩ := owners_of_numbered hsubnumbered hc hinner
      rw [List.isEmpty_iff.mp hempty] at hin
      contradiction
    rw [if_pos hempty, hsame]
    exact .pure sub
  · have hall : ¬(owners path rows).isEmpty := by
      intro hnone
      have hnil := owners_subset path hsub
      rw [List.isEmpty_iff.mp hnone] at hnil
      exact hempty (List.isEmpty_iff.mpr (List.subset_nil.mp hnil))
    rw [if_neg hempty]
    rw [if_neg hall] at hfill
    obtain ⟨children, hread, -⟩ :=
      ((readLevel_settled h.bound _).returns_bind fun _ ↦ .pure _).mp hfill
    have hsome := readLevel_for hstore h hfills hread (owners_subset path hsub)
    have hattach : (sub.map fun (owner, row) ↦ (owner, attach path r.name
        (children.filter fun c ↦ (owners path sub).contains c.1) row)) =
          changedAt path (completedBy store bindings entity r t) sub := by
      refine List.map_congr_left fun c hc ↦ Prod.ext rfl (Row.modifyAt_congr fun inner hinner ↦ ?_)
      obtain ⟨id, hid, hin⟩ := owners_of_numbered hsubnumbered hc hinner
      rw [completedBy_many hmany hid, hid]
      exact congrArg (fun rows ↦ inner.set r.name (.many rows))
        (childRows_owner hstore h hfills hsome hin)
    rw [← hattach]
    exact hsome.bind (.pure _)

theorem fillRelation_fills (hstore : store.Keyed) (h : Suited bindings t)
    (hfills : Fills store bindings t) {rows rows' sub : List OwnedRow}
    (hnumbered : ∀ c ∈ rows, c.2.Numbered)
    (hfill : (fillRelation store bindings entity path r t rows).Returns rows') (hsub : sub ⊆ rows) :
    (fillRelation store bindings entity path r t sub).Returns
      (changedAt path (completedBy store bindings entity r t) sub) := by
  by_cases hmany : r.many
  · exact fillRelation_many_fills hstore h hfills hmany hnumbered hfill hsub
  · rw [fillRelation_single hmany] at hfill ⊢
    have hpath : changedAt path (completedBy store bindings entity r t) sub =
        changedAt (path ++ [r.name]) (completed store bindings t.level.entity t.relations) sub := by
      refine List.map_congr_left fun c _ ↦ Prod.ext rfl ?_
      rw [Row.modifyAt_append]
      exact Row.modifyAt_congr fun inner _ ↦ completedBy_single hmany
    rw [hpath]
    exact hfills hnumbered hfill hsub

theorem fills (hstore : store.Keyed) (h : Suited bindings t) : Fills store bindings t := by
  induction t using Tree.induction with
  | node level relations ih =>
    have hbelow : ∀ r t, (r, t) ∈ relations → r.name ≠ idName ∧ Suited bindings t ∧
        Fills store bindings t :=
      fun r t hmem ↦
        have ht := h.relation (t := .node level relations) hmem
        ⟨h.other _ (Tree.mem_nodes_self _) (r, t) hmem, ht, ih r t hmem ht⟩
    clear h ih
    intro path rows rows' sub hnumbered hfill hsub
    change (fill store bindings level.entity path relations rows).Returns rows' at hfill
    change (fill store bindings level.entity path relations sub).Returns
      (changedAt path (completed store bindings level.entity relations) sub)
    induction relations generalizing rows sub with
    | nil =>
      have hsame : changedAt path (completed store bindings level.entity []) sub = sub := by
        refine (List.map_congr_left fun c _ ↦ ?_).trans (List.map_id sub)
        exact Prod.ext rfl (Row.modifyAt_id path c.2)
      rw [hsame]
      exact .pure sub
    | cons x rest ihrest =>
      obtain ⟨r, t⟩ := x
      obtain ⟨hname, ht, hfills⟩ := hbelow r t List.mem_cons_self
      have hrest := fun r' t' hmem ↦ hbelow r' t' (List.mem_cons_of_mem _ hmem)
      obtain ⟨rows₁, hfirst, hothers⟩ :=
        ((fillRelation_settled ht.bound (fill_settled ht.bound) rows).returns_bind
        (fillAll_settled fun r' t' hmem ↦ ⟨(hrest r' t' hmem).2.1.bound,
          fill_settled (hrest r' t' hmem).2.1.bound⟩)).mp hfill
      have hall := fillRelation_fills hstore ht hfills hnumbered hfirst (List.Subset.refl rows)
      obtain rfl := hfirst.unique hall
      have hnumbered₁ : ∀ c ∈ changedAt path (completedBy store bindings level.entity r t) rows,
          c.2.Numbered :=
        changedAt_numbered hnumbered fun row ↦ completedBy_numbered hname
          fun row ↦ completed_numbered ht
      have hsome := fillRelation_fills hstore ht hfills hnumbered hfirst hsub
      have hlast := ihrest hrest hnumbered₁ (changedAt_subset hsub) hothers
      have hcompose : changedAt path (completed store bindings level.entity rest)
          (changedAt path (completedBy store bindings level.entity r t) sub) =
            changedAt path (completed store bindings level.entity ((r, t) :: rest)) sub := by
        unfold changedAt
        rw [List.map_map]
        refine List.map_congr_left fun c _ ↦ Prod.ext rfl ?_
        exact (Row.modifyAt_modifyAt _ _ path c.2).trans (Row.modifyAt_congr fun inner _ ↦ by
          rw [completed]; rfl)
      rw [← hcompose]
      exact hsome.bind hlast

/-! ### Rows are complete -/

/-- A row that was filled is complete once it is completed. -/
def Completes (store : Store) (bindings : Query.Bindings) (t : Tree) : Prop :=
  ∀ {path : List String} {rows rows' : List OwnedRow}, (∀ c ∈ rows, c.2.Numbered) →
    (fill store bindings t.level.entity path t.relations rows).Returns rows' →
      ∀ c ∈ rows, ∀ inner, c.2.at? path = some inner →
        Complete store bindings t (completed store bindings t.level.entity t.relations inner)

theorem readLevel_complete (hstore : store.Keyed) (h : Fillable bindings t)
    (hcompletes : Completes store bindings t) {scope : Option Scope} {children : List OwnedRow}
    (hread : (readLevel store bindings t scope).Returns children) :
    ∀ c ∈ children, Complete store bindings t c.2 := by
  obtain ⟨rows, page, -, -, -, hnumbered, hfill, rfl⟩ :=
    readLevel_returns hstore h.suited (fills hstore h.suited) hread
  intro c hc
  obtain ⟨d, hd, rfl⟩ := List.mem_map.mp hc
  exact hcompletes hnumbered hfill d hd d.2 rfl

/-- What is complete for a relation stays so when what stands under other names changes. -/
theorem RelationComplete.congr {row row' : Row} (h : RelationComplete store bindings entity r t row)
    (hid : row'.id? = row.id?) (hget : row'.get? r.name = row.get? r.name) :
    RelationComplete store bindings entity r t row' := by
  by_cases hmany : r.many
  · rw [relationComplete_many hmany] at h ⊢
    rwa [hid, hget]
  · rw [relationComplete_single hmany] at h ⊢
    intro inner hinner
    refine h inner ?_
    rwa [Row.one?_eq_some, ← hget, ← Row.one?_eq_some]

theorem completedBy_complete (hstore : store.Keyed) (h : Fillable bindings t)
    (hcompletes : Completes store bindings t) {rows rows' : List OwnedRow}
    (hnumbered : ∀ c ∈ rows, c.2.Numbered) (hname : r.name ≠ idName)
    (hfill : (fillRelation store bindings entity path r t rows).Returns rows')
    {c : OwnedRow} (hc : c ∈ rows) {inner : Row} (hinner : c.2.at? path = some inner) :
    RelationComplete store bindings entity r t (completedBy store bindings entity r t inner) := by
  by_cases hmany : r.many
  · obtain ⟨id, hid, hin⟩ := owners_of_numbered hnumbered hc hinner
    have hsome : ¬(owners path rows).isEmpty := by
      intro hempty
      rw [List.isEmpty_iff.mp hempty] at hin
      contradiction
    rw [fillRelation_many hmany, if_neg hsome] at hfill
    obtain ⟨children, hread, -⟩ :=
      ((readLevel_settled h.bound _).returns_bind fun _ ↦ .pure _).mp hfill
    have hone := readLevel_for hstore h.suited (fills hstore h.suited) hread
      (List.cons_subset.mpr ⟨hin, List.nil_subset _⟩)
    rw [relationComplete_many hmany, completedBy_many hmany hid]
    refine ⟨id, _, ?_, hone, ?_, readLevel_complete hstore h hcompletes hone⟩
    · unfold Row.id? at hid ⊢
      rwa [Row.get?_set, if_neg hname]
    · rw [Row.get?_set, if_pos rfl, ← hone.childRows]
      rfl
  · rw [fillRelation_single hmany] at hfill
    rw [relationComplete_single hmany, completedBy_single hmany]
    intro next hnext
    rw [Row.one?_modify, if_pos rfl] at hnext
    obtain ⟨old, hold, rfl⟩ := Option.map_eq_some_iff.mp hnext
    refine hcompletes hnumbered hfill c hc old ?_
    rw [Row.at?_append, hinner]
    exact hold

theorem completes (hstore : store.Keyed) (h : Fillable bindings t) :
    Completes store bindings t := by
  induction t using Tree.induction with
  | node level relations ih =>
    have hnames : (relations.map fun x ↦ x.1.name).Nodup := h.names _ (Tree.mem_nodes_self _)
    have hbelow : ∀ r t, (r, t) ∈ relations → r.name ≠ idName ∧ Fillable bindings t ∧
        Completes store bindings t :=
      fun r t hmem ↦
        have ht := h.relation (t := .node level relations) hmem
        ⟨h.other _ (Tree.mem_nodes_self _) (r, t) hmem, ht, ih r t hmem ht⟩
    clear h ih
    intro path rows rows' hnumbered hfill c hc inner hinner
    change (fill store bindings level.entity path relations rows).Returns rows' at hfill
    change RelationsComplete store bindings level.entity relations
      (completed store bindings level.entity relations inner)
    induction relations generalizing rows c inner with
    | nil => trivial
    | cons x rest ihrest =>
      obtain ⟨r, t⟩ := x
      obtain ⟨hname, ht, hcompletes⟩ := hbelow r t List.mem_cons_self
      have hrest := fun r' t' hmem ↦ hbelow r' t' (List.mem_cons_of_mem _ hmem)
      obtain ⟨rows₁, hfirst, hothers⟩ :=
        ((fillRelation_settled ht.bound (fill_settled ht.bound) rows).returns_bind
        (fillAll_settled fun r' t' hmem ↦ ⟨(hrest r' t' hmem).2.1.bound,
          fill_settled (hrest r' t' hmem).2.1.bound⟩)).mp hfill
      obtain rfl := hfirst.unique
        (fillRelation_fills hstore ht.suited (fills hstore ht.suited) hnumbered hfirst
          (List.Subset.refl rows))
      have hnumbered₁ : ∀ c ∈ changedAt path (completedBy store bindings level.entity r t) rows,
          c.2.Numbered :=
        changedAt_numbered hnumbered fun row ↦ completedBy_numbered hname
          fun row ↦ completed_numbered ht.suited
      have hinner₁ :
          (Row.modifyAt (completedBy store bindings level.entity r t) path c.2).at? path =
          some (completedBy store bindings level.entity r t inner) := by
        rw [Row.at?_modifyAt, hinner]
        rfl
      rw [List.map_cons, List.nodup_cons] at hnames
      have hothername (x : Query.Relation × Tree) (hx : x ∈ rest) : x.1.name ≠ r.name := by
        intro heq
        exact hnames.1 (List.mem_map.mpr ⟨x, hx, heq⟩)
      have hdone := completedBy_complete hstore ht hcompletes hnumbered hname hfirst hc hinner
      refine ⟨hdone.congr ?_ ?_,
        ihrest hnames.2 hrest hnumbered₁ _ (List.mem_map_of_mem hc) _ hinner₁ hothers⟩
      · rw [completed, completed_id? fun x hx ↦ (hrest x.1 x.2 hx).1]
      · rw [completed, completed_get? hothername]

theorem compileQuery_suited {s : Schema} (hs : s.Reachable) {form : Language.QueryForm Value Int64}
    {q : Query.Compiled} (hq : s.compileQuery form = .ok q) {slots : Slots} {args : Args}
    (hb : Query.bind q.parameters slots args = .ok bindings) : Suited bindings q.tree := by
  obtain ⟨-, notes, hsound, -⟩ := Query.compileQuery_sound hs.wellFormed hq
  refine ⟨Query.compileQuery_bound hs.wellFormed hq hb, fun u hu x hx hname ↦ ?_⟩
  obtain ⟨e, he, hu⟩ := hsound u hu
  obtain ⟨p, hp, child, -, hpname, hrelation, -⟩ := hu.relation x.1 x.2 hx
  -- the only property with the name of the row number is a field
  rw [(hs.wellFormed.entity e he).eq_id hp (hpname.trans hname)] at hrelation
  cases hrelation

/-- The trees of compiled queries that select no relation twice at one level can be filled. -/
theorem compileQuery_fillable {s : Schema} (hs : s.Reachable)
    {form : Language.QueryForm Value Int64} {q : Query.Compiled} (hq : s.compileQuery form = .ok q)
    (hnames : ∀ u ∈ q.tree.nodes, (u.relations.map fun x ↦ x.1.name).Nodup)
    {slots : Slots} {args : Args} (hb : Query.bind q.parameters slots args = .ok bindings) :
    Fillable bindings q.tree :=
  have hsuited := compileQuery_suited hs hq hb
  ⟨hsuited.bound, hnames, hsuited.other⟩

/-- The persons whose friend is Bob are read by a query that is not cut and asks for no relation
twice. -/
theorem friends_read : ∃ q, (Schema.empty.after friendsCalls).compileQuery friendsForm = .ok q ∧
    Query.bind q.parameters .empty [("friend", .value (.text "Bob"))] =
      .ok [("friend", .text "Bob")] ∧
    (∀ u ∈ q.tree.nodes, (u.relations.map fun x ↦ x.1.name).Nodup) ∧ q.tree.level.limit = none ∧
    ∃ rows, (read friendsStore [("friend", .text "Bob")] q.tree).1 = .ok rows :=
  ⟨_, rfl, rfl, by decide, rfl, Except.isOk_iff.mp (by decide +kernel)⟩

/-- The rows that reading a compiled query answers are complete: each row, the related rows it holds
along single relations and, further down, the rows of its lists, hold under the name of each
relation to many rows the rows that reading the relation for this one owner answers. -/
theorem read_complete {s : Schema} (hs : s.Reachable) {form : Language.QueryForm Value Int64}
    {q : Query.Compiled} (hq : s.compileQuery form = .ok q)
    (hnames : ∀ u ∈ q.tree.nodes, (u.relations.map fun x ↦ x.1.name).Nodup)
    {slots : Slots} {args : Args} (hb : Query.bind q.parameters slots args = .ok bindings)
    (hstore : store.Keyed) {rows : List Row} (h : (read store bindings q.tree).1 = .ok rows) :
    ∀ row ∈ rows, Complete store bindings q.tree row := by
  have hfillable := compileQuery_fillable hs hq hnames hb
  obtain ⟨children, progress, hread, hrows⟩ := Reading.run_bind_ok h
  have hreturns := readLevel_settled hfillable.bound none _ _ (congrArg Prod.fst hread)
  cases hrows
  intro row hrow
  obtain ⟨c, hc, rfl⟩ := List.mem_map.mp hrow
  exact readLevel_complete hstore hfillable (completes hstore hfillable) hreturns c hc

theorem read_complete_of_friends :
    ∃ q rows, (Schema.empty.after friendsCalls).compileQuery friendsForm = .ok q ∧
      Query.bind q.parameters .empty [("friend", .value (.text "Bob"))] =
        .ok [("friend", .text "Bob")] ∧
      (read friendsStore [("friend", .text "Bob")] q.tree).1 = .ok rows ∧
      ∀ row ∈ rows, Complete friendsStore [("friend", .text "Bob")] q.tree row := by
  have hs : (Schema.empty.after friendsCalls).Reachable := ⟨friendsCalls, rfl⟩
  obtain ⟨q, hq, hb, hnames, -, rows, hrows⟩ := friends_read
  exact ⟨q, rows, hq, hb, hrows, read_complete hs hq hnames hb (by decide) hrows⟩

end Mapping

end EntityStore
