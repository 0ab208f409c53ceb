import EntityStore.Proofs.Mapping.Paging
import EntityStore.Proofs.Mapping.Safety

/-!
Pages at all levels. Reading a tree answers what reading it without limits and pages answers, when
the rows of every level, and of every list in them, are cut to their page (`Follows.reads`,
`follows`). Relations are filled one after the other, each with a statement for all owners that the
rows have by then; so it is kept that these are owners that the tree without pages has as well
(`OwnersAmong`), and that cutting a relation to its page does not touch the others.
-/

set_option autoImplicit false

namespace EntityStore

open Query (Tree unpagedRelations unpagedRelations_eq_map forall_mem_unpagedRelations)

namespace Mapping

/-! ### Rows with the pages below them -/

mutual

/-- A row with the pages of its relations. -/
def cutRelations (b : Query.Bindings) : List (Query.Relation × Tree) → Row → Row
  | [], row => row
  | (r, t) :: rest, row => cutRelations b rest (cutBy b r t row)

/-- A row with the page of a relation, whose rows have their own pages. -/
def cutBy (b : Query.Bindings) (r : Query.Relation) : Tree → Row → Row
  | .node level relations, row => row.modify r.name <|
    if r.many then Data.mapMany fun rows ↦ (level.cut b rows).map (cutRelations b relations)
    else Data.mapOne (cutRelations b relations)

end

/-- The page of a level, whose rows have the pages below them. -/
def cutRows (b : Query.Bindings) (t : Tree) (rows : List Row) : List Row :=
  (t.level.cut b rows).map (cutRelations b t.relations)

section

variable {store : Store} {bindings : Query.Bindings} {entity : String}
  {r : Query.Relation} {t : Tree} {relations : List (Query.Relation × Tree)} {path : List String}

theorem cutBy_many (hmany : r.many) (row : Row) :
    cutBy bindings r t row = row.modify r.name (Data.mapMany (cutRows bindings t)) := by
  cases t
  rw [cutBy, if_pos hmany]
  rfl

theorem cutBy_single (hmany : ¬r.many) (row : Row) :
    cutBy bindings r t row = row.modify r.name
      (Data.mapOne (cutRelations bindings t.relations)) := by
  cases t
  rw [cutBy, if_neg hmany]
  rfl

/-- A page changes what stands under the name of its relation. -/
theorem exists_cutBy_eq (b : Query.Bindings) (r : Query.Relation) (t : Tree) :
    ∃ f, ∀ row, cutBy b r t row = row.modify r.name f := by
  cases t
  exact ⟨_, fun row ↦ by rw [cutBy]⟩

/-! ### Completing rows and changing other entries -/

theorem completedBy_modify {name : String} (hname : r.name ≠ name)
    (hid : name ≠ idName) (f : Data → Data) (row : Row) :
      completedBy store bindings entity r t (row.modify name f) =
        (completedBy store bindings entity r t row).modify name f := by
  by_cases hmany : r.many
  · have hsame := Row.id?_modify_ne hid f row
    cases hrow : row.id? with
    | none =>
      cases t
      rw [completedBy, completedBy, if_pos hmany, if_pos hmany, hsame, hrow]
    | some id =>
      rw [completedBy_many hmany hrow, completedBy_many hmany (hsame.trans hrow)]
      exact Row.set_modify_comm hname _ f row
  · rw [completedBy_single hmany, completedBy_single hmany]
    exact Row.modify_comm (Ne.symm hname) _ _ row

theorem completed_modify {name : String} (hname : ∀ x ∈ relations, x.1.name ≠ name)
    (hid : name ≠ idName) (f : Data → Data) (row : Row) :
      completed store bindings entity relations (row.modify name f) =
      (completed store bindings entity relations row).modify name f := by
  induction relations generalizing row with
  | nil => rfl
  | cons x rest ih =>
    obtain ⟨r, t⟩ := x
    unfold completed
    rw [completedBy_modify (hname (r, t) List.mem_cons_self) hid]
    exact ih (fun x hx ↦ hname x (List.mem_cons_of_mem _ hx)) _

/-- Rows stay complete when what stands under other names changes. -/
theorem RelationsComplete.modify {row : Row}
    (h : RelationsComplete store bindings entity relations row) {name : String}
    (hname : ∀ x ∈ relations, x.1.name ≠ name) (hid : name ≠ idName) (f : Data → Data) :
    RelationsComplete store bindings entity relations (row.modify name f) := by
  induction relations with
  | nil => trivial
  | cons x rest ih =>
    obtain ⟨hfirst, hrest⟩ := h
    refine ⟨hfirst.congr (Row.id?_modify_ne hid f row) ?_,
      ih hrest fun x hx ↦ hname x (List.mem_cons_of_mem _ hx)⟩
    rw [Row.get?_modify, if_neg (Ne.symm (hname x List.mem_cons_self))]

/-! ### Completed rows on their pages -/

/-- Completing a row gives what completing it without pages gives, on the pages. -/
def CompletedCut (store : Store) (bindings : Query.Bindings) (t : Tree) : Prop :=
  ∀ row, Complete store bindings t.unpaged
    (completed store bindings t.level.entity t.unpaged.relations row) →
    completed store bindings t.level.entity t.relations row =
      cutRelations bindings t.relations
        (completed store bindings t.level.entity t.unpaged.relations row)

/-- The rows of one owner are its rows without pages, on the pages. -/
def ChildrenCut (store : Store) (bindings : Query.Bindings) (entity : String) (r : Query.Relation)
    (t : Tree) : Prop :=
  ∀ id children, (readLevel store bindings t.unpaged (some ⟨entity, r, [id]⟩)).Returns children →
    childRows store bindings t ⟨entity, r, [id]⟩ = cutRows bindings t (children.map Prod.snd)

theorem completedBy_cut (hname : r.name ≠ idName)
    (hmanyCut : r.many → ChildrenCut store bindings entity r t)
    (hsingleCut : ¬r.many → CompletedCut store bindings t) {row : Row}
    (h : RelationComplete store bindings entity r t.unpaged
      (completedBy store bindings entity r t.unpaged row)) :
    completedBy store bindings entity r t row =
      cutBy bindings r t (completedBy store bindings entity r t.unpaged row) := by
  by_cases hmany : r.many
  · obtain ⟨id, children, hid, hread, -, -⟩ := (relationComplete_many hmany).mp h
    have hrow : row.id? = some id := by
      unfold Row.id? at hid ⊢
      rwa [completedBy_get? store bindings entity _ hname] at hid
    rw [completedBy_many hmany hrow, completedBy_many hmany hrow, cutBy_many hmany,
      Row.set_modify, hread.childRows, hmanyCut hmany id children hread]
    rfl
  · rw [relationComplete_single hmany] at h
    rw [completedBy_single hmany] at h
    rw [completedBy_single hmany, completedBy_single hmany, cutBy_single hmany,
      Row.modify_modify, Row.mapOne_comp]
    refine Row.modify_congr fun d hd ↦ ?_
    cases d with
    | one inner =>
      refine congrArg Data.one ?_
      have hinner : row.one? r.name = some inner := Row.one?_eq_some.mpr hd
      have hcomplete := h _ (by rw [Row.one?_modify, if_pos rfl, hinner]; rfl)
      rw [Tree.level_unpaged] at hcomplete ⊢
      exact hsingleCut hmany inner hcomplete
    | value v => rfl
    | many rows => rfl

theorem completed_cut (hnames : (relations.map fun x ↦ x.1.name).Nodup)
    (hother : ∀ x ∈ relations, x.1.name ≠ idName)
    (hbelow : ∀ r t, (r, t) ∈ relations → (r.many → ChildrenCut store bindings entity r t) ∧
    (¬r.many → CompletedCut store bindings t)) {row : Row}
    (h : RelationsComplete store bindings entity (unpagedRelations relations)
      (completed store bindings entity (unpagedRelations relations) row)) :
    completed store bindings entity relations row =
      cutRelations bindings relations
        (completed store bindings entity (unpagedRelations relations) row) := by
  induction relations generalizing row with
  | nil => rfl
  | cons x rest ih =>
    obtain ⟨r, t⟩ := x
    obtain ⟨hfree, hnames⟩ := List.nodup_cons.mp hnames
    obtain ⟨hname, hother⟩ := List.forall_mem_cons.mp hother
    have hdifferent : ∀ x ∈ unpagedRelations rest, x.1.name ≠ r.name :=
      forall_mem_unpagedRelations (P := fun q ↦ q.name ≠ r.name)
        fun x hx heq ↦ hfree (List.mem_map.mpr ⟨x, hx, heq⟩)
    have hnumber : ∀ x ∈ unpagedRelations rest, x.1.name ≠ idName :=
      forall_mem_unpagedRelations (P := fun q ↦ q.name ≠ idName) hother
    unfold unpagedRelations completed at h ⊢
    obtain ⟨hfirst, hrest⟩ := h
    obtain ⟨hmanyCut, hsingleCut⟩ := hbelow r t List.mem_cons_self
    have hcut := completedBy_cut hname hmanyCut hsingleCut
      (hfirst.congr (completed_id? hnumber _).symm (completed_get? hdifferent _).symm)
    -- the page of this relation can be cut after the others are completed
    obtain ⟨f, hf⟩ := exists_cutBy_eq bindings r t
    have hlater : completed store bindings entity (unpagedRelations rest)
        (completedBy store bindings entity r t row) =
        cutBy bindings r t (completed store bindings entity (unpagedRelations rest)
          (completedBy store bindings entity r t.unpaged row)) := by
      rw [hcut, hf, hf, completed_modify hdifferent hname]
    unfold cutRelations
    rw [← hlater]
    refine ih hnames hother (fun r t hmem ↦ hbelow r t (List.mem_cons_of_mem _ hmem)) ?_
    rw [hlater, hf]
    exact hrest.modify hdifferent hname f

/-! ### Filling rows on their pages -/

/-- The owners at a path, and at the paths from there along some relations, are among others. -/
def OwnersAmong (path : List String) (relations : List (Query.Relation × Tree))
    (rows others : List OwnedRow) : Prop :=
  ∀ rest : List String, (∀ name ∈ rest.head?, ∃ x ∈ relations, x.1.name = name) →
    owners (path ++ rest) rows ⊆ owners (path ++ rest) others

theorem OwnersAmong.of_subset {rows others : List OwnedRow} (h : rows ⊆ others) :
    OwnersAmong path relations rows others :=
  fun rest _ ↦ owners_subset (path ++ rest) h

theorem owners_changedAt {f : Row → Row} {rest : List String}
    (hf : ∀ row : Row, ((f row).at? rest).bind Row.id? = (row.at? rest).bind Row.id?)
    (rows : List OwnedRow) :
    owners (path ++ rest) (changedAt path f rows) = owners (path ++ rest) rows := by
  unfold owners changedAt
  rw [List.filterMap_map]
  refine congrArg
    (fun ids : List Int64 ↦ ((ids.filter fun n ↦ 0 ≤ n).mergeSort fun a b ↦ a ≤ b).eraseDups)
    (List.filterMap_congr fun c _ ↦ ?_)
  change ((Row.modifyAt f path c.2).at? (path ++ rest)).bind Row.id? =
    (c.2.at? (path ++ rest)).bind Row.id?
  rw [Row.at?_append_path, Row.at?_append_path, Row.at?_modifyAt]
  cases c.2.at? path with
  | none => rfl
  | some inner => exact hf inner

/-- Completing a relation keeps the rows at all paths that do not begin with it, as far as their
numbers tell. -/
theorem completedBy_at? (hname : r.name ≠ idName) {rest : List String}
    (hrest : r.name ∉ rest.head?) (row : Row) :
    ((completedBy store bindings entity r t row).at? rest).bind Row.id? =
      (row.at? rest).bind Row.id? := by
  have hkept {name : String} (hother : r.name ≠ name) :=
    completedBy_get? store bindings entity t hother row
  cases rest with
  | nil =>
    unfold Row.at? Row.id?
    rw [Option.bind_some, Option.bind_some, hkept hname]
  | cons name rest =>
    have hother : r.name ≠ name := fun heq ↦ hrest (heq ▸ rfl)
    unfold Row.at? Row.one?
    rw [hkept hother]

theorem OwnersAmong.completedBy {rows others : List OwnedRow} {u : Tree}
    (h : OwnersAmong path ((r, t) :: relations) rows others) (hname : r.name ≠ idName)
    (hfree : ∀ x ∈ relations, x.1.name ≠ r.name) :
    OwnersAmong path relations (changedAt path (completedBy store bindings entity r t) rows)
      (changedAt path (completedBy store bindings entity r u) others) := by
  intro rest hrest
  have hstart : r.name ∉ rest.head? := fun hmem ↦ by
    obtain ⟨x, hx, heq⟩ := hrest _ hmem
    exact hfree x hx heq
  rw [owners_changedAt (completedBy_at? hname hstart),
    owners_changedAt (completedBy_at? hname hstart)]
  exact h rest fun name hmem ↦ (hrest name hmem).imp fun x ↦ And.imp_left (List.mem_cons_of_mem _)

/-- Where filling rows without pages goes through, filling rows with pages does for owners among
theirs. -/
def FillsCut (store : Store) (bindings : Query.Bindings) (t : Tree) : Prop :=
  ∀ {path : List String} {others others' rows : List OwnedRow}, (∀ c ∈ others, c.2.Numbered) →
    (∀ c ∈ rows, c.2.Numbered) → OwnersAmong path t.relations rows others →
      (fill store bindings t.level.entity path t.unpaged.relations others).Returns others' →
        ∃ rows', (fill store bindings t.level.entity path t.relations rows).Returns rows'

/-- Where reading rows without pages goes through for some owners, reading those on the pages
does. -/
def ReadsCut (store : Store) (bindings : Query.Bindings) (entity : String) (r : Query.Relation)
    (t : Tree) : Prop :=
  ∀ ids all, (readLevel store bindings t.unpaged (some ⟨entity, r, ids⟩)).Returns all →
    ∃ rows, (readLevel store bindings t (some ⟨entity, r, ids⟩)).Returns rows

theorem fillRelation_cut (hstore : store.Keyed) (hu : Suited bindings t.unpaged)
    (hmanyCut : r.many → ReadsCut store bindings entity r t)
    (hsingleCut : ¬r.many → FillsCut store bindings t) {others others' rows : List OwnedRow}
    (hothers : ∀ c ∈ others, c.2.Numbered) (hrows : ∀ c ∈ rows, c.2.Numbered)
    (hamong : OwnersAmong path ((r, t) :: relations) rows others)
    (h : (fillRelation store bindings entity path r t.unpaged others).Returns others') :
    ∃ rows', (fillRelation store bindings entity path r t rows).Returns rows' := by
  by_cases hmany : r.many
  · -- one statement for all owners; if there are none, it is not run
    have hsub : owners path rows ⊆ owners path others := by
      have hself := hamong [] nofun
      rwa [List.append_nil] at hself
    rw [fillRelation_many hmany] at h ⊢
    split
    · exact ⟨_, .pure _⟩
    · next hsome =>
      have hall : ¬(owners path others).isEmpty := fun hnone ↦ by
        rw [List.isEmpty_iff.mp hnone] at hsub
        exact hsome (List.isEmpty_iff.mpr (List.subset_nil.mp hsub))
      rw [if_neg hall] at h
      obtain ⟨children, hread, -⟩ :=
        ((readLevel_settled hu.bound _).returns_bind fun _ ↦ .pure _).mp h
      obtain ⟨children', hread'⟩ :=
        hmanyCut hmany _ _ (readLevel_for hstore hu (fills hstore hu) hread hsub)
      exact ⟨_, hread'.bind (.pure _)⟩
  · rw [fillRelation_single hmany] at h ⊢
    rw [Tree.level_unpaged] at h
    refine hsingleCut hmany hothers hrows (fun rest _ ↦ ?_) h
    rw [List.append_assoc]
    refine hamong (r.name :: rest) fun name hname ↦ ⟨(r, t), List.mem_cons_self, ?_⟩
    exact Option.some.inj hname

theorem fill_cut (hstore : store.Keyed) (hnames : (relations.map fun x ↦ x.1.name).Nodup)
    (hbelow : ∀ r t, (r, t) ∈ relations → r.name ≠ idName ∧ Suited bindings t ∧
      Suited bindings t.unpaged ∧ (r.many → ReadsCut store bindings entity r t) ∧
      (¬r.many → FillsCut store bindings t))
    {others others' rows : List OwnedRow} (hothers : ∀ c ∈ others, c.2.Numbered)
    (hrows : ∀ c ∈ rows, c.2.Numbered) (hamong : OwnersAmong path relations rows others)
    (h : (fill store bindings entity path (unpagedRelations relations) others).Returns others') :
    ∃ rows', (fill store bindings entity path relations rows).Returns rows' := by
  induction relations generalizing others rows with
  | nil => exact ⟨rows, .pure rows⟩
  | cons x rest ih =>
    obtain ⟨r, t⟩ := x
    obtain ⟨hname, ht, hu, hmanyCut, hsingleCut⟩ := hbelow r t List.mem_cons_self
    obtain ⟨hfree, hnames⟩ := List.nodup_cons.mp hnames
    have hrest := fun r' t' hmem ↦ hbelow r' t' (List.mem_cons_of_mem _ hmem)
    have hsuited : ∀ r t, (r, t) ∈ unpagedRelations rest → Suited bindings t := by
      intro r u hmem
      rw [unpagedRelations_eq_map] at hmem
      obtain ⟨⟨r', t'⟩, hin, heq⟩ := List.mem_map.mp hmem
      cases heq
      exact (hrest r' t' hin).2.2.1
    unfold unpagedRelations fill at h
    obtain ⟨others₁, hfirst, hlater⟩ :=
      ((fillRelation_settled hu.bound (fill_settled hu.bound) others).returns_bind
      (fillAll_settled fun r' t' hmem ↦ ⟨(hsuited r' t' hmem).bound,
        fill_settled (hsuited r' t' hmem).bound⟩)).mp h
    obtain ⟨rows₁, hfirst'⟩ :=
      fillRelation_cut hstore hu hmanyCut hsingleCut hothers hrows hamong hfirst
    obtain rfl := hfirst.unique
      (fillRelation_fills hstore hu (fills hstore hu) hothers hfirst (List.Subset.refl others))
    obtain rfl := hfirst'.unique
      (fillRelation_fills hstore ht (fills hstore ht) hrows hfirst' (List.Subset.refl rows))
    obtain ⟨rows', hothers'⟩ := ih hnames hrest
      (changedAt_numbered hothers fun row ↦ completedBy_numbered hname
        fun row ↦ completed_numbered hu)
      (changedAt_numbered hrows fun row ↦ completedBy_numbered hname
        fun row ↦ completed_numbered ht)
      (hamong.completedBy hname fun x hx heq ↦ hfree (List.mem_map.mpr ⟨x, hx, heq⟩)) hlater
    exact ⟨rows', hfirst'.bind hothers'⟩

/-! ### Trees -/

/-- What reads a tree reads it on its pages. -/
structure Follows (store : Store) (bindings : Query.Bindings) (t : Tree) : Prop where
  fills : FillsCut store bindings t
  completed : CompletedCut store bindings t

theorem Fillable.unpaged (h : Fillable bindings t) : Fillable bindings t.unpaged := by
  constructor
  · intro u hu
    obtain ⟨v, hv, rfl⟩ := Tree.nodes_unpaged hu
    obtain ⟨hfilter, -, -⟩ := h.bound v hv
    constructor <;> rw [Tree.level_unpaged]
    · exact hfilter
    · exact ⟨none, rfl⟩
    · exact ⟨none, rfl⟩
  · intro u hu
    obtain ⟨v, hv, rfl⟩ := Tree.nodes_unpaged hu
    rw [Tree.relations_unpaged, unpagedRelations_eq_map, List.map_map]
    exact h.names v hv
  · intro u hu
    obtain ⟨v, hv, rfl⟩ := Tree.nodes_unpaged hu
    rw [Tree.relations_unpaged]
    exact forall_mem_unpagedRelations (P := fun q ↦ q.name ≠ idName) (h.other v hv)

/-- Reading a level answers what reading it without pages answers, on the pages. -/
theorem Follows.reads (hstore : store.Keyed) (h : Follows store bindings t)
    (ht : Fillable bindings t) (hcounts : t.level.Counts bindings) {scope : Option Scope}
    (hfew : Few store bindings t scope) {all : List OwnedRow}
    (hall : (readLevel store bindings t.unpaged scope).Returns all) :
    ∃ rows, (readLevel store bindings t scope).Returns rows ∧
      CutTo bindings t.level scope (changedAt [] (cutRelations bindings t.relations) all) rows := by
  have hu := ht.unpaged
  obtain ⟨own, hrun, hnumbered, hfill, rfl⟩ := readLevel_own hstore hu.suited hall
  have hcomplete := completes hstore hu hnumbered hfill
  have hlimit : t.unpaged.level.limit = none := by
    rw [Tree.level_unpaged]
    rfl
  obtain ⟨rows, hsub, hrun', hcut⟩ :=
    runLevel_page hstore t.unpaged_unpaged hlimit hu.bound ht.bound hcounts hfew hrun
  have hrows : ∀ c ∈ rows, c.2.Numbered := fun c hc ↦ hnumbered c (hsub hc)
  rw [Tree.level_unpaged] at hfill hcomplete ⊢
  obtain ⟨rows', hfill'⟩ := h.fills hnumbered hrows (.of_subset hsub) hfill
  obtain rfl := hfill'.unique (Mapping.fills hstore ht.suited hrows hfill' (List.Subset.refl rows))
  refine ⟨_, hrun'.bind hfill', ?_⟩
  have hchanged : changedAt [] (Mapping.completed store bindings t.level.entity t.relations) rows =
      changedAt [] (cutRelations bindings t.relations)
        (changedAt [] (Mapping.completed store bindings t.level.entity
          t.unpaged.relations) rows) := by
    unfold changedAt
    rw [List.map_map]
    exact List.map_congr_left fun c hc ↦ congrArg (Prod.mk c.1)
      (h.completed c.2 (hcomplete c (hsub hc) c.2 rfl))
  rw [hchanged]
  exact (hcut.changed _).changed _

/-- The rows of an owner are those on its page. -/
theorem CutTo.owner {b : Query.Bindings} {l : Query.Level} {s : Scope} {all rows : List OwnedRow}
    (h : CutTo b l (some s) all rows) (id : Int64) :
    (rows.filter fun c ↦ c.1 == id).map Prod.snd = l.cut b
      ((all.filter fun c ↦ c.1 == id).map Prod.snd) := by
  rw [l.cut_map]
  exact congrArg (List.map Prod.snd) (h id)

theorem changedAt_owner (f : Row → Row) (rows : List OwnedRow) (id : Int64) :
    ((changedAt [] f rows).filter fun c ↦ c.1 == id).map Prod.snd =
      ((rows.filter fun c ↦ c.1 == id).map Prod.snd).map f := by
  unfold changedAt
  rw [List.filter_map, List.map_map, List.map_map]
  rfl

theorem Follows.children (hstore : store.Keyed) (h : Follows store bindings t)
    (ht : Fillable bindings t) (hcounts : t.level.Counts bindings)
    (hfew : ∀ ids, Few store bindings t (some ⟨entity, r, ids⟩)) :
    ChildrenCut store bindings entity r t := by
  intro id children hread
  obtain ⟨rows, hread', hcut⟩ := h.reads hstore ht hcounts (hfew [id]) hread
  have hself : id ∈ [id] := List.mem_singleton.mpr rfl
  have hu := ht.unpaged.suited
  have hall : (children.filter fun c ↦ c.1 == id).map Prod.snd = children.map Prod.snd := by
    rw [childRows_owner hstore hu (Mapping.fills hstore hu) hread hself]
    exact hread.childRows
  have hrows : (rows.filter fun c ↦ c.1 == id).map Prod.snd = childRows store bindings t
      ⟨entity, r, [id]⟩ :=
    childRows_owner hstore ht.suited (Mapping.fills hstore ht.suited) hread' hself
  rw [← hrows, hcut.owner, changedAt_owner, hall, t.level.cut_map]
  rfl

theorem follows (hstore : store.Keyed) (ht : Fillable bindings t)
    (hcounts : ∀ u ∈ t.nodes, u.level.Counts bindings)
    (hfew : ∀ u ∈ t.nodes, ∀ r v, (r, v) ∈ u.relations → r.many →
    ∀ ids, Few store bindings v (some ⟨u.level.entity, r, ids⟩)) : Follows store bindings t := by
  induction t using Tree.induction with
  | node level relations ih =>
    have hself := Tree.mem_nodes_self (.node level relations)
    have hnames : (relations.map fun x ↦ x.1.name).Nodup := ht.names _ hself
    have hother : ∀ x ∈ relations, x.1.name ≠ idName := ht.other _ hself
    have hbelow : ∀ r t, (r, t) ∈ relations → Fillable bindings t ∧ t.level.Counts bindings ∧
        (r.many → ∀ ids, Few store bindings t (some ⟨level.entity, r, ids⟩)) ∧
        Follows store bindings t := by
      intro r t hmem
      have hin : ∀ u ∈ t.nodes, u ∈ (Query.Tree.node level relations).nodes :=
        fun u hu ↦ Tree.mem_nodes.mpr (.inr ⟨r, t, hmem, hu⟩)
      have hthis := ht.relation (t := .node level relations) hmem
      exact ⟨hthis, hcounts t (hin t t.mem_nodes_self), hfew _ hself r t hmem,
        ih r t hmem hthis (fun u hu ↦ hcounts u (hin u hu)) fun u hu ↦ hfew u (hin u hu)⟩
    constructor
    · intro path others others' rows hothers hrows hamong h
      refine fill_cut hstore hnames (fun r t hmem ↦ ?_) hothers hrows hamong h
      obtain ⟨hthis, hcounts, hfew, hfollows⟩ := hbelow r t hmem
      refine ⟨hother (r, t) hmem, hthis.suited, hthis.unpaged.suited, fun hmany ids all hall ↦ ?_,
        fun _ ↦ hfollows.fills⟩
      exact (hfollows.reads hstore hthis hcounts (hfew hmany ids) hall).imp fun _ ↦ And.left
    · refine fun row hcomplete ↦ completed_cut hnames hother (fun r t hmem ↦ ?_) hcomplete
      obtain ⟨hthis, hcounts, hfew, hfollows⟩ := hbelow r t hmem
      exact ⟨fun hmany ↦ hfollows.children hstore hthis hcounts (hfew hmany),
        fun _ ↦ hfollows.completed⟩

end

end Mapping

end EntityStore
