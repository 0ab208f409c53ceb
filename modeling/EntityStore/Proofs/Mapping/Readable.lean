import EntityStore.Proofs.Mapping.Answer

/-!
When reading a level succeeds: only the rows that it leads to have to be readable
(`readLevel_wholeRow`), whatever stands in other rows of the store. What it then answers is told
over the rows of the store, with those of every relation in place.
-/

set_option autoImplicit false

namespace EntityStore

namespace Mapping

open Query (Leads Tree)

section

variable (store : Store) (bindings : Query.Bindings)

mutual

/-- What a query asks for of a row, with the rows of all its relations. -/
def wholeRow : Tree → Record → Except ColumnError Row
  | .node level relations, a => do
    let own ← (Plan.ownFields level).mapM (entryOf a)
    let related ← wholeRelated level.entity relations a
    pure ((idName, .value (.long a.row.id)) :: own ++ related)

def wholeRelated (entity : String) : List (Query.Relation × Tree) → Record → Except ColumnError Row
  | [], _ => pure []
  | (r, t) :: rest, a => do
    if r.many then
      let rows ← (hits store bindings t (some ⟨entity, r, [a.row.id]⟩)).mapM
        fun f ↦ wholeRow t f.record
      let others ← wholeRelated entity rest a
      pure ((r.name, .many rows) :: others)
    else
      let inner ← (partner store bindings entity r t.level a).mapM fun c ↦ wholeRow t c
      let others ← wholeRelated entity rest a
      pure ((inner.map fun row ↦ (r.name, .one row)).toList ++ others)

end

/-- What a query asks for of the first of some relations, before the entries of the others. -/
inductive AsksRelated (entity : String) (r : Query.Relation) (t : Tree) (a : Record)
    (others : Row) : Row → Prop where
  | many {rows : List Row} (hmany : r.many)
    (hrows : (hits store bindings t (some ⟨entity, r, [a.row.id]⟩)).mapM
      (fun f ↦ wholeRow store bindings t f.record) =
      .ok rows) : AsksRelated entity r t a others ((r.name, .many rows) :: others)
  | none (hsingle : ¬r.many) (hpartner : partner store bindings entity r t.level a = none) :
    AsksRelated entity r t a others others
  | one {c : Record} {row : Row} (hsingle : ¬r.many)
    (hpartner : partner store bindings entity r t.level a = some c)
    (hrow : wholeRow store bindings t c = .ok row) :
    AsksRelated entity r t a others ((r.name, .one row) :: others)

variable {store bindings} in
theorem wholeRelated_cons_ok {entity : String} {r : Query.Relation} {t : Tree}
    {rest : List (Query.Relation × Tree)} {a : Record} {whole : Row} :
      wholeRelated store bindings entity ((r, t) :: rest) a = .ok whole ↔
      ∃ others, wholeRelated store bindings entity rest a = .ok others ∧
        AsksRelated store bindings entity r t a others whole := by
  constructor
  · intro h
    rw [wholeRelated] at h
    split at h
    · next hmany =>
      obtain ⟨rows, hrows, h⟩ := Except.bind_eq_ok.mp h
      obtain ⟨others, hothers, ⟨⟩⟩ := Except.bind_eq_ok.mp h
      exact ⟨others, hothers, .many hmany hrows⟩
    · next hsingle =>
      obtain ⟨inner, hinner, h⟩ := Except.bind_eq_ok.mp h
      obtain ⟨others, hothers, ⟨⟩⟩ := Except.bind_eq_ok.mp h
      refine ⟨others, hothers, ?_⟩
      cases hpartner : partner store bindings entity r t.level a with
      | none =>
        rw [hpartner] at hinner
        cases hinner
        exact .none hsingle hpartner
      | some c =>
        rw [hpartner] at hinner
        obtain ⟨row, hrow, rfl⟩ := Except.map_eq_ok.mp hinner
        exact .one hsingle hpartner hrow
  · rintro ⟨others, hothers, hfirst⟩
    rw [wholeRelated]
    cases hfirst with
    | many hmany hrows =>
      rw [if_pos hmany]
      exact Except.bind_eq_ok.mpr ⟨_, hrows, Except.bind_eq_ok.mpr ⟨others, hothers, rfl⟩⟩
    | none hsingle hpartner =>
      rw [if_neg hsingle, hpartner]
      exact Except.bind_eq_ok.mpr ⟨none, rfl, Except.bind_eq_ok.mpr ⟨_, hothers, rfl⟩⟩
    | one hsingle hpartner hrow =>
      rw [if_neg hsingle, hpartner]
      exact Except.bind_eq_ok.mpr ⟨some _, Except.map_eq_ok.mpr ⟨_, hrow, rfl⟩,
        Except.bind_eq_ok.mpr ⟨others, hothers, rfl⟩⟩

mutual

/-- A row that was read of a record, in which what is still to be read below the record can be
read. -/
def Ready : Tree → Record → Row → Prop
  | .node level relations, a, row =>
    row.id? = some a.row.id ∧ RelationsReady level.entity relations a row

def RelationsReady (entity : String) : List (Query.Relation × Tree) → Record → Row → Prop
  | [], _, _ => True
  | (r, t) :: rest, a, row =>
    (if r.many then ∀ f ∈ hits store bindings t (some ⟨entity, r, [a.row.id]⟩),
        ∃ whole, wholeRow store bindings t f.record = .ok whole
      else ∀ inner, row.one? r.name = some inner → ∃ c, Ready t c inner) ∧
      RelationsReady entity rest a row

end

end

variable {store : Store} {bindings : Query.Bindings} {s : Schema} {e : Entity}
  {entity : String} {t root : Tree} {relations : List (Query.Relation × Tree)}
  {scope : Option Scope} {notes : List Query.Note} {a : Record}

/-- Only the entries of the relations matter. -/
theorem RelationsReady.congr {row row' : Row}
    (h : RelationsReady store bindings entity relations a row)
    (hget : ∀ x ∈ relations, row'.get? x.1.name = row.get? x.1.name) :
    RelationsReady store bindings entity relations a row' := by
  induction relations with
  | nil => trivial
  | cons x rest ih =>
    obtain ⟨r, t⟩ := x
    obtain ⟨hfirst, hrest⟩ := h
    refine ⟨?_, ih hrest fun x hx ↦ hget x (List.mem_cons_of_mem _ hx)⟩
    split at hfirst
    · next hmany =>
      rw [if_pos hmany]
      exact hfirst
    · next hsingle =>
      rw [if_neg hsingle]
      intro inner hinner
      refine hfirst inner ?_
      rwa [Row.one?_eq_some, ← hget (r, t) List.mem_cons_self, ← Row.one?_eq_some]

/-! ### What is read first -/

/-- Of a record that can be read as a whole the first row can be read, and it is ready for the
rest. -/
def ReadsFirst (store : Store) (bindings : Query.Bindings) (t : Tree) : Prop :=
  ∀ a whole, wholeRow store bindings t a = .ok whole →
    ∃ row, rowOf store bindings unread t a = .ok row ∧ Ready store bindings t a row

theorem relatedOf_ready (hnames : (relations.map fun x ↦ x.1.name).Nodup)
    (ih : ∀ r t, (r, t) ∈ relations → ReadsFirst store bindings t) {whole before : Row}
    (hbefore : ∀ x ∈ relations, before.get? x.1.name = none)
    (h : wholeRelated store bindings entity relations a = .ok whole) :
    ∃ related, relatedOf store bindings unread entity relations a = .ok related ∧
      RelationsReady store bindings entity relations a (before ++ related) := by
  induction relations generalizing before whole with
  | nil => exact ⟨[], rfl, trivial⟩
  | cons x rest ihrest =>
    obtain ⟨r, t⟩ := x
    rw [List.map_cons, List.nodup_cons] at hnames
    have hr : before.get? r.name = none := hbefore (r, t) List.mem_cons_self
    have hrest := fun r' t' hmem ↦ ih r' t' (List.mem_cons_of_mem _ hmem)
    have hafter := fun d ↦ unanswered_append hnames.1 hbefore d
    unfold RelationsReady
    obtain ⟨others, hothers, hfirst⟩ := wholeRelated_cons_ok.mp h
    cases hfirst with
    | many hmany hrows =>
      obtain ⟨related, hrelated, hready⟩ := ihrest hnames.2 hrest (hafter (.many [])) hothers
      refine ⟨_, relatedOf_cons_ok.mpr ⟨related, hrelated, .many hmany⟩, ?_, ?_⟩
      · rw [if_pos hmany]
        exact Except.exists_mapM_ok.mp ⟨_, hrows⟩
      · rw [List.append_assoc] at hready
        exact hready
    | none hsingle hpartner =>
      obtain ⟨related, hrelated, hready⟩ := ihrest hnames.2 hrest
        (fun x hx ↦ hbefore x (List.mem_cons_of_mem _ hx)) hothers
      refine ⟨related, relatedOf_cons_ok.mpr ⟨related, hrelated, .none hsingle hpartner⟩, ?_,
        hready⟩
      rw [if_neg hsingle]
      intro inner hinner
      have hnone : related.get? r.name = none :=
        relatedOf_get?_eq_none hrelated fun x hx heq ↦ hnames.1 (List.mem_map.mpr ⟨x, hx, heq⟩)
      rw [Row.one?_eq_some, Row.get?_append, hr, hnone] at hinner
      cases hinner
    | @one c row hsingle hpartner hrow =>
      obtain ⟨first, hfirst, hfirstReady⟩ := ih r t List.mem_cons_self c row hrow
      obtain ⟨related, hrelated, hready⟩ := ihrest hnames.2 hrest (hafter (.one first)) hothers
      refine ⟨_, relatedOf_cons_ok.mpr ⟨related, hrelated, .one hsingle hpartner hfirst⟩, ?_, ?_⟩
      · rw [if_neg hsingle]
        intro inner hinner
        rw [Row.one?_eq_some, Row.get?_append, hr, Option.none_or, Row.get?_cons,
          if_pos rfl] at hinner
        cases hinner
        exact ⟨c, hfirstReady⟩
      · rw [List.append_assoc] at hready
        exact hready

theorem readsFirst (hs : s.WellFormed) (ht : t.Everywhere s notes)
    (hnames : ∀ u ∈ t.nodes, (u.relations.map fun x ↦ x.1.name).Nodup) :
    ReadsFirst store bindings t := by
  induction t using Tree.induction with
  | node level relations ih =>
    obtain ⟨e, he, hsound⟩ := ht _ (Tree.mem_nodes_self _)
    have hbelow : ∀ r t, (r, t) ∈ relations → ReadsFirst store bindings t := fun r t hmem ↦
      ih r t hmem (fun u hu ↦ ht u (Tree.mem_nodes.mpr (.inr ⟨r, t, hmem, hu⟩)))
        fun u hu ↦ hnames u (Tree.mem_nodes.mpr (.inr ⟨r, t, hmem, hu⟩))
    intro a whole h
    unfold wholeRow at h
    obtain ⟨own, hown, h⟩ := Except.bind_eq_ok.mp h
    obtain ⟨related, hrelated, -⟩ := Except.bind_eq_ok.mp h
    obtain ⟨first, hfirst, hready⟩ := relatedOf_ready (hnames _ (Tree.mem_nodes_self _)) hbelow
      (fields_get?_eq_none hs he hsound hown) hrelated
    unfold rowOf Ready
    exact ⟨_, Except.bind_eq_ok.mpr ⟨own, hown, Except.bind_eq_ok.mpr ⟨first, hfirst, rfl⟩⟩, rfl,
      hready⟩

/-! ### Reading a level -/

/-- Rows that were read of records, in which the rest of some relations can be read. -/
def RowsReady (store : Store) (bindings : Query.Bindings) (entity : String)
    (relations : List (Query.Relation × Tree)) (path : List String) (rows : List OwnedRow) : Prop :=
  ∀ c ∈ rows, ∀ inner, c.2.at? path = some inner → ∃ a : Record, inner.id? = some a.row.id ∧
    RelationsReady store bindings entity relations a inner

/-- What is read of one relation leaves the others to be read. -/
theorem RowsReady.completed {r : Query.Relation} {u : Tree} {path : List String}
    {rows : List OwnedRow} (h : RowsReady store bindings entity ((r, u) :: relations) path rows)
    (hnames : r.name ∉ relations.map fun x ↦ x.1.name) (hname : r.name ≠ idName) :
    RowsReady store bindings entity relations path
      (changedAt path (completedBy store bindings entity r u) rows) := by
  intro c hc inner hinner
  obtain ⟨d, hd, rfl⟩ := List.mem_map.mp hc
  rw [Row.at?_modifyAt] at hinner
  obtain ⟨before, hbefore, rfl⟩ := Option.map_eq_some_iff.mp hinner
  obtain ⟨a, ha, -, hrest⟩ := h d hd before hbefore
  have hne (x : Query.Relation × Tree) (hx : x ∈ relations) : r.name ≠ x.1.name :=
    fun heq ↦ hnames (List.mem_map.mpr ⟨x, hx, heq.symm⟩)
  refine ⟨a, ?_, hrest.congr fun x hx ↦ completedBy_get? store bindings entity u (hne x hx) before⟩
  rw [← ha]
  unfold Row.id?
  rw [completedBy_get? store bindings entity u hname before]

/-- Filling rows that are ready succeeds. -/
def FillReturns (store : Store) (bindings : Query.Bindings) (t : Tree) : Prop :=
  ∀ {path : List String} {rows : List OwnedRow}, (∀ c ∈ rows, c.2.Numbered) →
    (∀ c ∈ rows, ∀ inner, c.2.at? path = some inner → ∃ a, Ready store bindings t a inner) →
      ∃ rows', (fill store bindings t.level.entity path t.relations rows).Returns rows'

/-- Reading a level succeeds if the rows that it leads to can be read. -/
def LevelReturns (store : Store) (bindings : Query.Bindings) (t : Tree) (scope : Option Scope) :
    Prop :=
  (∀ f ∈ hits store bindings t scope, ∃ whole, wholeRow store bindings t f.record = .ok whole) →
    ∃ rows, (readLevel store bindings t scope).Returns rows

/-- The rows that a relation leads to from several owners can be read if those of each owner can. -/
theorem whole_of_owners (h : store.Models s) (hroot : root.Everywhere s notes)
    {r : Query.Relation} {u : Tree} (ht : t ∈ root.nodes)
    (hr : (r, u) ∈ t.relations) {ids : List Int64}
    (hwhole : ∀ n ∈ ids, ∀ f ∈ hits store bindings u (some ⟨t.level.entity, r, [n]⟩),
    ∃ whole, wholeRow store bindings u f.record = .ok whole) :
    ∀ f ∈ hits store bindings u (some ⟨t.level.entity, r, ids⟩),
      ∃ whole, wholeRow store bindings u f.record = .ok whole := by
  intro f hf
  obtain ⟨d, hd, hsound⟩ := hroot u (Tree.mem_nodes_trans ht (Tree.mem_nodes_relation hr))
  have hmem (ids : List Int64) : f ∈ hits store bindings u (some ⟨t.level.entity, r, ids⟩) ↔
      f.In store bindings u (some ⟨t.level.entity, r, ids⟩) := mem_hits h hd hsound.entity f
  obtain ⟨hrecord, hreached, hpasses⟩ := (hmem ids).mp hf
  have hone : ∃ n ∈ ids, f.Reached store (some ⟨t.level.entity, r, [n]⟩) := by
    unfold Hit.Reached at hreached ⊢
    dsimp only at hreached ⊢
    cases hkind : r.kind with
    | owned =>
      rw [hkind] at hreached
      obtain ⟨hlink, n, hn, hcell⟩ := hreached
      exact ⟨n, hn, hlink, n, List.mem_singleton.mpr rfl, hcell⟩
    | linked =>
      rw [hkind] at hreached
      obtain ⟨l, hl, hlink, htarget, n, hn, hcell⟩ := hreached
      exact ⟨n, hn, l, hl, hlink, htarget, n, List.mem_singleton.mpr rfl, hcell⟩
  obtain ⟨n, hn, hreached⟩ := hone
  exact hwhole n hn f ((hmem [n]).mpr ⟨hrecord, hreached, hpasses⟩)

section

variable (h : store.Models s) (hs : s.WellFormed) (hlists : store.ListsScopes)
  (hroot : root.Everywhere s notes) (hfillable : Fillable bindings root)
  (hlimit : ∀ u ∈ root.nodes, u.level.limit = none)

include h hs hlists hroot hfillable hlimit

theorem levelReturns_of_fill (ht : t ∈ root.nodes) (hscope : ScopedIn root t scope)
    (hfill : FillReturns store bindings t) : LevelReturns store bindings t scope := by
  intro hwhole
  obtain ⟨e, he, hsound⟩ := hroot t ht
  have hbelow : t.Everywhere s notes := fun u hu ↦ hroot u (Tree.mem_nodes_trans ht hu)
  have hthis := hfillable.node ht
  obtain ⟨page, hpage⟩ := pageBounds_ok (hthis.bound t t.mem_nodes_self)
  obtain rfl := pageBounds_none (hlimit t ht) hpage
  have hfirst : ∀ f ∈ hits store bindings t scope, ∃ row, rowOf store bindings unread t f.record =
      .ok row ∧ Ready store bindings t f.record row := by
    intro f hf
    obtain ⟨whole, hwhole⟩ := hwhole f hf
    exact readsFirst hs hbelow hthis.names f.record whole hwhole
  obtain ⟨rows, hrows⟩ : ∃ rows, levelRows store bindings t scope none = .ok rows := by
    rw [levelRows_eq h hs he hsound.entity hbelow scope, Except.exists_mapM_ok]
    intro f hf
    obtain ⟨row, hrow, -⟩ := hfirst f hf
    exact ⟨(f.owner scope, row), Except.map_eq_ok.mpr ⟨row, hrow, rfl⟩⟩
  have hready : ∀ c ∈ rows, ∀ inner, c.2.at? [] = some inner →
      ∃ a, Ready store bindings t a inner := by
    rintro c hc _ ⟨⟩
    rw [levelRows_eq h hs he hsound.entity hbelow scope] at hrows
    obtain ⟨f, hf, hfc⟩ := Except.mapM_ok_mem hrows hc
    obtain ⟨row, hrow, rfl⟩ := Except.map_eq_ok.mp hfc
    obtain ⟨row', hrow', hready⟩ := hfirst f hf
    cases hrow'.symm.trans hrow
    exact ⟨f.record, hready⟩
  obtain ⟨rows', hrows'⟩ := hfill (levelRows_numbered h.keyed hrows) hready
  have hrun := (runLevel_returns hthis.bound).mpr
    ⟨levelServed h.serves hs hroot ht hscope (fun _ ↦ hlists) bindings, none, hpage, hrows⟩
  exact ⟨rows', hrun.bind hrows'⟩

/-- The rows of one relation can be read for rows that are ready. -/
theorem fillRelation_returns {level : Query.Level} {r : Query.Relation} {u : Tree}
    (ht : .node level relations ∈ root.nodes) (hmem : (r, u) ∈ relations)
    (hfill : FillReturns store bindings u) {path : List String} {rows : List OwnedRow}
    (hnumbered : ∀ c ∈ rows, c.2.Numbered) {rest : List (Query.Relation × Tree)}
    (hready : RowsReady store bindings level.entity ((r, u) :: rest) path rows) :
    ∃ rows', (fillRelation store bindings level.entity path r u rows).Returns rows' := by
  have hu := Tree.mem_nodes_trans ht (Tree.mem_nodes_relation (t := .node level relations) hmem)
  by_cases hmany : r.many
  · rw [fillRelation_many hmany]
    split
    · exact ⟨rows, .pure rows⟩
    · have hone : ∀ n ∈ owners path rows, ∀ f ∈ hits store bindings u (some ⟨level.entity, r, [n]⟩),
          ∃ whole, wholeRow store bindings u f.record = .ok whole := by
        intro n hn
        obtain ⟨-, c, hc, inner, hinner, hid⟩ := mem_owners.mp hn
        obtain ⟨a, ha, hfirst, -⟩ := hready c hc inner hinner
        rw [if_pos hmany] at hfirst
        obtain rfl := Option.some.inj (ha.symm.trans hid)
        exact hfirst
      have hscope : ScopedIn root u (some ⟨level.entity, r, owners path rows⟩) :=
        ⟨_, ht, hmem, hmany, rfl⟩
      obtain ⟨children, hchildren⟩ :=
        levelReturns_of_fill h hs hlists hroot hfillable hlimit hu hscope hfill
        (whole_of_owners h hroot ht hmem hone)
      exact ⟨_, hchildren.bind (.pure _)⟩
  · rw [fillRelation_single hmany]
    refine hfill hnumbered fun c hc inner hinner ↦ ?_
    rw [Row.at?_append] at hinner
    obtain ⟨outer, houter, hinner⟩ := Option.bind_eq_some_iff.mp hinner
    obtain ⟨a, -, hfirst, -⟩ := hready c hc outer houter
    rw [if_neg hmany] at hfirst
    exact hfirst inner hinner

/-- The relations of a level can be read one after the other. -/
theorem fill_returns {level : Query.Level} (ht : .node level relations ∈ root.nodes)
    (hfills : ∀ r u, (r, u) ∈ relations → FillReturns store bindings u) {path : List String}
    {rest : List (Query.Relation × Tree)} (hrest : rest ⊆ relations)
    (hnames : (rest.map fun x ↦ x.1.name).Nodup) {rows : List OwnedRow}
    (hnumbered : ∀ c ∈ rows, c.2.Numbered)
    (hready : RowsReady store bindings level.entity rest path rows) :
    ∃ rows', (fill store bindings level.entity path rest rows).Returns rows' := by
  induction rest generalizing rows with
  | nil => exact ⟨rows, .pure rows⟩
  | cons x rest ih =>
    obtain ⟨r, u⟩ := x
    obtain ⟨hmem, hrest⟩ := List.cons_subset.mp hrest
    rw [List.map_cons, List.nodup_cons] at hnames
    have hsuited := (hfillable.node
      (Tree.mem_nodes_trans ht (Tree.mem_nodes_relation (t := .node level relations) hmem))).suited
    have hname : r.name ≠ idName := hfillable.other _ ht (r, u) hmem
    obtain ⟨rows₁, hrows₁⟩ :=
      fillRelation_returns h hs hlists hroot hfillable hlimit ht hmem
        (hfills r u hmem) hnumbered hready
    obtain rfl := hrows₁.unique
      (fillRelation_fills h.keyed hsuited (fills h.keyed hsuited) hnumbered hrows₁
        (List.Subset.refl rows))
    obtain ⟨rows', hrows'⟩ := ih hrest hnames.2
      (changedAt_numbered hnumbered fun row ↦ completedBy_numbered hname
        fun row ↦ completed_numbered hsuited)
      (hready.completed hnames.1 hname)
    exact ⟨rows', hrows₁.bind hrows'⟩

theorem fillReturns (ht : t ∈ root.nodes) : FillReturns store bindings t := by
  induction t using Tree.induction with
  | node level relations ih =>
    have hfills : ∀ r u, (r, u) ∈ relations → FillReturns store bindings u :=
      fun r u hmem ↦ ih r u hmem
        (Tree.mem_nodes_trans ht (Tree.mem_nodes_relation (t := .node level relations) hmem))
    intro path rows hnumbered hready
    exact fill_returns h hs hlists hroot hfillable hlimit ht hfills (List.Subset.refl relations)
      (hfillable.names _ ht) hnumbered hready

theorem levelReturns (ht : t ∈ root.nodes) (hscope : ScopedIn root t scope) :
    LevelReturns store bindings t scope :=
  levelReturns_of_fill h hs hlists hroot hfillable hlimit ht hscope
    (fillReturns h hs hlists hroot hfillable hlimit ht)

/-! ### What reading answers -/

/-- A record whose rows can all be read has the row that a query asks for of it with lists read for
it alone. -/
def ReadsAlone (store : Store) (bindings : Query.Bindings) (t : Tree) : Prop :=
  ∀ a whole, wholeRow store bindings t a = .ok whole →
    rowOf store bindings (alone store bindings) t a = .ok whole

/-- The rows that a relation leads to, read for one row alone, are the ones that a query asks
for. -/
theorem alone_wholeRow {level : Query.Level} {r : Query.Relation} {u : Tree}
    (ht : .node level relations ∈ root.nodes) (hmem : (r, u) ∈ relations) (hmany : r.many)
    (halone : ReadsAlone store bindings u) {rows : List Row}
    (hrows : (hits store bindings u (some ⟨level.entity, r, [a.row.id]⟩)).mapM
    (fun f ↦ wholeRow store bindings u f.record) = .ok rows) :
      alone store bindings level.entity r u a = rows := by
  have hu := Tree.mem_nodes_trans ht (Tree.mem_nodes_relation (t := .node level relations) hmem)
  have hscope : ScopedIn root u (some ⟨level.entity, r, [a.row.id]⟩) := ⟨_, ht, hmem, hmany, rfl⟩
  obtain ⟨children, hchildren⟩ := levelReturns h hs hlists hroot hfillable hlimit hu hscope
    (Except.exists_mapM_ok.mp ⟨rows, hrows⟩)
  obtain ⟨d, hd, hsound⟩ := hroot u hu
  have hread :=
    readLevel_rows h hs hd hsound.entity (fun v hv ↦ hroot v (Tree.mem_nodes_trans hu hv))
    (hfillable.node hu) (hlimit u hu) hchildren
  refine hchildren.childRows.trans (List.forall₂_eq_eq_eq ▸ List.forall₂_map_left_iff.mpr ?_)
  refine (List.forall₂_of_left (Except.mapM_eq_ok.mp hread) (Except.mapM_eq_ok.mp hrows)).imp ?_
  rintro c row ⟨f, hc, hrow⟩
  rw [halone f.record row hrow] at hc
  cases hc
  rfl

theorem relatedOf_wholeRelated {level : Query.Level} (ht : .node level relations ∈ root.nodes)
    (halone : ∀ r u, (r, u) ∈ relations → ReadsAlone store bindings u)
    {rest : List (Query.Relation × Tree)} (hrest : rest ⊆ relations) {whole : Row}
    (hwhole : wholeRelated store bindings level.entity rest a = .ok whole) :
    relatedOf store bindings (alone store bindings) level.entity rest a = .ok whole := by
  induction rest generalizing whole with
  | nil => exact hwhole
  | cons x rest ih =>
    obtain ⟨r, u⟩ := x
    obtain ⟨hmem, hrest⟩ := List.cons_subset.mp hrest
    obtain ⟨others, hothers, hfirst⟩ := wholeRelated_cons_ok.mp hwhole
    refine relatedOf_cons_ok.mpr ⟨others, ih hrest hothers, ?_⟩
    cases hfirst with
    | many hmany hrows =>
      rw [← alone_wholeRow h hs hlists hroot hfillable hlimit ht hmem hmany (halone r u hmem) hrows]
      exact .many hmany
    | none hsingle hpartner => exact .none hsingle hpartner
    | one hsingle hpartner hrow => exact .one hsingle hpartner (halone r u hmem _ _ hrow)

theorem rowOf_wholeRow (ht : t ∈ root.nodes) : ReadsAlone store bindings t := by
  induction t using Tree.induction with
  | node level relations ih =>
    have halone : ∀ r u, (r, u) ∈ relations → ReadsAlone store bindings u :=
      fun r u hmem ↦ ih r u hmem
        (Tree.mem_nodes_trans ht (Tree.mem_nodes_relation (t := .node level relations) hmem))
    intro a whole hwhole
    unfold wholeRow at hwhole
    unfold rowOf
    obtain ⟨own, hown, hwhole⟩ := Except.bind_eq_ok.mp hwhole
    obtain ⟨related, hrelated, hwhole⟩ := Except.bind_eq_ok.mp hwhole
    have hsame := relatedOf_wholeRelated h hs hlists hroot hfillable hlimit ht halone
      (List.Subset.refl relations) hrelated
    exact Except.bind_eq_ok.mpr ⟨own, hown, Except.bind_eq_ok.mpr ⟨related, hsame, hwhole⟩⟩

/-- If the rows that a level leads to can be read, reading it answers them. -/
theorem readLevel_wholeRow (ht : t ∈ root.nodes) (hscope : ScopedIn root t scope)
    {rows : List OwnedRow} (hrows : ((hits store bindings t scope).mapM fun f ↦
      (wholeRow store bindings t f.record).map (f.owner scope, ·)) = .ok rows) :
    (readLevel store bindings t scope).Returns rows := by
  have hwhole : ∀ f ∈ hits store bindings t scope, ∃ whole,
      wholeRow store bindings t f.record = .ok whole := by
    intro f hf
    obtain ⟨c, hc⟩ := Except.exists_mapM_ok.mp ⟨rows, hrows⟩ f hf
    obtain ⟨whole, hwhole, -⟩ := Except.map_eq_ok.mp hc
    exact ⟨whole, hwhole⟩
  obtain ⟨answer, hanswer⟩ := levelReturns h hs hlists hroot hfillable hlimit ht hscope hwhole
  obtain ⟨e, he, hsound⟩ := hroot t ht
  have hread :=
    readLevel_rows h hs he hsound.entity (fun u hu ↦ hroot u (Tree.mem_nodes_trans ht hu))
    (hfillable.node ht) (hlimit t ht) hanswer
  have hsame : answer = rows := by
    refine List.forall₂_eq_eq_eq ▸ ?_
    refine (List.forall₂_of_left (Except.mapM_eq_ok.mp hread) (Except.mapM_eq_ok.mp hrows)).imp ?_
    rintro c row ⟨f, hc, hrow⟩
    obtain ⟨whole, hwhole, rfl⟩ := Except.map_eq_ok.mp hrow
    rw [rowOf_wholeRow h hs hlists hroot hfillable hlimit ht f.record whole hwhole] at hc
    exact (Except.ok.inj hc).symm
  rwa [← hsame]

end

end Mapping

end EntityStore
