import EntityStore.Proofs.Access.Denied
import EntityStore.Proofs.Mapping.Alike
import EntityStore.Proofs.Mapping.Safety
import EntityStore.Proofs.Query.Without

/-!
What a query does not access it tells nothing of. Without a property of which a query makes no use
the schema is still well-formed, and the query compiles to the same; so its statements name neither
the column nor the table of the property, and answer the same whatever is in them
(`Database.answer_withStore`).
-/

set_option autoImplicit false

namespace EntityStore

open Mapping (entityTable linkTable linkTableName)
open Query (Tree)

/-- A property that a query may leave alone: a declared field, or a linked relation other than
`@parent`. -/
def Property.Secret (p : Property) : Prop :=
  p.name ≠ idName ∧ (∃ f, p.kind = .field f) ∨ p.isLinked

/-- Tables that show the numbers of their rows, with rows that differ in the values of a field only,
as far as a schema declares columns for them. -/
structure Table.DiffersAt (s : Schema) (table field : String) (t u : Table) : Prop where
  numbered : t.rowColumn.isSome
  shape : u = { t with rows := u.rows }
  rows : List.Forall₂ (t.SameRow fun name ↦ s.Declares table name ∧ name ≠ field) t.rows u.rows

/-- Stores that agree on everything but a secret property: but the column of a field, or but the
links of a relation. A table of links does not hide the function that lists scopes from one of them
only. -/
inductive Store.AgreeBut (s : Schema) (e : Entity) (p : Property) (a b : Store) : Prop where
  | field {f : Field} {t u : Table} (hkind : p.kind = .field f) (ht : a.table? e.name = some t)
      (hu : b.table? e.name = some u) (hrows : t.DiffersAt s e.name p.name u)
      (hother : ∀ name, sameName name e.name = false → b.table? name = a.table? name)
  | links (hlinked : p.isLinked)
      (hother : ∀ name, sameName name (linkTableName e.name p.name) = false →
        b.table? name = a.table? name)
      (hlists : b.ListsScopes ↔ a.ListsScopes)

/-! ### The schema without the property -/

namespace Property.Secret

variable {s : Schema} {e : Entity} {p : Property}

theorem owned?_eq_none (h : p.Secret) : p.owned? = none := by
  rcases h with ⟨-, f, hkind⟩ | hlinked
  · simp [Property.owned?, Property.relation?, hkind]
  · obtain ⟨⟨target, hrelation⟩, -⟩ := Property.isLinked_iff.mp hlinked
    simp [Property.owned?, hrelation]

theorem ne_id (h : p.Secret) (he : e.WellFormed) (hp : p ∈ e.properties) : p.name ≠ idName := by
  rcases h with ⟨hne, -⟩ | hlinked
  · exact hne
  · intro hname
    rw [he.eq_id hp hname] at hlinked
    cases hlinked

theorem ne_parent (h : p.Secret) (hs : s.WellFormed) (he : e ∈ s.entities) (hp : p ∈ e.properties) :
    p.name ≠ parentName := by
  rcases h with ⟨-, f, hkind⟩ | hlinked
  · intro hname
    obtain ⟨r, hr⟩ := Update.isParent_reference hs he hp (Property.isParent_iff.mpr hname)
    cases hkind.symm.trans hr
  · exact Property.name_ne_of_isLinked hlinked

end Property.Secret

namespace Schema

/-- What is left of a schema without a property: the other properties are as before, and no other
table or column is asked for than before, nor those of the property. -/
structure LeftWithout (s : Schema) (e : Entity) (p : Property) (s' : Schema) : Prop where
  wellFormed : s'.WellFormed
  lacks : s.Lacks ⟨e.name, p.name⟩ s'
  declares : ∀ table name, s'.Declares table name → s.Declares table name ∧
    ((∃ f, p.kind = .field f) → table = e.name → name ≠ p.name)
  tables : ∀ table, s'.HasTable table → ∃ spec ∈ s.tables, spec.name = table ∧
    linkTable e.name p ≠ some spec

section

variable {s : Schema} {e d rest : Entity} {p : Property} (hs : s.WellFormed) (he : e ∈ s.entities)
  (hp : p ∈ e.properties) (hsecret : p.Secret) (htake : e.take p.name = some (p, rest))

include hs he hp hsecret htake

section

variable (hd : d ∈ s.entities)

include hd

theorem mem_withoutProperty : (withoutProperty e.name p rest d).name = d.name ∧
    (withoutProperty e.name p rest d).WellFormed ∧
      ∀ q, q ∈ (withoutProperty e.name p rest d).properties ↔
      q ∈ d.properties ∧ ¬(d.name = e.name ∧ q.name = p.name) := by
  obtain ⟨hname, -, -, hmem, hwf⟩ :=
    withoutProperty_cases hs he htake (hsecret.ne_id (hs.entity e he) hp) hd
  refine ⟨hname, hwf, fun q ↦ ?_⟩
  rw [hmem, hsecret.owned?_eq_none]
  simp

theorem withoutProperty_lacks : d.Lacks ⟨e.name, p.name⟩ (withoutProperty e.name p rest d) := by
  obtain ⟨hname, hwf, hmem⟩ := mem_withoutProperty hs he hp hsecret htake hd
  refine ⟨hname, fun name hne ↦ Option.ext fun q ↦ ?_, ?_⟩
  · rw [Entity.get?_eq_some_iff hwf, Entity.get?_eq_some_iff (hs.entity d hd), hmem, and_assoc]
    refine and_congr_right fun _ ↦ and_iff_right_of_imp ?_
    rintro rfl ⟨hentity, hname⟩
    exact hne (by rw [hentity, hname])
  · unfold withoutProperty releasedIf
    rw [hsecret.owned?_eq_none]
    by_cases hentity : d.name = e.name
    · obtain rfl := hs.eq_of_name_eq hd he hentity
      simp only [reduceCtorEq, decide_false, Bool.false_eq_true, ↓reduceIte]
      obtain ⟨-, -, hrest, -⟩ := Entity.take_cases (hs.entity d hd) htake
      rw [hrest]
      unfold Entity.userFields Entity.fields
      rw [List.filter_comm, List.filterMap_filter]
      refine congrArg (List.filter _) ?_
      rw [← List.filterMap_eq_filter, List.filterMap_filterMap]
      refine List.filterMap_congr fun q _ ↦ ?_
      by_cases hq : q.name = p.name <;> cases q.field? <;> simp [hq, Option.guard]
    · simp only [reduceCtorEq, decide_false, Bool.false_eq_true, ↓reduceIte, hentity]
      refine (List.filter_eq_self.mpr fun x _ ↦ ?_).symm
      simp [hentity]

/-- The columns of what is left. -/
theorem columns_withoutProperty {c : ColumnSpec}
    (hc : c ∈ Mapping.columns (withoutProperty e.name p rest d)) :
    c ∈ Mapping.columns d ∧ (d.name = e.name → c.name ≠ p.name) := by
  obtain ⟨-, -, hmem⟩ := mem_withoutProperty hs he hp hsecret htake hd
  rcases List.mem_append.mp hc with hc | hc
  · obtain ⟨q, hq, hcolumn⟩ := List.mem_filterMap.mp hc
    obtain ⟨hq, hne⟩ := (hmem q).mp hq
    refine ⟨List.mem_append_left _ (List.mem_filterMap.mpr ⟨q, hq, hcolumn⟩),
      fun hentity hname ↦ hne ⟨hentity, ?_⟩⟩
    unfold Mapping.ownColumn at hcolumn
    split at hcolumn
    · split at hcolumn
      · cases hcolumn
      · cases hcolumn
        exact hname
    · cases hcolumn
  · obtain ⟨q, hq, hcolumn⟩ := List.mem_filterMap.mp hc
    obtain ⟨hq, -⟩ := (hmem q).mp hq
    refine ⟨List.mem_append_right _ (List.mem_filterMap.mpr ⟨q, hq, hcolumn⟩), fun _ hname ↦ ?_⟩
    refine hsecret.ne_parent hs he hp (hname.symm.trans ?_)
    unfold Mapping.parentColumn at hcolumn
    split at hcolumn
    · split at hcolumn
      · cases hcolumn
        rfl
      · cases hcolumn
    · cases hcolumn

end

/-- The tables that are asked for without the property. -/
theorem tables_withoutProperty {spec : TableSpec}
    (hspec : spec ∈ (s.mapEntities (withoutProperty e.name p rest)).tables) :
    ∃ d ∈ s.entities, spec = entityTable (withoutProperty e.name p rest d) ∨
      ∃ q ∈ (withoutProperty e.name p rest d).properties, linkTable d.name q = some spec := by
  obtain ⟨d', hd', hspec⟩ := List.mem_flatMap.mp hspec
  obtain ⟨d, hd, rfl⟩ := mem_mapEntities.mp hd'
  obtain ⟨hname, -, -⟩ := mem_withoutProperty hs he hp hsecret htake hd
  refine ⟨d, hd, (List.mem_cons.mp hspec).imp_right fun hlink ↦ ?_⟩
  obtain ⟨q, hq, hlink⟩ := List.mem_filterMap.mp hlink
  exact ⟨q, hq, hname ▸ hlink⟩

theorem lacks_withoutProperty : s.Lacks ⟨e.name, p.name⟩
    (s.mapEntities (withoutProperty e.name p rest)) := by
  intro name
  rw [get?_mapEntities]
  cases hget : s.get? name with
  | none => exact .none
  | some d =>
    exact .some (withoutProperty_lacks hs he hp hsecret htake ((get?_eq_some_iff hs).mp hget).1)

theorem declares_withoutProperty (hdistinct : s.Distinct) {table name : String}
    (hdeclares : (s.mapEntities (withoutProperty e.name p rest)).Declares table name) :
    s.Declares table name ∧ ((∃ f, p.kind = .field f) → table = e.name → name ≠ p.name) := by
  obtain ⟨spec, hspec, rfl, hcolumn⟩ := hdeclares
  obtain ⟨d, hd, rfl | ⟨q, hq, hlink⟩⟩ := tables_withoutProperty hs he hp hsecret htake hspec
  · obtain ⟨hname, -, -⟩ := mem_withoutProperty hs he hp hsecret htake hd
    change s.Declares (withoutProperty e.name p rest d).name name ∧
      ((∃ f, p.kind = .field f) → (withoutProperty e.name p rest d).name = e.name → name ≠ p.name)
    rw [hname]
    rcases hcolumn with ⟨-, rfl⟩ | ⟨c, hc, rfl⟩
    · exact ⟨declares_id hd, fun _ _ ↦ (hsecret.ne_id (hs.entity e he) hp).symm⟩
    · obtain ⟨hc, hne⟩ := columns_withoutProperty hs he hp hsecret htake hd hc
      exact ⟨declares_column (entityTable_mem hd) hc, fun _ ↦ hne⟩
  · obtain ⟨-, -, hmem⟩ := mem_withoutProperty hs he hp hsecret htake hd
    have hspec := linkTable_mem hd ((hmem q).mp hq).1 hlink
    refine ⟨⟨spec, hspec, rfl, hcolumn⟩, fun _ htable ↦ ?_⟩
    exact absurd (Store.spec_eq_of_name_eq hdistinct (entityTable_mem he) hspec htable.symm)
      (Mapping.entityTable_ne_linkTable hlink)

theorem hasTable_withoutProperty {table : String}
    (hhas : (s.mapEntities (withoutProperty e.name p rest)).HasTable table) :
    ∃ spec ∈ s.tables, spec.name = table ∧ linkTable e.name p ≠ some spec := by
  obtain ⟨spec, hspec, rfl⟩ := hhas
  obtain ⟨d, hd, rfl | ⟨q, hq, hlink⟩⟩ := tables_withoutProperty hs he hp hsecret htake hspec
  · obtain ⟨hname, -, -⟩ := mem_withoutProperty hs he hp hsecret htake hd
    exact ⟨entityTable d, entityTable_mem hd, hname.symm,
      fun hlink ↦ Mapping.entityTable_ne_linkTable hlink rfl⟩
  · obtain ⟨-, -, hmem⟩ := mem_withoutProperty hs he hp hsecret htake hd
    obtain ⟨hq, hne⟩ := (hmem q).mp hq
    refine ⟨spec, linkTable_mem hd hq hlink, rfl, fun hlink' ↦ ?_⟩
    obtain ⟨hentity, hname⟩ := Mapping.linkTable_inj hlink hlink'
    exact hne ⟨hentity, hname⟩

end

variable {s : Schema} {e : Entity} {p : Property}

theorem exists_leftWithout (hs : s.WellFormed) (hdistinct : s.Distinct) (he : e ∈ s.entities)
    (hp : p ∈ e.properties) (hsecret : p.Secret) : ∃ s', s.LeftWithout e p s' := by
  obtain ⟨rest, htake⟩ : ∃ rest, e.take p.name = some (p, rest) := by
    have hget : e.get? p.name = some p := (Entity.get?_eq_some_iff (hs.entity e he)).mpr ⟨hp, rfl⟩
    obtain ⟨i, hi, hp⟩ := Option.bind_eq_some_iff.mp hget
    exact ⟨_, by rw [Entity.take, hi]; simp [hp]; rfl⟩
  exact ⟨s.mapEntities (withoutProperty e.name p rest),
    WellFormed.withoutProperty hs he htake (hsecret.ne_id (hs.entity e he) hp)
      (hsecret.ne_parent hs he hp),
    lacks_withoutProperty hs he hp hsecret htake,
    fun _ _ ↦ declares_withoutProperty hs he hp hsecret htake hdistinct,
    fun _ ↦ hasTable_withoutProperty hs he hp hsecret htake⟩

end Schema

/-! ### Statements that do not name the property -/

section

variable {s s' : Schema} {e : Entity} {p : Property} {a b : Store}

/-- A table that is asked for without the property is the same in stores that agree on everything
else, or looks the same in its columns. -/
theorem Schema.LeftWithout.alike (h : s.LeftWithout e p s') (hdistinct : s.Distinct)
    (he : e ∈ s.entities) (hp : p ∈ e.properties) (hagree : a.AgreeBut s e p b)
    {seen : String → String → Prop} {x : Source} (htable : s'.HasTable x.table)
    (hseen : ∀ name, seen x.label name → s'.Declares x.table name) :
    x.Alike seen a b := by
  obtain ⟨spec, hspec, hname, hne⟩ := h.tables x.table htable
  have hsame (heq : b.table? x.table = a.table? x.table) : x.Alike seen a b := by
    unfold Source.Alike
    rw [heq]
    cases a.table? x.table with
    | none => exact .none
    | some t => exact .some (.refl _ t)
  cases hagree with
  | @field f t u hkind ht hu hrows hother =>
    by_cases hentity : spec = entityTable e
    · have htable : x.table = e.name := hname.symm.trans (congrArg TableSpec.name hentity)
      unfold Source.Alike
      rw [htable, ht, hu]
      refine .some ⟨hrows.shape, hrows.rows.imp fun r r' hsame ↦ hsame.imp_right
        fun hcells name hname ↦ ?_, .inl hrows.numbered⟩
      obtain ⟨hdeclares, hne⟩ := h.declares x.table name (hseen name hname)
      exact hcells name ⟨htable ▸ hdeclares, hne ⟨f, hkind⟩ htable⟩
    · exact hsame
        (hother _ (hname ▸ Store.sameName_eq_false hdistinct hspec (entityTable_mem he) hentity))
  | links hlinked hother hlists =>
    obtain ⟨⟨target, hrelation⟩, hparent⟩ := Property.isLinked_iff.mp hlinked
    obtain ⟨unique, hlink⟩ := Schema.linkTable_eq (e := e) hrelation (by simp [hparent])
    refine hsame (hother _ ?_)
    rw [← hname]
    exact Store.sameName_eq_false hdistinct hspec (Schema.linkTable_mem he hp hlink)
      fun heq ↦ hne (heq ▸ hlink)

/-- Stores that agree on everything but a property both list scopes, or neither does. -/
theorem Store.AgreeBut.lists (h : a.AgreeBut s e p b) : b.ListsScopes ↔ a.ListsScopes := by
  cases h with
  | links hlinked hother hlists => exact hlists
  | @field f t u hkind ht hu hrows hother =>
    unfold Store.ListsScopes
    cases hname : sameName listingName e.name with
    | false => rw [hother _ hname]
    | true =>
      have hsame (store : Store) : store.table? listingName = store.table? e.name :=
        Store.table?_congr hname
      rw [hsame, hsame, ht, hu]
      simp

theorem Schema.LeftWithout.select_alike (h : s.LeftWithout e p s') (hdistinct : s.Distinct)
    (he : e ∈ s.entities) (hp : p ∈ e.properties) (hagree : a.AgreeBut s e p b) {select : Select}
    (hnamed : select.NamedBy s') :
    select.Alike (fun label name ↦ ∀ x ∈ select.sources, x.label = label →
      s'.Declares x.table name) a b where
  sources x hx := h.alike hdistinct he hp hagree (hnamed.tables x hx)
    fun name hseen ↦ hseen x hx rfl
  columns := by
    rintro ⟨c, joined⟩ hc
    have hc := hnamed.columns _ hc
    cases c with
    | rowNumber label => trivial
    | column label name =>
      obtain ⟨x, hx, hlabel, hdeclares⟩ := hc
      intro y hy heq
      obtain rfl := hnamed.labels x hx y hy (hlabel.trans heq.symm)
      exact hdeclares
  lists := hagree.lists

end

/-! ### Reading -/

namespace Mapping

variable {a b : Store} {bindings : Query.Bindings} {root t : Tree}

/-- What is done with a statement that was made depends on it only. -/
theorem planned_congr {α β : Type} {x : Planning α} {f g : α → Reading β}
    (h : ∀ n y m, x.run n = .ok (y, m) → g y = f y) : (planned x >>= g) = (planned x >>= f) := by
  funext progress
  change (planned x >>= g).run progress = (planned x >>= f).run progress
  rw [Reading.run_bind, Reading.run_bind]
  cases hx : x.run progress.names with
  | ok y =>
    obtain ⟨y, m⟩ := y
    rw [planned_run hx]
    dsimp only
    rw [h _ _ _ hx]
  | error e =>
    have hfails : (planned x).run progress = (.error (.execution e), progress) := by
      change x progress.names = .error e at hx
      have hget : (get : Reading Progress).run progress = (.ok progress, progress) := rfl
      unfold planned
      rw [Reading.run_bind, hget]
      dsimp only
      rw [hx]
      rfl
    rw [hfails]

/-- A level whose statements answer the same in both stores is read alike. -/
theorem runLevel_alike {scope : Option Scope} (h : ∀ n select page m,
    (levelSelect bindings t scope).run n = .ok ((select, page), m) → select.run b = select.run a) :
    runLevel b bindings t scope = runLevel a bindings t scope := by
  refine planned_congr fun n x m hrun ↦ ?_
  obtain ⟨select, page⟩ := x
  dsimp only
  rw [h n select page m hrun]

/-- Reading looks at the stores through the statements of its levels only. -/
theorem fill_alike (h : ∀ t ∈ root.nodes, ∀ scope, ScopedIn root t scope →
    runLevel b bindings t scope = runLevel a bindings t scope) (ht : t ∈ root.nodes)
    (path : List String) :
    fill b bindings t.level.entity path t.relations =
      fill a bindings t.level.entity path t.relations := by
  induction t using Tree.induction generalizing path with
  | node level relations ih =>
    have hbelow : ∀ r u, (r, u) ∈ relations →
        (∀ path, fill b bindings u.level.entity path u.relations =
            fill a bindings u.level.entity path u.relations) ∧
          (r.many → ∀ ids, runLevel b bindings u (some ⟨level.entity, r, ids⟩) =
            runLevel a bindings u (some ⟨level.entity, r, ids⟩)) := by
      intro r u hmem
      have hu := Tree.mem_nodes_trans ht (Tree.mem_nodes_relation (t := .node level relations) hmem)
      exact ⟨ih r u hmem hu, fun hmany ids ↦ h u hu _ ⟨_, ht, hmem, hmany, rfl⟩⟩
    clear ih ht
    change fill b bindings level.entity path relations = fill a bindings level.entity path relations
    induction relations with
    | nil => rfl
    | cons x rest ihrest =>
      obtain ⟨r, u⟩ := x
      obtain ⟨hfill, hrun⟩ := hbelow r u List.mem_cons_self
      have hfirst (rows : List OwnedRow) : fillRelation b bindings level.entity path r u rows =
          fillRelation a bindings level.entity path r u rows := by
        by_cases hmany : r.many
        · rw [fillRelation_many hmany, fillRelation_many hmany]
          unfold readLevel
          rw [hrun hmany, hfill]
        · rw [fillRelation_single hmany, fillRelation_single hmany, hfill]
      funext rows
      rw [fill, fill, hfirst, ihrest fun r' u' hmem ↦ hbelow r' u' (List.mem_cons_of_mem _ hmem)]

theorem read_alike (h : ∀ t ∈ root.nodes, ∀ scope, ScopedIn root t scope →
    runLevel b bindings t scope = runLevel a bindings t scope) :
    read b bindings root = read a bindings root := by
  have hself := root.mem_nodes_self
  unfold read readTop readLevel
  rw [h root hself none trivial, fill_alike h hself]

/-- A query that does not touch a property reads the same in stores that agree on everything
else. -/
theorem query_alike {s : Schema} (hs : s.Reachable) (hdistinct : s.Distinct) {text : String}
    {q : Query.Compiled} (hq : s.query text = .ok q) {e : Entity} (he : e ∈ s.entities)
    {p : Property} (hp : p ∈ e.properties) (hsecret : p.Secret) (hagree : a.AgreeBut s e p b)
    (hkey : ⟨e.name, p.name⟩ ∉ q.accessed) :
    read b bindings q.tree = read a bindings q.tree := by
  obtain ⟨s', hleft⟩ := Schema.exists_leftWithout hs.wellFormed hdistinct he hp hsecret
  have hq' : s'.query text = .ok q := by
    obtain ⟨form, hread, hcompile⟩ := Except.bind_eq_ok.mp hq
    have hcompile := Query.compileQuery_without hleft.lacks (Except.mapError_eq_ok.mp hcompile) hkey
    exact Except.bind_eq_ok.mpr ⟨form, hread, Except.mapError_eq_ok.mpr hcompile⟩
  obtain ⟨htyped, -⟩ := query_typed hleft.wellFormed hq'
  refine read_alike fun t ht scope hscope ↦ runLevel_alike fun n select page m hrun ↦ ?_
  have hnamed := levelSelect_named hleft.wellFormed htyped.levels ht hscope hrun
  exact Select.run_alike (hleft.select_alike hdistinct he hp hagree hnamed)

end Mapping

/-! ### Answers -/

namespace Database

/-- The database with another store. -/
def withStore (db : Database) (store : Store) : Database :=
  { db with session := { db.session with store := store } }

/-- What a query does not touch, or may not, it tells nothing of: in two stores that agree on
everything but one field or one linked relation, a query that does not access the property has the
same outcome and leaves the same log, whoever authorizes it, and so does a query that accesses it
under a policy that denies the access. -/
theorem answer_withStore {db : Database} (hs : db.schema.Reachable)
    (hdistinct : db.schema.Distinct) {text : String} {q : Query.Compiled}
    (hq : db.schema.query text = .ok q) {e : Entity} (he : e ∈ db.schema.entities) {p : Property}
    (hp : p ∈ e.properties) (hsecret : p.Secret) {store : Store}
    (hagree : db.session.store.AgreeBut db.schema e p store)
    (hkey : ⟨e.name, p.name⟩ ∉ q.accessed ∨
      ∃ policy : Policy, db.authorizer = policy.authorizer ∧
      (.query, ⟨e.name, p.name⟩) ∈ policy.denied)
    (args : Args) :
    (db.withStore store).answer q args = ((db.answer q args).1,
      (db.answer q args).2.withStore store) := by
  unfold answer perform withStore
  dsimp only
  rw [Run.run_answer, Run.run_answer]
  dsimp only
  cases hallows : (db.authorizer .query q.accessed).1 with
  | error e => rfl
  | ok _ =>
    have hkey : ⟨e.name, p.name⟩ ∉ q.accessed := by
      refine hkey.elim id ?_
      rintro ⟨policy, hpolicy, hdenied⟩ hmem
      rw [hpolicy] at hallows
      exact Policy.authorizer_eq_ok.mp hallows _ hmem hdenied
    cases Query.bind q.parameters db.session.slots args with
    | error e => rfl
    | ok bindings =>
      dsimp only
      rw [Run.run_rows, Run.run_rows]
      dsimp only
      rw [Mapping.query_alike hs hdistinct hq he hp hsecret hagree hkey]

open Mapping (friendsCalls friendsPerson friendsStore)

/-- Who asks for the notes of the persons does not learn what the persons are called. -/
theorem answer_withStore_of_friends : ∃ (db : Database) (store : Store) (q : Query.Compiled),
    db.schema = Schema.empty.after friendsCalls ∧ store ≠ db.session.store ∧
    db.schema.query "Person \x7b notes | text != \"tea\" | \x7b text \x7d \x7d" = .ok q ∧
    ((db.withStore store).answer q []).1 = (db.answer q []).1 := by
  let s := Schema.empty.after friendsCalls
  let persons : Table := { friendsPerson with rows := [⟨1, [("name", .text "Eve")]⟩, ⟨2, []⟩] }
  let db : Database := ⟨s, .allowAll, ⟨friendsStore, .empty, []⟩⟩
  have hs : s.Reachable := ⟨friendsCalls, rfl⟩
  have hdistinct : s.Distinct := by decide +kernel
  have hok :
      ((s.query "Person \x7b notes | text != \"tea\" | \x7b text \x7d \x7d").toOption.any fun q ↦
      decide (⟨"Person", "name"⟩ ∉ q.accessed)) = true := by decide +kernel
  have hperson : ((s.get? "Person").any fun e ↦ (e.get? "name").any fun p ↦ p.field?.isSome) =
      true := by
    decide +kernel
  have hcolumns : ∀ spec ∈ s.tables, spec.name = "Person" →
    ∀ c ∈ spec.columns, c.name = "name" := by decide +kernel
  obtain ⟨q, hq, hok⟩ := (Option.any_eq_true _ _).mp hok
  obtain ⟨e, he, hperson⟩ := (Option.any_eq_true _ _).mp hperson
  obtain ⟨p, hp, hfield⟩ := (Option.any_eq_true _ _).mp hperson
  obtain ⟨f, hfield⟩ := Option.isSome_iff_exists.mp hfield
  obtain ⟨he, hename⟩ := (Schema.get?_eq_some_iff hs.wellFormed).mp he
  obtain ⟨hp, hpname⟩ := (Entity.get?_eq_some_iff (hs.wellFormed.entity e he)).mp hp
  have hkind : p.kind = .field f := Property.field?_eq_some_iff.mp hfield
  have hrows : friendsPerson.DiffersAt s "Person" "name" persons := by
    refine ⟨rfl, rfl, ?_⟩
    have hsame (r r' : StoredRow) (hid : r'.id = r.id) :
        friendsPerson.SameRow (fun name ↦ s.Declares "Person" name ∧ name ≠ "name") r r' := by
      refine ⟨hid, ?_⟩
      rintro name ⟨⟨spec, hspec, hname, ⟨-, rfl⟩ | ⟨c, hc, rfl⟩⟩, hne⟩
      · exact congrArg Cell.integer hid
      · exact absurd (hcolumns spec hspec hname c hc) hne
    exact .cons (hsame _ _ rfl) (.cons (hsame _ _ rfl) .nil)
  have hother (name : String) (hne : sameName name "Person" = false) :
      (friendsStore.setTable persons).table? name = friendsStore.table? name := by
    rw [Store.table?_setTable]
    cases ht : friendsStore.table? name with
    | none => rfl
    | some t =>
      have hsame := Store.sameName_of_table? ht
      refine congrArg some (if_neg fun heq : t.name = "Person" ↦ ?_)
      rw [heq, sameName_comm, hne] at hsame
      cases hsame
  have hagree : friendsStore.AgreeBut s e p (friendsStore.setTable persons) :=
    .field hkind (hename ▸ rfl) (hename ▸ rfl) (hename ▸ hpname ▸ hrows) (hename ▸ hother)
  have hsame := @answer_withStore db hs hdistinct _ q (Except.toOption_eq_some_iff.mp hq) e he p hp
    (.inl ⟨by rw [hpname]; decide, f, hkind⟩) (friendsStore.setTable persons) hagree
    (.inl (by rw [hename, hpname]; exact of_decide_eq_true hok)) []
  exact ⟨db, friendsStore.setTable persons, q, rfl, by decide, Except.toOption_eq_some_iff.mp hq,
    by rw [hsame]⟩

end Database

end EntityStore
