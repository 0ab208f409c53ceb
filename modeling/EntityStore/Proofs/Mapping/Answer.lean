import EntityStore.Proofs.Mapping.Hits
import EntityStore.Proofs.Mapping.Whole

/-!
What a level answers in a store of its schema: every row in scope that its filter is true of, once
and in order, with its fields and its related rows (`level_rows`), unless a cell cannot be read. The
statement of a level within a scope lists the owners with a function of the store; a table of that
name hides it, and no such level is read (`level_hidden`).
-/

set_option autoImplicit false

namespace EntityStore

namespace Mapping

open Query (Tree)

variable {store : Store} {bindings : Query.Bindings} {s : Schema} {e : Entity} {t root : Tree}
  {scope : Option Scope} {notes : List Query.Note}

/-! ### The rows of a statement -/

/-- The cell after those of a row tells the owner that the row was found for. -/
theorem owner_found {f : Hit}
    (hwide : (viewOf store bindings 0 t (some f.record)).cells.length = width t)
    (scope : Option Scope) : (match ((f.found store bindings t).cells scope)[width t]? with
      | some (.integer n) => n
      | _ => 0) = f.owner scope := by
  rw [Found.cells, Hit.found, ← hwide, List.getElem?_append_right (Nat.le_refl _),
    Nat.sub_self, Hit.owner]
  cases ownerCell? scope f.record f.link <;> rfl

theorem record_found (h : store.Models s) (hs : s.WellFormed) (ht : t.Everywhere s notes) {f : Hit}
    (hf : f.record ∈ store.records t.level.entity) (scope : Option Scope) :
    record t ((f.found store bindings t).cells scope) =
      (rowOf store bindings unread t f.record).map fun row ↦ some (f.owner scope, row) := by
  have hkeep : ∀ b, some f.record = some b → b ∈ store.records t.level.entity :=
    fun _ heq ↦ Option.some.inj heq ▸ hf
  have hwide : (viewOf store bindings 0 t (some f.record)).cells.length = width t := by
    have hview : viewOf store bindings 0 t (some f.record) ∈ views store bindings 0 t
        (some f.record) := by
      rw [views_eq h hs ht hkeep]
      exact List.mem_singleton.mpr rfl
    exact views_wide t hview
  have hassemble : assemble t ((f.found store bindings t).cells scope) =
      (some f.record).mapM (rowOf store bindings unread t) := assemble_eq h hs ht hkeep
  unfold record
  rw [hassemble, Option.mapM_some]
  cases rowOf store bindings unread t f.record with
  | error e => rfl
  | ok row => exact congrArg (fun n ↦ Except.ok (some (n, row))) (owner_found hwide scope)

theorem mapM_filterMap_id {ε α β : Type} {xs : List α} {f : α → Except ε (Option β)}
    {g : α → Except ε β} (h : ∀ x ∈ xs, f x = (g x).map some) :
    (xs.mapM f).map (List.filterMap id) = xs.mapM g := by
  induction xs with
  | nil => rfl
  | cons x xs ih =>
    rw [List.mapM_cons, List.mapM_cons, h x List.mem_cons_self,
      ← ih fun y hy ↦ h y (List.mem_cons_of_mem _ hy)]
    cases g x with
    | error e => rfl
    | ok b => cases xs.mapM f <;> rfl

/-- A level without limit answers its rows in their order, each told by `rowOf`. -/
theorem levelRows_eq (h : store.Models s) (hs : s.WellFormed) (he : e ∈ s.entities)
    (hentity : t.level.entity = e.name) (ht : t.Everywhere s notes) (scope : Option Scope) :
    levelRows store bindings t scope none = (hits store bindings t scope).mapM fun f ↦
      (rowOf store bindings unread t f.record).map (f.owner scope, ·) := by
  have hshown : shown store bindings t scope none =
      (hits store bindings t scope).map (Hit.found store bindings t) := by
    rw [← found_sorted h hs ht]
    unfold shown
    split <;> rfl
  have hpages (rows : List OwnedRow) : onPages scope none rows = rows := by
    cases scope <;> rfl
  have hrecord : ∀ f ∈ hits store bindings t scope, record t
      ((f.found store bindings t).cells scope) =
        ((rowOf store bindings unread t f.record).map (f.owner scope, ·)).map some := by
    intro f hf
    rw [record_found h hs ht ((mem_hits h he hentity f).mp hf).record scope]
    cases rowOf store bindings unread t f.record <;> rfl
  rw [← mapM_filterMap_id hrecord]
  unfold levelRows
  simp only [hshown, hpages, List.mapM_map]
  rfl

theorem pageBounds_none {page : Option PageBounds} (hlimit : t.level.limit = none)
    (hpage : pageBounds bindings t.level = .ok page) : page = none := by
  unfold pageBounds at hpage
  rw [hlimit] at hpage
  obtain ⟨limit, hlimit, hpage⟩ := Except.bind_eq_ok.mp hpage
  obtain ⟨number, -, hpage⟩ := Except.bind_eq_ok.mp hpage
  cases hlimit
  cases hpage
  rfl

/-! ### Reading with everything below -/

namespace Reading

variable {α β : Type} {x : Reading α} {f : α → Reading β}

/-- All errors with which an action fails are of some kind. -/
def FailsOnly (P : Error → Prop) (x : Reading α) : Prop :=
  ∀ p e, (x.run p).1 = .error e → P e

variable {P : Error → Prop}

theorem FailsOnly.pure (a : α) : FailsOnly P (pure a) :=
  fun _ _ h ↦ nomatch h

theorem FailsOnly.bind (hx : x.FailsOnly P) (hf : ∀ a, (f a).FailsOnly P) :
    FailsOnly P (x >>= f) := by
  intro p e h
  rw [run_bind] at h
  rcases hrun : x.run p with ⟨_ | a, q⟩ <;> rw [hrun] at h
  · cases h
    exact hx p e (by rw [hrun])
  · exact hf a q e h

theorem FailsOnly.closed (P : Error → Prop) : Closed (FailsOnly P) :=
  ⟨.pure, .bind⟩

end Reading

/-- The errors of cells that hold no value of their field. -/
def Unreadable (e : Error) : Prop :=
  ∃ cell, e = .persistence (.column cell)

theorem runLevel_failsOnly (hserved : LevelServed store bindings t scope)
    (hbound : ∀ u ∈ t.nodes, u.Bound bindings) :
    (runLevel store bindings t scope).FailsOnly Unreadable := by
  intro p e h
  obtain ⟨page, hpage⟩ := pageBounds_ok (hbound t t.mem_nodes_self)
  rcases runLevel_run store scope hbound hpage p with ⟨-, hrun⟩ | ⟨hnot, -⟩
  · rw [hrun] at h
    cases hrows : levelRows store bindings t scope page with
    | error cell =>
      rw [hrows] at h
      cases h
      exact ⟨cell, rfl⟩
    | ok rows =>
      rw [hrows] at h
      cases h
  · exact absurd hserved hnot

section

variable (h : store.Serves s) (hs : s.WellFormed) (hlists : store.ListsScopes)
  (hroot : root.Everywhere s notes) (hbound : ∀ u ∈ root.nodes, u.Bound bindings)

include h hs hlists hroot hbound

/-- Filling the rows of a level of a compiled query. -/
theorem fill_failsOnly (ht : t ∈ root.nodes) (path : List String) (rows : List OwnedRow) :
    (fill store bindings t.level.entity path t.relations rows).FailsOnly Unreadable := by
  refine fill_closed (Reading.FailsOnly.closed Unreadable)
    (fun u hu r v hmem hmany ids ↦ ?_) path rows
  have hu := Tree.mem_nodes_trans ht hu
  have hv := Tree.mem_nodes_trans hu (Tree.mem_nodes_relation hmem)
  have hscope : ScopedIn root v (some ⟨u.level.entity, r, ids⟩) := ⟨_, hu, hmem, hmany, rfl⟩
  exact runLevel_failsOnly (levelServed h hs hroot hv hscope (fun _ ↦ hlists) bindings)
    fun w hw ↦ hbound w (Tree.mem_nodes_trans hv hw)

theorem readLevel_failsOnly (ht : t ∈ root.nodes) (hscope : ScopedIn root t scope) :
    (readLevel store bindings t scope).FailsOnly Unreadable :=
  (runLevel_failsOnly (levelServed h hs hroot ht hscope (fun _ ↦ hlists) bindings)
    fun u hu ↦ hbound u (Tree.mem_nodes_trans ht hu)).bind
      (fill_failsOnly h hs hlists hroot hbound ht [])

end

/-- The rows that reading a level answers are those asked for, with the lists of each row. -/
theorem readLevel_rows (h : store.Models s) (hs : s.WellFormed) (he : e ∈ s.entities)
    (hentity : t.level.entity = e.name) (ht : t.Everywhere s notes)
    (hfillable : Fillable bindings t) (hlimit : t.level.limit = none) {rows : List OwnedRow}
    (hread : (readLevel store bindings t scope).Returns rows) :
    ((hits store bindings t scope).mapM fun f ↦
      (rowOf store bindings (alone store bindings) t f.record).map (f.owner scope, ·)) =
          .ok rows := by
  obtain ⟨own, page, -, hpage, hown, -, -, rfl⟩ :=
    readLevel_returns h.keyed hfillable.suited (fills h.keyed hfillable.suited) hread
  obtain rfl := pageBounds_none hlimit hpage
  rw [levelRows_eq h hs he hentity ht scope, Except.mapM_eq_ok] at hown
  rw [Except.mapM_eq_ok]
  refine List.forall₂_map_right_iff.mpr (hown.imp fun f c hc ↦ ?_)
  obtain ⟨row, hrow, rfl⟩ := Except.map_eq_ok.mp hc
  rw [rowOf_alone hs ht hfillable.names _ _ hrow]
  rfl

/-! ### The rows of a level -/

/-- The rows of a level: they are all that the scope reaches and the filter is true of, in an order
in which no two share a place, and none is there twice for an owner. -/
structure LevelRows (store : Store) (bindings : Query.Bindings) (t : Tree) (scope : Option Scope)
    (rows : List Hit) : Prop where
  mem : ∀ f, f ∈ rows ↔ f.In store bindings t scope
  sorted : rows.Pairwise fun f g ↦ f.order store bindings t g = .lt
  once : (rows.map fun f ↦ (f.owner scope, f.record)).Nodup

/-- The statement of a level answers for each row its number, its fields and the row of each single
relation, if there is one that the relation's own filter is true of. Nothing fails but reading a
cell that holds no value of its field. -/
def OwnAnswered (store : Store) (bindings : Query.Bindings) (t : Tree) (scope : Option Scope)
    (rows : List Hit) : Prop :=
  ∀ p, ((runLevel store bindings t scope).run p).1 = (rows.mapM fun f ↦
    (rowOf store bindings unread t f.record).map (f.owner scope, ·)).mapError
      fun e ↦ .persistence (.column e)

/-- Reading a level answers for each row that together with the lists of relations to many rows,
each read for its row alone. Nothing fails but reading a cell that holds no value of its field. -/
def WholeAnswered (store : Store) (bindings : Query.Bindings) (t : Tree) (scope : Option Scope)
    (rows : List Hit) : Prop :=
  ∀ p, (∃ answer, ((readLevel store bindings t scope).run p).1 = .ok answer ∧ (rows.mapM fun f ↦
      (rowOf store bindings (alone store bindings) t f.record).map (f.owner scope, ·)) =
        .ok answer) ∨
    ∃ e, ((readLevel store bindings t scope).run p).1 = .error (.persistence (.column e))

/-- In a store of its schema every level of a compiled query that has no limit answers its rows. A
level within a scope, or with a list below it, needs for it that no table hides the function which
lists the owners. -/
theorem level_rows {s : Schema} (hs : s.Reachable) {form : Language.QueryForm Value Int64}
    {q : Query.Compiled} (hq : s.compileQuery form = .ok q)
    (hnames : ∀ u ∈ q.tree.nodes, (u.relations.map fun x ↦ x.1.name).Nodup)
    {slots : Slots} {args : Args} (hb : Query.bind q.parameters slots args = .ok bindings)
    (hstore : store.Models s) (ht : t ∈ q.tree.nodes) (hscope : ScopedIn q.tree t scope)
    (hlimit : t.level.limit = none) :
    ∃ rows, LevelRows store bindings t scope rows ∧
      ((scope.isSome → store.ListsScopes) → OwnAnswered store bindings t scope rows) ∧
      (store.ListsScopes → WholeAnswered store bindings t scope rows) := by
  have hwf := hs.wellFormed
  obtain ⟨-, notes, hroot, -⟩ := Query.compileQuery_sound hwf hq
  obtain ⟨e, he, hsound⟩ := hroot t ht
  have hfillable := (compileQuery_fillable hs hq hnames hb).node ht
  have hbelow : t.Everywhere s notes := fun u hu ↦ hroot u (Tree.mem_nodes_trans ht hu)
  have hentity := hsound.entity
  refine ⟨hits store bindings t scope, ⟨mem_hits hstore he hentity, ?_, ?_⟩,
    fun hlists p ↦ ?_, fun hlists p ↦ ?_⟩
  · exact pairwise_hits hstore hwf he hentity hbelow hfillable.bound
  · exact nodup_owners hstore hwf he hentity hroot hscope
  · have hserved := levelServed hstore.serves hwf hroot ht hscope hlists bindings
    obtain ⟨page, hpage⟩ := pageBounds_ok (hfillable.bound t t.mem_nodes_self)
    obtain rfl := pageBounds_none hlimit hpage
    rcases runLevel_run store scope hfillable.bound hpage p with ⟨-, hrun⟩ | ⟨hnot, -⟩
    · rw [hrun, levelRows_eq hstore hwf he hentity hbelow scope]
    · exact absurd hserved hnot
  · have hbound := Query.compileQuery_bound hwf hq hb
    cases hrun : ((readLevel store bindings t scope).run p).1 with
    | ok answer =>
      have hreturns := readLevel_settled hfillable.bound scope p answer hrun
      exact .inl ⟨answer, rfl,
        readLevel_rows hstore hwf he hentity hbelow hfillable hlimit hreturns⟩
    | error e =>
      obtain ⟨cell, rfl⟩ :=
        readLevel_failsOnly hstore.serves hwf hlists hroot hbound ht hscope p e hrun
      exact .inr ⟨cell, rfl⟩

theorem level_rows_of_friends :
    ∃ q rows, (Schema.empty.after friendsCalls).compileQuery friendsForm = .ok q ∧
      Query.bind q.parameters .empty [("friend", .value (.text "Bob"))] =
        .ok [("friend", .text "Bob")] ∧
      LevelRows friendsStore [("friend", .text "Bob")] q.tree none rows ∧
      OwnAnswered friendsStore [("friend", .text "Bob")] q.tree none rows ∧
      WholeAnswered friendsStore [("friend", .text "Bob")] q.tree none rows := by
  have hs : (Schema.empty.after friendsCalls).Reachable := ⟨friendsCalls, rfl⟩
  have hstore : friendsStore.Models (Schema.empty.after friendsCalls) := by decide +kernel
  have hlists : friendsStore.ListsScopes := by decide
  obtain ⟨q, hq, hb, hnames, hlimit, -⟩ := friends_read
  have hscope : ScopedIn q.tree q.tree none := trivial
  obtain ⟨rows, hrows, hown, hwhole⟩ :=
    level_rows hs hq hnames hb hstore q.tree.mem_nodes_self hscope hlimit
  exact ⟨q, rows, hq, hb, hrows, hown fun _ ↦ hlists, hwhole hlists⟩

/-! ### A table in the place of the function that lists a scope -/

/-- No level within a scope is read where a table hides the function that lists the owners. -/
theorem level_hidden (hbound : ∀ u ∈ t.nodes, u.Bound bindings) (hscope : scope.isSome)
    (hhidden : ¬store.ListsScopes) (p : Progress) :
    ∃ e, ((runLevel store bindings t scope).run p).1 = .error (.persistence (.store e)) := by
  obtain ⟨page, hpage⟩ := pageBounds_ok (hbound t t.mem_nodes_self)
  rcases runLevel_run store scope hbound hpage p with ⟨hserved, -⟩ | ⟨-, hfails⟩
  · obtain ⟨_, rfl⟩ := Option.isSome_iff_exists.mp hscope
    exact absurd hserved.scope.1 hhidden
  · exact hfails

/-- An entity takes the name of the function that lists a scope; persons own notes. -/
def listingCalls : List Schema.Call :=
  .addEntity listingName .master :: friendsCalls

def listingStore : Store :=
  { friendsStore with
    tables := ⟨listingName, some "@id", [], [], [], [], 0⟩ :: friendsStore.tables }

/-- The notes of Ann. -/
def notesForm : Language.QueryForm Value Int64 :=
  ⟨"Person", some (.predicate ["name"] (.compare .eq) (.literal (.text "Ann"))), none, none,
    [.relation "notes" none none none [.field "text" none]]⟩

def noteLevel : Tree :=
  .node ⟨"Note", none, none, none, [⟨idName, .long, none⟩, ⟨"text", .text, none⟩]⟩ []

/-- The notes of Ann, whose number is 1. -/
def annsNotes : Scope :=
  ⟨"Person", ⟨"notes", .owned, true⟩, [1]⟩

theorem notes_compiled : ∃ q, (Schema.empty.after listingCalls).compileQuery notesForm = .ok q ∧
    Query.bind q.parameters .empty [] = .ok [] ∧
    (∀ u ∈ q.tree.nodes, (u.relations.map fun x ↦ x.1.name).Nodup) ∧
    (annsNotes.relation, noteLevel) ∈ q.tree.relations ∧ annsNotes.source = q.tree.level.entity :=
  ⟨_, rfl, rfl, by decide, List.mem_cons_self, rfl⟩

theorem notes_fail {q : Query.Compiled}
    (hq : (Schema.empty.after listingCalls).compileQuery notesForm = .ok q) :
    (read listingStore [] q.tree).1 =
      .error (.persistence (.store (.notFunction listingName))) := by
  have hfails : ((Schema.empty.after listingCalls).compileQuery notesForm).toOption.any fun q ↦
      match (read listingStore [] q.tree).1 with
      | .error (.persistence e) => e = .store (.notFunction listingName)
      | _ => false := by decide +kernel
  rw [hq] at hfails
  change (match (read listingStore [] q.tree).1 with
    | .error (.persistence e) => decide (e = .store (.notFunction listingName))
    | _ => false) = true at hfails
  split at hfails
  · next e heq => rw [heq, of_decide_eq_true hfails]
  · cases hfails

/-- Ann has notes, but the level of notes answers no row for her, and the query fails. -/
theorem notes_hidden : (Schema.empty.after listingCalls).Reachable ∧
    listingStore.Models (Schema.empty.after listingCalls) ∧ ∃ q u f,
      (Schema.empty.after listingCalls).compileQuery notesForm = .ok q ∧
      (∀ u ∈ q.tree.nodes, (u.relations.map fun x ↦ x.1.name).Nodup) ∧
      Query.bind q.parameters .empty [] = .ok [] ∧ u ∈ q.tree.nodes ∧
      ScopedIn q.tree u (some annsNotes) ∧ u.level.limit = none ∧
      Hit.In listingStore [] u (some annsNotes) f ∧
      (∀ p, ∃ e, ((runLevel listingStore [] u (some annsNotes)).run p).1 =
        .error (.persistence (.store e))) ∧
      (read listingStore [] q.tree).1 =
        .error (.persistence (.store (.notFunction listingName))) := by
  have hs : (Schema.empty.after listingCalls).Reachable := ⟨listingCalls, rfl⟩
  have hmodels : listingStore.Models (Schema.empty.after listingCalls) := by decide +kernel
  obtain ⟨q, hq, hb, hnames, hmem, hsource⟩ := notes_compiled
  have hnode : noteLevel ∈ q.tree.nodes := Tree.mem_nodes_relation hmem
  have hbound := Query.compileQuery_bound hs.wellFormed hq hb
  obtain ⟨f, hf⟩ : ∃ f, Hit.In listingStore [] noteLevel (some annsNotes) f := by
    obtain ⟨a, ha, hparent⟩ : ∃ a ∈ listingStore.records "Note", a.cell parentName =
      .integer 1 := by decide
    exact ⟨⟨a, none⟩, ha, ⟨rfl, 1, List.mem_singleton.mpr rfl, hparent⟩, rfl⟩
  exact ⟨hs, hmodels, q, noteLevel, f, hq, hnames, hb, hnode,
    ⟨q.tree, q.tree.mem_nodes_self, hmem, rfl, hsource⟩,
    rfl, hf, level_hidden (fun u hu ↦ hbound u (Tree.mem_nodes_trans hnode hu)) rfl (by decide),
    notes_fail hq⟩

end Mapping

end EntityStore
