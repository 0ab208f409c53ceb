import EntityStore.Proofs.Compile.Assured
import EntityStore.Proofs.Mapping.Named
import EntityStore.Proofs.Mapping.Untouched
import EntityStore.Proofs.Session.Together

/-!
The statements that write a batch name only tables and columns that the schema declares, and leave
no column null that has to be filled whatever the store demands. So stores that no such statement
tells apart are told apart by no batch (`execute_together`).
-/

set_option autoImplicit false

namespace EntityStore

open Mapping

/-- The columns that a statement names. -/
def Statement.names : Statement → List String
  | .insert _ values => values.map Prod.fst
  | .update _ sets _ => sets.map Prod.fst
  | .delete _ keys => keys.map Prod.fst

/-- The columns by which a statement picks rows. -/
def Statement.keys : Statement → List String
  | .delete _ keys => keys.map Prod.fst
  | _ => []

/-- A column that is filled in every row that a batch writes. -/
def Schema.Assures (s : Schema) (table column : String) : Prop :=
  ∃ e ∈ s.entities, e.name = table ∧ ∃ p ∈ e.properties, p.name = column ∧ p.isAssured

/-- A statement that leaves no column null that is to be filled. -/
def Statement.Fills (A : String → Prop) : Statement → Prop
  | .insert _ values =>
    (∀ name, A name → ∃ x ∈ values, x.1 = name) ∧ ∀ x ∈ values, A x.1 → x.2 ≠ .null
  | .update _ sets _ => ∀ x ∈ sets, A x.1 → x.2 ≠ .null
  | .delete _ _ => True

/-- A statement that names a table and columns that a schema declares, sets no row number, fills
what has to be filled and picks rows by the numbers of rows. -/
structure Statement.Declared (s : Schema) (statement : Statement) : Prop where
  plain : statement.Plain
  table : s.HasTable statement.table
  names : ∀ name ∈ statement.names, s.Declares statement.table name
  keys : ∀ name ∈ statement.keys, name ∈ Record.names
  fills : statement.Fills (s.Assures statement.table)

/-- What the statements of a schema do on two stores: both succeed, with stores that are related
again and the same answer, or both fail. -/
def Schema.Keeps (s : Schema) (T : Store → Store → Prop) (E : Error → Error → Prop) : Prop :=
  ∀ statement : Statement, statement.Declared s → ∀ store store', T store store' →
    Except.Both (fun e e' ↦ E (Run.storeError e) (Run.storeError e'))
      (fun left right ↦ T left.store right.store ∧ left.affected = right.affected ∧
        left.row = right.row)
      (store.run statement) (store'.run statement)

namespace Run.Together

variable {α β : Type} {T : Store → Store → Prop} {S : Slots → Slots → Prop}
  {E : Error → Error → Prop} {x : Run α} {y : Run β} {Q : α → β → Prop} {P : α → Prop}

/-- What is known of the answer of the one action besides. -/
theorem and_keeps (h : Together T S E x y Q) (hx : Keeps (fun _ ↦ True) x P) :
    Together T S E x y fun a b ↦ Q a b ∧ P a := by
  intro s t hst
  have h := h s t hst
  have hx := hx s trivial
  revert h hx
  rcases x.run s with ⟨_ | a, s'⟩ <;> rcases y.run t with ⟨_ | b, t'⟩ <;> intro h hx
  · exact h
  · exact h.elim
  · exact h.elim
  · exact ⟨h.1, h.2, hx.2⟩

end Run.Together

namespace Mapping

variable {s : Schema} {e : Entity} {p : Property} {v : InputValue} {inputs : Inputs}
  {ref : RowRef} {i : Instruction} {name : String} {owner target : Int64} {batch : List Instruction}

/-! ### Statements -/

theorem declares_of_sets (he : e ∈ s.entities) {values : List (String × Cell)}
    (h : ∀ x ∈ values, ∃ name, Sets e name x) :
    ∀ column ∈ values.map Prod.fst, s.Declares e.name column := by
  intro column hcolumn
  obtain ⟨x, hx, rfl⟩ := List.mem_map.mp hcolumn
  obtain ⟨_, -, -, c, hc, hname⟩ := h x hx
  exact hname ▸ Schema.declares_column (Schema.entityTable_mem he) hc

theorem declared_insert (he : e ∈ s.entities) {values : List (String × Cell)}
    (h : ∀ x ∈ values, ∃ name, Sets e name x)
    (hfills : (Statement.insert e.name values).Fills (s.Assures e.name)) :
    (Statement.insert e.name values).Declared s where
  plain x hx := (h x hx).elim fun _ hsets ↦ hsets.2.1
  table := ⟨_, Schema.entityTable_mem he, rfl⟩
  names := declares_of_sets he h
  keys := List.forall_mem_nil _
  fills := hfills

theorem declared_update (he : e ∈ s.entities) {sets : List (String × Cell)}
    (h : ∀ x ∈ sets, ∃ name, Sets e name x) {id : Int64}
    (hfills : (Statement.update e.name sets id).Fills (s.Assures e.name)) :
    (Statement.update e.name sets id).Declared s where
  plain x hx := (h x hx).elim fun _ hsets ↦ hsets.2.1
  table := ⟨_, Schema.entityTable_mem he, rfl⟩
  names := declares_of_sets he h
  keys := List.forall_mem_nil _
  fills := hfills

theorem declared_delete (he : e ∈ s.entities) (id : Int64) :
    (Statement.delete e.name [(idName, id)]).Declared s where
  plain := trivial
  table := ⟨_, Schema.entityTable_mem he, rfl⟩
  names column hcolumn := by
    rw [List.mem_singleton.mp hcolumn]
    exact Schema.declares_id he
  keys := List.forall_mem_singleton.mpr List.mem_cons_self
  fills := trivial

theorem declares_link (he : e ∈ s.entities) (hp : p ∈ e.properties) (hlinked : p.isLinked) :
    s.Declares (linkTableName e.name p.name) ownerColumn ∧
    s.Declares (linkTableName e.name p.name) targetColumn := by
  obtain ⟨⟨_, hrelation⟩, hparent⟩ := Property.isLinked_iff.mp hlinked
  obtain ⟨_, hspec⟩ := Schema.linkTable_eq (e := e) hrelation hparent
  have hmem := Schema.linkTable_mem he hp hspec
  exact ⟨Schema.declares_column hmem List.mem_cons_self,
    Schema.declares_column hmem (List.mem_cons_of_mem _ List.mem_cons_self)⟩

/-- No entity has the name of a table of links. -/
theorem not_assures_link (hdistinct : s.Distinct) (he : e ∈ s.entities) (hp : p ∈ e.properties)
    (hlinked : p.isLinked) :
    ¬s.Assures (linkTableName e.name p.name) name := by
  rintro ⟨d, hd, hname, -⟩
  obtain ⟨⟨_, hrelation⟩, hparent⟩ := Property.isLinked_iff.mp hlinked
  obtain ⟨_, hspec⟩ := Schema.linkTable_eq (e := e) hrelation hparent
  have hsame := Store.spec_eq_of_name_eq hdistinct (Schema.linkTable_mem he hp hspec)
    (Schema.entityTable_mem hd) hname.symm
  exact Bool.false_ne_true (congrArg TableSpec.counted hsame)

theorem declared_linked (hdistinct : s.Distinct) (he : e ∈ s.entities) (hp : p ∈ e.properties)
    (hlinked : p.isLinked) :
    (linked e p owner target).Declared s where
  plain := settable_link owner target
  table := (declares_link he hp hlinked).1.table
  names := List.forall_mem_cons.mpr ⟨(declares_link he hp hlinked).1,
    List.forall_mem_singleton.mpr (declares_link he hp hlinked).2⟩
  keys := List.forall_mem_nil _
  fills := ⟨fun _ hassures ↦ absurd hassures (not_assures_link hdistinct he hp hlinked),
    fun _ _ hassures ↦ absurd hassures (not_assures_link hdistinct he hp hlinked)⟩

theorem declared_unlinked (he : e ∈ s.entities) (hp : p ∈ e.properties) (hlinked : p.isLinked) :
    (Statement.delete (linkTableName e.name p.name) [(ownerColumn, owner),
      (targetColumn, target)]).Declared s where
  plain := trivial
  table := (declares_link he hp hlinked).1.table
  names := List.forall_mem_cons.mpr ⟨(declares_link he hp hlinked).1,
    List.forall_mem_singleton.mpr (declares_link he hp hlinked).2⟩
  keys := List.forall_mem_cons.mpr
    ⟨List.mem_cons_of_mem _ (List.mem_cons_of_mem _ List.mem_cons_self),
    List.forall_mem_singleton.mpr
      (List.mem_cons_of_mem _ (List.mem_cons_of_mem _ (List.mem_cons_of_mem _ List.mem_cons_self)))⟩
  fills := trivial

theorem declared_cleared (he : e ∈ s.entities) (hp : p ∈ e.properties) (hlinked : p.isLinked) :
    (Statement.delete (linkTableName e.name p.name) [(ownerColumn, owner)]).Declared s where
  plain := trivial
  table := (declares_link he hp hlinked).1.table
  names := List.forall_mem_singleton.mpr (declares_link he hp hlinked).1
  keys := List.forall_mem_singleton.mpr
    (List.mem_cons_of_mem _ (List.mem_cons_of_mem _ List.mem_cons_self))
  fills := trivial

/-! ### What inputs are written to -/

variable {P : Store → Prop}

/-- A property that is assured is written to its column, which holds more than null then. -/
theorem inserted_fills (hs : s.WellFormed) (he : e ∈ s.entities)
    (hp : p ∈ e.properties) (hv : p.Creates v) (hassured : p.isAssured)
    (hnull : ∀ w, v = .value w → ¬w.isNull) : Run.Keeps P (inserted e p.name v) fun i ↦
      (∃ x ∈ i.columns, x.1 = p.name) ∧ ∀ x ∈ i.columns, x.2 ≠ .null := by
  have hinserts := inserted_inserts hs he hp hv
  generalize inserted e p.name v = action at hinserts
  cases hinserts with
  | @field f w hkind hholds =>
    exact .pure ⟨⟨_, List.mem_singleton_self _, rfl⟩, List.forall_mem_singleton.mpr
      (FieldType.cell_ne_null hholds (hnull w rfl) (Property.affinity_of_isAssured hassured hkind))⟩
  | parent hkind hparent =>
    exact .bind (.rowOf _ _) fun n _ ↦ .pure ⟨⟨_, List.mem_singleton_self _, hparent.symm⟩,
      List.forall_mem_singleton.mpr nofun⟩
  | links hvalue hlinked =>
    obtain ⟨⟨target, hrelation⟩, hparent⟩ := Property.isLinked_iff.mp hlinked
    exact absurd (Property.isParent_of_isAssured hassured (by rw [hrelation]; exact nofun)) hparent
  | owned hvalue howned hparent =>
    refine absurd
      (Property.isParent_iff.mp (Property.isParent_of_isAssured hassured fun hnone ↦ ?_)) hparent
    rw [Property.isOwned, hnone] at howned
    cases howned

theorem assigned_fills (hs : s.WellFormed) (he : e ∈ s.entities)
    (hp : p ∈ e.properties) (hv : p.Updates v) (hassured : p.isAssured)
    (hnull : ∀ w, v = .value w → ¬w.isNull) :
    Run.Keeps P (assigned e p.name v) fun sets ↦ ∀ x ∈ sets, x.2 ≠ .null := by
  have hassigns := assigned_assigns hs he hp hv
  generalize assigned e p.name v = action at hassigns
  cases hassigns with
  | @field f w hkind hholds =>
    exact .pure (List.forall_mem_singleton.mpr
      (FieldType.cell_ne_null hholds (hnull w rfl) (Property.affinity_of_isAssured hassured hkind)))
  | parent => exact .bind (.rowOf _ _) fun n _ ↦ .pure (List.forall_mem_singleton.mpr nofun)
  | links => exact .pure (List.forall_mem_nil _)

/-- What an input of a create becomes: cells of its column and links of its relation, and a cell
that is not null if its property is assured. -/
structure Composes (e : Entity) (name : String) (part : Insertion) : Prop where
  sets : ∀ x ∈ part.columns, Sets e name x
  links : ∀ x ∈ part.links, ∃ p ∈ e.properties, p.name = x.1 ∧ p.isLinked
  fills : ∀ p ∈ e.properties, p.name = name → p.isAssured →
    (∃ x ∈ part.columns, x.1 = p.name) ∧ ∀ x ∈ part.columns, x.2 ≠ .null

theorem inserted_composes (hs : s.WellFormed) (he : e ∈ s.entities) (hcreates : e.Creates inputs)
    (hnull : e.SetsNoNull inputs) {y : String × InputValue} (hy : y ∈ inputs) :
    Run.Keeps P (inserted e y.1 y.2) (Composes e y.1) := by
  obtain ⟨hid, p, hp, hname, hv⟩ := hcreates.property y hy
  obtain ⟨name, v⟩ := y
  subst hname
  have hsets := inserted_sets (P := P) hs he hp hid hv
  by_cases hassured : p.isAssured
  · have hfills :=
      inserted_fills (P := P) hs he hp hv hassured fun w hw ↦ hnull p hp hassured w (hw ▸ hy)
    refine (hsets.and hfills).weaken fun part hpart ↦ ⟨hpart.1.1, fun x hx ↦ ?_,
      fun q hq hqname _ ↦ ?_⟩
    · exact ⟨p, hp, (hpart.1.2 x hx).1.symm, (hpart.1.2 x hx).2⟩
    · obtain rfl := (hs.entity e he).indexed.eq_of_name_eq hq hp hqname
      exact hpart.2
  · refine hsets.weaken fun part hpart ↦ ⟨hpart.1, fun x hx ↦ ?_, fun q hq hqname hq' ↦ ?_⟩
    · exact ⟨p, hp, (hpart.2 x hx).1.symm, (hpart.2 x hx).2⟩
    · obtain rfl := (hs.entity e he).indexed.eq_of_name_eq hq hp hqname
      exact absurd hq' hassured

/-- The row of a create is declared, and filled where inputs are given for all that is assured. -/
theorem declared_parts (hs : s.WellFormed) (he : e ∈ s.entities) {parts : List Insertion}
    (hparts : List.Forall₂ (fun y part ↦ Composes e y.1 part) inputs parts)
    (hgiven : ∀ p ∈ e.properties, p.isAssured → ∃ v, (p.name, v) ∈ inputs) :
    (Statement.insert e.name (parts.foldl Insertion.append .none).columns).Declared s := by
  refine declared_insert he (fun x hx ↦ ?_) ⟨fun name hassures ↦ ?_, fun x hx hassures ↦ ?_⟩
  · obtain ⟨part, hpart, hx⟩ := mem_columns_foldl.mp hx
    obtain ⟨y, -, hcomposes⟩ := List.forall₂_exists_right hparts part hpart
    exact ⟨y.1, hcomposes.sets x hx⟩
  · obtain ⟨d, hd, hname, p, hp, rfl, hassured⟩ := hassures
    obtain rfl := hs.indexed.eq_of_name_eq hd he hname
    obtain ⟨v, hv⟩ := hgiven p hp hassured
    obtain ⟨part, hpart, hcomposes⟩ := List.forall₂_exists_left hparts _ hv
    obtain ⟨x, hx, hxname⟩ := (hcomposes.fills p hp rfl hassured).1
    exact ⟨x, mem_columns_foldl.mpr ⟨part, hpart, hx⟩, hxname⟩
  · obtain ⟨part, hpart, hx⟩ := mem_columns_foldl.mp hx
    obtain ⟨d, hd, hname, p, hp, hpname, hassured⟩ := hassures
    obtain rfl := hs.indexed.eq_of_name_eq hd he hname
    obtain ⟨y, -, hcomposes⟩ := List.forall₂_exists_right hparts part hpart
    exact (hcomposes.fills p hp (hpname.trans (hcomposes.sets x hx).1) hassured).2 x hx

theorem linked_parts {parts : List Insertion}
    (hparts : List.Forall₂ (fun y part ↦ Composes e y.1 part) inputs parts) :
    ∀ x ∈ (parts.foldl Insertion.append .none).links, ∃ p ∈ e.properties, p.name =
      x.1 ∧ p.isLinked := by
  intro x hx
  obtain ⟨part, hpart, hx⟩ := mem_links_foldl.mp hx
  obtain ⟨y, -, hcomposes⟩ := List.forall₂_exists_right hparts part hpart
  exact hcomposes.links x hx

/-- What an input of an update becomes: cells of its column, and none that is null if its property
is assured. -/
structure Amends (e : Entity) (name : String) (cells : List (String × Cell)) : Prop where
  sets : ∀ x ∈ cells, Sets e name x
  fills : ∀ p ∈ e.properties, p.name = name → p.isAssured → ∀ x ∈ cells, x.2 ≠ .null

theorem assigned_amends (hs : s.WellFormed) (he : e ∈ s.entities) (hupdates : e.Updates inputs)
    (hnull : e.SetsNoNull inputs) {y : String × InputValue} (hy : y ∈ inputs) :
    Run.Keeps P (assigned e y.1 y.2) (Amends e y.1) := by
  obtain ⟨hid, p, hp, hname, hv⟩ := hupdates.property y hy
  obtain ⟨name, v⟩ := y
  subst hname
  have hsets := assigned_sets (P := P) hs he hp hid hv
  by_cases hassured : p.isAssured
  · have hfills :=
      assigned_fills (P := P) hs he hp hv hassured fun w hw ↦ hnull p hp hassured w (hw ▸ hy)
    exact (hsets.and hfills).weaken fun sets h ↦ ⟨h.1, fun _ _ _ _ ↦ h.2⟩
  · refine hsets.weaken fun sets h ↦ ⟨h, fun q hq hqname hq' ↦ ?_⟩
    obtain rfl := (hs.entity e he).indexed.eq_of_name_eq hq hp hqname
    exact absurd hq' hassured

theorem declared_sets (hs : s.WellFormed) (he : e ∈ s.entities)
    {sets : List (List (String × Cell))} {id : Int64}
    (hsets : List.Forall₂ (fun y part ↦ Amends e y.1 part) inputs sets) :
    (Statement.update e.name sets.flatten id).Declared s := by
  refine declared_update he (fun x hx ↦ ?_) fun x hx hassures ↦ ?_
  · obtain ⟨part, hpart, hx⟩ := List.mem_flatten.mp hx
    obtain ⟨y, -, hamends⟩ := List.forall₂_exists_right hsets part hpart
    exact ⟨y.1, hamends.sets x hx⟩
  · obtain ⟨part, hpart, hx⟩ := List.mem_flatten.mp hx
    obtain ⟨d, hd, hname, p, hp, hpname, hassured⟩ := hassures
    obtain rfl := hs.indexed.eq_of_name_eq hd he hname
    obtain ⟨y, -, hamends⟩ := List.forall₂_exists_right hsets part hpart
    exact hamends.fills p hp (hpname.trans (hamends.sets x hx).1) hassured x hx

/-! ### Instructions -/

section

variable {T : Store → Store → Prop} {E : Error → Error → Prop} (hT : s.Keeps T E) (hE : ∀ e, E e e)

section

include hT

theorem statement_together {statement : Statement} (h : statement.Declared s) :
    Run.Together T Eq E (Run.statement statement) (Run.statement statement) fun left right ↦
      left.affected = right.affected ∧ left.row = right.row :=
  .statement (hT statement h)

theorem removeLinks_together (he : e ∈ s.entities) (hp : p ∈ e.properties) (hlinked : p.isLinked) :
    Run.Together T Eq E (removeLinks e.name p.name owner)
      (removeLinks e.name p.name owner) fun _ _ ↦ True :=
  .bind (statement_together hT (declared_cleared he hp hlinked)) fun _ _ _ ↦ .pure trivial

end

include hE

theorem rowOf_together (row : RowRef) (what : RowUse) :
    Run.Together T Eq E (Run.rowOf row what) (Run.rowOf row what) Eq :=
  .rowOf row what (fun _ _ h ↦ h ▸ rfl) hE

theorem inserted_together : Run.Together T Eq E (inserted e name v) (inserted e name v) Eq := by
  unfold inserted
  dsimp only
  split
  · exact .pure rfl
  · split
    · exact .bind (rowOf_together hE _ _) fun id _ h ↦ h ▸ .pure rfl
    · split
      · exact .pure rfl
      · exact .pure rfl
  · split
    · exact .pure rfl
    · exact .pure rfl
  · split
    · exact .pure rfl
    · exact .bind .get fun u u' h ↦ by rw [h.slots]; exact .throw (hE _)

theorem assigned_together : Run.Together T Eq E (assigned e name v) (assigned e name v) Eq := by
  unfold assigned
  split
  · split
    · exact .pure rfl
    · exact .throw (hE _)
  · split
    · exact .bind (rowOf_together hE _ _) fun id _ h ↦ h ▸ .pure rfl
    · exact .pure rfl
  · exact .pure rfl

include hT

theorem single_together {statement : Statement} (h : statement.Declared s) (change : RowChange) :
    Run.Together T Eq E (Run.statement statement >>= fun effect ↦ Run.single change effect.affected)
      (Run.statement statement >>= fun effect ↦ Run.single change effect.affected) fun _ _ ↦ True :=
  .bind (statement_together hT h) fun left right heffect ↦ by rw [heffect.1]; exact .single _ _ hE

theorem addLink_together (hdistinct : s.Distinct) (he : e ∈ s.entities) (hp : p ∈ e.properties)
    (hlinked : p.isLinked) :
    Run.Together T Eq E (addLink e.name p.name owner target)
      (addLink e.name p.name owner target) fun _ _ ↦ True :=
  single_together hT hE (declared_linked hdistinct he hp hlinked) _

theorem changeLink_together (hdistinct : s.Distinct) (he : e ∈ s.entities) (hp : p ∈ e.properties)
    (hlinked : p.isLinked) (op : Language.LinkOp) (r : RowRef) :
      Run.Together T Eq E (changeLink e.name p.name owner op r)
        (changeLink e.name p.name owner op r) fun _ _ ↦ True := by
  refine .bind (rowOf_together hE _ _) fun target _ h ↦ h ▸ ?_
  cases op with
  | add => exact addLink_together hT hE hdistinct he hp hlinked
  | del => exact single_together hT hE (declared_unlinked he hp hlinked) _

theorem addLinks_together (hdistinct : s.Distinct) (he : e ∈ s.entities)
    {links : List (String × RowRef)}
    (hlinks : ∀ x ∈ links, ∃ p ∈ e.properties, p.name = x.1 ∧ p.isLinked) :
    Run.Together T Eq E (links.forM fun x ↦ do
      let target ← Run.rowOf x.2 (.related ⟨e.name, x.1⟩)
      addLink e.name x.1 owner target) (links.forM fun x ↦ do
      let target ← Run.rowOf x.2 (.related ⟨e.name, x.1⟩)
      addLink e.name x.1 owner target) fun _ _ ↦ True := by
  refine .forM fun x hx ↦ .bind (rowOf_together hE _ _) fun target _ h ↦ h ▸ ?_
  obtain ⟨p, hp, hname, hlinked⟩ := hlinks x hx
  rw [← hname]
  exact addLink_together hT hE hdistinct he hp hlinked

theorem create_together (hs : s.WellFormed) (hdistinct : s.Distinct) (he : e ∈ s.entities)
    (hcreates : e.Creates inputs) (hnull : e.SetsNoNull inputs)
    (hgiven : ∀ p ∈ e.properties, p.isAssured → ∃ v, (p.name, v) ∈ inputs) :
    Run.Together T Eq E (create e ref inputs) (create e ref inputs) fun _ _ ↦ True := by
  unfold create
  refine .bind
    (.mapM fun y hy ↦ (inserted_together hE).and_keeps (inserted_composes hs he hcreates hnull hy))
    fun parts parts' hsame ↦ ?_
  obtain ⟨rfl, hparts⟩ := hsame
  refine .bind (statement_together hT (declared_parts hs he hparts hgiven))
    fun left right heffect ↦ ?_
  dsimp only
  rw [heffect.1, heffect.2]
  have hlinks := linked_parts hparts
  have hassign : Run.Together T Eq E
      (modify fun u ↦ { u with slots := u.slots.assign ref right.row } : Run PUnit)
      (modify fun u ↦ { u with slots := u.slots.assign ref right.row }) fun _ _ ↦ True :=
    .modify fun u u' h ↦ ⟨h.store, congrArg (·.assign ref right.row) h.slots⟩
  refine .bind (.single _ _ hE) fun _ _ _ ↦ .bind .get fun u u' h ↦ ?_
  rw [h.slots]
  split
  · exact .bind (Q := fun _ _ ↦ True) (.throw (hE _)) fun _ _ _ ↦ .bind hassign fun _ _ _ ↦
      addLinks_together hT hE hdistinct he hlinks
  · exact .bind hassign fun _ _ _ ↦ addLinks_together hT hE hdistinct he hlinks

theorem changeLinks_together (hdistinct : s.Distinct) (he : e ∈ s.entities) (hp : p ∈ e.properties)
    (hv : p.Updates v) (owner : Int64) :
    Run.Together T Eq E (changeLinks e.name p.name owner v)
      (changeLinks e.name p.name owner v) fun _ _ ↦ True := by
  unfold changeLinks
  split
  · exact removeLinks_together hT he hp hv.2.1
  · refine .bind (rowOf_together hE _ _) fun target _ h ↦ h ▸ .bind
      (removeLinks_together hT he hp hv.1) fun _ _ _ ↦ ?_
    exact addLink_together hT hE hdistinct he hp hv.1
  · exact changeLink_together hT hE hdistinct he hp hv.1 .del _
  · exact .forM fun x _ ↦ changeLink_together hT hE hdistinct he hp hv.1 x.1 x.2
  · exact .pure trivial

theorem update_together (hs : s.WellFormed) (hdistinct : s.Distinct) (he : e ∈ s.entities)
    (hupdates : e.Updates inputs) (hnull : e.SetsNoNull inputs) :
    Run.Together T Eq E (update e ref inputs) (update e ref inputs) fun _ _ ↦ True := by
  unfold update
  refine .bind (rowOf_together hE _ _) fun id _ h ↦ h ▸ .bind
    (.mapM fun y hy ↦ (assigned_together hE).and_keeps (assigned_amends hs he hupdates hnull hy))
      fun sets sets' hsame ↦ ?_
  obtain ⟨rfl, hsets⟩ := hsame
  refine .bind (statement_together hT (declared_sets hs he hsets)) fun left right heffect ↦ ?_
  dsimp only
  rw [heffect.1]
  refine .bind (.single _ _ hE) fun _ _ _ ↦ .forM fun y hy ↦ ?_
  obtain ⟨-, p, hp, hname, hv⟩ := hupdates.property y hy
  rw [← hname]
  exact changeLinks_together hT hE hdistinct he hp hv id

theorem delete_together (he : e ∈ s.entities) :
    Run.Together T Eq E (delete e ref) (delete e ref) fun _ _ ↦ True :=
  .bind (rowOf_together hE _ _) fun _ _ h ↦ h ▸ single_together hT hE (declared_delete he _) _

theorem write_together (hs : s.WellFormed) (hdistinct : s.Distinct) (hi : s.Compiles i) :
    Run.Together T Eq E (write s i) (write s i) fun _ _ ↦ True := by
  obtain ⟨e, he, hname, hinputs⟩ := (hi.shaped hs).entity
  obtain ⟨d, hd, hdname, hassured⟩ := hi.assured hs
  obtain rfl := hs.indexed.eq_of_name_eq hd he (hdname.trans hname.symm)
  rw [write_eq hs he hname]
  cases haction : i.action with
  | create inputs =>
    rw [haction] at hinputs hassured
    exact create_together hT hE hs hdistinct he hinputs hassured.1 hassured.2
  | update inputs =>
    rw [haction] at hinputs hassured
    exact update_together hT hE hs hdistinct he hinputs hassured
  | delete => exact delete_together hT hE he

/-- A batch does the same on stores that the statements of its schema keep related. -/
theorem execute_together (hs : s.WellFormed) (hdistinct : s.Distinct)
    (hbatch : ∀ i ∈ batch, s.Compiles i) :
    Run.Together T Eq E (execute s batch) (execute s batch) fun _ _ ↦ True := by
  have hwrite : Run.Together T Eq E (batch.forM (writeInBatch s))
      (batch.forM (writeInBatch s)) fun _ _ ↦ True := by
    refine .forM fun i hi ↦ .tryCatch (write_together hT hE hs hdistinct (hbatch i hi))
      fun e e' h ↦ ?_
    exact .bind .get fun _ _ _ ↦ .bind (.log _ _) fun _ _ _ ↦ .throw h
  unfold execute
  exact .bind (.log _ _) fun _ _ _ ↦ .bind (.atomically hwrite) fun _ _ _ ↦ .log _ _

end

end Mapping

end EntityStore
