import EntityStore.Mapping.Write
import EntityStore.Proofs.Mapping.Keeping
import EntityStore.Proofs.Schema.Ownership
import EntityStore.Proofs.Session.Run

/-!
What plain definitions and statements keep is kept by creating the tables of a schema and by writing
batches: the columns of a schema are plain, and an instruction that does not name the row number
sets settable columns only.
-/

set_option autoImplicit false

namespace EntityStore

open Mapping (isKey keyNames ownerColumn targetColumn)

/-! ### Names of columns -/

/-- Only letters become other characters in lower case, and they become letters. -/
theorem eq_of_toLower_eq {c d : Char} (hd : d.val.toNat < 97) (h : c.toLower = d) : c = d := by
  unfold Char.toLower at h
  split at h
  · next hupper =>
    have hval : (c.val + ('a'.val - 'A'.val)).toNat = d.val.toNat := congrArg
      (fun d : Char ↦ d.val.toNat) h
    have hlow : 65 ≤ c.val.toNat := hupper.1
    have hhigh : c.val.toNat ≤ 90 := hupper.2
    rw [UInt32.toNat_add, show ('a'.val - 'A'.val).toNat = 32 from rfl] at hval
    omega
  · exact h

theorem toLower_ne_at {c : Char} (h : c.isAlpha || c == '_') : c.toLower ≠ '@' := by
  intro heq
  rw [eq_of_toLower_eq (by decide) heq] at h
  revert h
  decide

/-- A name is none of those that start with `@`, in any case of letters. -/
theorem sameName_of_isName {name other : String} (h : isName name)
    (hother : other.toList.head? = some '@') :
    sameName name other = false := by
  refine Bool.eq_false_iff.mpr fun hsame ↦ ?_
  have hlist := sameName_iff.mp hsame
  unfold isName at h
  obtain ⟨rest, hrest⟩ := List.head?_eq_some_iff.mp hother
  rw [hrest] at hlist
  cases hname : name.toList with
  | nil =>
    rw [hname] at h
    cases h
  | cons c cs =>
    rw [hname] at h hlist
    have hc := (Bool.and_eq_true_iff.mp h).1
    exact toLower_ne_at hc (List.cons_eq_cons.mp hlist).1

theorem isKey_of_isName {name : String} (h : isName name) : isKey name = false := by
  refine List.any_eq_false.mpr fun key hkey ↦ ?_
  rw [sameName_of_isName h]
  · simp
  · revert key
    decide

theorem settable_of_isName {name : String} (h : isName name) (c : Cell) : Settable (name, c) where
  other := sameName_of_isName h rfl
  number hkey := by
    rw [isKey_of_isName h] at hkey
    cases hkey

theorem sameName_of_key : ∀ name ∈ keyNames, sameName name idName = false := by
  decide

theorem settable_key {name : String} (h : name ∈ keyNames) (n : Int64) :
    Settable (name, .integer n) :=
  ⟨sameName_of_key name h, fun _ ↦ rfl⟩

/-- What the row of a link is given. -/
theorem settable_link (owner target : Int64) :
    ∀ x ∈ [(ownerColumn, Cell.integer owner), (targetColumn, .integer target)], Settable x :=
  List.forall_mem_cons.mpr ⟨settable_key (by decide) owner,
    List.forall_mem_singleton.mpr (settable_key (by decide) target)⟩

theorem plain_key {c : ColumnSpec} (h : c.name ∈ keyNames) (hinteger : c.affinity = .integer) :
    c.Plain :=
  ⟨sameName_of_key c.name h, fun _ ↦ hinteger⟩

/-- An instruction that does not name the row number. -/
def Instruction.Plain (i : Instruction) : Prop :=
  ∀ x ∈ i.action.inputs, x.1 ≠ idName

namespace Mapping

variable {s : Schema} {e : Entity} {p : Property} {f : Field} {name : String}
  {v : InputValue} {inputs : Inputs}

/-- A field other than the row number has a name. -/
theorem isName_of_field (hs : s.WellFormed) (he : e ∈ s.entities) (hp : p ∈ e.properties)
    (hkind : p.kind = .field f) (hname : p.name ≠ idName) : isName p.name := by
  rcases (hs.entity e he).named p hp with h | h | h
  · exact h
  · exact absurd h hname
  · obtain ⟨own, hown⟩ := hs.ownership e he
    obtain ⟨o, r, -, rfl⟩ := hown.eq_parent hp h
    cases hkind

/-! ### Tables -/

theorem plain_ownColumn (hs : s.WellFormed) (he : e ∈ s.entities)
    (hp : p ∈ e.properties) {c : ColumnSpec} (h : ownColumn p = some c) : c.Plain := by
  unfold ownColumn at h
  split at h
  · next f hkind =>
    split at h
    · cases h
    · next hid =>
      cases h
      have hname := isName_of_field hs he hp hkind hid
      refine ⟨sameName_of_isName hname rfl, fun hkey ↦ ?_⟩
      change isKey p.name at hkey
      rw [isKey_of_isName hname] at hkey
      cases hkey
  · cases h

theorem plain_parentColumn {c : ColumnSpec} (h : parentColumn p = some c) : c.Plain := by
  unfold parentColumn at h
  split at h
  · split at h
    · cases h
      exact plain_key (by decide : parentName ∈ keyNames) rfl
    · cases h
  · cases h

theorem plain_columns (hs : s.WellFormed) (he : e ∈ s.entities) : ∀ c ∈ columns e, c.Plain := by
  intro c hc
  rcases List.mem_append.mp hc with hc | hc
  · obtain ⟨p, hp, hc⟩ := List.mem_filterMap.mp hc
    exact plain_ownColumn hs he hp hc
  · obtain ⟨p, -, hc⟩ := List.mem_filterMap.mp hc
    exact plain_parentColumn hc

theorem plain_linkTable {spec : TableSpec} (h : linkTable name p = some spec) :
    ∀ c ∈ spec.columns, c.Plain := by
  unfold linkTable at h
  split at h
  · split at h
    · cases h
      refine List.forall_mem_cons.mpr ⟨plain_key (by decide : ownerColumn ∈ keyNames) rfl, ?_⟩
      exact List.forall_mem_singleton.mpr (plain_key (by decide : targetColumn ∈ keyNames) rfl)
    · cases h
  · cases h

/-- A property of stores that plain definitions keep. -/
def KeptByDefinitions (P : Store → Prop) : Prop :=
  ∀ d store store', Definition.Plain d → P store → store.define d = .ok store' → P store'

theorem keyed_keptByDefinitions : KeptByDefinitions Store.Keyed :=
  fun _ _ _ hd hstore hdefine ↦ hstore.define hd hdefine

namespace KeptByDefinitions

variable {P : Store → Prop} (h : KeptByDefinitions P)

include h

theorem define {d : Definition} (hd : d.Plain) : Run.Keeps P (Run.define d) fun _ ↦ True :=
  .define fun _ _ hstore hdefine ↦ h d _ _ hd hstore hdefine

theorem defineEntity (hs : s.WellFormed) (he : e ∈ s.entities) :
    Run.Keeps P (Mapping.defineEntity e) fun _ ↦ True := by
  have hcolumns := plain_columns hs he
  unfold Mapping.defineEntity
  refine .bind (h.define hcolumns) fun _ _ ↦ .bind .get fun session _ ↦ .bind
      (.forM fun c hc ↦ ?_) fun _ _ ↦
    .forM fun spec hspec ↦ ?_
  · obtain ⟨c, hin, rfl⟩ := List.mem_map.mp hc
    have hplain := hcolumns c (List.mem_filter.mp hin).1
    exact h.define (d := .addColumn e.name (addedColumn c)) ⟨hplain.other, hplain.integer⟩
  · obtain ⟨p, -, hp⟩ := List.mem_filterMap.mp hspec
    exact h.define (d := .createTable spec) (plain_linkTable hp)

/-- Creating the tables of a schema, also where that fails. -/
theorem bootstrap (hs : s.WellFormed) : Run.Keeps P (Mapping.bootstrap s) fun _ ↦ True :=
  .atomically (.forM fun _ he ↦ h.defineEntity hs he)

end KeptByDefinitions

/-! ### Instructions -/

theorem settable_field (hs : s.WellFormed) (he : e ∈ s.entities) (hname : name ≠ idName)
    (hfield : (e.get? name).bind Property.field? = some f) (c : Cell) : Settable (name, c) := by
  obtain ⟨p, hget, hfound⟩ := Option.bind_eq_some_iff.mp hfield
  obtain ⟨hp, rfl⟩ := (Entity.get?_eq_some_iff (hs.entity e he)).mp hget
  have hkind : p.kind = .field f := Property.field?_eq_some_iff.mp hfound
  exact settable_of_isName (isName_of_field hs he hp hkind hname) c

theorem settable_parent (id : Int64) : Settable (parentName, .integer id) :=
  settable_key (by decide) id

theorem inserted_settable {P : Store → Prop} (hs : s.WellFormed) (he : e ∈ s.entities)
    (hname : name ≠ idName) :
    Run.Keeps P (inserted e name v) fun i ↦ ∀ x ∈ i.columns, Settable x := by
  unfold inserted
  dsimp only
  split
  · next f v hkind =>
    refine .pure (List.forall_mem_singleton.mpr (settable_field (f := f) hs he hname ?_ _))
    obtain ⟨p, hget, hkind⟩ := Option.map_eq_some_iff.mp hkind
    rw [hget]
    exact Property.field?_eq_some_iff.mpr hkind
  · split
    · exact .bind (.rowOf _ _) fun id _ ↦ .pure (List.forall_mem_singleton.mpr (settable_parent id))
    · split
      · exact .pure nofun
      · exact .pure nofun
  · split
    · exact .pure nofun
    · exact .pure nofun
  · split
    · exact .pure nofun
    · exact .bind .get fun _ _ ↦ .throw _

theorem columns_foldl (parts : List Insertion) (i : Insertion) :
    (parts.foldl Insertion.append i).columns = i.columns ++ parts.flatMap Insertion.columns := by
  induction parts generalizing i with
  | nil => simp
  | cons part parts ih => simp [ih, Insertion.append]

theorem links_foldl (parts : List Insertion) (i : Insertion) :
    (parts.foldl Insertion.append i).links = i.links ++ parts.flatMap Insertion.links := by
  induction parts generalizing i with
  | nil => simp
  | cons part parts ih => simp [ih, Insertion.append]

theorem mem_columns_foldl {parts : List Insertion} {x : String × Cell} :
    x ∈ (parts.foldl Insertion.append .none).columns ↔ ∃ part ∈ parts, x ∈ part.columns := by
  rw [columns_foldl, List.mem_append, List.mem_flatMap]
  exact or_iff_right List.not_mem_nil

theorem mem_links_foldl {parts : List Insertion} {x : String × RowRef} :
    x ∈ (parts.foldl Insertion.append .none).links ↔ ∃ part ∈ parts, x ∈ part.links := by
  rw [links_foldl, List.mem_append, List.mem_flatMap]
  exact or_iff_right List.not_mem_nil

theorem assigned_settable {P : Store → Prop} (hs : s.WellFormed) (he : e ∈ s.entities)
    (hname : name ≠ idName) :
    Run.Keeps P (assigned e name v) fun sets ↦ ∀ x ∈ sets, Settable x := by
  unfold assigned
  split
  · split
    · next f hfield =>
        exact .pure (List.forall_mem_singleton.mpr (settable_field hs he hname hfield _))
    · exact .throw _
  · split
    · exact .bind (.rowOf _ _) fun id _ ↦ .pure (List.forall_mem_singleton.mpr (settable_parent id))
    · exact .pure nofun
  · exact .pure nofun

/-- Writing an instruction does its action to the entity that it names. -/
theorem write_eq (hs : s.WellFormed) (he : e ∈ s.entities) {i : Instruction}
    (hname : e.name = i.entity) :
    write s i = match i.action with
      | .create inputs => create e i.ref inputs
      | .update inputs => update e i.ref inputs
      | .delete => delete e i.ref := by
  unfold write
  rw [(Schema.find_eq_ok_iff hs).mpr ⟨he, hname⟩]
  exact pure_bind _ _

/-- A property of stores that plain statements keep. -/
def KeptByStatements (P : Store → Prop) : Prop :=
  ∀ statement store effect, Statement.Plain statement → P store →
    store.run statement = .ok effect → P effect.store

namespace KeptByStatements

variable {P : Store → Prop} (h : KeptByStatements P)

include h

theorem statement {statement : Statement} (hplain : statement.Plain) :
    Run.Keeps P (Run.statement statement) fun _ ↦ True :=
  .statement fun _ _ hstore hrun ↦ h statement _ _ hplain hstore hrun

theorem remove (table : String) (keys : List (String × Int64)) :
    Run.Keeps P (Run.statement (.delete table keys)) fun _ ↦ True :=
  h.statement trivial

theorem addLink (entity relation : String) (owner target : Int64) :
    Run.Keeps P (Mapping.addLink entity relation owner target) fun _ ↦ True :=
  .bind (h.statement (settable_link owner target)) fun _ _ ↦ .single _ _

theorem addLinks (entity : String) (owner : Int64) (links : List (String × RowRef)) :
    Run.Keeps P (links.forM fun (relation, target) ↦ do
      let target ← Run.rowOf target (.related ⟨entity, relation⟩)
      Mapping.addLink entity relation owner target) fun _ ↦ True :=
  .forM fun x _ ↦ .bind (.rowOf x.2 _) fun target _ ↦ h.addLink entity x.1 owner target

theorem create (hs : s.WellFormed) (he : e ∈ s.entities) (ref : RowRef)
    (hinputs : ∀ x ∈ inputs, x.1 ≠ idName) :
    Run.Keeps P (Mapping.create e ref inputs) fun _ ↦ True := by
  unfold Mapping.create
  refine .bind (.mapM fun x hx ↦ inserted_settable hs he (hinputs x hx)) fun parts hparts ↦ ?_
  have hplain : (Statement.insert e.name (parts.foldl Insertion.append .none).columns).Plain := by
    intro x hx
    obtain ⟨part, hpart, hx⟩ := mem_columns_foldl.mp hx
    exact hparts part hpart x hx
  refine .bind (h.statement hplain) fun effect _ ↦ .bind (.single _ _)
    fun _ _ ↦ .bind .get fun _ _ ↦ ?_
  have hlinks := h.addLinks e.name effect.row (parts.foldl Insertion.append .none).links
  dsimp only
  split
  · exact .bind (Q := fun _ ↦ True) (.throw _)
      fun _ _ ↦ .bind (.modify fun _ ↦ rfl) fun _ _ ↦ hlinks
  · exact .bind (.modify fun _ ↦ rfl) fun _ _ ↦ hlinks

theorem removeLinks (entity relation : String) (owner : Int64) :
    Run.Keeps P (Mapping.removeLinks entity relation owner) fun _ ↦ True :=
  .bind (h.remove _ _) fun _ _ ↦ .pure trivial

theorem changeLink (entity relation : String) (owner : Int64) (op : Language.LinkOp) (r : RowRef) :
    Run.Keeps P (Mapping.changeLink entity relation owner op r) fun _ ↦ True := by
  refine .bind (.rowOf _ _) fun target _ ↦ ?_
  cases op with
  | add => exact h.addLink entity relation owner target
  | del => exact .bind (h.remove _ _) fun _ _ ↦ .single _ _

theorem changeLinks (entity relation : String) (owner : Int64) (v : InputValue) :
    Run.Keeps P (Mapping.changeLinks entity relation owner v) fun _ ↦ True := by
  unfold Mapping.changeLinks
  split
  · exact h.removeLinks entity relation owner
  · exact .bind (.rowOf _ _) fun target _ ↦ .bind (h.removeLinks entity relation owner) fun _ _ ↦
      h.addLink entity relation owner target
  · exact h.changeLink entity relation owner .del _
  · exact .forM fun x _ ↦ h.changeLink entity relation owner x.1 x.2
  · exact .pure trivial

theorem update (hs : s.WellFormed) (he : e ∈ s.entities) (ref : RowRef)
    (hinputs : ∀ x ∈ inputs, x.1 ≠ idName) :
    Run.Keeps P (Mapping.update e ref inputs) fun _ ↦ True := by
  unfold Mapping.update
  refine .bind (.rowOf _ _) fun id _ ↦
    .bind (.mapM fun x hx ↦ assigned_settable hs he (hinputs x hx)) fun sets hsets ↦ ?_
  have hplain : (Statement.update e.name sets.flatten id).Plain := by
    intro x hx
    obtain ⟨part, hpart, hx⟩ := List.mem_flatten.mp hx
    exact hsets part hpart x hx
  exact .bind (h.statement hplain) fun effect _ ↦ .bind (.single _ _) fun _ _ ↦
    .forM fun x _ ↦ h.changeLinks e.name x.1 id x.2

theorem delete (e : Entity) (ref : RowRef) : Run.Keeps P (Mapping.delete e ref) fun _ ↦ True :=
  .bind (.rowOf _ _) fun _ _ ↦ .bind (h.remove _ _) fun _ _ ↦ .single _ _

theorem write (hs : s.WellFormed) {i : Instruction} (hi : i.Plain) :
    Run.Keeps P (Mapping.write s i) fun _ ↦ True := by
  unfold Mapping.write
  refine .bind (.orFail (Q := fun e ↦ e ∈ s.entities)
    fun e hfind ↦ ((Schema.find_eq_ok_iff hs).mp hfind).1) fun e he ↦ ?_
  unfold Instruction.Plain at hi
  cases haction : i.action with
  | create inputs =>
    rw [haction] at hi
    exact h.create hs he i.ref hi
  | update inputs =>
    rw [haction] at hi
    exact h.update hs he i.ref hi
  | delete => exact h.delete e i.ref

theorem writeAll (hs : s.WellFormed) {batch : List Instruction} (hbatch : ∀ i ∈ batch, i.Plain) :
    Run.Keeps P (batch.forM (writeInBatch s)) fun _ ↦ True :=
  .forM fun i hi ↦ .tryCatch (h.write hs (hbatch i hi)) fun _ ↦
    .bind .get fun _ _ ↦ .bind (.log _) fun _ _ ↦ .throw _

/-- Writing a batch, also where that fails. -/
theorem execute (hs : s.WellFormed) {batch : List Instruction} (hbatch : ∀ i ∈ batch, i.Plain) :
    Run.Keeps P (Mapping.execute s batch) fun _ ↦ True :=
  .bind (.log _) fun _ _ ↦ .bind (.atomically (h.writeAll hs hbatch)) fun _ _ ↦ .log _

end KeptByStatements

end Mapping

end EntityStore
