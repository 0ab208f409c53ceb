import EntityStore.Proofs.Mapping.Numbers

/-!
Sessions of databases, and what the numbers of references stand for in them. A reference that has a
number is that of a row of a committed batch, and the row's entity is never given the number again,
unless a batch that failed assigned it (`Session.failed_batch_undone`).
-/

set_option autoImplicit false

namespace EntityStore

open Mapping

/-- A row that a batch added: the reference to it, its entity and its number. -/
structure NewRow where
  ref : RowRef
  entity : String
  id : Int64

/-- The number of a row is less than that of a later one in the same table. -/
def NewRow.Before (a b : NewRow) : Prop :=
  sameName a.entity b.entity → a.id < b.id

/-- The row that an instruction added, if it adds one. -/
def Instruction.newRows (slots : Slots) (i : Instruction) : List NewRow :=
  (i.numbered slots).map fun (entity, id) ↦ ⟨i.ref, entity, id⟩

/-- The references that have a number in the second slots only. -/
def Slots.gained (a b : Slots) : List RowRef :=
  (b.assigned.map fun (slot, _) ↦ RowRef.pending slot).filter fun r ↦ (a.id? r).isNone

/-- Sessions, with the rows that committed batches added and the references that failed batches
assigned. One starts with an empty store or with that of an earlier session. Compiling gives out
slots and queries log, which changes neither the store nor the numbers of references. -/
inductive Session.Reached : List NewRow → List RowRef → Session → Prop where
  | start (enforced : Bool) : Reached [] [] (.start enforced)
  | opened {rows : List NewRow} {left : List RowRef} {t : Session} (h : Reached rows left t)
      (log : List Event) :
      Reached [] [] ⟨t.store, .empty, log⟩
  | other {rows : List NewRow} {left : List RowRef} {t t' : Session} (h : Reached rows left t)
      (hstore : t'.store = t.store) (hslots : t'.slots.assigned = t.slots.assigned) :
      Reached rows left t'
  | defined {rows : List NewRow} {left : List RowRef} {s : Schema} {t t' : Session}
      {outcome : Except Error Unit} (h : Reached rows left t) (hs : s.Reachable)
      (hrun : (bootstrap s).run t = (outcome, t')) : Reached rows left t'
  | committed {rows : List NewRow} {left : List RowRef} {s : Schema} {a : Authorizer}
      {batch : List Instruction} {t t' : Session} (h : Reached rows left t) (hs : s.Reachable)
      (hbatch : ∀ i ∈ batch, s.Compiles i) (hrun : (Run.apply s a batch).run t = (.ok (), t')) :
      Reached (rows ++ batch.flatMap (·.newRows t'.slots)) left t'
  | failed {rows : List NewRow} {left : List RowRef} {s : Schema} {a : Authorizer}
      {batch : List Instruction} {t t' : Session} {error : Error} (h : Reached rows left t)
      (hrun : (Run.apply s a batch).run t = (.error error, t')) :
      Reached rows (left ++ t.slots.gained t'.slots) t'

variable {s : Schema} {a : Authorizer} {e : Entity} {i : Instruction}
  {batch : List Instruction} {t t' : Session} {slots slots' : Slots} {row : NewRow}
  {rows : List NewRow} {left : List RowRef} {inputs : Inputs} {ref r : RowRef} {id : Int64}

/-! ### New rows -/

theorem Instruction.mem_newRows : row ∈ i.newRows slots ↔
    i.action.creates ∧ row.ref = i.ref ∧ row.entity = i.entity ∧ slots.id? i.ref = some row.id := by
  obtain ⟨ref, entity, id⟩ := row
  unfold newRows numbered
  cases haction : i.action with
  | create inputs =>
    cases hid : slots.id? i.ref <;> simp [Action.creates, eq_comm, and_comm, and_assoc]
  | update inputs => simp [Action.creates]
  | delete => simp [Action.creates]

/-- Numbers that are kept make the same new rows. -/
theorem Instruction.newRows_eq
    (h : i.action.creates → ∃ id, slots.id? i.ref = some id ∧ slots'.id? i.ref = some id) :
    i.newRows slots' = i.newRows slots := by
  unfold newRows numbered
  cases haction : i.action with
  | create inputs =>
    obtain ⟨id, hid, hid'⟩ := h (by rw [haction]; rfl)
    simp only [hid, hid']
  | update inputs => rfl
  | delete => rfl

theorem Instruction.newRows_pairwise (slots : Slots) (i : Instruction) :
    (i.newRows slots).Pairwise NewRow.Before := by
  unfold newRows numbered
  cases i.action with
  | create inputs => cases slots.id? i.ref <;> simp
  | update inputs => exact .nil
  | delete => exact .nil

namespace Mapping

/-- No column that a create sets is the one for the owner of a link. -/
theorem columnOf_not_owner (hs : s.WellFormed) (he : e ∈ s.entities) (hsets : e.Sets inputs) :
    ∀ x ∈ inputs.filterMap (e.columnOf slots), sameName x.1 ownerColumn = false := by
  intro x hx
  obtain ⟨y, hy, hxy⟩ := List.mem_filterMap.mp hx
  obtain ⟨p, hp, hname, -⟩ := hsets.property y hy
  rw [Entity.columnOf_name hxy, ← hname]
  rcases (hs.entity e he).named p hp with h | h | h
  · exact sameName_of_isName h rfl
  · exact absurd (hname.symm.trans h) (hsets.input y hy)
  · rw [h]
    decide

/-- A create gives its row a number that its entity was not given before. -/
theorem create_gives (hs : s.WellFormed) (he : e ∈ s.entities) (hcreates : e.Creates inputs)
    (hcounts : t.store.Counts) (hrun : (create e ref inputs).run t = (.ok (), t')) :
    ∃ id, t'.slots.id? ref = some id ∧ (∀ n, t.store.Gave e.name n → n < id) ∧
    t'.store.Gave e.name id := by
  obtain ⟨-, hnew, effect, log, hstore, hloop⟩ := create_cases hs he hcreates hrun
  have hsets := hcreates.sets hs he
  obtain ⟨hless, hgave⟩ :=
    hcounts.insert (columns_settable hs he hsets) (columnOf_not_owner hs he hsets) hstore
  have hslots :=
    (addLinks_keepsSlots (Q := fun slots ↦ slots.id? ref = some effect.row) _ _ _).run hloop
    (id?_assign_self hnew)
  have hkept := (Store.gave_keptByStatements e.name effect.row).addLinks e.name effect.row
    (inputs.flatMap (linksOf e)) ⟨effect.store, t.slots.assign ref effect.row, log⟩ hgave
  rw [hloop] at hkept
  exact ⟨effect.row, hslots, hless, hkept.1⟩

/-- Writing an instruction gives its new row a number that the row's entity was not given before. -/
theorem write_gives (hs : s.WellFormed) (hshaped : i.Shaped s) (hcounts : t.store.Counts)
    (hrun : (write s i).run t = (.ok (), t')) (hcreate : i.action.creates) :
    ∃ id, t'.slots.id? i.ref = some id ∧ (∀ n, t.store.Gave i.entity n → n < id) ∧
    t'.store.Gave i.entity id := by
  obtain ⟨e, he, hname, hinputs⟩ := hshaped.entity
  rw [write_eq hs he hname] at hrun
  rw [← hname]
  cases haction : i.action with
  | create inputs =>
    rw [haction] at hrun hinputs
    exact create_gives hs he hinputs hcounts hrun
  | update inputs =>
    rw [haction] at hcreate
    cases hcreate
  | delete =>
    rw [haction] at hcreate
    cases hcreate

/-- What holds of the store before an instruction and is kept by statements holds after it. -/
theorem write_kept {P : Store → Prop} (hP : KeptByStatements P) (hs : s.WellFormed)
    (hshaped : i.Shaped s) (hrun : (write s i).run t = (.ok (), t'))
    (h : P t.store) : P t'.store := by
  have hkept := hP.write hs hshaped.plain t h
  rw [hrun] at hkept
  exact hkept.1

/-- The rows that a batch adds get numbers that their entities were not given before, in the order
of the batch. -/
theorem writeAll_gives (hs : s.WellFormed) (hshaped : ∀ i ∈ batch, i.Shaped s)
    (hcounts : t.store.Counts) (hrun : (batch.forM (writeInBatch s)).run t = (.ok (), t')) :
    (∀ row ∈ batch.flatMap (·.newRows t'.slots), (∀ n, t.store.Gave row.entity n → n < row.id) ∧
      t'.store.Gave row.entity row.id) ∧
      (batch.flatMap (·.newRows t'.slots)).Pairwise NewRow.Before := by
  induction batch generalizing t with
  | nil => exact ⟨List.forall_mem_nil _, .nil⟩
  | cons i batch ih =>
    obtain ⟨⟨⟩, u, hfirst, hrest⟩ := Run.run_bind_ok.mp (show (writeInBatch s i >>= fun _ ↦
      batch.forM (writeInBatch s)).run t = _ from hrun)
    obtain ⟨hi, hbatch⟩ := List.forall_mem_cons.mp hshaped
    have hwrite := writeInBatch_ok hfirst
    have hgives := write_gives hs hi hcounts hwrite
    obtain ⟨hnew, hordered⟩ :=
      ih hbatch (write_kept Store.counts_keptByStatements hs hi hwrite hcounts) hrest
    have hgrows : u.slots.Grows (fun _ ↦ True) t'.slots :=
      (writeAll_grows u.slots fun _ _ _ ↦ trivial).run hrest (.refl _)
    have hsame : i.newRows t'.slots = i.newRows u.slots := by
      refine Instruction.newRows_eq fun hcreate ↦ ?_
      obtain ⟨id, hid, -⟩ := hgives hcreate
      exact ⟨id, hid, hgrows.kept _ _ hid⟩
    have hkept {entity : String} {n : Int64} (h : u.store.Gave entity n) :
        t'.store.Gave entity n := by
      have hall :=
        (Store.gave_keptByStatements entity n).writeAll hs (fun j hj ↦ (hbatch j hj).plain) u h
      rw [hrest] at hall
      exact hall.1
    have hrow : ∀ row ∈ i.newRows u.slots, (∀ n, t.store.Gave row.entity n → n < row.id) ∧
        u.store.Gave row.entity row.id := by
      intro row hmem
      obtain ⟨hcreate, -, hentity, hid⟩ := Instruction.mem_newRows.mp hmem
      obtain ⟨id, hid', hless, hgave⟩ := hgives hcreate
      obtain rfl := Option.some.inj (hid.symm.trans hid')
      rw [hentity]
      exact ⟨hless, hgave⟩
    rw [List.flatMap_cons, hsame]
    refine ⟨List.forall_mem_append.mpr ⟨fun row hmem ↦ ⟨(hrow row hmem).1, hkept (hrow row hmem).2⟩,
        fun row hmem ↦ ?_⟩,
      List.pairwise_append.mpr ⟨i.newRows_pairwise u.slots, hordered, fun a ha b hb hentity ↦ ?_⟩⟩
    · refine ⟨fun n hn ↦ (hnew row hmem).1 n ?_, (hnew row hmem).2⟩
      exact write_kept (Store.gave_keptByStatements row.entity n) hs hi hwrite hn
    · exact (hnew b hb).1 a.id ((hrow a ha).2.congr hentity)

end Mapping

/-! ### Batches of a database -/

/-- The references of the rows that a batch is to add. -/
def Instruction.Adds (batch : List Instruction) (r : RowRef) : Prop :=
  ∃ i ∈ batch, i.action.creates ∧ i.ref = r

theorem Slots.mem_gained {a b : Slots} {slot : Nat} (h : b.id? (.pending slot) = some id)
    (hnew : RowRef.pending slot ∉ a.gained b) : a.id? (.pending slot) ≠ none :=
  fun hnone ↦ hnew (List.mem_filter.mpr
    ⟨List.mem_map.mpr ⟨_, mem_of_lookup h, rfl⟩, Option.isNone_iff_eq_none.mpr hnone⟩)

theorem Mapping.execute_failed {error : Error}
    (hrun : (execute s batch).run t = (.error error, t')) :
    t'.store = t.store ∧ t.slots.Grows (Instruction.Adds batch) t'.slots :=
  ⟨execute_error hrun,
    (execute_grows t.slots fun i hi hcreates ↦ ⟨i, hi, hcreates, rfl⟩).run hrun (.refl t.slots)⟩

/-- A batch that is refused leaves the store, and no numbers change but those of the rows that it
was to add. -/
theorem Run.apply_failed {error : Error} (hrun : (apply s a batch).run t = (.error error, t')) :
    t'.store = t.store ∧ t.slots.Grows (Instruction.Adds batch) t'.slots := by
  obtain ⟨log, ⟨-, heq⟩ | ⟨i, -, e, -, heq⟩⟩ := run_apply s a batch t
  · exact execute_failed (t := { t with log := log }) (heq.symm.trans hrun)
  · rw [heq] at hrun
    cases hrun
    exact ⟨rfl, .refl _⟩

/-- A batch that is committed has written its instructions. -/
theorem Run.apply_committed (hrun : (apply s a batch).run t = (.ok (), t')) :
    t.slots.Grows (Instruction.Adds batch) t'.slots ∧ ∃ u u', u.store = t.store ∧
      t'.store = u'.store ∧ t'.slots = u'.slots ∧
      (batch.forM (writeInBatch s)).run u = (.ok (), u') := by
  obtain ⟨log, ⟨-, heq⟩ | ⟨i, -, e, -, heq⟩⟩ := run_apply s a batch t
  · rw [heq] at hrun
    refine ⟨(execute_grows t.slots fun i hi hcreates ↦ ⟨i, hi, hcreates, rfl⟩).run hrun
      (.refl t.slots), ?_⟩
    rw [run_execute] at hrun
    split at hrun
    · next u' hwrite =>
      cases hrun
      exact ⟨{ t with log := .executing batch.length :: log }, u', rfl, rfl, rfl, hwrite⟩
    · cases hrun
  · rw [heq] at hrun
    cases hrun

namespace Session

/-! ### Sessions -/

/-- The rows of committed batches have the numbers that their references report, in the order in
which the tables gave them, and every other reference with a number is one that a failed batch
assigned. -/
structure Traces (rows : List NewRow) (left : List RowRef) (t : Session) : Prop where
  counts : t.store.Counts
  gave : ∀ row ∈ rows, t.store.Gave row.entity row.id
  ordered : rows.Pairwise NewRow.Before
  reported : ∀ row ∈ rows, t.slots.id? row.ref = some row.id
  traced : ∀ slot id, t.slots.id? (.pending slot) = some id → .pending slot ∉ left →
    ∃ row ∈ rows, row.ref = .pending slot ∧ row.id = id

namespace Traces

theorem start (enforced : Bool) : Traces [] [] (.start enforced) where
  counts := ⟨List.forall_mem_nil _, List.forall_mem_nil _⟩
  gave := List.forall_mem_nil _
  ordered := .nil
  reported := List.forall_mem_nil _
  traced _ _ h _ := nomatch h

theorem opened (h : t.Traces rows left) (log : List Event) :
    Traces [] [] ⟨t.store, .empty, log⟩ where
  counts := h.counts
  gave := List.forall_mem_nil _
  ordered := .nil
  reported := List.forall_mem_nil _
  traced _ _ h _ := nomatch h

theorem other (h : t.Traces rows left) (hstore : t'.store = t.store)
    (hslots : t'.slots.assigned = t.slots.assigned) :
    t'.Traces rows left := by
  have hid (r : RowRef) : t'.slots.id? r = t.slots.id? r := by
    cases r with
    | known n => rfl
    | pending slot => exact congrArg (List.lookup slot) hslots
  refine ⟨hstore ▸ h.counts, hstore ▸ h.gave, h.ordered,
    fun row hrow ↦ (hid _).trans (h.reported row hrow), ?_⟩
  intro slot id hsome hnot
  exact h.traced slot id ((hid _).symm.trans hsome) hnot

/-- Creating the tables of a schema gives no numbers. -/
theorem defined (h : t.Traces rows left) (hs : s.WellFormed) {outcome : Except Error Unit}
    (hrun : (bootstrap s).run t = (outcome, t')) : t'.Traces rows left := by
  have hstore {P : Store → Prop} (hP : ∀ d, Definition.Asked s d → ∀ store store', P store →
      store.define d = .ok store' → P store') (ht : P t.store) : P t'.store := by
    have hkept := bootstrap_keeps hP t ht
    rw [hrun] at hkept
    cases outcome with
    | ok _ => exact hkept.1
    | error _ => exact hkept
  have hslots : t'.slots = t.slots :=
    (bootstrap_keepsSlots (Q := fun slots ↦ slots = t.slots) s).run hrun rfl
  refine ⟨hstore (fun d hd store store' h ↦ h.define hs hd) h.counts, fun row hrow ↦ ?_, h.ordered,
    hslots ▸ h.reported, hslots ▸ h.traced⟩
  exact hstore (P := fun store ↦ store.Gave row.entity row.id)
    (fun d _ store store' h ↦ h.define) (h.gave row hrow)

/-- A batch that fails leaves the rows and their numbers. -/
theorem failed (h : t.Traces rows left) {error : Error}
    (hrun : (Run.apply s a batch).run t = (.error error, t')) :
    t'.Traces rows (left ++ t.slots.gained t'.slots) := by
  obtain ⟨hstore, hgrows⟩ := Run.apply_failed hrun
  refine ⟨hstore ▸ h.counts, hstore ▸ h.gave, h.ordered,
    fun row hrow ↦ hgrows.kept _ _ (h.reported row hrow), ?_⟩
  intro slot id hid hnot
  obtain ⟨hleft, hgained⟩ := not_or.mp (mt List.mem_append.mpr hnot)
  obtain ⟨n, hn⟩ := Option.ne_none_iff_exists'.mp (Slots.mem_gained hid hgained)
  obtain rfl := Option.some.inj ((hgrows.kept _ _ hn).symm.trans hid)
  exact h.traced slot n hn hleft

/-- A batch that is committed adds its rows, whose numbers are new. -/
theorem committed (h : t.Traces rows left) (hs : s.WellFormed) (hbatch : ∀ i ∈ batch, i.Shaped s)
    (hrun : (Run.apply s a batch).run t = (.ok (), t')) :
    t'.Traces (rows ++ batch.flatMap (·.newRows t'.slots)) left := by
  obtain ⟨hgrows, u, u', hu, hstore, hslots, hwrite⟩ := Run.apply_committed hrun
  obtain ⟨hnew, hordered⟩ := writeAll_gives hs hbatch (hu ▸ h.counts) hwrite
  rw [← hslots] at hnew hordered
  have hkept {P : Store → Prop} (hP : KeptByStatements P) (ht : P t.store) : P t'.store := by
    have hall := hP.writeAll hs (fun i hi ↦ (hbatch i hi).plain) u (hu.symm ▸ ht : P u.store)
    rw [hwrite] at hall
    exact hstore ▸ hall.1
  refine ⟨hkept Store.counts_keptByStatements h.counts,
    List.forall_mem_append.mpr ⟨fun row hrow ↦ ?_, fun row hrow ↦ ?_⟩,
    List.pairwise_append.mpr ⟨h.ordered, hordered, fun a ha b hb hsame ↦ ?_⟩,
    List.forall_mem_append.mpr ⟨fun row hrow ↦ hgrows.kept _ _ (h.reported row hrow),
      fun row hrow ↦ ?_⟩, ?_⟩
  · exact hkept (Store.gave_keptByStatements _ _) (h.gave row hrow)
  · exact hstore ▸ (hnew row hrow).2
  · exact (hnew b hb).1 a.id (hu ▸ (h.gave a ha).congr hsame)
  · obtain ⟨i, -, hrow⟩ := List.mem_flatMap.mp hrow
    obtain ⟨-, href, -, hid⟩ := Instruction.mem_newRows.mp hrow
    exact href ▸ hid
  · intro slot id hid hleft
    -- a reference that had no number before is that of a row that the batch was to add
    by_cases hadds : Instruction.Adds batch (.pending slot)
    · obtain ⟨i, hi, hcreates, href⟩ := hadds
      refine ⟨⟨i.ref, i.entity, id⟩, List.mem_append_right _ (List.mem_flatMap.mpr ⟨i, hi, ?_⟩),
        href, rfl⟩
      exact Instruction.mem_newRows.mpr ⟨hcreates, rfl, rfl, href ▸ hid⟩
    · obtain ⟨row, hrow, h⟩ := h.traced slot id ((hgrows.only _ hadds).symm.trans hid) hleft
      exact ⟨row, List.mem_append_left _ hrow, h⟩

end Traces

/-- What every session keeps, by what one batch and one change of the schema keep. -/
theorem Reached.traces (h : t.Reached rows left) : t.Traces rows left := by
  induction h with
  | start enforced => exact .start enforced
  | opened _ log ih => exact ih.opened log
  | other _ hstore hslots ih => exact ih.other hstore hslots
  | defined _ hs hrun ih => exact ih.defined hs.wellFormed hrun
  | committed _ hs hbatch hrun ih =>
    exact ih.committed hs.wellFormed (fun i hi ↦ (hbatch i hi).shaped hs.wellFormed) hrun
  | failed _ hrun ih => exact ih.failed hrun

/-- A batch that fails leaves the store as it was, and every number but those of the rows that it
was to add. In every session a reference that no failed batch assigned has the number of a row of a
committed batch, which the row's table has given once and gives to no later row. -/
theorem failed_batch_undone (t : Session) :
    (∀ (s : Schema) (a : Authorizer) (batch : List Instruction) (t' : Session) (error : Error),
      (Run.apply s a batch).run t = (.error error, t') ∨
      (execute s batch).run t = (.error error, t') → t'.store = t.store ∧
        ∀ r, (Instruction.Adds batch r → t.slots.id? r ≠ none) → t'.slots.id? r = t.slots.id? r) ∧
    ∀ (rows : List NewRow) (left : List RowRef), t.Reached rows left →
      (∀ slot id, t.slots.id? (.pending slot) = some id → .pending slot ∉ left →
        ∃ row ∈ rows, row.ref = .pending slot ∧ row.id = id) ∧
      (∀ row ∈ rows, t.slots.id? row.ref = some row.id ∧ t.store.Gave row.entity row.id) ∧
      rows.Pairwise NewRow.Before := by
  constructor
  · intro s a batch t' error hrun
    obtain ⟨hstore, hgrows⟩ := hrun.elim Run.apply_failed execute_failed
    refine ⟨hstore, fun r hr ↦ ?_⟩
    by_cases hadds : Instruction.Adds batch r
    · obtain ⟨id, hid⟩ := Option.ne_none_iff_exists'.mp (hr hadds)
      exact (hgrows.kept r id hid).trans hid.symm
    · exact hgrows.only r hadds
  · intro rows left h
    have h := h.traces
    exact ⟨h.traced, fun row hrow ↦ ⟨h.reported row hrow, h.gave row hrow⟩, h.ordered⟩

/-- Persons, no two of one name. -/
def uniqueCalls : List Schema.Call :=
  [.addEntity "Person" .master,
    .addProperty "Person" (.field "name" { Field.ofType .text with unique := true }), .commit]

def nameForm (name : String) : Language.CreateForm Value :=
  ⟨"Person", [("name", .literal (.text name))]⟩

/-- The first session of a database of persons. -/
def uniqueStart : Session :=
  ((bootstrap (Schema.empty.after uniqueCalls)).run (.start true)).2

theorem uniqueStart_reached (slots : Slots) (h : slots.assigned = []) :
    Reached [] [] ⟨uniqueStart.store, slots, uniqueStart.log⟩ := by
  have hstart : uniqueStart.slots.assigned = [] := by decide +kernel
  have hs : (Schema.empty.after uniqueCalls).Reachable := ⟨uniqueCalls, rfl⟩
  have hdefined : Reached [] [] uniqueStart := .defined (.start true) hs rfl
  exact hdefined.other rfl (h.trans hstart.symm)

/-- A person is committed, and a batch that adds her again fails. -/
theorem failed_batch_undone_of_names : ∃ c d t t' error,
    (Schema.empty.after uniqueCalls).compileCreate (nameForm "Ann") [] .empty = .ok c ∧
      (Schema.empty.after uniqueCalls).compileCreate (nameForm "Ann") [] c.slots = .ok d ∧
      (Run.apply (Schema.empty.after uniqueCalls) .allowAll c.instructions).run
        ⟨uniqueStart.store, d.slots, uniqueStart.log⟩ = (.ok (), t) ∧
      (Run.apply (Schema.empty.after uniqueCalls) .allowAll d.instructions).run t =
        (.error error, t') ∧
      t'.store = t.store ∧ t.slots.id? (.pending 0) = some 1 ∧
      ∃ row ∈ c.instructions.flatMap (·.newRows t.slots), row.ref = .pending 0 ∧ row.id = 1 := by
  have hs : (Schema.empty.after uniqueCalls).Reachable := ⟨uniqueCalls, rfl⟩
  have hruns :
      ((Schema.empty.after uniqueCalls).compileCreate
        (nameForm "Ann") [] .empty).toOption.any fun c ↦
      ((Schema.empty.after uniqueCalls).compileCreate
          (nameForm "Ann") [] c.slots).toOption.any fun d ↦
        have r := (Run.apply (Schema.empty.after uniqueCalls) .allowAll c.instructions).run
          ⟨uniqueStart.store, d.slots, uniqueStart.log⟩
        d.slots.assigned == [] && r.1.isOk && r.2.slots.id? (.pending 0) == some 1 &&
          !((Run.apply (Schema.empty.after uniqueCalls) .allowAll d.instructions).run
            r.2).1.isOk := by decide +kernel
  obtain ⟨c, hc, hruns⟩ := (Option.any_eq_true _ _).mp hruns
  obtain ⟨d, hd, hruns⟩ := (Option.any_eq_true _ _).mp hruns
  have hc := Except.toOption_eq_some_iff.mp hc
  have hd := Except.toOption_eq_some_iff.mp hd
  simp only [Bool.and_eq_true, Bool.not_eq_true', beq_iff_eq] at hruns
  obtain ⟨⟨⟨hslots, hok⟩, hid⟩, hfails⟩ := hruns
  obtain ⟨⟨⟩, hok⟩ := Except.isOk_iff.mp hok
  have hreached :=
    Reached.committed (uniqueStart_reached d.slots hslots) hs
      (fun i hi ↦ .create hc hi) (Run.run_eq_ok hok)
  obtain ⟨hundone, hhistory⟩ := failed_batch_undone _
  obtain ⟨hrows, -, -⟩ := hhistory _ _ hreached
  obtain ⟨row, hrow, href⟩ := hrows 0 1 hid List.not_mem_nil
  rcases hfailed : (Run.apply (Schema.empty.after uniqueCalls) .allowAll d.instructions).run _ with
    ⟨error | ⟨⟩, t'⟩
  · have hstore := (hundone _ _ _ _ _ (.inl hfailed)).1
    exact ⟨c, d, _, t', error, hc, hd, Run.run_eq_ok hok, hfailed, hstore, hid, row, hrow, href⟩
  · rw [hfailed] at hfails
    cases hfails

/-- The number that a batch assigned before it failed stays with the reference, here that of Ann,
and the table gives it again to the next row, Bob. -/
theorem failed_batch_leaves_number : ∃ c d e t t' error,
    (Schema.empty.after uniqueCalls).compileCreate (nameForm "Ann") [] .empty = .ok c ∧
      (Schema.empty.after uniqueCalls).compileCreate (nameForm "Ann") [] c.slots = .ok d ∧
      (Run.apply (Schema.empty.after uniqueCalls) .allowAll (c.instructions ++ d.instructions)).run
        ⟨uniqueStart.store, d.slots, uniqueStart.log⟩ = (.error error, t) ∧
      d.slots.id? (.pending 0) = none ∧ t.slots.id? (.pending 0) = some 1 ∧
      (Schema.empty.after uniqueCalls).compileCreate (nameForm "Bob") [] t.slots = .ok e ∧
      (Run.apply (Schema.empty.after uniqueCalls) .allowAll e.instructions).run
        ⟨t.store, e.slots, t.log⟩ = (.ok (), t') ∧
      t'.slots.id? (.pending 0) = some 1 ∧ t'.slots.id? (.pending 2) = some 1 := by
  have hruns :
      ((Schema.empty.after uniqueCalls).compileCreate
        (nameForm "Ann") [] .empty).toOption.any fun c ↦
      ((Schema.empty.after uniqueCalls).compileCreate
          (nameForm "Ann") [] c.slots).toOption.any fun d ↦
        have r :=
          (Run.apply (Schema.empty.after uniqueCalls) .allowAll
            (c.instructions ++ d.instructions)).run
          ⟨uniqueStart.store, d.slots, uniqueStart.log⟩
        !r.1.isOk && d.slots.id? (.pending 0) == none && r.2.slots.id? (.pending 0) == some 1 &&
          ((Schema.empty.after uniqueCalls).compileCreate
            (nameForm "Bob") [] r.2.slots).toOption.any fun e ↦
            have u := (Run.apply (Schema.empty.after uniqueCalls) .allowAll e.instructions).run
              ⟨r.2.store, e.slots, r.2.log⟩
            u.1.isOk && u.2.slots.id? (.pending 0) == some 1 &&
                u.2.slots.id? (.pending 2) == some 1 := by
    decide +kernel
  obtain ⟨c, hc, hruns⟩ := (Option.any_eq_true _ _).mp hruns
  obtain ⟨d, hd, hruns⟩ := (Option.any_eq_true _ _).mp hruns
  simp only [Bool.and_eq_true, Bool.not_eq_true', beq_iff_eq] at hruns
  obtain ⟨⟨⟨hfails, hnone⟩, hleft⟩, hruns⟩ := hruns
  obtain ⟨e, he, hruns⟩ := (Option.any_eq_true _ _).mp hruns
  simp only [Bool.and_eq_true, beq_iff_eq] at hruns
  obtain ⟨⟨hok, hann⟩, hbob⟩ := hruns
  obtain ⟨⟨⟩, hok⟩ := Except.isOk_iff.mp hok
  rcases hfailed :
    (Run.apply (Schema.empty.after uniqueCalls) .allowAll (c.instructions ++ d.instructions)).run
    ⟨uniqueStart.store, d.slots, uniqueStart.log⟩ with ⟨error | ⟨⟩, t⟩ <;>
      rw [hfailed] at hfails hleft hok he hann hbob
  · exact ⟨c, d, e, t, _, error, Except.toOption_eq_some_iff.mp hc,
      Except.toOption_eq_some_iff.mp hd, hfailed, hnone,
      hleft, Except.toOption_eq_some_iff.mp he, Run.run_eq_ok hok, hann, hbob⟩
  · cases hfails

end Session

end EntityStore
