import EntityStore.Proofs.Compile.Access
import EntityStore.Proofs.Mapping.Untouched
import EntityStore.Proofs.Session.Database

/-!
What a policy denies is not written. A batch that would write a denied property is refused before
any of its instructions is written, and writing a batch that is not refused leaves the denied
properties alone.
-/

set_option autoImplicit false

namespace EntityStore

open Mapping

/-! ### What a batch leaves alone -/

/-- The cell of a row in a column, that of the owner among them. -/
def Entry.cell (x : Entry) (name : String) : Cell :=
  if name = parentName then (x.parent.map Cell.integer).getD .null else x.value name

theorem StoredRow.entry_cell_congr {r r' : StoredRow} {name : String}
    (h : r.cell name = r'.cell name) :
    r.entry.cell name = r'.entry.cell name := by
  unfold Entry.cell
  split
  · next hparent =>
    subst hparent
    change ((r.number? parentName).map Cell.integer).getD .null =
      ((r'.number? parentName).map Cell.integer).getD .null
    unfold number?
    rw [h]
  · next hparent =>
    change (if name = parentName then _ else _) = if name = parentName then _ else _
    rw [if_neg hparent, if_neg hparent, h]

theorem StoredRow.entry_cell_null {r : StoredRow} {name : String} (h : r.cell name = .null) :
    r.entry.cell name = .null := by
  have hempty : r.entry.cell name = (StoredRow.mk 0 []).entry.cell name := entry_cell_congr h
  rw [hempty]
  unfold Entry.cell
  split <;> simp [entry, number?, cell]

namespace Mapping

variable {s : Schema} {store : Store} {batch : List Instruction} {i : Instruction}
  {entity name : String} {id : Int64} {x x' : Entry} {t t' : Session}

/-- A row that is shown is one of the table of its entity. -/
theorem content_row_cases (hs : s.WellFormed) (hrow : (store.content s).row entity id = some x) :
    ∃ e ∈ s.entities, e.name = entity ∧ ∃ u r, store.table? e.name = some u ∧
    u.row? id = some r ∧ r.entry = x := by
  unfold Store.content at hrow
  obtain ⟨e, hget, hrow⟩ := Option.bind_eq_some_iff.mp hrow
  obtain ⟨he, rfl⟩ := (Schema.get?_eq_some_iff hs).mp hget
  obtain ⟨r, hr, rfl⟩ := Option.map_eq_some_iff.mp hrow
  obtain ⟨u, hu, hr⟩ := Option.bind_eq_some_iff.mp hr
  exact ⟨e, he, rfl, u, r, hu, hr, rfl⟩

/-- What every instruction of a batch keeps when it is written is kept by the batch. -/
theorem writeInBatch_keeps {P : Store → Prop} (h : Run.Keeps P (write s i) fun _ ↦ True) :
    Run.Keeps P (writeInBatch s i) fun _ ↦ True :=
  .tryCatch h fun _ ↦ .bind .get fun _ _ ↦ .bind (.log _) fun _ _ ↦ .throw _

/-- A batch without an update of a property leaves the property of the rows that were there and are
there still. -/
theorem execute_untouched (hs : s.Reachable) (hdistinct : s.Distinct) (hstore : t.store.Hosts s)
    (hbatch : ∀ i ∈ batch, s.Compiles i)
    (hne : ∀ i ∈ batch, i.entity = entity → ∀ inputs, i.action = .update inputs →
      ∀ x ∈ inputs, x.1 ≠ name)
    (hrun : (execute s batch).run t = (.ok (), t'))
    (hrow : (t.store.content s).row entity id = some x)
    (hrow' : (t'.store.content s).row entity id = some x') :
    x'.cell name = x.cell name ∧ (t'.store.content s).links entity name id =
      (t.store.content s).links entity name id := by
  have hwf := hs.wellFormed
  obtain ⟨e, he, rfl, u, r, hu, hr, rfl⟩ := content_row_cases hwf hrow
  obtain ⟨e', he', hname, u', r', hu', hr', rfl⟩ := content_row_cases hwf hrow'
  rw [hname] at hu'
  have hkept : Run.Keeps (Store.Frame s e (·.Sees id name (r.cell name)) name id
      ((t.store.content s).links e.name name id)) (execute s batch) fun _ ↦ True :=
    .bind (.log _) fun _ _ ↦ .bind (.atomically (.forM fun i hi ↦ writeInBatch_keeps
      (write_untouched hwf hdistinct he ((hbatch i hi).shaped hwf) (hne i hi)))) fun _ _ ↦ .log _
  have hsees : u.Sees id name (r.cell name) := by
    unfold Table.Sees
    rw [hr]
  have hafter := hkept t ⟨⟨hstore.sound hs, hstore.covers hs e he, u, hu, hsees⟩, rfl⟩
  rw [hrun] at hafter
  obtain ⟨hsees', -⟩ := hafter.1.table hu'
  unfold Table.Sees at hsees'
  rw [hr'] at hsees'
  exact ⟨StoredRow.entry_cell_congr hsees', hafter.1.links⟩

/-- A row that an instruction adds is empty in a property that the instruction does not write, and
has no new links. -/
theorem write_adds_blank (hs : s.WellFormed) (hdistinct : s.Distinct) (hsound : t.store.Sound)
    (hcovers : ∀ e ∈ s.entities, t.store.Covers e) (hi : i.Shaped s)
    (hne : i.entity = entity → ∀ inputs, i.action = .create inputs → ∀ x ∈ inputs, x.1 ≠ name)
    (hrun : (write s i).run t = (.ok (), t')) (hrow : (t.store.content s).row entity id = none)
    (hrow' : (t'.store.content s).row entity id = some x) :
    x.cell name = .null ∧ (t'.store.content s).links entity name id =
      (t.store.content s).links entity name id := by
  obtain ⟨e, he, rfl, u', r', hu', hr', rfl⟩ := content_row_cases hs hrow'
  obtain ⟨u, hu⟩ := Option.isSome_iff_exists.mp (hcovers e he).table
  rw [Store.content_row hs he hu, Option.map_eq_none_iff] at hrow
  have hfinds : t.store.Finds e fun u ↦ u.row? id = none := ⟨hsound, hcovers e he, u, hu, hrow⟩
  by_cases hkind : ∃ inputs, i.action = .create inputs
  · obtain ⟨inputs, haction⟩ := hkind
    have hkept : Run.Keeps
        (Store.Frame s e (·.Blank id name) name id ((t.store.content s).links e.name name id))
        (write s i) fun _ ↦ True := by
      refine write_keeps hs hi fun d hd hname ↦ ?_
      rw [haction]
      exact fun hcreates ↦ create_blank hs hdistinct he hd hcreates
        fun heq ↦ hne (by rw [← hname, heq]) inputs haction
    have hblank : u.Blank id name := fun r hr ↦ by
      rw [hrow] at hr
      cases hr
    have hafter := hkept t ⟨⟨hsound, hcovers e he, u, hu, hblank⟩, rfl⟩
    rw [hrun] at hafter
    exact ⟨StoredRow.entry_cell_null ((hafter.1.table hu').1 r' hr'), hafter.1.links⟩
  · have hafter :=
      write_absent hs hdistinct he hi (fun inputs haction ↦ hkind ⟨inputs, haction⟩) t hfinds
    rw [hrun] at hafter
    rw [(hafter.1.table hu').1] at hr'
    cases hr'

end Mapping

namespace Database

variable {db : Database} {t : Transaction}

/-- A batch that would write a property that the policy denies is refused and changes nothing,
whatever else it holds. When a batch is executed, a row that one of its instructions adds is empty
in the properties whose creation is denied, and has no new links of them; and the rows that were
there before and are there still have the same cells and links of the properties whose update is
denied. -/
theorem execute_obeys {p : Policy} (hpolicy : db.authorizer = p.authorizer)
    (hs : db.schema.Reachable) (hdistinct : db.schema.Distinct)
    (hstore : db.session.store.Hosts db.schema) (hschema : t.schema = db.schema)
    (hbatch : ∀ i ∈ t.instructions, db.schema.Compiles i) :
    ((∃ i ∈ t.instructions, ∃ name, i.Writes name ∧ (i.action.kind, ⟨i.entity, name⟩) ∈ p.denied) →
      (∃ kind key, (db.execute t).1 = .error (.unauthorized kind key) ∧ (kind, key) ∈ p.denied) ∧
        (db.execute t).2.session.store = db.session.store) ∧
    ((db.execute t).1 = .ok () →
      (∀ before i after, t.instructions = before ++ i :: after → ∀ log u u',
        (before.forM (writeInBatch db.schema)).run ⟨db.session.store, t.slots, log⟩ = (.ok (), u) →
        (writeInBatch db.schema i).run u = (.ok (), u') →
        ∀ entity name, (.create, ⟨entity, name⟩) ∈ p.denied →
        ∀ id x, (u.store.content db.schema).row entity id = none →
          (u'.store.content db.schema).row entity id = some x → x.cell name = .null ∧
            (u'.store.content db.schema).links entity name id =
              (u.store.content db.schema).links entity name id) ∧
      ∀ entity name, (.update, ⟨entity, name⟩) ∈ p.denied → ∀ id x x',
        (db.session.store.content db.schema).row entity id = some x →
        ((db.execute t).2.session.store.content db.schema).row entity id = some x' →
          x'.cell name = x.cell name ∧
            ((db.execute t).2.session.store.content db.schema).links entity name id =
            (db.session.store.content db.schema).links entity name id) := by
  have hwf := hs.wellFormed
  have hshaped : ∀ i ∈ t.instructions, i.Shaped db.schema := fun i hi ↦ (hbatch i hi).shaped hwf
  -- what the instructions write, they tell the policy
  have htold {i : Instruction} (hi : i ∈ t.instructions)
      (hnone : (db.authorizer i.action.kind i.accessed).1 = .ok ())
      {name : String} (hwrites : i.Writes name) : (i.action.kind, ⟨i.entity, name⟩) ∉ p.denied :=
    Policy.authorizer_eq_ok.mp (hpolicy ▸ hnone) _ ((hbatch i hi).tells hwf name hwrites)
  have hexecute : db.execute t =
      (((Run.apply db.schema db.authorizer t.instructions).run ⟨db.session.store,
          t.slots, db.session.log⟩).1,
        { db with session :=
          ((Run.apply db.schema db.authorizer t.instructions).run ⟨db.session.store, t.slots,
              db.session.log⟩).2 }) := by
    unfold execute
    rw [hschema]
    rfl
  rw [hexecute]
  obtain ⟨log, ⟨hall, hrun⟩ | ⟨i, -, e, hrefused, hrun⟩⟩ :=
    Run.run_apply db.schema db.authorizer t.instructions ⟨db.session.store, t.slots,
      db.session.log⟩ <;> rw [hrun]
  · refine ⟨fun ⟨i, hi, name, hwrites, hdenied⟩ ↦ absurd hdenied (htold hi (hall i hi) hwrites),
      fun hok ↦ ⟨?_, ?_⟩⟩
    · intro before i after hsplit log u u' hbefore hwrite entity name hdenied id x hrow hrow'
      have hi : i ∈ t.instructions := by simp [hsplit]
      have hkept {P : Store → Prop} (hP : KeptByStatements P) (h : P db.session.store) :
          P u.store := by
        have hloop : Run.Keeps P (before.forM (writeInBatch db.schema)) fun _ ↦ True :=
          .forM fun j hj ↦ writeInBatch_keeps
            (hP.write hwf (hshaped j (by simp [hsplit, hj])).plain)
        have hafter := hloop ⟨db.session.store, t.slots, log⟩ h
        rw [hbefore] at hafter
        exact hafter.1
      refine write_adds_blank hwf hdistinct (hkept Store.sound_keptByStatements (hstore.sound hs))
        (fun e he ↦ hkept (Store.covers_keptByStatements e) (hstore.covers hs e he))
          (hshaped i hi) ?_
        (writeInBatch_ok hwrite) hrow hrow'
      rintro rfl inputs haction y hy rfl
      refine htold hi (hall i hi) ⟨y, ?_, rfl⟩ ?_ <;> rw [haction]
      · exact hy
      · exact hdenied
    · intro entity name hdenied id x x' hrow hrow'
      refine execute_untouched hs hdistinct (t := ⟨db.session.store, t.slots, log⟩) hstore hbatch ?_
        (Run.run_eq_ok hok) hrow hrow'
      rintro i hi rfl inputs haction y hy rfl
      refine htold hi (hall i hi) ⟨y, ?_, rfl⟩ ?_ <;> rw [haction]
      · exact hy
      · exact hdenied
  · rw [hpolicy] at hrefused
    obtain ⟨key, hdenied, rfl⟩ := Policy.authorizer_eq_error hrefused
    exact ⟨fun _ ↦ ⟨⟨i.action.kind, key, rfl, hdenied⟩, rfl⟩, nofun⟩

/-- The name of a person may not be updated. -/
def friendsPolicy : Policy := ⟨[(.update, ⟨"Person", "name"⟩)]⟩

/-- A person gets a friend, and keeps her name. -/
theorem execute_obeys_of_friends :
    ∃ (db : Database) (t : Transaction), db.schema = Schema.empty.after friendsCalls ∧
    db.authorizer = friendsPolicy.authorizer ∧ (db.execute t).1 = .ok () ∧ ∃ x x',
      (db.session.store.content db.schema).row "Person" 1 = some x ∧
      ((db.execute t).2.session.store.content db.schema).row "Person" 1 = some x' ∧
      x'.cell "name" = x.cell "name" := by
  let s := Schema.empty.after friendsCalls
  have hs : s.Reachable := ⟨friendsCalls, rfl⟩
  have hdistinct : (Schema.empty.after friendsCalls).Distinct := by decide +kernel
  have hboot : ((bootstrap s).run (.start true)).1.isOk := by decide +kernel
  have hok : ((s.compileCreate annForm [] .empty).toOption.any fun c ↦
      (s.compileUpdate annFriendForm []).toOption.any fun i ↦
        have u := ((bootstrap s).run (.start true)).2
        have db : Database := ⟨s, friendsPolicy.authorizer,
          ((Mapping.execute s c.instructions).run ⟨u.store, c.slots, u.log⟩).2⟩
        (db.execute ⟨s, [i], db.session.slots⟩).1.isOk &&
          ((db.session.store.content s).row "Person" 1).isSome &&
            (((db.execute ⟨s, [i], db.session.slots⟩).2.session.store.content s).row
              "Person" 1).isSome) := by
    decide +kernel
  obtain ⟨c, hc, hok⟩ := (Option.any_eq_true _ _).mp hok
  obtain ⟨i, hi, hok⟩ := (Option.any_eq_true _ _).mp hok
  obtain ⟨hok, hafter⟩ := Bool.and_eq_true_iff.mp hok
  obtain ⟨hok, hbefore⟩ := Bool.and_eq_true_iff.mp hok
  obtain ⟨⟨⟩, hboot⟩ := Except.isOk_iff.mp hboot
  obtain ⟨⟨⟩, hok⟩ := Except.isOk_iff.mp hok
  obtain ⟨x, hx⟩ := Option.isSome_iff_exists.mp hbefore
  obtain ⟨x', hx'⟩ := Option.isSome_iff_exists.mp hafter
  let u := ((bootstrap s).run (.start true)).2
  let db : Database := ⟨s, friendsPolicy.authorizer,
    ((Mapping.execute s c.instructions).run ⟨u.store, c.slots, u.log⟩).2⟩
  have hstore : db.session.store.Hosts s :=
    ⟨true, .start true, u, .refl, Run.run_eq_ok hboot,
      .single
        (.written hs (t := ⟨u.store, c.slots, u.log⟩)
          (fun j hj ↦ .create (Except.toOption_eq_some_iff.mp hc) hj) rfl)⟩
  have hbatch : ∀ j ∈ [i], s.Compiles j :=
    List.forall_mem_singleton.mpr (.update (Except.toOption_eq_some_iff.mp hi))
  have hobeys :=
    @execute_obeys db ⟨s, [i], db.session.slots⟩ friendsPolicy rfl hs hdistinct hstore rfl hbatch
  exact ⟨db, ⟨s, [i], db.session.slots⟩, rfl, rfl, hok, x, x', hx, hx',
    ((hobeys.2 hok).2 "Person" "name" (List.mem_singleton_self _) 1 x x' hx hx').1⟩

end Database

end EntityStore
