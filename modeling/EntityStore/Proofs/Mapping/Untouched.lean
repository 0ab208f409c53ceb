import EntityStore.Proofs.Mapping.Frame
import EntityStore.Proofs.Mapping.Scoped

/-!
What writing an instruction leaves alone. Of a row that is there it changes the properties at most
that an update of its entity sets, and a row that it adds is empty in the properties that a create
sets nothing for.
-/

set_option autoImplicit false

namespace EntityStore

open Mapping

namespace Mapping

variable {s : Schema} {e d : Entity} {p : Property} {name : String} {id owner : Int64} {c : Cell}
  {targets : List Int64} {v : InputValue} {inputs : Inputs} {ref : RowRef} {i : Instruction}
  {P : Store → Prop} {Q : Int64 → Prop}

/-- A column of an input: that of its property. -/
def Sets (e : Entity) (name : String) (x : String × Cell) : Prop :=
  x.1 = name ∧ Settable x ∧ ∃ q ∈ columns e, q.name = x.1

theorem sets_field (hs : s.WellFormed) (he : e ∈ s.entities) (hp : p ∈ e.properties) {f : Field}
    (hkind : p.kind = .field f) (hid : p.name ≠ idName) (cell : Cell) :
    Sets e p.name (p.name, cell) := by
  refine ⟨rfl, settable_of_isName (isName_of_field hs he hp hkind hid) cell,
    fieldColumn p.name p.input f, ?_, rfl⟩
  refine List.mem_append_left _ (List.mem_filterMap.mpr ⟨p, hp, ?_⟩)
  simp [ownColumn, hkind, hid]

theorem sets_parent (hp : p ∈ e.properties) {r : Reference} (hkind : p.kind = .reference r)
    (hparent : p.name = parentName) (n : Int64) : Sets e p.name (parentName, .integer n) := by
  refine ⟨hparent.symm, settable_parent n, ⟨parentName, .integer, true, r.unique, some r.target⟩,
    ?_, rfl⟩
  refine List.mem_append_right _ (List.mem_filterMap.mpr ⟨p, hp, ?_⟩)
  simp [parentColumn, hkind, Property.isParent, hparent]

/-- An input of a create is written to the column or to the links of its property. -/
theorem inserted_sets (hs : s.WellFormed) (he : e ∈ s.entities) (hp : p ∈ e.properties)
    (hid : p.name ≠ idName) (hv : p.Creates v) : Run.Keeps P (inserted e p.name v) fun i ↦
      (∀ x ∈ i.columns, Sets e p.name x) ∧ ∀ x ∈ i.links, x.1 = p.name ∧ p.isLinked := by
  have hinserts := inserted_inserts hs he hp hv
  generalize inserted e p.name v = action at hinserts
  cases hinserts with
  | field hkind =>
    exact .pure ⟨List.forall_mem_singleton.mpr (sets_field hs he hp hkind hid _),
      List.forall_mem_nil _⟩
  | parent hkind hparent =>
    exact .bind (.rowOf _ _) fun n _ ↦
      .pure ⟨List.forall_mem_singleton.mpr (sets_parent hp hkind hparent n), List.forall_mem_nil _⟩
  | links hvalue hlinked =>
    refine .pure ⟨List.forall_mem_nil _, fun x hx ↦ ?_⟩
    obtain ⟨r, -, rfl⟩ := List.mem_map.mp hx
    exact ⟨rfl, hlinked⟩
  | owned => exact .pure ⟨List.forall_mem_nil _, List.forall_mem_nil _⟩

/-- An input of an update sets the column of its property at most. -/
theorem assigned_sets (hs : s.WellFormed) (he : e ∈ s.entities) (hp : p ∈ e.properties)
    (hid : p.name ≠ idName) (hv : p.Updates v) :
    Run.Keeps P (assigned e p.name v) fun sets ↦ ∀ x ∈ sets, Sets e p.name x := by
  have hassigns := assigned_assigns hs he hp hv
  generalize assigned e p.name v = action at hassigns
  cases hassigns with
  | field hkind => exact .pure (List.forall_mem_singleton.mpr (sets_field hs he hp hkind hid _))
  | parent hkind hparent =>
    exact .bind (.rowOf _ _)
      fun n _ ↦ .pure (List.forall_mem_singleton.mpr (sets_parent hp hkind hparent n))
  | links => exact .pure (List.forall_mem_nil _)

/-! ### The statements of an instruction -/

/-- The statement that adds a link. -/
def linked (d : Entity) (p : Property) (owner target : Int64) : Statement :=
  .insert (linkTableName d.name p.name) [(ownerColumn, .integer owner),
    (targetColumn, .integer target)]

/-- What the insert of a create keeps, and the links that are added to its row, is kept by the
create. -/
theorem create_keeps (hs : s.WellFormed) (hd : d ∈ s.entities) (hcreates : d.Creates inputs)
    (hrow : ∀ values, (∀ x ∈ values, ∃ y ∈ inputs, Sets d y.1 x) → ∀ store effect, P store →
      store.run (.insert d.name values) = .ok effect → P effect.store ∧ Q effect.row)
    (hlink : ∀ p ∈ d.properties, p.isLinked → (∃ y ∈ inputs, y.1 = p.name) → ∀ owner, Q owner →
      ∀ target store effect, P store → store.run (linked d p owner target) = .ok effect →
      P effect.store) :
    Run.Keeps P (create d ref inputs) fun _ ↦ True := by
  unfold create
  have hparts : Run.Keeps P (inputs.mapM fun x ↦ inserted d x.1 x.2) fun parts ↦
      ∀ i ∈ parts, (∀ x ∈ i.columns, ∃ y ∈ inputs, Sets d y.1 x) ∧
        ∀ x ∈ i.links, ∃ p ∈ d.properties, p.name = x.1 ∧ p.isLinked ∧
        ∃ y ∈ inputs, y.1 = p.name := by
    refine .mapM fun y hy ↦ ?_
    obtain ⟨hid, p, hp, hname, hv⟩ := hcreates.property y hy
    obtain ⟨name, v⟩ := y
    subst hname
    refine (inserted_sets hs hd hp hid hv).weaken
      fun i hi ↦ ⟨fun x hx ↦ ⟨_, hy, hi.1 x hx⟩, fun x hx ↦ ?_⟩
    exact ⟨p, hp, (hi.2 x hx).1.symm, (hi.2 x hx).2, _, hy, rfl⟩
  refine .bind hparts fun parts hparts ↦ ?_
  have hcolumns : ∀ x ∈ (parts.foldl Insertion.append .none).columns,
      ∃ y ∈ inputs, Sets d y.1 x := by
    intro x hx
    obtain ⟨part, hpart, hx⟩ := mem_columns_foldl.mp hx
    exact (hparts part hpart).1 x hx
  refine .bind (.effect (hrow _ hcolumns)) fun effect heffect ↦ .bind (.single _ _)
    fun _ _ ↦ .bind .get fun u _ ↦ ?_
  have hlinks : Run.Keeps P ((parts.foldl Insertion.append .none).links.forM fun x ↦ do
      let target ← Run.rowOf x.2 (.related ⟨d.name, x.1⟩)
      addLink d.name x.1 effect.row target) fun _ ↦ True := by
    refine .forM fun x hx ↦ .bind (.rowOf _ _) fun target _ ↦ ?_
    obtain ⟨part, hpart, hx⟩ := mem_links_foldl.mp hx
    obtain ⟨p, hp, hname, hlinked, hinput⟩ := (hparts part hpart).2 x hx
    rw [← hname]
    exact .bind (.statement (hlink p hp hlinked hinput _ heffect target)) fun _ _ ↦ .single _ _
  dsimp only
  split
  · exact .bind (Q := fun _ ↦ True) (.throw _)
      fun _ _ ↦ .bind (.modify fun _ ↦ rfl) fun _ _ ↦ hlinks
  · exact .bind (.modify fun _ ↦ rfl) fun _ _ ↦ hlinks

/-- What the statements on a link table keep is kept by a change of its links. -/
theorem changeLinks_keeps (hv : p.Updates v)
    (hlink : p.isLinked → ∀ statement store effect, Statement.Plain statement →
      statement.table = linkTableName d.name p.name → P store →
      store.run statement = .ok effect → P effect.store)
    (owner : Int64) : Run.Keeps P (changeLinks d.name p.name owner v) fun _ ↦ True := by
  have hadd (hlinked : p.isLinked) (target : Int64) :
      Run.Keeps P (addLink d.name p.name owner target) fun _ ↦ True :=
    .bind (.statement fun _ _ ↦ hlink hlinked _ _ _ (settable_link owner target) rfl)
      fun _ _ ↦ .single _ _
  have hremove (hlinked : p.isLinked) :
      Run.Keeps P (removeLinks d.name p.name owner) fun _ ↦ True :=
    .bind (.statement fun _ _ ↦ hlink hlinked _ _ _ trivial rfl) fun _ _ ↦ .pure trivial
  have hone (hlinked : p.isLinked) (op : Language.LinkOp) (r : RowRef) :
      Run.Keeps P (changeLink d.name p.name owner op r) fun _ ↦ True := by
    refine .bind (.rowOf _ _) fun target _ ↦ ?_
    cases op with
    | add => exact hadd hlinked target
    | del =>
      exact .bind (.statement fun _ _ ↦ hlink hlinked _ _ _ trivial rfl) fun _ _ ↦ .single _ _
  unfold changeLinks
  split
  · exact hremove hv.2.1
  · exact .bind (.rowOf _ _) fun target _ ↦ .bind (hremove hv.1) fun _ _ ↦ hadd hv.1 target
  · exact hone hv.1 .del _
  · exact .forM fun x _ ↦ hone hv.1 x.1 x.2
  · exact .pure trivial

/-- What an update of the columns of its inputs keeps, and statements on their link tables, is kept
by an update. -/
theorem update_keeps (hs : s.WellFormed) (hd : d ∈ s.entities) (hupdates : d.Updates inputs)
    (hrow : ∀ sets n, (∀ x ∈ sets, ∃ y ∈ inputs, Sets d y.1 x) → ∀ store effect, P store →
      store.run (.update d.name sets n) = .ok effect → P effect.store)
    (hlink : ∀ p ∈ d.properties, p.isLinked → (∃ y ∈ inputs, y.1 = p.name) →
      ∀ statement store effect, Statement.Plain statement →
        statement.table = linkTableName d.name p.name → P store →
        store.run statement = .ok effect → P effect.store) :
    Run.Keeps P (update d ref inputs) fun _ ↦ True := by
  unfold update
  have hsets : Run.Keeps P (inputs.mapM fun x ↦ assigned d x.1 x.2) fun sets ↦
      ∀ xs ∈ sets, ∀ x ∈ xs, ∃ y ∈ inputs, Sets d y.1 x := by
    refine .mapM fun y hy ↦ ?_
    obtain ⟨hid, p, hp, hname, hv⟩ := hupdates.property y hy
    obtain ⟨name, v⟩ := y
    subst hname
    exact (assigned_sets hs hd hp hid hv).weaken fun sets hsets x hx ↦ ⟨_, hy, hsets x hx⟩
  refine .bind (.rowOf _ _) fun n _ ↦ .bind hsets fun sets hsets ↦ ?_
  have hflat : ∀ x ∈ sets.flatten, ∃ y ∈ inputs, Sets d y.1 x := by
    intro x hx
    obtain ⟨part, hpart, hx⟩ := List.mem_flatten.mp hx
    exact hsets part hpart x hx
  refine .bind (.statement (hrow _ n hflat)) fun effect _ ↦ .bind (.single _ _)
    fun _ _ ↦ .forM fun y hy ↦ ?_
  obtain ⟨-, p, hp, hname, hv⟩ := hupdates.property y hy
  obtain ⟨name, v⟩ := y
  subst hname
  exact changeLinks_keeps hv (fun hlinked ↦ hlink p hp hlinked ⟨_, hy, rfl⟩) n

theorem delete_keeps
    (hrow : ∀ n store effect, P store → store.run (.delete d.name [(idName, n)]) = .ok effect →
    P effect.store) : Run.Keeps P (delete d ref) fun _ ↦ True :=
  .bind (.rowOf _ _) fun n _ ↦ .bind (.statement (hrow n)) fun _ _ ↦ .single _ _

/-- An instruction writes to the table of its entity. -/
theorem write_keeps (hs : s.WellFormed) (hi : i.Shaped s) (h : ∀ d ∈ s.entities, d.name = i.entity →
    match i.action with
    | .create inputs => d.Creates inputs → Run.Keeps P (create d i.ref inputs) fun _ ↦ True
    | .update inputs => d.Updates inputs → Run.Keeps P (update d i.ref inputs) fun _ ↦ True
    | .delete =>
      Run.Keeps P (delete d i.ref) fun _ ↦ True) : Run.Keeps P (write s i) fun _ ↦ True := by
  obtain ⟨d, hd, hname, hinputs⟩ := hi.entity
  have h := h d hd hname
  rw [write_eq hs hd hname]
  cases haction : i.action with
  | create inputs =>
    rw [haction] at hinputs h
    exact h hinputs
  | update inputs =>
    rw [haction] at hinputs h
    exact h hinputs
  | delete =>
    rw [haction] at h
    exact h

/-! ### Rows that are there, and rows that are added -/

/-- The columns of the inputs of an instruction, of which none is the one of a property. -/
theorem sets_other {store : Store} {R : Table → Prop} (h : store.Finds e R) {t : Table}
    (ht : store.table? e.name = some t) (hne : ∀ y ∈ inputs, y.1 ≠ name)
    {values : List (String × Cell)} (hvalues : ∀ x ∈ values, ∃ y ∈ inputs, Sets e y.1 x) :
    ∀ x ∈ values, x.1 ≠ name ∧ ∃ c ∈ t.columns, c.name = x.1 := by
  intro x hx
  obtain ⟨y, hy, hname, -, q, hq, hqname⟩ := hvalues x hx
  obtain ⟨c, hc, hcname⟩ := (h.table ht).2.2.2.2 q hq
  exact ⟨hname ▸ hne y hy, c, hc, hcname.trans hqname⟩

theorem settable_of_sets {values : List (String × Cell)}
    (hvalues : ∀ x ∈ values, ∃ y ∈ inputs, Sets d y.1 x) :
    ∀ x ∈ values, Settable x := by
  intro x hx
  obtain ⟨y, -, hsets⟩ := hvalues x hx
  exact hsets.2.1

section

variable (hs : s.WellFormed) (hdistinct : s.Distinct) (he : e ∈ s.entities)

include hs hdistinct he

/-- An instruction leaves a property of a row that was there, unless it is an update that sets the
property. -/
theorem write_untouched (hi : i.Shaped s)
    (hne : i.entity = e.name → ∀ inputs, i.action = .update inputs → ∀ x ∈ inputs, x.1 ≠ name) :
    Run.Keeps (Store.Frame s e (·.Sees id name c) name id targets) (write s i) fun _ ↦ True := by
  refine write_keeps hs hi fun d hd hname ↦ ?_
  split
  · intro hcreates
    refine create_keeps (Q := fun row ↦ d = e → row ≠ id) hs hd hcreates
      (fun values hvalues store effect h hrun ↦ ?_)
      fun p hp hlinked _ owner howner target store effect h hrun ↦
        h.addLink hs hdistinct he hd hp hlinked howner hrun
    have hsettable := settable_of_sets hvalues
    refine ⟨h.row hs hdistinct he hd hrun hsettable rfl ?_, ?_⟩
    · rintro - t t' ht ⟨row, hinsert⟩
      obtain ⟨hsees, hkeyed, -⟩ := h.table ht
      exact (hsees.insert hkeyed hsettable hinsert).1
    · rintro rfl
      obtain ⟨t, t', ht, hran⟩ := Store.run_eq_ok hrun
      obtain ⟨hinsert, -⟩ := hran
      obtain ⟨hsees, hkeyed, -⟩ := h.table ht
      exact (hsees.insert hkeyed hsettable hinsert).2
  · next inputs haction =>
    intro hupdates
    have hother (heq : d = e) : ∀ x ∈ inputs, x.1 ≠ name :=
      hne (hname.symm.trans (congrArg Entity.name heq)) inputs haction
    refine update_keeps hs hd hupdates (fun sets n hsets store effect h hrun ↦ ?_)
      fun p hp hlinked hinput statement store effect hplain htable h hrun ↦
        h.link hs hdistinct he hd hp hlinked (fun heq ↦ ?_) hrun hplain htable
    · refine h.row hs hdistinct he hd hrun (settable_of_sets hsets) rfl ?_
      rintro rfl t t' ht ⟨count, hupdate⟩
      obtain ⟨hsees, hkeyed, hcolumns, -⟩ := h.table ht
      exact hsees.update hkeyed hcolumns (settable_of_sets hsets)
        (sets_other h.toFinds ht (hother rfl) hsets) hupdate
    · obtain ⟨y, hy, hyname⟩ := hinput
      exact hyname ▸ hother heq y hy
  · refine delete_keeps fun n store effect h hrun ↦ h.row hs hdistinct he hd hrun trivial rfl ?_
    rintro - t t' ht rfl
    obtain ⟨hsees, hkeyed, -, hcounted, -⟩ := h.table ht
    exact hsees.delete hkeyed hcounted n

/-- A row that an instruction adds is empty in a property that it sets nothing for. -/
theorem create_blank (hd : d ∈ s.entities) (hcreates : d.Creates inputs)
    (hne : d = e → ∀ x ∈ inputs, x.1 ≠ name) :
    Run.Keeps (Store.Frame s e (·.Blank id name) name id targets)
      (create d ref inputs) fun _ ↦ True := by
  refine create_keeps (Q := fun _ ↦ True) hs hd hcreates
    (fun values hvalues store effect h hrun ↦ ⟨?_, trivial⟩)
    fun p hp hlinked hinput owner _ target store effect h hrun ↦
      h.link hs hdistinct he hd hp hlinked (fun heq ↦ ?_) hrun (settable_link owner target) rfl
  · have hsettable := settable_of_sets hvalues
    refine h.row hs hdistinct he hd hrun hsettable rfl ?_
    rintro rfl t t' ht ⟨row, hinsert⟩
    obtain ⟨hblank, hkeyed, hcolumns, -⟩ := h.table ht
    exact hblank.insert hkeyed hcolumns hsettable
      (sets_other h.toFinds ht (hne rfl) hvalues) hinsert
  · obtain ⟨y, hy, hyname⟩ := hinput
    exact hyname ▸ hne heq y hy

/-- Only creates add rows. -/
theorem write_absent (hi : i.Shaped s) (hkind : ∀ inputs, i.action ≠ .create inputs) :
    Run.Keeps (Store.Finds e fun t ↦ t.row? id = none) (write s i) fun _ ↦ True := by
  refine write_keeps hs hi fun d hd hname ↦ ?_
  split
  · next inputs haction => exact absurd haction (hkind inputs)
  · intro hupdates
    refine update_keeps hs hd hupdates (fun sets n hsets store effect h hrun ↦ ?_)
      fun p hp hlinked _ statement store effect hplain htable h hrun ↦ ?_
    · refine h.row hs hdistinct he hd hrun (settable_of_sets hsets) rfl ?_
      rintro - t t' ht ⟨count, hupdate⟩
      obtain ⟨hnone, hkeyed, -⟩ := h.table ht
      exact Table.row?_update_none hkeyed (settable_of_sets hsets) hupdate hnone
    · obtain ⟨⟨target, hrelation⟩, hparent⟩ := Property.isLinked_iff.mp hlinked
      obtain ⟨unique, hspec⟩ := Schema.linkTable_eq (e := d) hrelation hparent
      exact h.other hdistinct he (Schema.linkTable_mem hd hp hspec)
        (entityTable_ne_linkTable hspec).symm hrun hplain htable
  · refine delete_keeps fun n store effect h hrun ↦ h.row hs hdistinct he hd hrun trivial rfl ?_
    rintro - t t' ht rfl
    obtain ⟨hnone, hkeyed, -⟩ := h.table ht
    rcases Table.delete_id hkeyed n with heq | ⟨-, heq⟩ <;> rw [heq]
    · exact hnone
    · rw [Table.row?_filter hkeyed.ascending, hnone]
      rfl

end

end Mapping

end EntityStore
