import EntityStore.Proofs.Compile.Transaction
import EntityStore.Proofs.Mapping.Writing

/-!
Writing the batch of a transaction fails only where the store refuses a statement or has no row to
change. Every instruction finds the numbers of the rows it needs, every slot is filled once, and
every input is of a kind that its property is written from (`execute_faultless`).
-/

set_option autoImplicit false

namespace EntityStore

/-- An error that hangs on what the store holds: a change that affected another number of rows than
one, or a statement that the store refused. -/
def Error.OfStore : Error → Prop
  | .integrity _ _ => True
  | .persistence _ => True
  | _ => False

namespace Run

variable {α β γ : Type} {x : Run α} {f : α → Run β} {p p' : Slots → Prop} {q : α → Slots → Prop}
  {q₂ : β → Slots → Prop}

/-- From slots as `p` says an action leaves slots as `q` says, or fails for what the store holds. -/
def Meets (p : Slots → Prop) (x : Run α) (q : α → Slots → Prop) : Prop :=
  ∀ s, p s.slots → match x.run s with
    | (.ok a, s') => q a s'.slots
    | (.error e, _) => e.OfStore

theorem Meets.pure {a : α} (h : ∀ slots, p slots → q a slots) : Meets p (pure a) q :=
  fun s ↦ h s.slots

theorem Meets.bind (hx : Meets p x q) (hf : ∀ a, Meets (q a) (f a) q₂) : Meets p (x >>= f) q₂ := by
  intro s hs
  have hx := hx s hs
  rw [run_bind]
  rcases hrun : x.run s with ⟨_ | a, s'⟩ <;> rw [hrun] at hx
  · exact hx
  · exact hf a s' hx

theorem Meets.weaken {q' : α → Slots → Prop} (h : Meets p x q) (hp : ∀ slots, p' slots → p slots)
    (hq : ∀ a slots, q a slots → q' a slots) : Meets p' x q' := by
  intro s hs
  have hx := h s (hp s.slots hs)
  rcases hrun : x.run s with ⟨_ | a, s'⟩ <;> rw [hrun] at hx
  · exact hx
  · exact hq a s'.slots hx

/-- What is known apart from the slots. -/
theorem Meets.and_left {P : Prop} (h : P → Meets p x q) : Meets (fun slots ↦ p slots ∧ P) x q :=
  fun s hs ↦ h hs.2 s hs.1

theorem Meets.of_slots (h : ∀ slots, p slots → Meets (· = slots) x q) : Meets p x q :=
  fun s hs ↦ h s.slots hs s rfl

theorem Meets.tryCatch {g : Error → Run α} (hx : Meets p x q)
    (hg : ∀ e, e.OfStore → Meets (fun _ ↦ True) (g e) q) :
    Meets p (tryCatch x g) q := by
  intro s hs
  have hx := hx s hs
  rw [run_tryCatch]
  rcases hrun : x.run s with ⟨e | a, s'⟩ <;> rw [hrun] at hx
  · exact hg e hx s' trivial
  · exact hx

theorem Meets.throw {e : Error} (h : e.OfStore) : Meets p (throw e : Run α) q :=
  fun _ _ ↦ h

theorem Meets.get {q : Session → Slots → Prop} (h : ∀ s : Session, p s.slots → q s s.slots) :
    Meets p (get : Run Session) q :=
  h

theorem Meets.modify {g : Session → Session} {q : PUnit → Slots → Prop}
    (h : ∀ s, p s.slots → q ⟨⟩ (g s).slots) :
    Meets p (modify g : Run PUnit) q :=
  h

theorem Meets.forM {xs : List γ} {g : γ → Run PUnit} (h : ∀ c ∈ xs, Meets p (g c) fun _ ↦ p) :
    Meets p (xs.forM g) fun _ ↦ p := by
  induction xs with
  | nil => exact .pure fun _ hs ↦ hs
  | cons c xs ih =>
    exact .bind (h c List.mem_cons_self) fun _ ↦ ih fun d hd ↦ h d (List.mem_cons_of_mem _ hd)

theorem Meets.mapM {xs : List γ} {g : γ → Run α} {P : α → Prop}
    (h : ∀ c ∈ xs, Meets p (g c) fun a slots ↦ p slots ∧ P a) :
    Meets p (xs.mapM g) fun as slots ↦ p slots ∧ ∀ a ∈ as, P a := by
  induction xs with
  | nil => exact .pure fun _ hs ↦ ⟨hs, nofun⟩
  | cons c xs ih =>
    rw [List.mapM_cons]
    have hrest := ih fun d hd ↦ h d (List.mem_cons_of_mem _ hd)
    refine .bind (h c List.mem_cons_self) fun a ↦ .and_left fun ha ↦ .bind hrest
      fun as ↦ .and_left fun has ↦ ?_
    exact .pure fun s hs ↦ ⟨hs, List.forall_mem_cons.mpr ⟨ha, has⟩⟩

theorem Meets.log (e : Event) : Meets p (log e) fun _ ↦ p :=
  .modify fun _ hs ↦ hs

theorem Meets.statement (statement : Statement) : Meets p (Run.statement statement) fun _ ↦ p := by
  intro s hs
  rw [run_statement]
  cases s.store.run statement with
  | error e => trivial
  | ok effect => exact hs

theorem Meets.single (change : RowChange) (affected : Nat) :
    Meets p (single change affected) fun _ ↦ p := by
  unfold Run.single
  split
  · exact .pure fun _ hs ↦ hs
  · exact .throw trivial

/-- The number of a row is asked for where it is known. -/
theorem Meets.rowOf {row : RowRef} {what : RowUse} (h : ∀ slots, p slots → (slots.id? row).isSome) :
    Meets p (rowOf row what) fun _ ↦ p := by
  intro s hs
  obtain ⟨id, hid⟩ := Option.isSome_iff_exists.mp (h s.slots hs)
  rw [run_rowOf, hid]
  exact hs

theorem Meets.atomically (hx : Meets p x q) : Meets p (atomically x) q := by
  intro s hs
  have hx := hx s hs
  rw [run_atomically]
  rcases hrun : x.run s with ⟨e | a, s'⟩ <;> rw [hrun] at hx <;> exact hx

end Run

/-- An input that an update has a branch for: values and the owner are set, links are removed or
added. The others are passed over. -/
def InputValue.Acts (name : String) : InputValue → Prop
  | .value _ => True
  | .ref _ => name = parentName
  | .refs rs => rs = []
  | .link _ _ => True
  | .links _ => True

theorem Property.Updates.acts {p : Property} {v : InputValue}
    (h : p.Updates v) : v.Acts p.name := by
  cases v with
  | ref r => exact eq_of_beq (show p.name == parentName from h)
  | refs rs => exact h.1
  | _ => trivial

namespace Mapping

variable {s : Schema} {e : Entity} {p : Property} {slots : Slots} {inputs : Inputs}
  {i : Instruction} {name : String} {v : InputValue}

/-- The numbers of the rows that an input needs are known. -/
def Finds (e : Entity) (slots : Slots) (x : String × InputValue) : Prop :=
  x.1 = parentName ∨ e.links x.1 → ∀ r ∈ x.2.rows, (slots.id? r).isSome

theorem addLink_meets (entity relation : String) (owner target : Int64) {p : Slots → Prop} :
    Run.Meets p (addLink entity relation owner target) fun _ ↦ p :=
  .bind (.statement _) fun _ ↦ .single _ _

theorem removeLinks_meets (entity relation : String) (owner : Int64) {p : Slots → Prop} :
    Run.Meets p (removeLinks entity relation owner) fun _ ↦ p :=
  .bind (.statement _) fun _ ↦ .pure fun _ h ↦ h

/-! ### Creates -/

theorem links_of_linked (hs : s.WellFormed) (he : e ∈ s.entities) (hp : p ∈ e.properties)
    (hlinked : p.isLinked) :
    e.links p.name :=
  (Entity.links_eq_true_iff (hs.entity e he)).mpr ⟨p, hp, rfl, hlinked⟩

/-- An input of a create meets the rows that it needs, and the rows to be linked are known. -/
theorem inserted_meets (hs : s.WellFormed) (he : e ∈ s.entities)
    (hp : p ∈ e.properties) (hv : p.Creates v) (hfinds : Finds e slots (p.name, v)) :
    Run.Meets (· = slots) (inserted e p.name v) fun i slots' ↦
      slots' = slots ∧ ∀ x ∈ i.links, (slots.id? x.2).isSome := by
  have hinserts := inserted_inserts hs he hp hv
  generalize inserted e p.name v = action at hinserts
  cases hinserts with
  | field | owned => exact .pure fun _ h ↦ ⟨h, nofun⟩
  | @parent q r hkind hparent =>
    refine .bind (.rowOf fun _ h ↦ ?_) fun id ↦ .pure fun _ h ↦ ⟨h, nofun⟩
    rw [h]
    exact hfinds (.inl hparent) r List.mem_cons_self
  | links hvalue hlinked =>
    refine .pure fun _ h ↦ ⟨h, fun x hx ↦ ?_⟩
    obtain ⟨r, hr, rfl⟩ := List.mem_map.mp hx
    exact hfinds (.inr (links_of_linked hs he hp hlinked)) r hr

/-- A create fills its slot. -/
theorem create_meets (hs : s.WellFormed) (he : e ∈ s.entities) {ref : RowRef}
    (hcreates : e.Creates inputs) (hfinds : ∀ x ∈ inputs, Finds e slots x)
    (hnew : slots.id? ref = none) :
    Run.Meets (· = slots) (create e ref inputs) fun _ slots' ↦ ∃ id, slots' =
      slots.assign ref id := by
  have hparts : Run.Meets (· = slots) (inputs.mapM fun x ↦ inserted e x.1 x.2) fun parts slots' ↦
      slots' = slots ∧ ∀ i ∈ parts, ∀ x ∈ i.links, (slots.id? x.2).isSome := by
    refine .mapM fun x hx ↦ ?_
    obtain ⟨-, p, hp, hname, hv⟩ := hcreates.property x hx
    obtain ⟨name, v⟩ := x
    subst hname
    exact inserted_meets hs he hp hv (hfinds _ hx)
  unfold create
  refine .bind hparts fun parts ↦ .and_left fun hlinks ↦ .bind (.statement _)
    fun effect ↦ .bind (.single _ _) fun _ ↦ ?_
  refine .bind (q := fun u slots' ↦ slots' = slots ∧ u.slots = slots) (.get fun u hu ↦ ⟨hu, hu⟩)
    fun u ↦ .and_left fun hu ↦ ?_
  rw [hu, hnew]
  refine .bind (.modify (q := fun _ slots' ↦ slots' = slots.assign ref effect.row) fun u hu ↦ ?_)
    fun _ ↦ ?_
  · dsimp only
    rw [hu]
  have hforM : Run.Meets (· = slots.assign ref effect.row)
      ((parts.foldl Insertion.append .none).links.forM fun x ↦ do
        let target ← Run.rowOf x.2 (.related ⟨e.name, x.1⟩)
        addLink e.name x.1 effect.row target) fun _ ↦ (· = slots.assign ref effect.row) := by
    refine .forM fun x hx ↦ .bind (.rowOf fun slots' h ↦ ?_) fun target ↦ addLink_meets _ _ _ _
    obtain ⟨part, hpart, hx⟩ := mem_links_foldl.mp hx
    obtain ⟨n, hn⟩ := Option.isSome_iff_exists.mp (hlinks part hpart x hx)
    rw [h, id?_assign hnew hn]
    rfl
  exact hforM.weaken (fun _ h ↦ h) fun _ _ h ↦ ⟨effect.row, h⟩

/-! ### Updates and deletes -/

theorem assigned_meets (hs : s.WellFormed) (he : e ∈ s.entities)
    (hp : p ∈ e.properties) (hv : p.Updates v) (hfinds : Finds e slots (p.name, v)) :
    Run.Meets (· = slots) (assigned e p.name v) fun _ ↦ (· = slots) := by
  have hassigns := assigned_assigns hs he hp hv
  generalize assigned e p.name v = action at hassigns
  cases hassigns with
  | field | links => exact .pure fun _ h ↦ h
  | @parent q r hkind hparent =>
    refine .bind (.rowOf fun _ h ↦ ?_) fun id ↦ .pure fun _ h ↦ h
    rw [h]
    exact hfinds (.inl hparent) r List.mem_cons_self

theorem changeLinks_meets (hs : s.WellFormed) (he : e ∈ s.entities)
    (hp : p ∈ e.properties) (hv : p.Updates v)
    (hfinds : Finds e slots (p.name, v)) (owner : Int64) :
    Run.Meets (· = slots) (changeLinks e.name p.name owner v) fun _ ↦ (· = slots) := by
  have hlinks (hlinked : p.isLinked) : ∀ r ∈ v.rows, (slots.id? r).isSome :=
    hfinds (.inr (links_of_linked hs he hp hlinked))
  have hone (op : Language.LinkOp) (r : RowRef) (hr : (slots.id? r).isSome) :
      Run.Meets (· = slots) (changeLink e.name p.name owner op r) fun _ ↦ (· = slots) := by
    refine .bind (.rowOf fun _ h ↦ by rw [h]; exact hr) fun target ↦ ?_
    cases op with
    | add => exact addLink_meets _ _ _ _
    | del => exact .bind (.statement _) fun _ ↦ .single _ _
  unfold changeLinks
  split
  · exact removeLinks_meets _ _ _
  · next r =>
    refine .bind (.rowOf fun _ h ↦ ?_) fun target ↦ .bind (removeLinks_meets _ _ _)
      fun _ ↦ addLink_meets _ _ _ _
    rw [h]
    exact hlinks hv.1 r List.mem_cons_self
  · next r => exact hone .del r (hlinks hv.1 r List.mem_cons_self)
  · next ls =>
    exact .forM fun x hx ↦ hone x.1 x.2 (hlinks hv.1 x.2 (List.mem_map_of_mem hx))
  · exact .pure fun _ h ↦ h

theorem update_meets (hs : s.WellFormed) (he : e ∈ s.entities) {ref : RowRef}
    (hupdates : e.Updates inputs) (hfinds : ∀ x ∈ inputs, Finds e slots x)
    (hrow : (slots.id? ref).isSome) :
    Run.Meets (· = slots) (update e ref inputs) fun _ ↦ (· = slots) := by
  have hinput : ∀ x ∈ inputs, Run.Meets (· = slots) (assigned e x.1 x.2) (fun _ ↦ (· = slots)) ∧
      ∀ owner, Run.Meets (· = slots) (changeLinks e.name x.1 owner x.2) fun _ ↦ (· = slots) := by
    intro x hx
    obtain ⟨-, p, hp, hname, hv⟩ := hupdates.property x hx
    obtain ⟨name, v⟩ := x
    subst hname
    exact ⟨assigned_meets hs he hp hv (hfinds _ hx), changeLinks_meets hs he hp hv (hfinds _ hx)⟩
  unfold update
  refine .bind (.rowOf fun _ h ↦ by rw [h]; exact hrow) fun id ↦
    .bind (.mapM (P := fun _ ↦ True) fun x hx ↦ (hinput x hx).1.weaken (fun _ h ↦ h) fun _ _ h ↦
        ⟨h, trivial⟩) fun sets ↦
      .and_left fun _ ↦ .bind (.statement _) fun effect ↦ .bind (.single _ _) fun _ ↦ .forM
        fun x hx ↦ (hinput x hx).2 id

theorem delete_meets {ref : RowRef} (hrow : (slots.id? ref).isSome) :
    Run.Meets (· = slots) (delete e ref) fun _ ↦ (· = slots) :=
  .bind (.rowOf fun _ h ↦ by rw [h]; exact hrow) fun _ ↦ .bind (.statement _) fun _ ↦ .single _ _

/-! ### Batches -/

/-- An instruction that finds the rows it needs and a free slot for its own fills that slot at
most. -/
theorem write_meets (hs : s.WellFormed) (hi : i.Shaped s)
    (hneeds : ∀ r ∈ s.needs i, (slots.id? r).isSome) (hfree : i.creates → slots.id? i.ref = none) :
    Run.Meets (· = slots) (write s i) fun _ slots' ↦
      if i.creates then ∃ id, slots' = slots.assign i.ref id else slots' = slots := by
  obtain ⟨e, he, hname, hinputs⟩ := hi.entity
  have hget : s.get? i.entity = some e := (Schema.get?_eq_some_iff hs).mpr ⟨he, hname⟩
  have hfinds : ∀ x ∈ i.action.inputs, Finds e slots x := by
    intro x hx hor r hr
    refine hneeds r (Schema.mem_needs.mpr (.inr ⟨x, hx, ?_, hr⟩))
    rwa [hget, Option.any_some]
  have hrow (hcreates : i.creates = false) : (slots.id? i.ref).isSome :=
    hneeds i.ref (Schema.mem_needs.mpr (.inl ⟨hcreates, rfl⟩))
  rw [write_eq hs he hname]
  unfold Instruction.creates at hfree hrow ⊢
  cases haction : i.action with
  | create inputs =>
    rw [haction] at hinputs hfinds hfree
    exact create_meets hs he hinputs hfinds (hfree rfl)
  | update inputs =>
    rw [haction] at hinputs hfinds hrow
    exact update_meets hs he hinputs hfinds (hrow rfl)
  | delete =>
    rw [haction] at hrow
    exact delete_meets (hrow rfl)

theorem isSome_assign {ref r : RowRef} {id : Int64} (hnew : slots.id? ref = none) :
    ((slots.assign ref id).id? r).isSome ↔ (slots.id? r).isSome ∨ ref = r := by
  by_cases heq : ref = r
  · rw [← heq, id?_assign_self hnew]
    simp
  · simp only [heq, or_false]
    cases ref with
    | known n => cases hnew
    | pending slot =>
      cases r with
      | known n => exact Iff.rfl
      | pending other =>
        have hne : other ≠ slot := fun h ↦ heq (by rw [h])
        change (((slot, id) :: slots.assigned).lookup other).isSome ↔
          (slots.assigned.lookup other).isSome
        rw [List.lookup_cons, beq_eq_false_iff_ne.mpr hne]

/-- The slots behind some instructions: the rows known before have numbers, and those that were
created. -/
def Reached (slots : Slots) (before : List Instruction) (slots' : Slots) : Prop :=
  ∀ r, (slots'.id? r).isSome ↔ Schema.Known slots before r

/-- An instruction that is reached finds the rows that it needs and a free slot. -/
theorem Reached.finds {batch before after : List Instruction} {slots' : Slots}
    (h : Reached slots before slots') (hscope : s.Scoped slots batch)
    (hsplit : batch = before ++ i :: after) :
    (∀ r ∈ s.needs i, (slots'.id? r).isSome) ∧ (i.creates → slots'.id? i.ref = none) := by
  refine ⟨fun r hr ↦ (h r).mpr (hscope.needs before i after hsplit r hr), fun hcreates ↦ ?_⟩
  rw [← Option.not_isSome_iff_eq_none, h]
  rintro (hsome | ⟨j, hj, hjcreates, href⟩)
  · rw [hscope.free i (by simp [hsplit]) hcreates] at hsome
    cases hsome
  · have honce := hscope.once
    rw [hsplit, List.filter_append, List.filter_cons_of_pos hcreates, List.map_append,
      List.map_cons] at honce
    exact (List.nodup_append.mp honce).2.2 j.ref
      (List.mem_map_of_mem (List.mem_filter.mpr ⟨hj, hjcreates⟩)) i.ref List.mem_cons_self href

theorem writeInBatch_meets (hs : s.WellFormed)
    {batch before after : List Instruction} (hi : i.Shaped s) (hscope : s.Scoped slots batch)
    (hsplit : batch = before ++ i :: after) :
    Run.Meets (Reached slots before) (writeInBatch s i) fun _ ↦ Reached slots (before ++ [i]) := by
  refine .of_slots fun slots' hreached ↦ ?_
  obtain ⟨hneeds, hfree⟩ := hreached.finds hscope hsplit
  have hknows (r : RowRef) : Schema.Known slots (before ++ [i]) r ↔
      Schema.Known slots before r ∨ i.creates ∧ i.ref = r := by
    simp [Schema.Known, or_and_right, exists_or, or_assoc]
  unfold writeInBatch
  refine .tryCatch ((write_meets hs hi hneeds hfree).weaken (fun _ h ↦ h) fun _ slots'' h r ↦
      ?_) fun error herror ↦
    .bind (q := fun _ _ ↦ True) (.get fun _ _ ↦ trivial) fun u ↦ .bind (.log _)
      fun _ ↦ .throw herror
  rw [hknows, ← hreached]
  split at h
  · next hcreates =>
    obtain ⟨id, rfl⟩ := h
    rw [isSome_assign (hfree hcreates)]
    simp [hcreates]
  · next hcreates =>
    rw [h]
    simp [hcreates]

theorem writeAll_meets (hs : s.WellFormed) {batch : List Instruction}
    (hbatch : ∀ i ∈ batch, i.Shaped s) (hscope : s.Scoped slots batch)
    {before after : List Instruction} (middle : List Instruction)
    (hsplit : batch = before ++ (middle ++ after)) :
    Run.Meets (Reached slots before) (middle.forM (writeInBatch s)) fun _ ↦ Reached slots
      (before ++ middle) := by
  induction middle generalizing before with
  | nil => exact .pure fun _ h ↦ by rwa [List.append_nil]
  | cons i middle ih =>
    have hrest : batch = (before ++ [i]) ++ (middle ++ after) := by simp [hsplit]
    have hwritten := ih hrest
    rw [List.append_assoc] at hwritten
    exact .bind (writeInBatch_meets hs (hbatch i (by simp [hsplit])) hscope hsplit) fun _ ↦ hwritten

/-- Writing the batch of a transaction fails for what the store holds only. When an instruction is
reached, the rows that it needs have numbers and the slot that it fills is free, for every such row
was known before the transaction or is created by an instruction in front, and no two instructions
fill one slot; and an update acts on all its inputs. -/
theorem execute_faultless (hs : s.Reachable) (hslots : slots.Sound) {t : Transaction}
    (ht : t.Filled s slots) (store : Store) (log : List Event) :
    (∀ error, ((execute s t.instructions).run ⟨store, t.slots, log⟩).1 = .error error →
        error.OfStore) ∧
      s.Scoped slots t.instructions ∧
      (∀ before i after, t.instructions = before ++ i :: after → ∀ u,
        (before.forM (writeInBatch s)).run ⟨store, t.slots, log⟩ = (.ok (), u) →
          (∀ r ∈ s.needs i, (u.slots.id? r).isSome) ∧ (i.creates → u.slots.id? i.ref = none)) ∧
      ∀ i ∈ t.instructions, ∀ inputs, i.action = .update inputs → ∀ x ∈ inputs, x.2.Acts x.1 := by
  have hwf := hs.wellFormed
  have hready := ht.ready hwf hslots
  have hshaped : ∀ i ∈ t.instructions, i.Shaped s := fun i hi ↦ (hready.compiled i hi).shaped hwf
  have hstart : Reached slots [] t.slots := by
    intro r
    simp [hready.id?_eq, Schema.Known]
  refine ⟨fun error herror ↦ ?_, hready.scope, fun before i after hsplit u hrun ↦ ?_,
    fun i hi inputs haction x hx ↦ ?_⟩
  · have hall : Run.Meets (Reached slots []) (t.instructions.forM (writeInBatch s)) fun _ ↦
        Reached slots t.instructions :=
      writeAll_meets hwf hshaped hready.scope t.instructions (List.append_nil _).symm
    have hexecute : Run.Meets (Reached slots []) (execute s t.instructions) fun _ ↦
        Reached slots t.instructions :=
      .bind (.log _) fun _ ↦ .bind (.atomically hall) fun _ ↦ .log _
    have hends := hexecute ⟨store, t.slots, log⟩ hstart
    split at hends
    · next hrun =>
      rw [hrun] at herror
      cases herror
    · next hrun =>
      rw [hrun] at herror
      cases herror
      exact hends
  · have hreached :=
      writeAll_meets hwf hshaped hready.scope before hsplit ⟨store, t.slots, log⟩ hstart
    rw [hrun] at hreached
    exact Reached.finds hreached hready.scope hsplit
  · obtain ⟨e, -, -, hinputs⟩ := (hshaped i hi).entity
    rw [haction] at hinputs
    obtain ⟨-, p, -, hname, hv⟩ := hinputs.property x hx
    rw [← hname]
    exact hv.acts

/-- The person of a nested create becomes her own friend: the update refers to the row that the
batch creates. -/
theorem execute_faultless_of_friends : ∃ t : Transaction, t.Filled
    (Schema.empty.after friendsCalls) .empty ∧ t.instructions.length = 3 ∧ ∀ error,
      ((execute (Schema.empty.after friendsCalls) t.instructions).run ⟨.empty true, t.slots,
          []⟩).1 = .error error →
        error.OfStore := by
  have hok : (((Transaction.start (Schema.empty.after friendsCalls) .empty).create
      "Person \x7b name: \"Ann\", notes: [\x7b text: \"tea\" \x7d] \x7d" []).toOption.any fun x ↦
        (x.1.update "Person @id == ?ann \x7b friend: @add ?ann \x7d"
            [("ann", .ref x.2.root)]).toOption.any fun t ↦
          x.1.instructions.any (fun i ↦ i.creates && i.ref == x.2.root) &&
              t.instructions.length == 3) := by
    decide +kernel
  obtain ⟨⟨t, tree⟩, hcreate, hok⟩ := (Option.any_eq_true _ _).mp hok
  obtain ⟨t', hupdate, hok⟩ := (Option.any_eq_true _ _).mp hok
  obtain ⟨hroot, hlength⟩ := Bool.and_eq_true_iff.mp hok
  obtain ⟨i, hi, hroot⟩ := List.any_eq_true.mp hroot
  obtain ⟨hcreates, href⟩ := Bool.and_eq_true_iff.mp hroot
  have hfirst : t.Filled (Schema.empty.after friendsCalls) .empty :=
    Transaction.Filled.create .start (List.forall_mem_nil _)
      (Except.toOption_eq_some_iff.mp hcreate)
  have hknows : t.Knows [("ann", .ref tree.root)] := by
    intro x hx r hr
    rw [List.mem_singleton.mp hx] at hr
    exact .inr ⟨i, hi, hcreates, (eq_of_beq href).trans (List.mem_singleton.mp hr).symm⟩
  have hfilled := Transaction.Filled.update hfirst hknows (Except.toOption_eq_some_iff.mp hupdate)
  have hslots : Slots.empty.Sound := List.forall_mem_nil _
  exact ⟨t', hfilled, eq_of_beq hlength,
    (execute_faultless ⟨friendsCalls, rfl⟩ hslots hfilled (.empty true) []).1⟩

end Mapping

end EntityStore
