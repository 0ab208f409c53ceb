import EntityStore.Proofs.Compile.Scope

/-!
The batches of transactions. The rows of a create stand in the order of their slots, each behind the
row that owns it, and the slots are new; so what calls add to a batch that is scoped leaves it
scoped (`Transaction.Filled.ready`).
-/

set_option autoImplicit false

namespace EntityStore

/-- The slots with numbers are among those given out. -/
def Slots.Sound (slots : Slots) : Prop :=
  ∀ x ∈ slots.assigned, x.1 < slots.next

theorem Slots.Sound.id?_eq_none {slots : Slots} (h : slots.Sound) {slot : Nat}
    (hslot : slots.next ≤ slot) :
    slots.id? (.pending slot) = none := by
  cases hid : slots.id? (.pending slot) with
  | none => rfl
  | some id =>
    have hmem : (slot, id) ∈ slots.assigned := mem_of_lookup hid
    have hlt : slot < slots.next := h (slot, id) hmem
    omega

/-- An owned relation is not the one to the owner, and it has no links. -/
theorem Schema.WellFormed.owned_apart {s : Schema} (hs : s.WellFormed) {e : Entity}
    (he : e ∈ s.entities) {p : Property} (hp : p ∈ e.properties) {target : String}
    (howned : p.relation? = some (target, .owned)) :
    p.name ≠ parentName ∧ e.links p.name = false := by
  refine ⟨fun hname ↦ ?_, Bool.eq_false_iff.mpr fun hlinks ↦ ?_⟩
  · obtain ⟨own, hown⟩ := hs.ownership e he
    obtain ⟨o, q, -, rfl⟩ := hown.eq_parent hp hname
    cases howned
  · obtain ⟨q, hq, hname, hlinked⟩ := (Entity.links_eq_true_iff (hs.entity e he)).mp hlinks
    obtain rfl := (hs.entity e he).indexed.eq_of_name_eq hq hp hname
    simp [Property.isLinked, howned] at hlinked

namespace Draft

/-- An input of a row comes from one of its entries. -/
theorem mem_numberRow_entry {owner next : Nat} {row : RowDraft} {x : String × InputValue}
    (hx : x ∈ (numberRow owner next row).inputs) :
    ∃ d next', (x.1, d) ∈ row ∧ x ∈ (numberEntry owner next' x.1 d).inputs := by
  induction row generalizing next with
  | nil => cases hx
  | cons y row ih =>
    obtain ⟨name, d⟩ := y
    rw [numberRow_cons, Numbered.append] at hx
    rcases List.mem_append.mp hx with hx | hx
    · have hname : x.1 = name := by
        cases d <;> simp [numberEntry, Numbered.none] at hx <;> exact congrArg Prod.fst hx
      rw [hname]
      exact ⟨d, next, List.mem_cons_self, hx⟩
    · obtain ⟨d', next', hmem, hx⟩ := ih hx
      exact ⟨d', next', List.mem_cons_of_mem _ hmem, hx⟩

namespace Place

variable {s : Schema} {e : Entity} {x y : Place} {r : RowRef} {slots : Slots}

/-- A row needs its owner and the rows that its entries refer to. -/
theorem Fits.needs (hs : s.WellFormed) (h : x.Fits s e) (hr : r ∈ s.needs x.instruction) :
    x.owner = some r ∨ r ∈ entriesRefs x.row := by
  obtain ⟨hcreates, -⟩ | ⟨y, hy, hname, hr⟩ := Schema.mem_needs.mp hr
  · cases hcreates
  rcases List.mem_append.mp hy with hy | hy
  · obtain ⟨owner, howner, rfl⟩ := mem_parentInput.mp hy
    obtain rfl := List.mem_singleton.mp hr
    exact .inl howner
  refine .inr (mem_entriesRefs.mpr ?_)
  obtain ⟨d, next, hentry, hinput⟩ := mem_numberRow_entry hy
  obtain ⟨p, hp, hpname, hfits⟩ := entriesFit_iff.mp h.entries _ hentry
  have hget : s.get? x.instruction.entity = some e :=
    (Schema.get?_eq_some_iff hs).mpr ⟨h.mem, h.name⟩
  -- the rows of an owned relation are needed by none of the two
  have howned {target : String} {kind : RelationKind}
      (hrelation : p.relation? = some (target, kind)) (hkind : kind = .owned) : False := by
    obtain ⟨hparent, hlinks⟩ := hs.owned_apart h.mem hp (hkind ▸ hrelation)
    rw [hpname] at hparent hlinks
    rw [hget, Option.any_some, hlinks] at hname
    exact hname.elim hparent Bool.false_ne_true
  cases d with
  | input v =>
    rw [List.mem_singleton.mp hinput] at hr
    exact ⟨_, hentry, hr⟩
  | absent => cases hinput
  | single entity row =>
    obtain ⟨q, hkind, hq, htarget, -⟩ := hfits
    exact (howned (by rw [Property.relation?, hkind]) hq).elim
  | several entity rows =>
    obtain ⟨q, hkind, hq, htarget, -⟩ := hfits
    exact (howned (by rw [Property.relation?, hkind]) hq).elim

/-- The rows of a create that refer to known rows only find what they need, and fill new slots. -/
theorem places_scoped (hs : s.WellFormed) (h : x.Fits s e) (howner : x.owner = none)
    {batch : List Instruction} (hbatch : s.Scoped slots batch)
    (hrefs : ∀ r ∈ entriesRefs x.row, Schema.Known slots batch r)
    (hnew : ∀ slot, x.slot ≤ slot → slots.id? (.pending slot) = none)
    (hother : ∀ j ∈ batch, j.creates → ∀ slot, x.slot ≤ slot → j.ref ≠ .pending slot) :
    s.Scoped slots (batch ++ x.places.map instruction) := by
  have hascends := x.places_ascends
  have hcreated {i : Instruction} (hi : i ∈ x.places.map instruction) :
      ∃ y ∈ x.places, y.instruction = i :=
    List.mem_map.mp hi
  refine hbatch.append (fun before i after hsplit r hr ↦ ?_) (fun i hi _ ↦ ?_)
    (fun i hi _ j hj hcreates ↦ ?_) ?_
  · obtain ⟨ys, zs, hplaces, rfl, hzs⟩ := List.map_eq_append_iff.mp hsplit
    obtain ⟨y, zs, rfl, rfl, rfl⟩ := List.map_eq_cons_iff.mp hzs
    have hy : y ∈ x.places := by simp [hplaces]
    obtain ⟨d, hd⟩ := h.places y hy
    rcases hd.needs hs hr with hparent | hr
    · rcases exists_parent hy with rfl | ⟨z, hz, hchild⟩
      · rw [howner] at hparent
        cases hparent
      · rw [hchild.owner_eq] at hparent
        cases hparent
        -- the slots ascend, so that the owner cannot stand behind the row
        have hbefore : z ∈ ys := by
          rw [hplaces] at hz
          rcases List.mem_append.mp hz with hz | hz
          · exact hz
          · have hlater :=
              List.pairwise_cons.mp (List.pairwise_append.mp (hplaces ▸ hascends.ascending)).2.1
            have hlt := hchild.slot_lt
            rcases List.mem_cons.mp hz with rfl | hz
            · omega
            · have hgt := hlater.1 z hz
              omega
        exact .inr ⟨z.instruction, List.mem_append_right _ (List.mem_map_of_mem hbefore), rfl, rfl⟩
    · refine (hrefs r (places_refs hy hr)).imp_right
        fun ⟨j, hj, hjr⟩ ↦ ⟨j, List.mem_append_left _ hj, hjr⟩
  · obtain ⟨y, hy, rfl⟩ := hcreated hi
    exact hnew y.slot (hascends.range y hy).1
  · obtain ⟨y, hy, rfl⟩ := hcreated hi
    exact hother j hj hcreates y.slot (hascends.range y hy).1
  · have hall : ((x.places.map instruction).filter (·.creates)) = x.places.map instruction :=
      List.filter_eq_self.mpr fun i hi ↦ by
        obtain ⟨y, -, rfl⟩ := hcreated hi
        rfl
    rw [hall, List.map_map]
    exact List.pairwise_map.mpr (hascends.ascending.imp fun hlt heq ↦ Nat.ne_of_lt hlt
      (RowRef.pending.inj heq))

end Place

end Draft

/-! ### Calls -/

namespace Schema

variable {s : Schema} {slots : Slots} {args : Args}

/-- A create compiles to the instructions of its rows, the topmost of which takes the next slot. -/
theorem compileCreate_place (hs : s.WellFormed) {form : Language.CreateForm Value} {c : Creation}
    (h : s.compileCreate form args slots = .ok c) :
      ∃ x : Draft.Place, ∃ e, x.Fits s e ∧ x.owner = none ∧
      x.entity = form.entity ∧ x.slot = slots.next ∧
      c.instructions = x.places.map Draft.Place.instruction ∧
      c.tree = x.tree ∧ c.slots = { slots with next := x.numbered.next } ∧
      x.row = (Draft.row s args e form.body).result ∧
      (Draft.row s args e form.body).errors = [] := by
  obtain ⟨e, _, hget, herrors, rfl, rfl⟩ := compileCreate_ok_iff.mp h
  obtain ⟨he, hname⟩ := (get?_eq_some_iff hs).mp hget
  obtain ⟨hregular, hfit⟩ := Draft.row_fits hs he herrors
  let x : Draft.Place := ⟨e.name, none, (Draft.row s args e form.body).result, slots.next⟩
  exact ⟨x, e, ⟨he, rfl, hregular, hfit⟩, rfl, hname, rfl, x.instructions_eq,
    rfl, rfl, rfl, herrors⟩

/-- An update needs rows that its arguments name. -/
theorem compileUpdate_names {form : Language.UpdateForm Value Int64} {i : Instruction}
    (h : s.compileUpdate form args = .ok i) :
    i.creates = false ∧ ∀ r ∈ s.needs i, args.Names r := by
  obtain ⟨e, ref, -, htarget, -, rfl⟩ := compileUpdate_ok_iff.mp h
  refine ⟨rfl, fun r hr ↦ ?_⟩
  obtain ⟨-, rfl⟩ | ⟨x, hx, -, hr⟩ := mem_needs.mp hr
  · exact Update.target_names htarget
  · exact Update.entries_names x hx r hr

theorem compileDelete_names {form : Language.DeleteForm Int64} {i : Instruction}
    (h : s.compileDelete form args = .ok i) :
    i.creates = false ∧ ∀ r ∈ s.needs i, args.Names r := by
  obtain ⟨e, ref, -, htarget, rfl⟩ := compileDelete_ok_iff.mp h
  refine ⟨rfl, fun r hr ↦ ?_⟩
  obtain ⟨-, rfl⟩ | ⟨x, hx, -⟩ := mem_needs.mp hr
  · exact Update.target_names htarget
  · exact absurd hx List.not_mem_nil

end Schema

namespace Transaction

/-- The rows that arguments refer to have numbers or are created in the transaction. -/
def Knows (t : Transaction) (args : Args) : Prop :=
  ∀ x ∈ args, ∀ r ∈ x.2.rows, Schema.Known t.slots t.instructions r

/-- The transactions that calls fill. A call that fails adds nothing. -/
inductive Filled (s : Schema) (slots : Slots) : Transaction → Prop where
  | start : Filled s slots (.start s slots)
  | create {t t' : Transaction} {text : String} {args : Args} {tree : RefTree}
      (h : Filled s slots t) (hargs : t.Knows args) (hcall : t.create text args = .ok (t', tree)) :
      Filled s slots t'
  | update {t t' : Transaction} {text : String} {args : Args} (h : Filled s slots t)
      (hargs : t.Knows args) (hcall : t.update text args = .ok t') : Filled s slots t'
  | delete {t t' : Transaction} {text : String} {args : Args} (h : Filled s slots t)
      (hargs : t.Knows args) (hcall : t.delete text args = .ok t') : Filled s slots t'

/-- What calls keep: the batch is compiled and scoped, and fills slots that were given out in the
transaction. -/
structure Ready (s : Schema) (slots : Slots) (t : Transaction) : Prop where
  schema : t.schema = s
  assigned : t.slots.assigned = slots.assigned
  next : slots.next ≤ t.slots.next
  compiled : ∀ i ∈ t.instructions, s.Compiles i
  below : ∀ i ∈ t.instructions, i.creates → ∀ slot, t.slots.next ≤ slot → i.ref ≠ .pending slot
  scope : s.Scoped slots t.instructions

variable {s : Schema} {slots : Slots} {t t' : Transaction} {text : String} {args : Args}

theorem Ready.id?_eq (h : t.Ready s slots) (r : RowRef) : t.slots.id? r = slots.id? r := by
  unfold Slots.id?
  rw [h.assigned]

theorem Ready.known (h : t.Ready s slots) (hargs : t.Knows args) {r : RowRef} (hr : args.Names r) :
    Schema.Known slots t.instructions r := by
  rcases hr with ⟨id, rfl⟩ | ⟨x, hx, hr⟩
  · exact .inl rfl
  · have hknown := hargs x hx r hr
    unfold Schema.Known at hknown ⊢
    rwa [h.id?_eq] at hknown

theorem create_ok {tree : RefTree} (h : t.create text args = .ok (t', tree)) : ∃ form c,
    t.schema.compileCreate form args t.slots = .ok c ∧
      t' = { t with instructions := t.instructions ++ c.instructions, slots := c.slots } := by
  obtain ⟨form, -, h⟩ := Except.bind_eq_ok.mp h
  obtain ⟨c, hc, h⟩ := Except.bind_eq_ok.mp h
  cases h
  exact ⟨form, c, Except.mapError_eq_ok.mp hc, rfl⟩

theorem update_ok (h : t.update text args = .ok t') :
    ∃ form i, t.schema.compileUpdate form args = .ok i ∧
    t' = { t with instructions := t.instructions ++ [i] } := by
  obtain ⟨form, -, h⟩ := Except.bind_eq_ok.mp h
  obtain ⟨i, hi, h⟩ := Except.bind_eq_ok.mp h
  cases h
  exact ⟨form, i, Except.mapError_eq_ok.mp hi, rfl⟩

theorem delete_ok (h : t.delete text args = .ok t') :
    ∃ form i, t.schema.compileDelete form args = .ok i ∧
    t' = { t with instructions := t.instructions ++ [i] } := by
  obtain ⟨form, -, h⟩ := Except.bind_eq_ok.mp h
  obtain ⟨i, hi, h⟩ := Except.bind_eq_ok.mp h
  cases h
  exact ⟨form, i, Except.mapError_eq_ok.mp hi, rfl⟩

theorem Ready.start (s : Schema) (slots : Slots) : (Transaction.start s slots).Ready s slots where
  schema := rfl
  assigned := rfl
  next := Nat.le_refl _
  compiled := nofun
  below := nofun
  scope := .nil

theorem Ready.create (hs : s.WellFormed) (hslots : slots.Sound) (h : t.Ready s slots)
    (hargs : t.Knows args) {form : Language.CreateForm Value} {c : Creation}
    (hc : t.schema.compileCreate form args t.slots = .ok c) :
    Ready s slots
      { t with instructions := t.instructions ++ c.instructions, slots := c.slots } := by
  have hnext := h.next
  rw [h.schema] at hc
  obtain ⟨x, e, hfits, howner, -, hslot, hinstructions, -, hcslots, hrow, -⟩ :=
    Schema.compileCreate_place hs hc
  have hascends := x.places_ascends
  refine ⟨h.schema, by
    rw [hcslots]; exact h.assigned, ?_, fun i hi ↦ ?_, fun i hi hcreates slot hle ↦ ?_, ?_⟩
  · have hle := hascends.le
    simp only [hcslots]
    omega
  · rcases List.mem_append.mp hi with hi | hi
    · exact h.compiled i hi
    · exact .create hc hi
  · rw [hcslots] at hle
    rcases List.mem_append.mp hi with hi | hi
    · have := hascends.le
      exact h.below i hi hcreates slot (by simp only at hle; omega)
    · rw [hinstructions] at hi
      obtain ⟨y, hy, rfl⟩ := List.mem_map.mp hi
      have hlt := (hascends.range y hy).2
      intro heq
      have : y.slot = slot := RowRef.pending.inj heq
      simp only at hle
      omega
  · dsimp only
    rw [hinstructions]
    refine Draft.Place.places_scoped hs hfits howner h.scope
      (fun r hr ↦ h.known hargs ?_) (fun slot hle ↦ ?_)
      fun j hj hcreates slot hle ↦ h.below j hj hcreates slot (by omega)
    · rw [hrow] at hr
      exact Draft.row_refs r hr
    · exact hslots.id?_eq_none (by omega)

/-- An instruction that fills no slot. -/
theorem Ready.push (h : t.Ready s slots) {i : Instruction} (hi : s.Compiles i)
    (hcreates : i.creates = false) (hneeds : ∀ r ∈ s.needs i, Schema.Known slots t.instructions r) :
    Ready s slots { t with instructions := t.instructions ++ [i] } where
  schema := h.schema
  assigned := h.assigned
  next := h.next
  compiled := List.forall_mem_append.mpr ⟨h.compiled, List.forall_mem_singleton.mpr hi⟩
  below := List.forall_mem_append.mpr
    ⟨h.below, List.forall_mem_singleton.mpr fun hyes ↦ by simp [hcreates] at hyes⟩
  scope := by
    have hnone {j : Instruction} (hj : j ∈ [i]) : ¬j.creates := by
      rw [List.mem_singleton.mp hj, hcreates]
      exact Bool.false_ne_true
    refine h.scope.append (fun before j after hsplit r hr ↦ ?_)
      (fun j hj hyes ↦ absurd hyes (hnone hj)) (fun j hj hyes ↦ absurd hyes (hnone hj)) ?_
    · obtain ⟨rfl, rfl, rfl⟩ : before = [] ∧ j = i ∧ after = [] := by
        cases before <;> simp_all
      rw [List.append_nil]
      exact hneeds r hr
    · rw [List.filter_cons_of_neg (hnone List.mem_cons_self)]
      exact .nil

/-- Calls fill a transaction with a batch in which every instruction finds the rows it needs. -/
theorem Filled.ready (hs : s.WellFormed) (hslots : slots.Sound) (h : t.Filled s slots) :
    t.Ready s slots := by
  induction h with
  | start => exact .start s slots
  | create _ hargs hcall ih =>
    obtain ⟨form, c, hc, rfl⟩ := create_ok hcall
    exact ih.create hs hslots hargs hc
  | update _ hargs hcall ih =>
    obtain ⟨form, i, hi, rfl⟩ := update_ok hcall
    rw [ih.schema] at hi
    obtain ⟨hcreates, hnames⟩ := Schema.compileUpdate_names hi
    exact ih.push (.update hi) hcreates fun r hr ↦ ih.known hargs (hnames r hr)
  | delete _ hargs hcall ih =>
    obtain ⟨form, i, hi, rfl⟩ := delete_ok hcall
    rw [ih.schema] at hi
    obtain ⟨hcreates, hnames⟩ := Schema.compileDelete_names hi
    exact ih.push (.delete hi) hcreates fun r hr ↦ ih.known hargs (hnames r hr)

end Transaction

end EntityStore
