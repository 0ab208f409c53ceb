import EntityStore.Compile.Transaction
import EntityStore.Proofs.Compile.Places
import EntityStore.Proofs.Mapping.Step

/-!
Which rows the instructions of a transaction refer to. A compiled instruction refers to rows by
their numbers, by its arguments or, in a nested create, to the row that owns its own. In a batch
that is in scope every instruction finds the rows it needs, there or created before, and no slot is
filled twice; so does it in two such batches in a row (`Schema.Scoped.append`).
-/

set_option autoImplicit false

namespace EntityStore

open EntityStore.Language (LinkOp Node Target UpdateEntry)

/-- The rows that an argument refers to. -/
def Arg.rows : Arg → List RowRef
  | .value _ => []
  | .ref r => [r]
  | .refs rs => rs

/-- A row that is known by its number, or that an argument refers to. -/
def Args.Names (args : Args) (r : RowRef) : Prop :=
  (∃ id, r = .known id) ∨ ∃ x ∈ args, r ∈ x.2.rows

theorem Args.names_of_lookup {args : Args} {name : String} {a : Arg}
    (h : args.lookup name = some a) :
    ∀ r ∈ a.rows, args.Names r :=
  fun _ hr ↦ .inr ⟨_, mem_of_lookup h, hr⟩

/-! ### Operands -/

namespace Node

variable {args : Args} {target : PropertyKey} {n : Node Value} {r : RowRef} {rs : List RowRef}

theorem rowRef_names (h : rowRef args target n = .ok r) : args.Names r := by
  unfold rowRef at h
  split at h
  · cases h
    exact .inl ⟨_, rfl⟩
  · split at h
    · next hlookup =>
      cases h
      exact Args.names_of_lookup hlookup _ List.mem_cons_self
    · split at h
      · cases h
        exact .inl ⟨_, rfl⟩
      · cases h
    · cases h
    · cases h
  · cases h

theorem numberedRows_names {name : String} {items : List Value}
    (h : numberedRows name target items = .ok rs) :
    ∀ r ∈ rs, args.Names r := by
  intro r hr
  obtain ⟨v, -, hv⟩ := Except.mapM_ok_mem h hr
  split at hv
  · cases hv
    exact .inl ⟨_, rfl⟩
  · cases hv

theorem rowRefs_names (h : rowRefs args target n = .ok rs) : ∀ r ∈ rs, args.Names r := by
  unfold rowRefs at h
  split at h
  · intro r hr
    obtain ⟨n, -, hn⟩ := Except.mapM_ok_mem h hr
    exact rowRef_names hn
  · split at h
    · next hlookup =>
      cases h
      exact Args.names_of_lookup hlookup
    · next hlookup =>
      cases h
      exact Args.names_of_lookup hlookup
    · exact numberedRows_names h
    · cases h
    · cases h
  · cases h

end Node

/-! ### Updates and deletes -/

namespace Update

variable {args : Args} {e : Entity} {p : Property} {key : PropertyKey}
  {change : UpdateEntry Value} {v : InputValue}

theorem target_names {entity : String} {t : Target Int64} {r : RowRef}
    (h : target entity args t = .ok r) :
    args.Names r := by
  unfold target at h
  split at h
  · cases h
    exact .inl ⟨_, rfl⟩
  · exact Node.rowRef_names h

theorem links_names {op : LinkOp} {n : Node Value} (h : links args key op n = .ok v) :
    ∀ r ∈ v.rows, args.Names r := by
  have hlinked {rows : List RowRef} (hrows : ∀ r ∈ rows, args.Names r) :
      ∀ r ∈ (InputValue.links (rows.map fun r ↦ (op, r))).rows, args.Names r := by
    simpa [InputValue.rows] using hrows
  unfold links at h
  dsimp only at h
  split at h
  · obtain ⟨rows, hrows, h⟩ := Except.bind_eq_ok.mp h
    cases h
    exact hlinked (Node.rowRefs_names hrows)
  · obtain ⟨rows, hrows, h⟩ := Except.bind_eq_ok.mp h
    cases h
    obtain ⟨r, hr, rfl⟩ := Except.map_eq_ok.mp hrows
    exact hlinked (List.forall_mem_singleton.mpr (Node.rowRef_names hr))

theorem entry_names (h : entry args key p change = .ok v) : ∀ r ∈ v.rows, args.Names r := by
  unfold entry at h
  split at h
  · obtain ⟨w, -, rfl⟩ := Except.map_eq_ok.mp h
    exact nofun
  · cases h
  · cases h
  · cases h
  · split at h
    · obtain ⟨r, hr, rfl⟩ := Except.map_eq_ok.mp h
      exact List.forall_mem_singleton.mpr (Node.rowRef_names hr)
    · split at h
      · cases h
        exact nofun
      · cases h
  · cases h
  · split at h
    · cases h
    · split at h
      · cases h
      · obtain ⟨r, hr, rfl⟩ := Except.map_eq_ok.mp h
        exact List.forall_mem_singleton.mpr (Node.rowRef_names hr)
  · exact links_names h

theorem entries_names {named : List String} {body : List (String × UpdateEntry Value)} :
    ∀ x ∈ (entries args e named body).filterMap Except.toOption, ∀ r ∈ x.2.rows, args.Names r := by
  induction body generalizing named with
  | nil => exact nofun
  | cons x body ih =>
    obtain ⟨name, change⟩ := x
    intro y hy
    rw [entries_cons] at hy
    obtain ⟨outcome, hmem, hy⟩ := List.mem_filterMap.mp hy
    rcases List.mem_cons.mp hmem with rfl | hmem
    · obtain ⟨p, -, h⟩ := Except.bind_eq_ok.mp (Except.toOption_eq_some_iff.mp hy)
      obtain ⟨v, hv, h⟩ := Except.bind_eq_ok.mp h
      cases h
      exact entry_names hv
    · exact ih y (List.mem_filterMap.mpr ⟨outcome, hmem, hy⟩)

end Update

/-! ### Creates -/

namespace Draft

mutual

/-- The rows that the inputs of an entry refer to, those of the rows it stands for included. -/
def refs : Draft → List RowRef
  | .input v => v.rows
  | .absent => []
  | .single _ row => entriesRefs row
  | .several _ rows => rowsRefs rows

def entriesRefs : List (String × Draft) → List RowRef
  | [] => []
  | (_, d) :: rest => d.refs ++ entriesRefs rest

def rowsRefs : List (List (String × Draft)) → List RowRef
  | [] => []
  | row :: rest => entriesRefs row ++ rowsRefs rest

end

variable {s : Schema} {args : Args} {e : Entity} {r : RowRef}

theorem mem_entriesRefs {row : RowDraft} : r ∈ entriesRefs row ↔ ∃ x ∈ row, r ∈ x.2.refs := by
  induction row with
  | nil => simp [entriesRefs]
  | cons x row ih =>
    obtain ⟨name, d⟩ := x
    rw [entriesRefs, List.mem_append, ih, List.exists_mem_cons_iff]

theorem mem_rowsRefs {rows : List RowDraft} :
    r ∈ rowsRefs rows ↔ ∃ row ∈ rows, r ∈ entriesRefs row := by
  induction rows with
  | nil => simp [rowsRefs]
  | cons row rows ih => rw [rowsRefs, List.mem_append, ih, List.exists_mem_cons_iff]

theorem ofExcept_refs {α : Type} {f : α → InputValue} {outcome : Except CompileError α}
    (h : ∀ a, outcome = .ok a → ∀ r ∈ (f a).rows, args.Names r) :
    ∀ d ∈ (Checked.ofExcept (fun a ↦ Draft.input (f a)) outcome).result,
    ∀ r ∈ d.refs, args.Names r := by
  cases outcome with
  | error err => exact nofun
  | ok a =>
    rintro _ ⟨⟩
    exact h a rfl

/-- The fields that are derived refer to no rows. -/
theorem complete_refs {named : List String} {row : Checked RowDraft}
    (h : ∀ r ∈ entriesRefs row.result, args.Names r) :
    ∀ r ∈ entriesRefs (complete e named row).result, args.Names r := by
  intro r hr
  unfold complete at hr
  obtain ⟨x, hx, hr⟩ := mem_entriesRefs.mp hr
  rcases List.mem_append.mp hx with hx | hx
  · exact h r (mem_entriesRefs.mpr ⟨x, hx, hr⟩)
  · obtain ⟨outcome, houtcome, hx⟩ := List.mem_filterMap.mp hx
    obtain ⟨f, -, hf⟩ := List.mem_filterMap.mp houtcome
    rw [Except.toOption_eq_some_iff.mp hx] at hf
    obtain ⟨-, v, rfl, -⟩ := derived_ok hf
    exact absurd hr List.not_mem_nil

/-- An entry refers to rows that the arguments name if the entries of the rows below it do. -/
theorem entry_refs {target : PropertyKey} {p : Property} {node : Node Value}
    (hobject : ∀ body, node = .object body → ∀ d : Entity,
      ∀ r ∈ entriesRefs (entries s args d (taken true) body).result, args.Names r)
    (hlist : ∀ items, node = .list items → ∀ d : Entity,
      ∀ r ∈ rowsRefs (elements s args target d items).result, args.Names r) :
    ∀ d ∈ (entry s args target p node).result, ∀ r ∈ d.refs, args.Names r := by
  fun_cases entry s args target p node with
  | case1 f => exact ofExcept_refs fun _ _ ↦ List.forall_mem_nil _
  | case2 => rintro _ ⟨⟩ r hr; exact absurd hr List.not_mem_nil
  | case3 => rintro _ ⟨⟩
  | case4 => rintro _ ⟨⟩
  | case5 child optional unique body hkind d hget =>
    rintro _ ⟨⟩
    exact complete_refs (hobject body rfl d)
  | case6 => rintro _ ⟨⟩
  | case7 => exact ofExcept_refs fun r hr ↦ List.forall_mem_singleton.mpr (Node.rowRef_names hr)
  | case8 => rintro _ ⟨⟩
  | case9 child items hkind d hget =>
    rintro _ ⟨⟩
    exact hlist items rfl d
  | case10 => rintro _ ⟨⟩
  | case11 => exact ofExcept_refs fun rs hrs ↦ Node.rowRefs_names hrs

mutual

theorem entries_refs (e : Entity) (named : List String) : ∀ body : List (String × Node Value),
    ∀ r ∈ entriesRefs (entries s args e named body).result, args.Names r
  | [] => nofun
  | (name, node) :: rest => by
    have hrest := entries_refs e (name :: named) rest
    intro r hr
    unfold entries at hr
    obtain ⟨x, hx, hr⟩ := mem_entriesRefs.mp hr
    rcases List.mem_append.mp hx with hx | hx
    · obtain ⟨d, hd, rfl⟩ := Option.map_eq_some_iff.mp (Option.mem_toList.mp hx)
      split at hd
      · next p hadmitted => exact node_refs ⟨e.name, name⟩ p node d hd r hr
      · cases hd
    · exact hrest r (mem_entriesRefs.mpr ⟨x, hx, hr⟩)

theorem node_refs (target : PropertyKey) (p : Property) : ∀ node : Node Value,
    ∀ d ∈ (entry s args target p node).result, ∀ r ∈ d.refs, args.Names r
  | .literal v => entry_refs nofun nofun
  | .param name => entry_refs nofun nofun
  | .list items => entry_refs nofun fun items' heq d ↦ by
    cases heq
    exact elements_refs target d items
  | .object body => entry_refs (fun body' heq d ↦ by
    cases heq
    exact entries_refs d (taken true) body) nofun

theorem elements_refs (target : PropertyKey) (d : Entity) : ∀ items : List (Node Value),
    ∀ r ∈ rowsRefs (elements s args target d items).result, args.Names r
  | [] => nofun
  | .object body :: rest => by
    have hrow := entries_refs d (taken true) body
    have hrest := elements_refs target d rest
    intro r hr
    rcases List.mem_append.mp hr with hr | hr
    · exact complete_refs hrow r hr
    · exact hrest r hr
  | .literal v :: rest => elements_refs target d rest
  | .param name :: rest => elements_refs target d rest
  | .list items :: rest => elements_refs target d rest

end

theorem row_refs {body : List (String × Node Value)} :
    ∀ r ∈ entriesRefs (row s args e body).result, args.Names r :=
  complete_refs (entries_refs e (taken false) body)

/-! ### The rows of a create -/

theorem entryChildren_refs {owner next : Nat} {d : Draft} {y : Place}
    (hy : y ∈ entryChildren owner next d) :
    entriesRefs y.row ⊆ d.refs := by
  cases d with
  | single entity row =>
    obtain rfl := List.mem_singleton.mp hy
    exact List.Subset.refl _
  | several entity rows => exact fun r hr ↦ mem_rowsRefs.mpr ⟨y.row, (rowsChildren_row hy).2.2, hr⟩
  | _ => exact absurd hy List.not_mem_nil

namespace Place

variable {x y : Place}

theorem Child.refs (h : y.Child x) : entriesRefs y.row ⊆ entriesRefs x.row := by
  obtain ⟨c, hc, hy⟩ := h
  obtain ⟨d, next, hmem, heq⟩ := rowChildren_entry hc
  rw [heq] at hy
  exact fun r hr ↦ mem_entriesRefs.mpr ⟨_, hmem, entryChildren_refs hy hr⟩

/-- Below a row no other rows are referred to than in it. -/
theorem places_refs (hy : y ∈ x.places) : entriesRefs y.row ⊆ entriesRefs x.row := by
  induction x using Place.induction with
  | step x ih =>
    rcases mem_places.mp hy with rfl | ⟨z, hz, hy⟩
    · exact List.Subset.refl _
    · exact List.Subset.trans (ih z hz hy) hz.refs

/-- A row has a lower slot than those it owns. -/
theorem Child.slot_lt (h : y.Child x) : x.slot < y.slot := by
  have hbelow : Ascends (x.slot + 1) x.numbered.next (rowPlaces x.slot (x.slot + 1) x.row) :=
    (rowPlaces_consecutive fun _ _ z _ ↦ z.places_consecutive).ascends
  obtain ⟨c, hc, hy⟩ := h
  refine (hbelow.range y ?_).1
  rw [rowPlaces_eq]
  exact List.mem_flatMap.mpr ⟨c, hc, List.mem_flatMap.mpr ⟨y, hy, y.mem_places_self⟩⟩

end Place

end Draft

/-! ### Instructions -/

namespace Instruction

/-- Whether an instruction adds a row, under the slot that it refers to. -/
def creates (i : Instruction) : Bool :=
  i.action.kind == .create

theorem creates_iff {i : Instruction} : i.creates ↔ ∃ inputs, i.action = .create inputs := by
  unfold creates
  cases i.action <;> simp [Action.kind]

end Instruction

/-- The rows whose numbers an instruction has to be given: the one that it changes, the owner it
sets and those it links to. The rows that a row owns refer to it, not it to them. -/
def Schema.needs (s : Schema) (i : Instruction) : List RowRef :=
  (if i.creates then [] else [i.ref]) ++
    (i.action.inputs.filter fun x ↦ x.1 == parentName ||
      (s.get? i.entity).any (·.links x.1)).flatMap (·.2.rows)

theorem Schema.mem_needs {s : Schema} {i : Instruction} {r : RowRef} :
    r ∈ s.needs i ↔ (i.creates = false ∧ r = i.ref) ∨
    ∃ x ∈ i.action.inputs, (x.1 = parentName ∨ (s.get? i.entity).any (·.links x.1)) ∧
    r ∈ x.2.rows := by
  unfold needs
  rw [List.mem_append, List.mem_flatMap]
  refine or_congr ?_ ?_
  · cases i.creates <;> simp
  · simp only [List.mem_filter, Bool.or_eq_true, beq_iff_eq, and_assoc]

/-- In a batch every instruction stands behind those that give numbers to the rows it needs. Every
slot that is filled is free before the batch, and no slot is filled twice. -/
structure Schema.Scoped (s : Schema) (slots : Slots) (batch : List Instruction) : Prop where
  needs : ∀ before i after, batch = before ++ i :: after → ∀ r ∈ s.needs i,
    (slots.id? r).isSome ∨ ∃ j ∈ before, j.creates ∧ j.ref = r
  free : ∀ i ∈ batch, i.creates → slots.id? i.ref = none
  once : ((batch.filter (·.creates)).map (·.ref)).Nodup

namespace Schema

variable {s : Schema} {slots : Slots} {args : Args} {batch : List Instruction} {e : Entity}

theorem Scoped.nil : s.Scoped slots [] where
  needs before i after h := by simp at h
  free := nofun
  once := .nil

/-- Rows that instructions may refer to behind a batch. -/
def Known (slots : Slots) (batch : List Instruction) (r : RowRef) : Prop :=
  (slots.id? r).isSome ∨ ∃ j ∈ batch, j.creates ∧ j.ref = r

theorem Scoped.append {others : List Instruction} (h : s.Scoped slots batch)
    (hneeds : ∀ before i after, others = before ++ i :: after →
      ∀ r ∈ s.needs i, Known slots (batch ++ before) r)
    (hfree : ∀ i ∈ others, i.creates → slots.id? i.ref = none)
    (hother : ∀ i ∈ others, i.creates → ∀ j ∈ batch, j.creates → j.ref ≠ i.ref)
    (honce : ((others.filter (·.creates)).map (·.ref)).Nodup) :
    s.Scoped slots (batch ++ others) where
  needs before i after hsplit r hr := by
    rcases List.append_eq_append_iff.mp hsplit with ⟨middle, rfl, hothers⟩ | ⟨middle, rfl, hrest⟩
    · exact hneeds middle i after hothers r hr
    · cases middle with
      | nil =>
        have hfirst := hneeds [] i after hrest.symm r hr
        simpa [Known] using hfirst
      | cons j middle =>
        obtain ⟨rfl, rfl⟩ := List.cons_eq_cons.mp hrest
        exact h.needs before i middle rfl r hr
  free i hi := by
    rcases List.mem_append.mp hi with hi | hi
    · exact h.free i hi
    · exact hfree i hi
  once := by
    rw [List.filter_append, List.map_append]
    refine List.nodup_append.mpr ⟨h.once, honce, fun r hr r' hr' heq ↦ ?_⟩
    obtain ⟨j, hj, rfl⟩ := List.mem_map.mp hr
    obtain ⟨i, hi, rfl⟩ := List.mem_map.mp hr'
    exact hother i (List.mem_filter.mp hi).1 (List.mem_filter.mp hi).2 j (List.mem_filter.mp hj).1
      (List.mem_filter.mp hj).2 heq

end Schema

end EntityStore
