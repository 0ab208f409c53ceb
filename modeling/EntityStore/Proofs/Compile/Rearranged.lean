import EntityStore.Proofs.Compile.Footprint
import EntityStore.Proofs.Compile.Shuffled

/-!
Creates whose entries are written in another order. At any depth the entries of different names of
an object that is compiled to a row may change places: the create reports the same errors, or it
compiles to the same instructions up to the slots that they fill
(`Schema.compileCreate_rearranged`).
-/

set_option autoImplicit false

namespace EntityStore

open EntityStore.Language (CreateForm Node)

namespace Schema

/-- The entries of an object of an entity in another order, also in the objects nested in it that
are compiled to rows of their own. Entries of the same name keep their order. -/
inductive Rearranged (s : Schema) : Entity → List (String × Node Value) → List
    (String × Node Value) → Prop where
  | refl (e : Entity) (body : List (String × Node Value)) : s.Rearranged e body body
  | cons {e : Entity} (x : String × Node Value) {body body' : List (String × Node Value)}
    (h : s.Rearranged e body body') : s.Rearranged e (x :: body) (x :: body')
  | swap (e : Entity) {x y : String × Node Value} (h : x.1 ≠ y.1)
    (body : List (String × Node Value)) :
    s.Rearranged e (x :: y :: body) (y :: x :: body)
  | trans {e : Entity} {body body' body'' : List (String × Node Value)}
    (h : s.Rearranged e body body') (h' : s.Rearranged e body' body'') : s.Rearranged e body body''
  | single {e child : Entity} {name : String} {p : Property} (hget : e.get? name = some p)
    (howned : s.ownedRow? p = some child) {inner inner' : List (String × Node Value)}
    (h : s.Rearranged child inner inner') (body : List (String × Node Value)) :
    s.Rearranged e ((name, .object inner) :: body) ((name, .object inner') :: body)
  | several {e child : Entity} {name : String} {p : Property} (hget : e.get? name = some p)
    (howned : s.ownedRows? p = some child) (before after : List (Node Value))
    {inner inner' : List (String × Node Value)} (h : s.Rearranged child inner inner')
    (body : List (String × Node Value)) :
    s.Rearranged e ((name, .list (before ++ .object inner :: after)) :: body)
      ((name, .list (before ++ .object inner' :: after)) :: body)

namespace Rearranged

variable {s : Schema} {e : Entity} {body body' : List (String × Node Value)}

theorem names (h : s.Rearranged e body body') : (body.map Prod.fst).Perm (body'.map Prod.fst) := by
  induction h with
  | refl e body => exact .refl _
  | cons x h ih => exact ih.cons _
  | swap e h body => exact .swap _ _ _
  | trans h h' ih ih' => exact ih.trans ih'
  | single hget howned h body ih => exact .refl _
  | several hget howned before after h body ih => exact .refl _

/-- Any order will do for entries of which no two have the same name. -/
theorem of_perm (e : Entity) (h : body.Perm body') (hnames : (body.map Prod.fst).Nodup) :
    s.Rearranged e body body' := by
  induction h with
  | nil => exact .refl e []
  | cons x h ih => exact .cons x (ih (List.nodup_cons.mp hnames).2)
  | swap x y body =>
    obtain ⟨hfirst, -⟩ := List.nodup_cons.mp hnames
    exact .swap e (fun heq : y.1 = x.1 ↦ hfirst (heq ▸ List.mem_cons_self)) body
  | trans h h' ih ih' => exact (ih hnames).trans (ih' ((h.map Prod.fst).nodup_iff.mp hnames))

end Rearranged

end Schema

namespace Draft

variable {s : Schema} {args : Args} {e : Entity} {named named' : List String} {name name' : String}
  {body body' : List (String × Node Value)} {object object' : Checked RowDraft}

/-- The same errors and the same entries, both in any order. -/
structure Reordered (object object' : Checked RowDraft) : Prop where
  errors : object.errors.Perm object'.errors
  result : Shuffled object.result object'.result

theorem Reordered.refl (object : Checked RowDraft) : Reordered object object :=
  ⟨.refl _, .refl _⟩

theorem Reordered.trans {object'' : Checked RowDraft} (h : Reordered object object')
    (h' : Reordered object' object'') :
    Reordered object object'' :=
  ⟨h.errors.trans h'.errors, h.result.trans h'.result⟩

theorem Reordered.put (h : Reordered object object') (name : String)
    (entry : Checked (Option Draft)) :
    Reordered (put name entry object) (put name entry object') where
  errors := h.errors.append_left _
  result := by
    unfold Draft.put
    cases entry.result with
    | none => exact h.result
    | some d => exact h.result.cons (name, d)

theorem put_comm (hne : name ≠ name') (entry entry' : Checked (Option Draft))
    (object : Checked RowDraft) :
    Reordered (put name entry (put name' entry' object))
      (put name' entry' (put name entry object)) where
  errors := List.perm_append_comm_assoc _ _ _
  result := by
    unfold put
    cases entry.result with
    | none => exact .refl _
    | some d =>
      cases entry'.result with
      | none => exact .refl _
      | some d' => exact .swap hne object.result

/-! ### The order in which names are given -/

theorem admitted_congr (h : ∀ name, name ∈ named ↔ name ∈ named') (e : Entity) (name : String) :
    admitted e named name = admitted e named' name := by
  simp only [admitted, List.contains_iff_mem, h]

theorem missing_congr (h : ∀ name, name ∈ named ↔ name ∈ named') (e : Entity) :
    missing e named = missing e named' := by
  simp only [missing, List.contains_eq_mem, h]

theorem entries_congr (h : ∀ name, name ∈ named ↔ name ∈ named')
    (body : List (String × Node Value)) :
    entries s args e named body = entries s args e named' body := by
  induction body generalizing named named' with
  | nil => simp [entries]
  | cons x body ih =>
    obtain ⟨name, node⟩ := x
    have hnames : ∀ other, other ∈ name :: named ↔ other ∈ name :: named' := by simp [h]
    rw [entries, entries, admitted_congr h, ih hnames]

/-- Whether an entry is admitted does not depend on entries of other names before it. -/
theorem admitted_cons (hne : name ≠ name') (e : Entity) (named : List String) :
    admitted e (name' :: named) name = admitted e named name := by
  simp [admitted, hne]

theorem Reordered.complete (h : Reordered object object')
    (hnamed : ∀ name, name ∈ named ↔ name ∈ named') (e : Entity) :
    Reordered (complete e named object) (complete e named' object') := by
  unfold Draft.complete
  rw [missing_congr hnamed, h.result.values]
  exact ⟨(h.errors.append_right _).append_right _, h.result.append_right _⟩

theorem elements_append (target : PropertyKey) (items items' : List (Node Value)) :
    elements s args target e (items ++ items') =
      ⟨(elements s args target e items).errors ++ (elements s args target e items').errors,
        (elements s args target e items).result ++ (elements s args target e items').result⟩ := by
  induction items with
  | nil => simp [elements]
  | cons node items ih => cases node <;> simp [elements, ih]

/-- Two entries swap places. -/
theorem entries_swap {x y : String × Node Value} (h : x.1 ≠ y.1) :
    Reordered (entries s args e named (x :: y :: body))
      (entries s args e named (y :: x :: body)) := by
  obtain ⟨name, node⟩ := x
  obtain ⟨name', node'⟩ := y
  have hnames : ∀ other, other ∈ name' :: name :: named ↔
    other ∈ name :: name' :: named := by simp [or_left_comm]
  rw [entries, entries, entries, entries, admitted_cons h.symm, admitted_cons h,
    entries_congr hnames]
  exact put_comm h _ _ _

/-- The objects that an entry stands for have their entries in another order. -/
theorem entries_nested {p : Property} {node node' : Node Value}
    {errors errors' : List CompileError} {d d' : Draft} (hget : e.get? name = some p)
    (hnode : entry s args ⟨e.name, name⟩ p node = ⟨errors, some d⟩)
    (hnode' : entry s args ⟨e.name, name⟩ p node' = ⟨errors', some d'⟩)
    (herrors : errors.Perm errors')
    (hresult : ∀ row, Shuffled ((name, d) :: row) ((name, d') :: row)) :
    Reordered (entries s args e named ((name, node) :: body))
      (entries s args e named ((name, node') :: body)) := by
  rw [entries, entries]
  cases hadmitted : admitted e named name with
  | error err => exact .refl _
  | ok q =>
    obtain rfl : q = p := Option.some.inj ((admitted_get? hadmitted).symm.trans hget)
    dsimp only
    rw [hnode, hnode']
    exact ⟨herrors.append_right _, hresult _⟩

/-- Rearranged objects are read as drafts with the same entries in another order, and with the same
errors. -/
theorem entries_rearranged (h : s.Rearranged e body body') (args : Args) (named : List String) :
    Reordered (entries s args e named body) (entries s args e named body') := by
  induction h generalizing named with
  | refl e body => exact .refl _
  | cons x h ih =>
    rw [entries, entries]
    exact (ih _).put _ _
  | swap e h body => exact entries_swap h
  | trans h h' ih ih' => exact (ih named).trans (ih' named)
  | @single e child name p hget howned inner inner' h body ih =>
    have hrow :=
      (ih (taken true)).complete (fun _ ↦ (h.names.append_left (taken true)).mem_iff) child
    exact entries_nested hget (entry_object howned _ inner)
      (entry_object howned _ inner') hrow.errors fun row ↦ .single name child.name hrow.result row
  | @several e child name p hget howned before after inner inner' h body ih =>
    have hrow :=
      (ih (taken true)).complete (fun _ ↦ (h.names.append_left (taken true)).mem_iff) child
    refine entries_nested hget (entry_list howned _ _) (entry_list howned _ _) ?_ fun row ↦ ?_
    · rw [elements_append, elements_append]
      exact (hrow.errors.append_right _).append_left _
    · rw [elements_append, elements_append]
      exact .several name child.name _ _ hrow.result row

theorem row_rearranged (h : s.Rearranged e body body') (args : Args) :
    Reordered (row s args e body) (row s args e body') :=
  (entries_rearranged h args _).complete (fun _ ↦ h.names.mem_iff) e

end Draft

/-- The rows that arguments refer to are known, or get their numbers in slots below a bound. No
argument refers to a slot that was not given out yet. -/
def Args.Below (args : Args) (next : Nat) : Prop :=
  ∀ x ∈ args, ∀ r ∈ x.2.rows, r.Below next

theorem Args.Names.below {args : Args} {next : Nat} (h : args.Below next) {r : RowRef}
    (hr : args.Names r) :
    r.Below next := by
  rcases hr with ⟨id, rfl⟩ | ⟨x, hx, hr⟩
  · exact nofun
  · exact h x hx r hr

/-- Creates compile to the same instructions up to a permutation of the slots that they give out. -/
structure Creation.Renumbers (next : Nat) (c c' : Creation) : Prop where
  slots : c.slots = c'.slots
  instructions : ∃ σ : Equiv.Perm Nat, (∀ slot, slot < next ∨ c.slots.next ≤ slot → σ slot = slot) ∧
    Instruction.AllMatch σ c.instructions c'.instructions

namespace Schema

/-- Creates of the same entity whose entries stand in another order. -/
structure Reorders (s : Schema) (form form' : CreateForm Value) : Prop where
  entity : form.entity = form'.entity
  body : ∀ e, s.get? form.entity = some e → s.Rearranged e form.body form'.body

/-- A create does not depend on the order of its entries. Whichever slots were given out before, the
create of a rearranged body reports the same errors, so that none hides another, or fills the same
slots by the same instructions in which only the slots given out have changed places. -/
theorem compileCreate_rearranged {s : Schema} {form form' : CreateForm Value}
    {args : Args} {slots : Slots} (h : s.Reorders form form') (hargs : args.Below slots.next) :
    (∃ errors errors', s.compileCreate form args slots = .error errors ∧
      s.compileCreate form' args slots = .error errors' ∧ errors.Perm errors') ∨
    ∃ c c', s.compileCreate form args slots = .ok c ∧ s.compileCreate form' args slots = .ok c' ∧
      c.Renumbers slots.next c' := by
  obtain ⟨hentity, hbody⟩ := h
  unfold compileCreate
  rw [← hentity]
  cases hget : s.get? form.entity with
  | none => exact .inl ⟨_, _, rfl, rfl, .refl _⟩
  | some e =>
    obtain ⟨herrors, hresult⟩ := Draft.row_rearranged (hbody e hget) args
    have hempty : (Draft.row s args e form.body).errors.isEmpty =
        (Draft.row s args e form'.body).errors.isEmpty :=
      herrors.isEmpty_eq
    dsimp only
    rw [← hempty]
    cases (Draft.row s args e form.body).errors.isEmpty with
    | false => exact .inl ⟨_, _, rfl, rfl, herrors⟩
    | true =>
      have hrefs : ∀ r ∈ Draft.entriesRefs (Draft.row s args e form.body).result,
          r.Below (slots.next + 1) :=
        fun r hr ↦ ((Draft.row_refs r hr).below hargs).mono (Nat.le_succ _)
      obtain ⟨σ, hσ, hmatches⟩ := hresult.numbered (Nat.lt_succ_self slots.next) hrefs
      refine .inr ⟨_, _, rfl, rfl, ?_, σ, ?_, ?_⟩
      · simp only [Draft.numberRow_next, hresult.size]
      · rw [Draft.numberRow_next]
        exact hσ.mono (Nat.le_succ _) (Nat.le_refl _)
      · exact Draft.instructions_match hmatches hresult.names rfl (hσ _ (.inl (Nat.lt_succ_self _)))

def firstValue (given : List (String × Value)) : Value :=
  (given.map Prod.snd).headD .null

/-- Persons with a home and with pets. The first of their values is copied. -/
def petsCalls : List Schema.Call :=
  [.addEntity "Person" .master, .addEntity "Home" .detail, .addEntity "Pet" .detail,
    .addProperty "Home" (.field "city" (.ofType .text)),
    .addProperty "Home" (.field "street" (.ofType .text)),
    .addProperty "Pet" (.field "name" (.ofType .text)),
    .addProperty "Pet" (.field "kind" (.ofType .text)),
    .addProperty "Person" (.field "name" (.ofType .text)),
    .addProperty "Person" (.field "age" (.ofType .int)),
    .addProperty "Person" (.field "first" { Field.ofType .int with derive := some firstValue }),
    .addProperty "Person" (.reference "home" ⟨.owned, "Home", false, false⟩),
    .addProperty "Person" (.collection "pets" ⟨.owned, "Pet"⟩), .commit]

def annForm : CreateForm Value :=
  ⟨"Person",
    [("home", .object [("city", .literal (.text "Ulm")), ("street", .literal (.text "Gasse"))]),
    ("pets", .list [.object [("name", .literal (.text "Rex")), ("kind", .literal (.text "dog"))],
      .object [("name", .literal (.text "Tom")), ("kind", .literal (.text "cat"))]]),
    ("name", .param "name"), ("age", .literal (.long 30))]⟩

def annReorderedForm : CreateForm Value :=
  ⟨"Person", [("age", .literal (.long 30)), ("name", .param "name"),
    ("pets", .list [.object [("name", .literal (.text "Rex")), ("kind", .literal (.text "dog"))],
      .object [("kind", .literal (.text "cat")), ("name", .literal (.text "Tom"))]]),
    ("home", .object [("street", .literal (.text "Gasse")), ("city", .literal (.text "Ulm"))])]⟩

theorem reorders_ann : (Schema.empty.after petsCalls).Reorders annForm annReorderedForm where
  entity := rfl
  body e he := by
    have hget (name : String) :
        e.get? name = ((Schema.empty.after petsCalls).get? annForm.entity).bind (·.get? name) := by
      rw [he]
      rfl
    have hhome : e.get? "home" = some ⟨"home", true,
        .reference ⟨.owned, "Home", false, false⟩, some "Person"⟩ :=
      hget "home"
    have hpets : e.get? "pets" = some ⟨"pets", true, .collection ⟨.owned, "Pet"⟩, some "Person"⟩ :=
      hget "pets"
    refine .trans (.single hhome rfl (.of_perm _ (.swap _ _ []) (by decide)) _) ?_
    refine .trans (.cons _ (.several hpets rfl [_] [] (.of_perm _ (.swap _ _ []) (by decide)) _)) ?_
    exact .of_perm _ (List.reverse_perm _).symm (by decide)

theorem compileCreate_rearranged_of_ann :
    ∃ c c', (Schema.empty.after petsCalls).compileCreate annForm [("name", .value (.text "Ann"))]
      ⟨3, []⟩ = .ok c ∧
      (Schema.empty.after petsCalls).compileCreate annReorderedForm [("name", .value (.text "Ann"))]
        ⟨3, []⟩ = .ok c' ∧
      c.Renumbers 3 c' := by
  obtain ⟨c, hc⟩ : ∃ c, (Schema.empty.after petsCalls).compileCreate annForm
      [("name", .value (.text "Ann"))] ⟨3, []⟩ = .ok c := ⟨_, rfl⟩
  have hargs : Args.Below [("name", .value (.text "Ann"))] (Slots.mk 3 []).next :=
    List.forall_mem_singleton.mpr nofun
  refine (compileCreate_rearranged reorders_ann hargs).resolve_left ?_
  rintro ⟨errors, errors', herrors, -, -⟩
  rw [hc] at herrors
  cases herrors

end Schema

end EntityStore
