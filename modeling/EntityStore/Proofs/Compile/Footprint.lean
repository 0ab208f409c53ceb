import EntityStore.Proofs.Compile.Access
import EntityStore.Proofs.Compile.Nesting
import EntityStore.Proofs.Query.Touched

/-!
What compiled texts tell an authorizer that they touch, as sets: a query what its levels name
(`Query.accessed_iff_touches`), the create of an object the names written in it, the reference to
the row around it and the fields that are derived, an update its row number and the names in its
body, a delete its row number (`Schema.accessed_exactly`).
-/

set_option autoImplicit false

namespace EntityStore

open EntityStore.Language (Node)

namespace Nested

/-- What the create of an object touches. -/
def Touches (o : Nested) (k : PropertyKey) : Prop :=
  k.entity = o.entity.name ∧
    (k.property ∈ o.body.map Prod.fst ∨ (o.path ≠ [] ∧ k.property = parentName) ∨
    ∃ f, (k.property, f) ∈ o.entity.fields ∧ f.derive.isSome)

/-- The draft of an object has no errors. -/
structure Faultless (s : Schema) (args : Args) (owned : Bool) (o : Nested) : Prop where
  mem : o.entity ∈ s.entities
  errors : (Draft.complete o.entity (Draft.taken owned ++ o.body.map Prod.fst)
    (Draft.entries s args o.entity (Draft.taken owned) o.body)).errors = []

end Nested

namespace Schema

variable {s : Schema} {p : Property} {e : Entity}

theorem ownedRow?_mem (hs : s.WellFormed) (h : s.ownedRow? p = some e) : e ∈ s.entities := by
  unfold ownedRow? at h
  split at h
  · exact ((get?_eq_some_iff hs).mp h).1
  · cases h

theorem ownedRows?_mem (hs : s.WellFormed) (h : s.ownedRows? p = some e) : e ∈ s.entities := by
  unfold ownedRows? at h
  split at h
  · exact ((get?_eq_some_iff hs).mp h).1
  · cases h

end Schema

namespace Draft

open Nested (Faultless inEntries inNode inElements)

variable {s : Schema} {args : Args} {e : Entity} {p : Property}

/-! ### The objects of a body without errors -/

/-- What a row owns, and the objects in it, one step below it. -/
theorem owned_faultless {body : List (String × Node Value)}
    (he : e ∈ s.entities) (seg : PathSegment)
    (h : (complete e (taken true ++ body.map Prod.fst)
      (entries s args e (taken true) body)).errors = [])
    (hbody : ∀ o ∈ inEntries s e body, o.path ≠ [] ∧ o.Faultless s args true) :
    ∀ o ∈ ⟨[seg], e, body⟩ :: (inEntries s e body).map (Nested.under seg), o.path ≠ [] ∧
    o.Faultless s args true := by
  refine List.forall_mem_cons.mpr ⟨⟨List.cons_ne_nil _ _, he, h⟩, fun o ho ↦ ?_⟩
  obtain ⟨o', ho', rfl⟩ := List.mem_map.mp ho
  obtain ⟨-, hmem, herrors⟩ := hbody o' ho'
  exact ⟨List.cons_ne_nil _ _, hmem, herrors⟩

/-- An object that an owned reference is set to is drafted as a row. -/
theorem entry_object (hrow : s.ownedRow? p = some e) (target : PropertyKey)
    (body : List (String × Node Value)) :
    entry s args target p (.object body) =
      let row := complete e (taken true ++ body.map Prod.fst) (entries s args e (taken true) body)
      ⟨row.errors, some (.single e.name row.result)⟩ := by
  obtain ⟨name, input, kind, entity⟩ := p
  unfold Schema.ownedRow? at hrow
  split at hrow
  · next hkind =>
    dsimp only at hkind
    subst hkind
    unfold entry
    dsimp only
    rw [hrow]
  · cases hrow

/-- The objects of a list that an owned collection is set to are drafted as rows. -/
theorem entry_list (hrows : s.ownedRows? p = some e) (target : PropertyKey)
    (items : List (Node Value)) :
    entry s args target p (.list items) =
      let rows := elements s args target e items
      ⟨rows.errors, some (.several e.name rows.result)⟩ := by
  obtain ⟨name, input, kind, entity⟩ := p
  unfold Schema.ownedRows? at hrows
  split at hrows
  · next hkind =>
    dsimp only at hkind
    subst hkind
    unfold entry
    dsimp only
    rw [hrows]
  · cases hrows

mutual

/-- If the entries of an object have no errors, the objects in them have none. -/
theorem entries_faultless (hs : s.WellFormed) {e : Entity} (he : e ∈ s.entities)
    (named : List String) :
    ∀ body : List (String × Node Value), (entries s args e named body).errors = [] →
      ∀ o ∈ inEntries s e body, o.path ≠ [] ∧ o.Faultless s args true
  | [], _ => List.forall_mem_nil _
  | (name, node) :: rest, h => by
    obtain ⟨p, hadmitted, hentry, hrest, -⟩ := entries_cons_ok h
    have hothers := entries_faultless hs he (name :: named) rest hrest
    obtain ⟨hp, rfl, -, -⟩ := admitted_ok (hs.entity e he) hadmitted
    rw [inEntries, (Entity.get?_eq_some_iff (hs.entity e he)).mpr ⟨hp, rfl⟩]
    exact List.forall_mem_append.mpr ⟨node_faultless hs p ⟨e.name, p.name⟩ node hentry, hothers⟩

theorem node_faultless (hs : s.WellFormed) (p : Property) (target : PropertyKey) :
    ∀ node : Node Value, (entry s args target p node).errors = [] →
      ∀ o ∈ inNode s p node, o.path ≠ [] ∧ o.Faultless s args true
  | .literal _, _ | .param _, _ => List.forall_mem_nil _
  | .object body, h => by
    unfold inNode
    cases hrow : s.ownedRow? p with
    | none => exact List.forall_mem_nil _
    | some child =>
      rw [entry_object hrow] at h
      have hchild := Schema.ownedRow?_mem hs hrow
      exact owned_faultless hchild _ h (entries_faultless hs hchild _ body (errors_of_complete h))
  | .list items, h => by
    unfold inNode
    cases hrows : s.ownedRows? p with
    | none => exact List.forall_mem_nil _
    | some child =>
      rw [entry_list hrows] at h
      exact elements_faultless hs target p.name (Schema.ownedRows?_mem hs hrows) 0 items h

theorem elements_faultless (hs : s.WellFormed) (target : PropertyKey) (name : String) {d : Entity}
    (hd : d ∈ s.entities) (i : Nat) :
      ∀ items : List (Node Value), (elements s args target d items).errors = [] →
      ∀ o ∈ inElements s name d i items, o.path ≠ [] ∧ o.Faultless s args true
  | [], _ => List.forall_mem_nil _
  | .object body :: rest, h => by
    unfold elements at h
    obtain ⟨hrow, hrest⟩ := List.append_eq_nil_iff.mp h
    have hfirst := owned_faultless hd ⟨name, some i⟩ hrow
      (entries_faultless hs hd _ body (errors_of_complete hrow))
    exact List.forall_mem_append.mpr ⟨hfirst,
      elements_faultless hs target name hd (i + 1) rest hrest⟩
  | .literal v :: rest, h => by cases h
  | .param name :: rest, h => by cases h
  | .list items :: rest, h => by cases h

end

theorem objects_faultless (hs : s.WellFormed) (he : e ∈ s.entities)
    {body : List (String × Node Value)} (h : (row s args e body).errors = []) :
    ∀ o ∈ Nested.objects s e body, ∀ owned : Bool, (owned ↔ o.path ≠ []) →
    o.Faultless s args owned := by
  refine List.forall_mem_cons.mpr ⟨fun owned howned ↦ ?_, fun o ho owned howned ↦ ?_⟩
  · obtain rfl : owned = false := by simpa using howned
    exact ⟨he, h⟩
  · obtain ⟨hpath, hfaultless⟩ := entries_faultless hs he _ body (errors_of_complete h) o ho
    obtain rfl : owned = true := howned.mpr hpath
    exact hfaultless

/-! ### The names of a row -/

/-- A completed row without errors has its own entries and all fields that are derived. -/
theorem mem_complete_names {named : List String} {object : Checked RowDraft} {name : String}
    (h : (complete e named object).errors = []) :
      name ∈ (complete e named object).result.map Prod.fst ↔
      name ∈ object.result.map Prod.fst ∨ ∃ f, (name, f) ∈ e.fields ∧ f.derive.isSome := by
  have hfailed := (List.append_eq_nil_iff.mp h).2
  unfold complete
  dsimp only at hfailed ⊢
  rw [List.map_append, List.mem_append]
  refine or_congr_right ?_
  constructor
  · intro hname
    obtain ⟨x, hx, rfl⟩ := List.mem_map.mp hname
    obtain ⟨outcome, hmem, hx⟩ := List.mem_filterMap.mp hx
    obtain ⟨⟨name, f⟩, hf, houtcome⟩ := List.mem_filterMap.mp hmem
    rw [Except.toOption_eq_some_iff.mp hx] at houtcome
    obtain ⟨hderive, v, rfl, -⟩ := derived_ok houtcome
    exact ⟨f, hf, hderive⟩
  · rintro ⟨f, hf, hderive⟩
    obtain ⟨outcome, houtcome⟩ : ∃ outcome, derived e.name
        (values object.result) name f = some outcome := by
      obtain ⟨derive, hsome⟩ := Option.isSome_iff_exists.mp hderive
      exact ⟨_, by rw [derived, hsome]; rfl⟩
    cases outcome with
    | error err =>
      have hnone :=
        List.filterMap_eq_nil_iff.mp hfailed _ (List.mem_filterMap.mpr ⟨(name, f), hf, houtcome⟩)
      cases hnone
    | ok x =>
      obtain ⟨-, v, rfl, -⟩ := derived_ok houtcome
      exact List.mem_map.mpr
        ⟨_, List.mem_filterMap.mpr ⟨_, List.mem_filterMap.mpr ⟨(name, f), hf, houtcome⟩, rfl⟩, rfl⟩

end Draft

namespace Nested

variable {s : Schema} {args : Args} {o : Nested} {owner : Option RowRef}

/-- The create of an object tells what it touches. -/
theorem Faultless.accessed (hs : s.WellFormed) (h : o.Faultless s args owner.isSome)
    (howner : owner.isSome ↔ o.path ≠ []) (slot : Nat) (k : PropertyKey) :
    k ∈ (o.instruction s args owner slot).accessed ↔ o.Touches k := by
  obtain ⟨hnames, -⟩ := Draft.entries_read hs h.mem _ o.body (Draft.errors_of_complete h.errors)
  have hrow : k.property ∈ (o.row s args owner.isSome).map Prod.fst ↔
      k.property ∈ o.body.map Prod.fst ∨ ∃ f, (k.property, f) ∈ o.entity.fields ∧
      f.derive.isSome := by
    rw [Nested.row, Draft.mem_complete_names h.errors, hnames]
  have hparent : k.property ∈ (Draft.parentInput owner).map Prod.fst ↔ o.path ≠ [] ∧
      k.property = parentName := by
    rw [← howner]
    cases owner <;> simp [Draft.parentInput]
  unfold Nested.instruction Draft.Place.instruction Touches
  dsimp only
  rw [Accessed.mem_ofNames, List.mem_append, hparent, hrow, or_left_comm]

end Nested

namespace Schema

variable {s : Schema} {args : Args}

/-- A create is compiled object by object, none of them with an error. -/
theorem compileCreate_objects (hs : s.WellFormed) {form : Language.CreateForm Value}
    {slots : Slots} {c : Creation} (h : s.compileCreate form args slots = .ok c) :
      ∃ e ∈ s.entities, e.name = form.entity ∧ (Draft.row s args e form.body).errors = [] ∧
      c.instructions.length = (Nested.objects s e form.body).length ∧
      ∀ (n : Nat) (o : Nested), (Nested.objects s e form.body)[n]? = some o →
        ∃ (owner : Option RowRef) (slot : Nat), (owner.isSome ↔ o.path ≠ []) ∧
        c.instructions[n]? = some (o.instruction s args owner slot) := by
  obtain ⟨x, e, hfit, howner, hentity, -, hinstructions, -, -, hrow, herrors⟩ :=
    compileCreate_place hs h
  have hbody : (Draft.entries s args e (Draft.taken x.owner.isSome) form.body).errors = [] := by
    rw [howner]
    exact Draft.errors_of_complete herrors
  have hdrafted : List.Forall₂ (Nested.Drafted s args) (Nested.objects s e form.body) x.located :=
    Draft.object_drafted hfit.name.symm (by rw [howner, hrow]; rfl)
      (Draft.entries_drafted hs hfit.mem _ form.body hbody)
  refine ⟨e, hfit.mem, hfit.name.trans hentity, herrors, ?_, fun n o ho ↦ ?_⟩
  · rw [hinstructions, List.length_map, Draft.Place.length_drafted hdrafted]
  · obtain ⟨l, hl, hdraft, hplace, -⟩ := Draft.Place.exists_located hdrafted ho
    refine ⟨l.2.owner, l.2.slot, hdraft.path ▸ Draft.Place.owner_isSome howner hl, ?_⟩
    rw [hinstructions, List.getElem?_map, hplace, ← Draft.Place.instruction_drafted hdraft]
    rfl

theorem compileCreate_accessed (hs : s.WellFormed) {form : Language.CreateForm Value}
    {slots : Slots} {c : Creation} (h : s.compileCreate form args slots = .ok c) :
      ∃ e ∈ s.entities, e.name = form.entity ∧
        List.Forall₂ (fun o i ↦ i.entity = o.entity.name ∧ ∀ k, k ∈ i.accessed ↔ o.Touches k)
        (Nested.objects s e form.body) c.instructions := by
  obtain ⟨e, he, hname, herrors, hlength, hall⟩ := compileCreate_objects hs h
  refine ⟨e, he, hname, List.forall₂_iff_get.mpr ⟨hlength.symm, fun n hn hn' ↦ ?_⟩⟩
  obtain ⟨owner, slot, howner, hi⟩ := hall n _ (List.getElem?_eq_getElem hn)
  rw [List.getElem?_eq_getElem hn', Option.some.injEq] at hi
  have hfaultless := Draft.objects_faultless hs he herrors _ (List.getElem_mem hn) _ howner
  simp only [List.get_eq_getElem, hi]
  exact ⟨rfl, hfaultless.accessed hs howner slot⟩

theorem compileUpdate_accessed {form : Language.UpdateForm Value Int64}
    {i : Instruction} (hs : s.WellFormed) (h : s.compileUpdate form args = .ok i)
    (k : PropertyKey) : k ∈ i.accessed ↔ k.entity = form.entity ∧
      (k.property = idName ∨ k.property ∈ form.body.map Prod.fst) := by
  obtain ⟨e, ref, hget, -, -, rfl⟩ := compileUpdate_ok_iff.mp h
  rw [Accessed.mem_ofNames, ((get?_eq_some_iff hs).mp hget).2, List.mem_cons]

theorem compileDelete_accessed {form : Language.DeleteForm Int64}
    {i : Instruction} (hs : s.WellFormed) (h : s.compileDelete form args = .ok i)
    (k : PropertyKey) : k ∈ i.accessed ↔ k = ⟨form.entity, idName⟩ := by
  obtain ⟨e, ref, hget, -, rfl⟩ := compileDelete_ok_iff.mp h
  obtain ⟨entity, property⟩ := k
  rw [Accessed.mem_ofNames, ((get?_eq_some_iff hs).mp hget).2, List.mem_singleton,
    PropertyKey.mk.injEq]

/-- Whatever compiles tells exactly the properties that it touches. -/
theorem accessed_exactly (hs : s.Reachable) (args : Args) :
    (∀ form q, s.compileQuery form = .ok q → ∃ e ∈ s.entities, e.name = form.entity ∧
      ∀ k, k ∈ q.accessed ↔ Query.Touches s e form.body.filter form.body.items k) ∧
    (∀ form slots c, s.compileCreate form args slots = .ok c →
      ∃ e ∈ s.entities, e.name = form.entity ∧
        List.Forall₂ (fun o i ↦ i.entity = o.entity.name ∧ ∀ k, k ∈ i.accessed ↔ o.Touches k)
        (Nested.objects s e form.body) c.instructions) ∧
    (∀ form i, s.compileUpdate form args = .ok i → ∀ k, k ∈ i.accessed ↔
      k.entity = form.entity ∧ (k.property = idName ∨ k.property ∈ form.body.map Prod.fst)) ∧
    ∀ form i, s.compileDelete form args = .ok i → ∀ k, k ∈ i.accessed ↔ k = ⟨form.entity, idName⟩ :=
  ⟨fun _ _ ↦ Query.accessed_iff_touches hs.wellFormed,
    fun _ _ _ ↦ compileCreate_accessed hs.wellFormed,
    fun _ _ ↦ compileUpdate_accessed hs.wellFormed, fun _ _ ↦ compileDelete_accessed hs.wellFormed⟩

/-- The parts of the orders to Ulm. -/
def ulmForm : Language.QueryForm Value Int64 :=
  ⟨"Order", some (.predicate ["address", "city"] (.compare .eq) (.literal (.text "Ulm"))), none,
    none, [.relation "lines" none none none [.relation "parts" none none none [.all]]]⟩

def bonnForm : Language.UpdateForm Value Int64 :=
  ⟨"Address", .id 1, [("city", .set (.literal (.text "Bonn")))]⟩

theorem accessed_exactly_of_orders :
    (∃ q, (Schema.empty.after ordersCalls).compileQuery ulmForm = .ok q ∧
      ∃ e ∈ (Schema.empty.after ordersCalls).entities, e.name = "Order" ∧
        ∀ k, k ∈ q.accessed ↔
        Query.Touches (Schema.empty.after ordersCalls) e ulmForm.body.filter ulmForm.body.items k) ∧
    (∃ c, (Schema.empty.after ordersCalls).compileCreate orderForm [] ⟨3, []⟩ = .ok c ∧
      ∃ e ∈ (Schema.empty.after ordersCalls).entities, e.name = "Order" ∧
        List.Forall₂ (fun o i ↦ i.entity = o.entity.name ∧ ∀ k, k ∈ i.accessed ↔ o.Touches k)
          (Nested.objects (Schema.empty.after ordersCalls) e orderForm.body) c.instructions) ∧
    (∃ i, (Schema.empty.after ordersCalls).compileUpdate bonnForm [] = .ok i ∧
      ∀ k, k ∈ i.accessed ↔ k.entity = "Address" ∧ (k.property = idName ∨ k.property ∈ ["city"])) ∧
    ∃ i, (Schema.empty.after ordersCalls).compileDelete ⟨"Order", .id 1⟩ [] = .ok i ∧
      ∀ k, k ∈ i.accessed ↔ k = ⟨"Order", idName⟩ := by
  obtain ⟨hquery, hcreate, hupdate, hdelete⟩ := accessed_exactly ⟨ordersCalls, rfl⟩ []
  exact ⟨⟨_, rfl, hquery ulmForm _ rfl⟩, ⟨_, rfl, hcreate orderForm ⟨3, []⟩ _ rfl⟩,
    ⟨_, rfl, hupdate bonnForm _ rfl⟩, ⟨_, rfl, hdelete ⟨"Order", .id 1⟩ _ rfl⟩⟩

end Schema

end EntityStore
