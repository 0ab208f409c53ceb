import EntityStore.Proofs.Compile.Located
import EntityStore.Proofs.Compile.Transaction

/-!
The objects nested in the body of a create, and what they are compiled to. The instructions of a
create are those of its objects in the order in which they are written, an object before those
nested in it, and the tree of a create finds at the path of an object the slot that its instruction
fills.
-/

set_option autoImplicit false

namespace EntityStore

open EntityStore.Language (Node)

/-- An object in the body of a create: the path that leads to it, its entity and what is written in
it. -/
structure Nested where
  path : List PathSegment
  entity : Entity
  body : List (String × Node Value)

namespace Schema

/-- The entity of the row that a reference owns. -/
def ownedRow? (s : Schema) (p : Property) : Option Entity :=
  match p.kind with
  | .reference ⟨.owned, child, _, _⟩ => s.get? child
  | _ => none

/-- The entity of the rows that a collection owns. -/
def ownedRows? (s : Schema) (p : Property) : Option Entity :=
  match p.kind with
  | .collection ⟨.owned, child⟩ => s.get? child
  | _ => none

theorem ownedRow?_reference {s : Schema} {p : Property} {r : Reference}
    (hkind : p.kind = .reference r) :
    s.ownedRow? p = if r.kind = .owned then s.get? r.target else none := by
  obtain ⟨kind, child, optional, unique⟩ := r
  unfold ownedRow?
  cases kind <;> simp [hkind]

theorem ownedRows?_collection {s : Schema} {p : Property} {c : Collection}
    (hkind : p.kind = .collection c) :
    s.ownedRows? p = if c.kind = .owned then s.get? c.target else none := by
  obtain ⟨kind, child⟩ := c
  unfold ownedRows?
  cases kind <;> simp [hkind]

end Schema

namespace Nested

def under (seg : PathSegment) (o : Nested) : Nested := { o with path := seg :: o.path }

mutual

/-- The objects nested in the entries of an object, in the order in which they are written. -/
def inEntries (s : Schema) (e : Entity) : List (String × Node Value) → List Nested
  | [] => []
  | (name, node) :: rest =>
    (match e.get? name with
      | some p => inNode s p node
      | none => []) ++ inEntries s e rest

/-- The objects that an owned relation is set to, each followed by those nested in it. -/
def inNode (s : Schema) (p : Property) : Node Value → List Nested
  | .object body =>
    match s.ownedRow? p with
    | some child =>
      ⟨[⟨p.name, none⟩], child, body⟩ :: (inEntries s child body).map (under ⟨p.name, none⟩)
    | none => []
  | .list items =>
    match s.ownedRows? p with
    | some child => inElements s p.name child 0 items
    | none => []
  | _ => []

def inElements (s : Schema) (name : String) (child : Entity) (i : Nat) :
    List (Node Value) → List Nested
  | [] => []
  | .object body :: rest =>
    ⟨[⟨name, some i⟩], child, body⟩ :: (inEntries s child body).map (under ⟨name, some i⟩) ++
      inElements s name child (i + 1) rest
  | _ :: rest => inElements s name child (i + 1) rest

end

/-- The object of a create and all nested in it. -/
def objects (s : Schema) (e : Entity) (body : List (String × Node Value)) : List Nested :=
  ⟨[], e, body⟩ :: inEntries s e body

/-- The draft of the row of an object, that of an owned one if so given. -/
def row (s : Schema) (args : Args) (owned : Bool) (o : Nested) : RowDraft :=
  (Draft.complete o.entity (Draft.taken owned ++ o.body.map Prod.fst)
    (Draft.entries s args o.entity (Draft.taken owned) o.body)).result

/-- The create of an object: its entries behind the row that owns it, at a slot. -/
def instruction (s : Schema) (args : Args) (owner : Option RowRef) (slot : Nat)
    (o : Nested) : Instruction :=
  Draft.Place.instruction ⟨o.entity.name, owner, o.row s args owner.isSome, slot⟩

/-- Whether an object is an element of a collection of the topmost one. -/
def isElement (name : String) (o : Nested) : Bool :=
  match o.path with
  | [⟨other, some _⟩] => other == name
  | _ => false

/-- A row of a create is the draft of an object, and stands where the object does. -/
structure Drafted (s : Schema) (args : Args) (o : Nested) (l : List PathSegment × Draft.Place) :
    Prop where
  path : l.1 = o.path
  entity : l.2.entity = o.entity.name
  row : l.2.row = o.row s args l.2.owner.isSome

end Nested

namespace Draft

open Nested (Drafted inEntries inNode inElements)

variable {s : Schema} {args : Args} {e : Entity} {p : Property} {owner next : Nat}
  {name : String} {y : Place}

/-- The rows below the steps of a row, each with its path. -/
def beyond (steps : List (PathSegment × Place)) : List (List PathSegment × Place) :=
  steps.flatMap fun c ↦ c.2.located.map (Place.via c.1)

theorem drafted_under {os : List Nested} {ls : List (List PathSegment × Place)}
    (h : List.Forall₂ (Drafted s args) os ls) (seg : PathSegment) :
    List.Forall₂ (Drafted s args) (os.map (Nested.under seg)) (ls.map (Place.via seg)) := by
  rw [List.forall₂_map_left_iff, List.forall₂_map_right_iff]
  exact h.imp fun o l ho ↦ ⟨congrArg (seg :: ·) ho.path, ho.entity, ho.row⟩

/-- The fields that are derived own no rows. -/
theorem rowSteps_complete (named : List String) (row : Checked RowDraft) :
    rowSteps owner next (complete e named row).result = rowSteps owner next row.result := by
  have hinputs (more : RowDraft) (h : ∀ x ∈ more, ∃ v, x.2 = .input v) (next : Nat) :
      rowSteps owner next more = [] := by
    induction more generalizing next with
    | nil => rfl
    | cons x more ih =>
      obtain ⟨⟨v, hv⟩, hmore⟩ := List.forall_mem_cons.mp h
      obtain ⟨name, d⟩ := x
      cases hv
      exact ih hmore next
  have happend (row more : RowDraft) (h : ∀ x ∈ more, ∃ v, x.2 = .input v) (next : Nat) :
      rowSteps owner next (row ++ more) = rowSteps owner next row := by
    induction row generalizing next with
    | nil => exact hinputs more h next
    | cons x row ih =>
      obtain ⟨name, d⟩ := x
      rw [List.cons_append, rowSteps, rowSteps, ih]
  refine happend _ _ (fun x hx ↦ ?_) next
  obtain ⟨outcome, houtcome, hx⟩ := List.mem_filterMap.mp hx
  obtain ⟨f, -, hf⟩ := List.mem_filterMap.mp houtcome
  rw [Except.toOption_eq_some_iff.mp hx] at hf
  obtain ⟨-, v, rfl, -⟩ := derived_ok hf
  exact ⟨_, rfl⟩

/-- The rows of an object are its draft and those of the objects nested in it. -/
theorem object_drafted {body : List (String × Node Value)} (hentity : y.entity = e.name)
    (hrow : y.row = Nested.row s args y.owner.isSome ⟨[], e, body⟩)
    (h : ∀ owner next, List.Forall₂ (Drafted s args) (inEntries s e body)
      (beyond (rowSteps owner next (entries s args e (taken y.owner.isSome) body).result))) :
    List.Forall₂ (Drafted s args) (Nested.objects s e body) y.located := by
  rw [Place.located_eq, Place.steps, hrow, Nested.row, rowSteps_complete]
  exact .cons ⟨rfl, hentity, hrow⟩ (h _ _)

/-- The rows of an object that another one owns, one step below it. -/
theorem owned_drafted {body : List (String × Node Value)} (seg : PathSegment) (owner next : Nat)
    (h : ∀ owner next, List.Forall₂ (Drafted s args) (inEntries s e body)
      (beyond (rowSteps owner next (entries s args e (taken true) body).result))) :
    List.Forall₂ (Drafted s args) (⟨[seg], e, body⟩ :: (inEntries s e body).map (Nested.under seg))
      ((Place.located ⟨e.name, some (.pending owner),
          Nested.row s args true ⟨[], e, body⟩, next⟩).map
        (Place.via seg)) :=
  drafted_under (object_drafted rfl rfl h) seg

theorem errors_of_complete {named : List String} {row : Checked RowDraft}
    (h : (complete e named row).errors = []) :
    row.errors = [] :=
  (List.append_eq_nil_iff.mp (List.append_eq_nil_iff.mp h).1).1

/-- An input of a property that owns no rows stands for none. -/
theorem input_drafted (hrow : s.ownedRow? p = none) (hrows : s.ownedRows? p = none)
    (node : Node Value) (v : InputValue) (owner next : Nat) :
    List.Forall₂ (Drafted s args) (inNode s p node)
      (beyond (entrySteps owner next p.name (.input v))) := by
  have hnone : inNode s p node = [] := by
    cases node <;> simp [inNode, hrow, hrows]
  rw [hnone]
  exact .nil

/-- The rows that an entry stands for are the drafts of the objects in it. -/
theorem entry_drafted (hs : s.WellFormed) (target : PropertyKey) {node : Node Value}
    (hobject : ∀ body, node = .object body →
      ∀ d ∈ s.entities, (entries s args d (taken true) body).errors = [] →
      ∀ owner next, List.Forall₂ (Drafted s args) (inEntries s d body)
        (beyond (rowSteps owner next (entries s args d (taken true) body).result)))
    (hlist : ∀ items, node = .list items →
      ∀ d ∈ s.entities, (elements s args target d items).errors = [] →
      ∀ owner next, List.Forall₂ (Drafted s args) (inElements s p.name d 0 items)
        (beyond
          (entrySteps owner next p.name (.several d.name (elements s args target d items).result))))
    (h : (entry s args target p node).errors = []) (d : Draft)
    (hd : (entry s args target p node).result = some d) (owner next : Nat) :
    List.Forall₂ (Drafted s args) (inNode s p node) (beyond (entrySteps owner next p.name d)) := by
  obtain ⟨d', hd', hentered⟩ := entry_entered h
  obtain rfl := Option.some.inj (hd.symm.trans hd')
  cases hentered with
  | field hkind =>
    exact input_drafted (by simp [Schema.ownedRow?, hkind])
      (by simp [Schema.ownedRows?, hkind]) node _ _ _
  | absent => exact .nil
  | @owned r d body hkind hr hget hbody =>
    have hmem := ((Schema.get?_eq_some_iff hs).mp hget).1
    have hrow : s.ownedRow? p = some d := by rw [Schema.ownedRow?_reference hkind, if_pos hr, hget]
    have hinNode : inNode s p (.object body) =
        ⟨[⟨p.name, none⟩], d, body⟩ :: (inEntries s d body).map (Nested.under ⟨p.name, none⟩) := by
      simp [inNode, hrow]
    rw [hinNode, beyond, entrySteps, List.flatMap_singleton]
    exact owned_drafted _ owner next (hobject body rfl d hmem (errors_of_complete hbody))
  | linked hkind hr =>
    exact input_drafted (by simp [Schema.ownedRow?_reference hkind, hr])
      (by simp [Schema.ownedRows?, hkind]) node _ _ _
  | @ownedMany c d items hkind hc hget hitems =>
    have hmem := ((Schema.get?_eq_some_iff hs).mp hget).1
    have hrows : s.ownedRows? p = some d := by
      rw [Schema.ownedRows?_collection hkind, if_pos hc, hget]
    have hinNode : inNode s p (.list items) = inElements s p.name d 0 items := by
      simp [inNode, hrows]
    rw [hinNode]
    exact hlist items rfl d hmem hitems owner next
  | linkedMany hkind hc =>
    exact input_drafted (by simp [Schema.ownedRow?, hkind])
      (by simp [Schema.ownedRows?_collection hkind, hc]) node _ _ _

mutual

theorem entries_drafted (hs : s.WellFormed) {e : Entity} (he : e ∈ s.entities)
    (named : List String) :
    ∀ body : List (String × Node Value), (entries s args e named body).errors = [] → ∀ owner next,
      List.Forall₂ (Drafted s args) (inEntries s e body)
        (beyond (rowSteps owner next (entries s args e named body).result))
  | [], _ => fun _ _ ↦ .nil
  | (name, node) :: rest, h => by
    obtain ⟨p, hadmitted, hentry, hrest, hresult⟩ := entries_cons_ok h
    have hbelow := entries_drafted hs he (name :: named) rest hrest
    obtain ⟨hp, rfl, -, -⟩ := admitted_ok (hs.entity e he) hadmitted
    obtain ⟨d, hd, -⟩ := node_fits hs p ⟨e.name, p.name⟩ node hentry
    have hfirst := node_drafted hs p ⟨e.name, p.name⟩ node hentry d hd
    intro owner next
    rw [inEntries, (Entity.get?_eq_some_iff (hs.entity e he)).mpr ⟨hp, rfl⟩]
    rw [hresult, hd, Option.map_some, Option.toList_some, List.singleton_append, rowSteps, beyond,
      List.flatMap_append]
    exact List.rel_append (hfirst owner next) (hbelow owner _)

theorem node_drafted (hs : s.WellFormed) (p : Property) (target : PropertyKey) :
    ∀ node : Node Value, (entry s args target p node).errors = [] →
      ∀ d, (entry s args target p node).result = some d →
      ∀ owner next, List.Forall₂ (Drafted s args) (inNode s p node)
        (beyond (entrySteps owner next p.name d))
  | .literal v => entry_drafted hs target nofun nofun
  | .param name => entry_drafted hs target nofun nofun
  | .list items => entry_drafted hs target nofun fun items' heq d hd h ↦ by
    cases heq
    exact elements_drafted hs target p.name hd 0 items h
  | .object body => entry_drafted hs target (fun body' heq d hd h ↦ by
    cases heq
    exact entries_drafted hs hd (taken true) body h) nofun

theorem elements_drafted (hs : s.WellFormed) (target : PropertyKey) (name : String) {d : Entity}
    (hd : d ∈ s.entities) (i : Nat) :
      ∀ items : List (Node Value), (elements s args target d items).errors = [] → ∀ owner next,
      List.Forall₂ (Drafted s args) (inElements s name d i items)
        (beyond
          (((rowsChildren d.name owner next (elements s args target d items).result).zipIdx i).map
          fun (y, i) ↦ (⟨name, some i⟩, y)))
  | [], _ => fun _ _ ↦ .nil
  | .object body :: rest, h => by
    unfold elements at h ⊢
    obtain ⟨hrow, hrest⟩ := List.append_eq_nil_iff.mp h
    have hfirst := entries_drafted hs hd (taken true) body (errors_of_complete hrow)
    have hothers := elements_drafted hs target name hd (i + 1) rest hrest
    intro owner next
    rw [rowsChildren, List.zipIdx_cons, List.map_cons, beyond, List.flatMap_cons]
    exact List.rel_append (owned_drafted ⟨name, some i⟩ owner next hfirst) (hothers owner _)
  | .literal v :: rest, h => by cases h
  | .param name :: rest, h => by cases h
  | .list items :: rest, h => by cases h

end

end Draft

/-- The instructions and the tree of a create are those of the objects nested in it, the topmost of
which takes the next slot. -/
structure Creation.Nests (c : Creation) (s : Schema) (args : Args) (slots : Slots)
    (objects : List Nested) : Prop where
  /-- There is one instruction for each object, in the order of the objects. -/
  length : c.instructions.length = objects.length
  /-- Each object is created at the slot behind that of the object before it. -/
  creates : ∀ (k : Nat) (o : Nested), objects[k]? = some o →
    ∃ owner : Option RowRef, (owner.isSome ↔ o.path ≠ []) ∧
    c.instructions[k]? = some (o.instruction s args owner (slots.next + k))
  /-- The slots of the objects are distinct, and none of them has been given out before. -/
  refs :
    c.instructions.map Instruction.ref = (List.range' slots.next objects.length).map RowRef.pending
  /-- The row of a nested object refers to that of the object one step above it, which is created
  before. -/
  parent : ∀ (k : Nat) (o : Nested) (i : Instruction), objects[k]? = some o →
    c.instructions[k]? = some i → ∀ path seg, o.path = path ++ [seg] →
      ∃ j < k, (objects[j]?).map Nested.path = some path ∧
      ∀ v, (parentName, v) ∈ i.action.inputs ↔ v = .ref (.pending (slots.next + j))
  /-- The slots of the objects are given out. -/
  given : c.slots = { slots with next := slots.next + objects.length }
  /-- No two objects have one path. -/
  paths : (objects.map Nested.path).Nodup
  root : c.tree.root = .pending slots.next
  /-- A path finds the slot of the object that it denotes, and nothing if it denotes none. -/
  find : ∀ path r, c.tree.find? path = some r ↔ ∃ segs, RefTree.Spells path segs ∧
    ∃ (k : Nat) (o : Nested), objects[k]? = some o ∧ List.Forall₂ PathSegment.Denotes segs o.path ∧
    r = .pending (slots.next + k)
  /-- The path of an object finds its slot. -/
  found : ∀ (k : Nat) (o : Nested), objects[k]? = some o → o.path ≠ [] →
    c.tree.find? (RefTree.pathText o.path) = some (.pending (slots.next + k))
  /-- Each create is found at the path of one object. -/
  address : ∀ i ∈ c.instructions, ∃! path, path ∈ objects.map Nested.path ∧
    (c.tree.follow? path).map RefTree.root = some i.ref
  findAt : ∀ path i, c.tree.findAt? path i = c.tree.find? (path ++ "[" ++ toString i ++ "]")
  count : ∀ name, c.tree.count name = objects.countP (Nested.isElement name)

namespace Draft

open Nested (Drafted)

namespace Place

variable {s : Schema} {args : Args} {e : Entity} {x : Place} {objects : List Nested}
  {k : Nat} {o : Nested}

theorem located_getElem? {l : List PathSegment × Place} (h : x.located[k]? = some l) :
    x.places[k]? = some l.2 ∧ l.2.slot = x.slot + k := by
  have hplace : x.places[k]? = some l.2 := by rw [← located_places, List.getElem?_map, h]; rfl
  exact ⟨hplace, x.places_consecutive.slot_eq hplace⟩

/-- The instruction of a drafted row is the create of its object. -/
theorem instruction_drafted {l : List PathSegment × Place} (h : Drafted s args o l) :
    l.2.instruction = o.instruction s args l.2.owner l.2.slot := by
  obtain ⟨path, entity, owner, row, slot⟩ := l
  obtain ⟨-, hentity, hrow⟩ := h
  dsimp only at hentity hrow
  subst hentity hrow
  rfl

/-- A row has an owner unless it is the topmost. -/
theorem owner_isSome (howner : x.owner = none) {l : List PathSegment × Place} (hl : l ∈ x.located) :
    l.2.owner.isSome ↔ l.1 ≠ [] := by
  rcases located_owner hl with rfl | ⟨m, -, c, hc, rfl⟩
  · simp [howner]
  · simp [(child_of_step hc).owner_eq]

/-- The owner of a row is its only input of that name. -/
theorem Fits.parent_iff (h : x.Fits s e) {r : RowRef} (howner : x.owner = some r) {v : InputValue} :
    (parentName, v) ∈ x.inputs ↔ v = .ref r := by
  constructor
  · intro hv
    rcases List.mem_append.mp hv with hv | hv
    · obtain ⟨r', hr', heq⟩ := mem_parentInput.mp hv
      rw [howner] at hr'
      cases hr'
      exact (Prod.mk.inj heq).2
    · obtain ⟨⟨d, hd⟩, -⟩ := mem_numberRow_inputs h.entries hv
      have hfree := h.regular.free _ hd
      rw [howner] at hfree
      exact absurd List.mem_cons_self hfree
  · rintro rfl
    exact List.mem_append_left _ (mem_parentInput.mpr ⟨r, howner, rfl⟩)

theorem paths_eq (h : List.Forall₂ (Drafted s args) objects x.located) :
    objects.map Nested.path = x.located.map Prod.fst := by
  generalize x.located = located at h ⊢
  induction h with
  | nil => rfl
  | cons ho _ ih => rw [List.map_cons, List.map_cons, ih, ho.path]

/-- The elements of a collection are the objects that stand under its name. -/
theorem count_drafted (hfit : x.Fits s e) (h : List.Forall₂ (Drafted s args) objects x.located)
    (name : String) :
    x.tree.count name = objects.countP (Nested.isElement name) := by
  have helement (o : Nested) : Nested.isElement name o ↔ ∃ i, o.path = [⟨name, some i⟩] := by
    unfold Nested.isElement
    split
    · next other i hpath => simp [hpath]
    · next hother =>
      simp only [Bool.false_eq_true, false_iff, not_exists]
      exact fun i hi ↦ hother name i hi
  have hlt (i : Nat) : i < x.tree.count name ↔ [⟨name, some i⟩] ∈ objects.map Nested.path :=
    paths_eq h ▸ lt_count (hfit.once x x.mem_places_self)
  have hnodup : (objects.map Nested.path).Nodup := paths_eq h ▸ located_path_nodup hfit.once
  have hperm : ((objects.filter (Nested.isElement name)).map Nested.path).Perm
      ((List.range (x.tree.count name)).map fun i ↦ [⟨name, some i⟩]) := by
    refine (List.perm_ext_iff_of_nodup (hnodup.sublist (List.filter_sublist.map _)) ?_).mpr
      fun path ↦ ?_
    · exact List.nodup_range.map fun i j hij ↦ by simpa using hij
    · simp only [List.mem_map, List.mem_filter, List.mem_range, helement, hlt]
      constructor
      · rintro ⟨o, ⟨ho, i, hi⟩, rfl⟩
        exact ⟨i, ⟨o, ho, hi⟩, hi.symm⟩
      · rintro ⟨i, ⟨o, ho, hi⟩, rfl⟩
        exact ⟨o, ⟨ho, i, hi⟩, hi⟩
  have hlength := hperm.length_eq
  rw [List.length_map, List.length_map, List.length_range] at hlength
  rw [List.countP_eq_length_filter, hlength]

/-- The row of an object. -/
theorem exists_located (h : List.Forall₂ (Drafted s args) objects x.located)
    (hk : objects[k]? = some o) :
    ∃ l ∈ x.located, Drafted s args o l ∧ x.places[k]? = some l.2 ∧ l.2.slot = x.slot + k := by
  obtain ⟨l, hl, ho⟩ := List.forall₂_getElem? h hk
  exact ⟨l, List.mem_of_getElem? hl, ho, located_getElem? hl⟩

/-- The object of a row. -/
theorem exists_object (h : List.Forall₂ (Drafted s args) objects x.located)
    {l : List PathSegment × Place} (hl : l ∈ x.located) :
    ∃ (k : Nat) (o : Nested), objects[k]? = some o ∧ o.path = l.1 ∧ l.2.slot = x.slot + k := by
  obtain ⟨k, hk⟩ := List.mem_iff_getElem?.mp hl
  obtain ⟨o, ho, hdraft⟩ := List.forall₂_getElem? h.flip hk
  exact ⟨k, o, ho, hdraft.path.symm, (located_getElem? hk).2⟩

theorem refs_eq (x : Place) :
    (x.places.map instruction).map Instruction.ref = (List.range' x.slot x.places.length).map
      RowRef.pending := by
  have hrefs : x.places.map (Instruction.ref ∘ instruction) =
      (x.places.map Place.slot).map RowRef.pending := by
    rw [List.map_map]
    rfl
  rw [List.map_map, hrefs, x.places_consecutive.slots, x.places_consecutive.length,
    Nat.add_sub_cancel_left]

/-- The owner of a nested row is the row of the object one step above. -/
theorem parent_drafted (hfit : x.Fits s e) (h : List.Forall₂ (Drafted s args) objects x.located)
    (hk : objects[k]? = some o) {i : Instruction} (hi : (x.places.map instruction)[k]? = some i)
    {path : List PathSegment} {seg : PathSegment} (hpath : o.path = path ++ [seg]) :
    ∃ j < k, (objects[j]?).map Nested.path = some path ∧
      ∀ v, (parentName, v) ∈ i.action.inputs ↔ v = .ref (.pending (x.slot + j)) := by
  obtain ⟨l, hl, hdraft, hplace, hslot⟩ := exists_located h hk
  rw [List.getElem?_map, hplace] at hi
  cases hi
  rcases located_owner hl with rfl | ⟨m, hm, step, hstep, rfl⟩
  · rw [← hdraft.path] at hpath
    simp at hpath
  · obtain ⟨rfl, -⟩ := List.append_inj' (hdraft.path.trans hpath) rfl
    obtain ⟨j, o', ho', hpath', hmslot⟩ := exists_object h hm
    have hchild := child_of_step hstep
    have hlt := hchild.slot_lt
    obtain ⟨d, hd⟩ := hfit.places step.2 (mem_places_of_located hl)
    refine ⟨j, ?_, by rw [ho', Option.map_some, hpath'], fun v ↦ ?_⟩
    · dsimp only at hslot
      omega
    · have hiff := hd.parent_iff hchild.owner_eq (v := v)
      rwa [ref, hmslot] at hiff

/-- A path finds the row of the object that it denotes. -/
theorem find_drafted (hfit : x.Fits s e) (h : List.Forall₂ (Drafted s args) objects x.located)
    {path : String} {r : RowRef} : x.tree.find? path = some r ↔ ∃ segs, RefTree.Spells path segs ∧
      ∃ (k : Nat) (o : Nested), objects[k]? = some o ∧
      List.Forall₂ PathSegment.Denotes segs o.path ∧ r = .pending (x.slot + k) := by
  rw [RefTree.find?_eq_some]
  refine exists_congr fun segs ↦ ?_
  constructor
  · rintro ⟨u, hsegs, hu, rfl⟩
    obtain ⟨l, hl, hdenotes, rfl⟩ := (follow?_eq_some hfit.once).mp hu
    obtain ⟨k, o, ho, hpath, hslot⟩ := exists_object h hl
    exact ⟨hsegs, k, o, ho, hpath ▸ hdenotes, congrArg RowRef.pending hslot⟩
  · rintro ⟨hsegs, k, o, ho, hdenotes, rfl⟩
    obtain ⟨l, hl, hdraft, -, hslot⟩ := exists_located h ho
    exact ⟨l.2.tree, hsegs, (follow?_eq_some hfit.once).mpr ⟨l, hl, hdraft.path ▸ hdenotes, rfl⟩,
      congrArg RowRef.pending hslot⟩

theorem found_drafted (hs : s.WellFormed) (hfit : x.Fits s e)
    (h : List.Forall₂ (Drafted s args) objects x.located) (hk : objects[k]? = some o)
    (hne : o.path ≠ []) :
    x.tree.find? (RefTree.pathText o.path) = some (.pending (x.slot + k)) := by
  obtain ⟨l, hl, hdraft, -⟩ := exists_located h hk
  have hnames := hfit.isName_located hs hl
  rw [hdraft.path] at hnames
  exact (find_drafted hfit h).mpr ⟨o.path, RefTree.spells_pathText hne hnames, k, o, hk,
    List.forall₂_refl o.path, rfl⟩

/-- The slot of a row is reached at one path only. -/
theorem address_drafted (hfit : x.Fits s e) (h : List.Forall₂ (Drafted s args) objects x.located)
    {y : Place} (hy : y ∈ x.places) : ∃! path, path ∈ objects.map Nested.path ∧
      (x.tree.follow? path).map RefTree.root = some y.ref := by
  rw [← located_places] at hy
  obtain ⟨l, hl, rfl⟩ := List.mem_map.mp hy
  rw [paths_eq h]
  refine ⟨l.1, ⟨List.mem_map_of_mem hl, by rw [follow?_located hfit.once hl]; rfl⟩, ?_⟩
  rintro path ⟨hpath, hr⟩
  obtain ⟨m, hm, rfl⟩ := List.mem_map.mp hpath
  rw [follow?_located hfit.once hm] at hr
  rw [located_slot_inj hm hl (RowRef.pending.inj (Option.some.inj hr))]

theorem Fits.findAt?_eq (hs : s.WellFormed) (h : x.Fits s e) (path : String) (i : Nat) :
    x.tree.findAt? path i = x.tree.find? (path ++ "[" ++ toString i ++ "]") := by
  refine RefTree.findAt?_eq (fun segs u hu name hsome ↦ ?_) path i
  obtain ⟨l, hl, -, rfl⟩ := (follow?_eq_some h.once).mp hu
  obtain ⟨d, hd⟩ := h.places l.2 (mem_places_of_located hl)
  exact hd.isName_elements hs hsome

theorem length_drafted (h : List.Forall₂ (Drafted s args) objects x.located) :
    x.places.length = objects.length := by
  rw [← located_places, List.length_map, h.length_eq]

/-- What is said of the objects of a create holds of its rows. -/
theorem Fits.nests (hs : s.WellFormed) (hfit : x.Fits s e) (howner : x.owner = none)
    (h : List.Forall₂ (Drafted s args) objects x.located) (assigned : List (Nat × Int64)) :
    Creation.Nests ⟨x.places.map instruction, x.tree, ⟨x.numbered.next, assigned⟩⟩ s args ⟨x.slot,
      assigned⟩ objects where
  length := by rw [List.length_map, length_drafted h]
  creates k o hk := by
    obtain ⟨l, hl, hdraft, hplace, hslot⟩ := exists_located h hk
    refine ⟨l.2.owner, hdraft.path ▸ owner_isSome howner hl, ?_⟩
    rw [List.getElem?_map, hplace, ← hslot, ← instruction_drafted hdraft]
    rfl
  refs := length_drafted h ▸ x.refs_eq
  parent _ _ _ hk hi _ _ := parent_drafted hfit h hk hi
  given := by rw [x.places_consecutive.length, length_drafted h]
  paths := paths_eq h ▸ located_path_nodup hfit.once
  root := rfl
  find _ _ := find_drafted hfit h
  found _ _ := found_drafted hs hfit h
  address i hi := by
    obtain ⟨y, hy, rfl⟩ := List.mem_map.mp hi
    exact address_drafted hfit h hy
  findAt := hfit.findAt?_eq hs
  count := count_drafted hfit h

end Place

end Draft

namespace Schema

variable {s : Schema} {args : Args} {slots : Slots}
  {form : Language.CreateForm Value} {c : Creation}

/-- A create is compiled object by object: the instructions are those of the objects nested in its
body in the order in which they are written, each refers to the row of the object around it, and the
tree finds each at its path. -/
theorem compileCreate_nests (hs : s.Reachable) (h : s.compileCreate form args slots = .ok c) :
    ∃ e ∈ s.entities, e.name = form.entity ∧
    c.Nests s args slots (Nested.objects s e form.body) := by
  obtain ⟨x, e, hfit, howner, hentity, hslot, hinstructions, htree, hslots, hrow, herrors⟩ :=
    compileCreate_place hs.wellFormed h
  have hbody : (Draft.entries s args e (Draft.taken x.owner.isSome) form.body).errors = [] := by
    rw [howner]
    exact Draft.errors_of_complete herrors
  have hdrafted : List.Forall₂ (Nested.Drafted s args) (Nested.objects s e form.body) x.located :=
    Draft.object_drafted hfit.name.symm (by rw [howner, hrow]; rfl)
      (Draft.entries_drafted hs.wellFormed hfit.mem _ form.body hbody)
  obtain ⟨instructions, tree, given⟩ := c
  obtain ⟨next, assigned⟩ := slots
  dsimp only at hslot hinstructions htree hslots
  subst hslot hinstructions htree hslots
  exact ⟨e, hfit.mem, hfit.name.trans hentity, hfit.nests hs.wellFormed howner hdrafted assigned⟩

/-- Orders with an address and with lines, each of which has parts. -/
def ordersCalls : List Schema.Call :=
  [.addEntity "Order" .master, .addEntity "Address" .detail, .addEntity "Line" .detail,
    .addEntity "Part" .detail, .addProperty "Address" (.field "city" (.ofType .text)),
    .addProperty "Part" (.field "name" (.ofType .text)),
    .addProperty "Line" (.collection "parts" ⟨.owned, "Part"⟩),
    .addProperty "Order" (.reference "address" ⟨.owned, "Address", true, false⟩),
    .addProperty "Order" (.collection "lines" ⟨.owned, "Line"⟩), .commit]

def orderForm : Language.CreateForm Value :=
  ⟨"Order", [("address", .object [("city", .literal (.text "Ulm"))]),
    ("lines", .list [.object [("parts", .list [.object [("name", .literal (.text "nut"))],
      .object [("name", .literal (.text "bolt"))]])], .object []])]⟩

theorem compileCreate_nests_of_orders :
    ∃ c, (Schema.empty.after ordersCalls).compileCreate orderForm [] ⟨3, []⟩ = .ok c ∧
      c.tree.find? "lines.parts[1]" = some (.pending 7) ∧
      ∃ e ∈ (Schema.empty.after ordersCalls).entities, e.name = orderForm.entity ∧
        c.Nests (Schema.empty.after ordersCalls) [] ⟨3, []⟩
          (Nested.objects (Schema.empty.after ordersCalls) e orderForm.body) := by
  obtain ⟨c, hc, hfind⟩ : ∃ c, (Schema.empty.after ordersCalls).compileCreate orderForm [] ⟨3, []⟩ =
      .ok c ∧ c.tree.find? "lines.parts[1]" = some (.pending 7) := ⟨_, rfl, by decide +kernel⟩
  exact ⟨c, hc, hfind, compileCreate_nests ⟨ordersCalls, rfl⟩ hc⟩

end Schema

end EntityStore
