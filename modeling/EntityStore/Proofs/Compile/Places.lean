import EntityStore.Proofs.Compile.Create
import EntityStore.Proofs.Lookup

/-!
The rows of a create with their slots. A row comes before the rows it owns, those of one relation
come in the order of the body, and every row but the topmost is listed under a relation of the row
that owns it.
-/

set_option autoImplicit false

namespace EntityStore

namespace Draft

/-- A row of a create: the slot for its number, that of the row that owns it, and its draft. -/
structure Place where
  entity : String
  owner : Option RowRef
  row : RowDraft
  slot : Nat

/-- The elements of a collection, the next free slot being given. -/
def rowsChildren (entity : String) (owner : Nat) : Nat → List RowDraft → List Place
  | _, [] => []
  | next, row :: rest =>
    ⟨entity, some (.pending owner), row, next⟩ :: rowsChildren entity owner
      (numberRow next (next + 1) row).next rest

/-- The rows that an entry stands for. -/
def entryChildren (owner next : Nat) : Draft → List Place
  | .input _ => []
  | .absent => []
  | .single entity row => [⟨entity, some (.pending owner), row, next⟩]
  | .several entity rows => rowsChildren entity owner next rows

/-- The rows that a row owns, under the names of its entries. -/
def rowChildren (owner : Nat) : Nat → RowDraft → List (String × List Place)
  | _, [] => []
  | next, (name, d) :: rest =>
    (name, entryChildren owner next d) :: rowChildren owner
      (numberEntry owner next name d).next rest

namespace Place

def numbered (x : Place) : Numbered := numberRow x.slot (x.slot + 1) x.row

def ref (x : Place) : RowRef := .pending x.slot

def tree (x : Place) : RefTree := Draft.tree x.slot x.numbered

/-- The owner of a row is an input like those of its entries. -/
def inputs (x : Place) : Inputs := parentInput x.owner ++ x.numbered.inputs

def instruction (x : Place) : Instruction where
  entity := x.entity
  ref := x.ref
  action := .create x.inputs
  accessed := .ofNames x.entity ((parentInput x.owner).map Prod.fst ++ x.row.map Prod.fst)

def children (x : Place) : List (String × List Place) := rowChildren x.slot (x.slot + 1) x.row

/-- The rows under a name. -/
def under (x : Place) (name : String) :
    List Place := (x.children.filter fun c ↦ c.1 == name).flatMap Prod.snd

def Child (y x : Place) : Prop := ∃ c ∈ x.children, y ∈ c.2

end Place

/-! ### Induction over the rows -/

section

variable {entity name : String} {owner next : Nat} {y : Place} {row : RowDraft} {d : Draft}

theorem rowsChildren_row {rows : List RowDraft} (h : y ∈ rowsChildren entity owner next rows) :
    y.entity = entity ∧ y.owner = some (.pending owner) ∧ y.row ∈ rows := by
  induction rows generalizing next with
  | nil => exact absurd h List.not_mem_nil
  | cons row rest ih =>
    rcases List.mem_cons.mp h with rfl | h
    · exact ⟨rfl, rfl, List.mem_cons_self⟩
    · obtain ⟨hentity, howner, hrow⟩ := ih h
      exact ⟨hentity, howner, List.mem_cons_of_mem _ hrow⟩

theorem entryChildren_owner (h : y ∈ entryChildren owner next d) :
    y.owner = some (.pending owner) := by
  cases d with
  | single entity row =>
    obtain rfl := List.mem_singleton.mp h
    rfl
  | several entity rows => exact (rowsChildren_row h).2.1
  | _ => exact absurd h List.not_mem_nil

theorem entryChildren_sizeOf (h : y ∈ entryChildren owner next d) : sizeOf y.row < sizeOf d := by
  cases d with
  | single entity row =>
    obtain rfl := List.mem_singleton.mp h
    simp only [Draft.single.sizeOf_spec]
    omega
  | several entity rows =>
    have hlt := List.sizeOf_lt_of_mem (rowsChildren_row h).2.2
    simp only [Draft.several.sizeOf_spec]
    omega
  | _ => exact absurd h List.not_mem_nil

/-- The rows under a name are those of an entry of that name. -/
theorem rowChildren_entry {c : String × List Place} (h : c ∈ rowChildren owner next row) :
    ∃ d next', (c.1, d) ∈ row ∧ c.2 = entryChildren owner next' d := by
  induction row generalizing next with
  | nil => exact absurd h List.not_mem_nil
  | cons x rest ih =>
    obtain ⟨name, d⟩ := x
    rcases List.mem_cons.mp h with rfl | h
    · exact ⟨d, next, List.mem_cons_self, rfl⟩
    · obtain ⟨d', next', hmem, heq⟩ := ih h
      exact ⟨d', next', List.mem_cons_of_mem _ hmem, heq⟩

theorem Place.Child.owner_eq {x : Place} (h : y.Child x) : y.owner = some x.ref := by
  obtain ⟨c, hc, hy⟩ := h
  obtain ⟨d, next, -, heq⟩ := rowChildren_entry hc
  rw [heq] at hy
  exact entryChildren_owner hy

theorem Place.Child.sizeOf_lt {x : Place} (h : y.Child x) : sizeOf y.row < sizeOf x.row := by
  obtain ⟨c, hc, hy⟩ := h
  obtain ⟨d, next, hmem, heq⟩ := rowChildren_entry hc
  rw [heq] at hy
  have hd := entryChildren_sizeOf hy
  have hentry := List.sizeOf_lt_of_mem hmem
  simp only [Prod.mk.sizeOf_spec] at hentry
  omega

/-- What is true of a row if it is of the rows it owns is true of all. -/
theorem Place.induction {P : Place → Prop} (step : ∀ x, (∀ y, y.Child x → P y) → P x)
    (x : Place) : P x :=
  step x fun y _ ↦ Place.induction step y
termination_by sizeOf x.row
decreasing_by exact Place.Child.sizeOf_lt ‹_›

end

/-! ### All rows -/

mutual

/-- The rows that an entry stands for and those below them. -/
def entryPlaces (owner next : Nat) : Draft → List Place
  | .input _ => []
  | .absent => []
  | .single entity row =>
    ⟨entity, some (.pending owner), row, next⟩ :: rowPlaces next (next + 1) row
  | .several entity rows => rowsPlaces entity owner next rows

def rowPlaces (owner next : Nat) : List (String × Draft) → List Place
  | [] => []
  | (name, d) :: rest =>
    entryPlaces owner next d ++ rowPlaces owner (numberEntry owner next name d).next rest

def rowsPlaces (entity : String) (owner next : Nat) : List (List (String × Draft)) → List Place
  | [] => []
  | row :: rest => ⟨entity, some (.pending owner), row, next⟩ :: rowPlaces next (next + 1) row ++
    rowsPlaces entity owner (numberRow next (next + 1) row).next rest

end

/-- A row and all below it. -/
def Place.places (x : Place) : List Place := x :: rowPlaces x.slot (x.slot + 1) x.row

section

variable {entity : String} {owner next : Nat} {d : Draft} {row : RowDraft} {rows : List RowDraft}

theorem rowsPlaces_eq : rowsPlaces entity owner next rows =
    (rowsChildren entity owner next rows).flatMap Place.places := by
  induction rows generalizing next with
  | nil => rfl
  | cons row rest ih =>
    rw [rowsPlaces, rowsChildren, List.flatMap_cons, ih]
    rfl

theorem entryPlaces_eq :
    entryPlaces owner next d = (entryChildren owner next d).flatMap Place.places := by
  cases d with
  | single entity row => exact (List.flatMap_singleton _ _).symm
  | several entity rows => exact rowsPlaces_eq
  | _ => rfl

theorem rowPlaces_eq : rowPlaces owner next row =
    (rowChildren owner next row).flatMap fun c ↦ c.2.flatMap Place.places := by
  induction row generalizing next with
  | nil => rfl
  | cons x rest ih =>
    obtain ⟨name, d⟩ := x
    rw [rowPlaces, rowChildren, List.flatMap_cons, ih, entryPlaces_eq]

theorem rowsInstructions_eq : (numberRows entity owner next rows).instructions =
    (rowsChildren entity owner next rows).flatMap fun y ↦ y.instruction :: y.numbered.owned := by
  induction rows generalizing next with
  | nil => rfl
  | cons row rest ih =>
    rw [numberRows, rowsChildren, List.flatMap_cons, ← ih]
    rfl

theorem entryInstructions_eq (name : String) : (numberEntry owner next name d).owned =
    (entryChildren owner next d).flatMap fun y ↦ y.instruction :: y.numbered.owned := by
  cases d with
  | single entity row => exact (List.flatMap_singleton _ _).symm
  | several entity rows => exact rowsInstructions_eq
  | _ => rfl

theorem rowInstructions_eq : (numberRow owner next row).owned =
    (rowChildren owner next row).flatMap fun c ↦ c.2.flatMap fun y ↦
      y.instruction :: y.numbered.owned := by
  induction row generalizing next with
  | nil => rfl
  | cons x rest ih =>
    obtain ⟨name, d⟩ := x
    rw [numberRow_cons, Numbered.append, rowChildren, List.flatMap_cons, ← ih, entryInstructions_eq]

end

namespace Place

variable {x y z : Place}

theorem mem_places : y ∈ x.places ↔ y = x ∨ ∃ z : Place, z.Child x ∧ y ∈ z.places := by
  unfold places
  rw [List.mem_cons, rowPlaces_eq]
  refine or_congr_right ?_
  simp only [List.mem_flatMap]
  constructor
  · rintro ⟨c, hc, z, hz, hy⟩
    exact ⟨z, ⟨c, hc, hz⟩, hy⟩
  · rintro ⟨z, ⟨c, hc, hz⟩, hy⟩
    exact ⟨c, hc, z, hz, hy⟩

theorem mem_places_self (x : Place) : x ∈ x.places :=
  List.mem_cons_self

/-- The rows that a row below owns are below. -/
theorem Child.mem_places (h : y.Child z) (hz : z ∈ x.places) : y ∈ x.places := by
  induction x using Place.induction with
  | step x ih =>
    rcases Place.mem_places.mp hz with rfl | ⟨w, hw, hz⟩
    · exact Place.mem_places.mpr (.inr ⟨y, h, y.mem_places_self⟩)
    · exact Place.mem_places.mpr (.inr ⟨w, hw, ih w hw hz⟩)

/-- Every row below is owned by a row. -/
theorem exists_parent (hy : y ∈ x.places) : y = x ∨ ∃ z ∈ x.places, y.Child z := by
  induction x using Place.induction with
  | step x ih =>
    rcases Place.mem_places.mp hy with rfl | ⟨w, hw, hy⟩
    · exact .inl rfl
    · refine .inr ?_
      rcases ih w hw hy with rfl | ⟨z, hz, hchild⟩
      · exact ⟨x, x.mem_places_self, hw⟩
      · exact ⟨z, Place.mem_places.mpr (.inr ⟨w, hw, hz⟩), hchild⟩

/-- The instructions of a create are those of its rows. -/
theorem instructions_eq (x : Place) :
    x.instruction :: x.numbered.owned = x.places.map instruction := by
  induction x using Place.induction with
  | step x ih =>
    have howned : x.numbered.owned = (rowPlaces x.slot (x.slot + 1) x.row).map instruction := by
      unfold numbered
      rw [rowInstructions_eq, rowPlaces_eq, List.map_flatMap]
      refine List.flatMap_congr fun c hc ↦ ?_
      rw [List.map_flatMap]
      exact List.flatMap_congr fun y hy ↦ ih y ⟨c, hc, hy⟩
    rw [howned]
    rfl

end Place

/-! ### Slots -/

/-- Rows take the slots from one number to another in their order, and leave none out. -/
structure Consecutive (next last : Nat) (places : List Place) : Prop where
  le : next ≤ last
  slots : places.map Place.slot = List.range' next (last - next)

/-- Rows take slots between two numbers, each after the ones before it. -/
structure Ascends (next last : Nat) (places : List Place) : Prop where
  le : next ≤ last
  ascending : places.Pairwise (·.slot < ·.slot)
  range : ∀ y ∈ places, next ≤ y.slot ∧ y.slot < last

namespace Consecutive

variable {next middle last : Nat} {xs ys : List Place}

theorem nil (next : Nat) : Consecutive next next [] :=
  ⟨Nat.le_refl next, by rw [Nat.sub_self]; rfl⟩

theorem append (hx : Consecutive next middle xs) (hy : Consecutive middle last ys) :
    Consecutive next last (xs ++ ys) where
  le := Nat.le_trans hx.le hy.le
  slots := by
    have hx' := hx.le
    have hy' := hy.le
    have hmiddle : middle = next + (middle - next) := by omega
    have hlast : last - next = (middle - next) + (last - middle) := by omega
    rw [List.map_append, hx.slots, hy.slots, hlast, ← List.range'_append_1, ← hmiddle]

/-- One row and those that follow it. -/
theorem cons {y : Place} (hy : Consecutive (y.slot + 1) last ys) :
    Consecutive y.slot last (y :: ys) where
  le := Nat.le_trans (Nat.le_succ _) hy.le
  slots := by
    have hle := hy.le
    have hlast : last - y.slot = (last - (y.slot + 1)) + 1 := by omega
    rw [List.map_cons, hy.slots, hlast, List.range'_succ]

theorem ascends (h : Consecutive next last xs) : Ascends next last xs where
  le := h.le
  ascending := List.pairwise_map.mp (h.slots ▸ List.pairwise_lt_range')
  range y hy := by
    have hmem : y.slot ∈ xs.map Place.slot := List.mem_map_of_mem hy
    have hle := h.le
    rw [h.slots, List.mem_range'_1] at hmem
    omega

theorem length (h : Consecutive next last xs) : last = next + xs.length := by
  have hlength := congrArg List.length h.slots
  have hle := h.le
  rw [List.length_map, List.length_range'] at hlength
  omega

theorem slot_eq (h : Consecutive next last xs) {k : Nat} {y : Place} (hk : xs[k]? = some y) :
    y.slot = next + k := by
  have hslot : (xs.map Place.slot)[k]? = some y.slot := by rw [List.getElem?_map, hk]; rfl
  rw [h.slots] at hslot
  simpa using (List.getElem?_eq_some_iff.mp hslot).2.symm

end Consecutive

section

variable {entity : String} {owner next : Nat}

theorem rowsPlaces_consecutive {rows : List RowDraft}
    (h : ∀ y ∈ rowsChildren entity owner next rows, Consecutive y.slot y.numbered.next y.places) :
    Consecutive next (numberRows entity owner next rows).next
      (rowsPlaces entity owner next rows) := by
  induction rows generalizing next with
  | nil => exact .nil next
  | cons row rest ih =>
    obtain ⟨hfirst, hrest⟩ := List.forall_mem_cons.mp h
    exact hfirst.append (ih hrest)

theorem entryPlaces_consecutive {d : Draft} (name : String)
    (h : ∀ y ∈ entryChildren owner next d, Consecutive y.slot y.numbered.next y.places) :
    Consecutive next (numberEntry owner next name d).next (entryPlaces owner next d) := by
  cases d with
  | single entity row => exact h _ (List.mem_singleton_self _)
  | several entity rows => exact rowsPlaces_consecutive h
  | _ => exact .nil next

theorem rowPlaces_consecutive {row : RowDraft}
    (h : ∀ c ∈ rowChildren owner next row, ∀ y ∈ c.2, Consecutive y.slot y.numbered.next y.places) :
    Consecutive next (numberRow owner next row).next (rowPlaces owner next row) := by
  induction row generalizing next with
  | nil => exact .nil next
  | cons x rest ih =>
    obtain ⟨name, d⟩ := x
    obtain ⟨hfirst, hrest⟩ := List.forall_mem_cons.mp h
    exact (entryPlaces_consecutive name hfirst).append (ih hrest)

end

namespace Place

variable {s : Schema} {e : Entity} {p : Property} {name : String} {x y z : Place}

/-- A row and those below it take all slots from its own to the next free one. -/
theorem places_consecutive (x : Place) : Consecutive x.slot x.numbered.next x.places := by
  induction x using Place.induction with
  | step x ih => exact .cons (rowPlaces_consecutive fun c hc y hy ↦ ih y ⟨c, hc, hy⟩)

theorem places_ascends (x : Place) : Ascends x.slot x.numbered.next x.places :=
  x.places_consecutive.ascends

theorem mem_under {name : String} : y ∈ x.under name ↔ ∃ c ∈ x.children, c.1 = name ∧ y ∈ c.2 := by
  simp [under, and_assoc]

theorem child_of_under {name : String} (hy : y ∈ x.under name) : y.Child x := by
  obtain ⟨c, hc, -, hy⟩ := mem_under.mp hy
  exact ⟨c, hc, hy⟩

theorem under_sublist (x : Place) (name : String) : (x :: x.under name).Sublist x.places := by
  have hself (ys : List Place) : ys.Sublist (ys.flatMap places) := by
    induction ys with
    | nil => exact .slnil
    | cons y ys ih =>
      rw [List.flatMap_cons]
      exact (List.singleton_sublist.mpr y.mem_places_self).append ih
  have hunder (cs : List (String × List Place)) :
      ((cs.filter fun c ↦ c.1 == name).flatMap Prod.snd).Sublist
        (cs.flatMap fun c ↦ c.2.flatMap places) := by
    induction cs with
    | nil => exact .slnil
    | cons c cs ih =>
      rw [List.filter_cons, List.flatMap_cons]
      split
      · rw [List.flatMap_cons]
        exact (hself c.2).append ih
      · exact ih.trans (List.sublist_append_right _ _)
  unfold places
  rw [rowPlaces_eq]
  exact (hunder x.children).cons_cons _

/-- The rows below a row of a create stand in the same order. -/
theorem places_sublist (hy : y ∈ x.places) : y.places.Sublist x.places := by
  induction x using Place.induction with
  | step x ih =>
    rcases Place.mem_places.mp hy with rfl | ⟨z, hz, hy⟩
    · exact .refl _
    obtain ⟨c, hc, hzc⟩ := id hz
    have hbelow : z.places.Sublist (rowPlaces x.slot (x.slot + 1) x.row) := by
      rw [rowPlaces_eq]
      simp only [List.flatMap_def]
      exact (List.sublist_flatten_of_mem (List.mem_map_of_mem hzc)).trans
        (List.sublist_flatten_of_mem
          (List.mem_map_of_mem (f := fun c : String × List Place ↦ (c.2.map places).flatten) hc))
    exact (ih z hz hy).trans (hbelow.cons _)

/-! ### What the rows are -/

/-- The entries of a row fit its entity. -/
structure Fits (s : Schema) (e : Entity) (x : Place) : Prop where
  mem : e ∈ s.entities
  name : e.name = x.entity
  regular : Regular e (taken x.owner.isSome) x.row
  entries : EntriesFit s e x.row

end Place

theorem entryChildren_fit {s : Schema} {p : Property} {owner next : Nat} {d : Draft}
    {y : Place} (h : d.Fits s p) (hy : y ∈ entryChildren owner next d) :
    p.relation? = some (y.entity, .owned) ∧ ∃ e, y.Fits s e := by
  have hsome : y.owner.isSome = true := by
    rw [entryChildren_owner hy]
    rfl
  cases d with
  | single entity row =>
    obtain ⟨r, hkind, hr, htarget, e, he, hname, hregular, hfit⟩ := h
    obtain rfl := List.mem_singleton.mp hy
    exact ⟨by simp [Property.relation?, hkind, hr, htarget], e, he, hname, hregular, hfit⟩
  | several entity rows =>
    obtain ⟨c, hkind, hc, htarget, e, he, hname, hrows⟩ := h
    obtain ⟨hentity, -, hrow⟩ := rowsChildren_row hy
    obtain ⟨hregular, hfit⟩ := rowsFit_iff.mp hrows y.row hrow
    exact ⟨by
      simp [Property.relation?, hkind, hc, htarget, hentity], e, he, hname.trans hentity.symm,
      by rwa [hsome], hfit⟩
  | _ => exact absurd hy List.not_mem_nil

namespace Place

variable {s : Schema} {e : Entity} {p : Property} {name : String} {x y z : Place}

/-- A row is owned over the relation that it is listed under. -/
theorem Fits.child (h : x.Fits s e) {c : String × List Place} (hc : c ∈ x.children) (hy : y ∈ c.2) :
    ∃ p ∈ e.properties, p.name = c.1 ∧ p.relation? = some (y.entity, .owned) ∧ ∃ d, y.Fits s d := by
  obtain ⟨d, next, hmem, heq⟩ := rowChildren_entry hc
  rw [heq] at hy
  obtain ⟨p, hp, hname, hfits⟩ := entriesFit_iff.mp h.entries _ hmem
  obtain ⟨hrelation, hfit⟩ := entryChildren_fit hfits hy
  exact ⟨p, hp, hname, hrelation, hfit⟩

theorem Fits.places (h : x.Fits s e) : ∀ y ∈ x.places, ∃ d, y.Fits s d := by
  induction x using Place.induction generalizing e with
  | step x ih =>
    intro y hy
    rcases Place.mem_places.mp hy with rfl | ⟨z, hz, hy⟩
    · exact ⟨e, h⟩
    · obtain ⟨c, hc, hzc⟩ := hz
      obtain ⟨p, -, -, -, d, hd⟩ := h.child hc hzc
      exact ih z ⟨c, hc, hzc⟩ hd y hy

end Place

end Draft

end EntityStore
