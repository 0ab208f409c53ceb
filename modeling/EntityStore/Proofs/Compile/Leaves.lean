import EntityStore.Proofs.Compile.Acceptance
import EntityStore.Proofs.Compile.Footprint

/-!
What a create keeps of its text. Every literal and every parameter in the body of a create that
compiles stands with its value in the inputs of one instruction, at the place where it is written
(`Schema.compileCreate_keeps`). Only in maps is anything dropped: of entries with the same key the
last one counts.
-/

set_option autoImplicit false

namespace EntityStore

open EntityStore.Language (CreateForm Node)

/-! ### Places in a text -/

/-- A step to an item of a list, or to the entry of an object. -/
inductive NodeStep where
  | item (i : Nat)
  | entry (name : String)

namespace Node

/-- The node that stands at a place below another. Of entries of the same name the last one
counts. -/
inductive Leads : Node Value → List NodeStep → Node Value → Prop where
  | here (n : Node Value) : Leads n [] n
  | item {items : List (Node Value)} {i : Nat} {n m : Node Value} {place : List NodeStep}
    (hn : items[i]? = some n) (h : Leads n place m) : Leads (.list items) (.item i :: place) m
  | entry (before : List (String × Node Value)) {after : List (String × Node Value)}
    {name : String} {n m : Node Value} {place : List NodeStep} (hlast : name ∉ after.map Prod.fst)
    (h : Leads n place m) :
    Leads (.object (before ++ (name, n) :: after)) (.entry name :: place) m

/-- Whether a node is a literal or a parameter. -/
def isLeaf : Node Value → Bool
  | .literal _ | .param _ => true
  | .list _ | .object _ => false

/-- Below a literal or a parameter there is nothing. -/
theorem Leads.of_isLeaf {n m : Node Value} {place : List NodeStep}
    (h : Leads n place m) (hn : isLeaf n) :
    place = [] ∧ m = n := by
  cases h with
  | here => exact ⟨rfl, rfl⟩
  | item => cases hn
  | entry => cases hn

end Node

/-- The value at a place in a list or a map. -/
def Value.at? : List NodeStep → Value → Option Value
  | [], v => some v
  | .item i :: place, .list items => items[i]?.bind (at? place)
  | .entry name :: place, .map entries => (entries.lookup name).bind (at? place)
  | _, _ => none

/-! ### Maps -/

theorem lookup_putSorted {α : Type} (name key : String) (a : α) (entries : List (String × α)) :
    (putSorted key a entries).lookup name = if name = key then some a else entries.lookup name := by
  induction entries with
  | nil =>
    unfold putSorted
    grind
  | cons x entries ih =>
    obtain ⟨k, b⟩ := x
    unfold putSorted
    grind

/-- In a map the last entry of a key counts. -/
theorem lookup_sortEntries {α : Type} (before : List (String × α)) {after : List (String × α)}
    {name : String} (a : α) (hlast : name ∉ after.map Prod.fst) :
    (sortEntries (before ++ (name, a) :: after)).lookup name = some a := by
  have hgo (sorted : List (String × α)) (hsorted : sorted.lookup name = some a) :
      (after.foldl (fun sorted x ↦ putSorted x.1 x.2 sorted) sorted).lookup name = some a := by
    induction after generalizing sorted with
    | nil => exact hsorted
    | cons x after ih =>
      obtain ⟨hfirst, hrest⟩ := not_or.mp (List.mem_cons.not.mp hlast)
      exact ih hrest _ (by rw [lookup_putSorted, if_neg hfirst, hsorted])
  unfold sortEntries
  rw [List.foldl_append]
  exact hgo _ (by rw [lookup_putSorted, if_pos rfl])

namespace Node

variable {args : Args} {n m : Node Value} {v : Value} {place : List NodeStep}

/-- The value of an entry among the values of all. -/
theorem spelled_entry {before after : List (String × Node Value)} {name : String}
    {vs : List (String × Value)}
    (hkeys : vs.map Prod.fst = (before ++ (name, n) :: after).map Prod.fst)
    (hvs : List.Forall₂ (Spells args) ((before ++ (name, n) :: after).map Prod.snd)
      (vs.map Prod.snd)) :
    ∃ ws v ws', vs = ws ++ (name, v) :: ws' ∧ ws'.map Prod.fst = after.map Prod.fst ∧
    Spells args n v := by
  induction before generalizing vs with
  | nil =>
    obtain ⟨x, ws', rfl, rfl, hafter⟩ := List.map_eq_cons_iff.mp hkeys
    exact ⟨[], x.2, ws', rfl, hafter, (List.forall₂_cons.mp hvs).1⟩
  | cons y before ih =>
    obtain ⟨x, vs, rfl, -, hrest⟩ := List.map_eq_cons_iff.mp hkeys
    obtain ⟨ws, v, ws', rfl, hafter, hv⟩ := ih hrest (List.forall₂_cons.mp hvs).2
    exact ⟨x :: ws, v, ws', rfl, hafter, hv⟩

/-- What a list or an object spells has at each place what the node there spells. -/
theorem Spells.at (h : Spells args n v) (hleads : Leads n place m) :
    ∃ w, Spells args m w ∧ v.at? place = some w := by
  induction hleads generalizing v with
  | here n => exact ⟨v, h, rfl⟩
  | @item items i n m place hn hleads ih =>
    cases h with
    | list hvs =>
      obtain ⟨w, hw, hspells⟩ := List.forall₂_getElem? hvs hn
      obtain ⟨u, hu, hat⟩ := ih hspells
      exact ⟨u, hu, by rw [Value.at?, hw]; exact hat⟩
  | @entry before after name n m place hlast hleads ih =>
    cases h with
    | object hkeys hvs =>
      obtain ⟨ws, w, ws', rfl, hafter, hw⟩ := spelled_entry hkeys hvs
      obtain ⟨u, hu, hat⟩ := ih hw
      refine ⟨u, hu, ?_⟩
      rw [Value.ofEntries, Value.at?, lookup_sortEntries ws w (hafter ▸ hlast)]
      exact hat

end Node

/-- Lists and maps are taken as they are. -/
theorem Field.Takes.at_eq {f : Field} {raw v w : Value} (h : f.Takes raw v) {step : NodeStep}
    {place : List NodeStep} (hat : raw.at? (step :: place) = some w) :
    v.at? (step :: place) = some w := by
  cases h with
  | null => cases step <;> cases hat
  | value htype htakes hnarrow haccepts =>
    suffices hsame : v = raw by rw [hsame, hat]
    unfold FieldType.narrow at hnarrow
    split at hnarrow
    · cases step <;> cases hat
    · cases step <;> cases hat
    · cases hnarrow
      rfl

/-! ### Places in a create -/

/-- The property whose entry stands at a place of an object of an entity, or above it, and the way
on from the entry. -/
inductive Schema.Governs (s : Schema) :
    Entity → List NodeStep → Property → List NodeStep → Prop where
  | entry {e : Entity} {name : String} {p : Property} (hget : e.get? name = some p)
    (place : List NodeStep) :
    s.Governs e (.entry name :: place) p place
  | single {e child : Entity} {name : String} {p q : Property} {place inner : List NodeStep}
    (hget : e.get? name = some p) (howned : s.ownedRow? p = some child)
    (h : s.Governs child place q inner) :
    s.Governs e (.entry name :: place) q inner
  | several {e child : Entity} {name : String} {p q : Property}
    {place inner : List NodeStep} (i : Nat) (hget : e.get? name = some p)
    (howned : s.ownedRows? p = some child) (h : s.Governs child place q inner) :
    s.Governs e (.entry name :: .item i :: place) q inner

/-- What a literal or a parameter comes to in the entry of a property: a value of the type of the
field or, within a list or a map, the value as it is; else the rows that it names. -/
inductive Property.Resolves (p : Property) (args : Args) (leaf : Node Value) :
    List NodeStep → InputValue → Prop where
  | field {f : Field} {raw v : Value} (hkind : p.kind = .field f)
    (hspells : Node.Spells args leaf raw) (htakes : f.Takes raw v) :
    p.Resolves args leaf [] (.value v)
  | within {f : Field} {v : Value} (step : NodeStep) (place : List NodeStep)
    (hkind : p.kind = .field f) (hspells : Node.Spells args leaf v) :
    p.Resolves args leaf (step :: place) (.value v)
  | row {r : Reference} {row : RowRef} (hkind : p.kind = .reference r)
    (hnames : Node.NamesRow args leaf row) :
    p.Resolves args leaf [] (.ref row)
  | rows {c : Collection} {rows : List RowRef} (hkind : p.kind = .collection c)
    (hnames : Node.NamesRows args leaf rows) : p.Resolves args leaf [] (.refs rows)
  | element {c : Collection} {row : RowRef} (i : Nat) (hkind : p.kind = .collection c)
    (hnames : Node.NamesRow args leaf row) : p.Resolves args leaf [.item i] (.ref row)

/-- A reference is left out where null is written and it is optional. -/
def Property.LeavesOut (p : Property) (leaf : Node Value) : Prop :=
  leaf = .literal .null ∧ ∃ r, p.kind = .reference r ∧ r.optional

namespace Instruction

/-- What a batch has at a place below the row of an instruction, and the instruction among whose
inputs it is: an input, what is at a place within it, or what is at a place below the row that it
refers to. -/
inductive Leads (batch : List Instruction) : Instruction → List NodeStep → Instruction →
    InputValue → Prop where
  | input {i : Instruction} {name : String} {v : InputValue}
    (hinput : (name, v) ∈ i.action.inputs) :
    Leads batch i [.entry name] i v
  | within {i : Instruction} {name : String} {step : NodeStep} {place : List NodeStep} {v w : Value}
    (hinput : (name, .value v) ∈ i.action.inputs) (hat : v.at? (step :: place) = some w) :
    Leads batch i (.entry name :: step :: place) i (.value w)
  | element {i : Instruction} {name : String} {k : Nat} {rows : List RowRef} {r : RowRef}
    (hinput : (name, .refs rows) ∈ i.action.inputs) (hrow : rows[k]? = some r) :
    Leads batch i [.entry name, .item k] i (.ref r)
  | single {i j k : Instruction} {name : String} {place : List NodeStep} {v : InputValue}
    (hinput : (name, .ref j.ref) ∈ i.action.inputs) (hj : j ∈ batch) (h : Leads batch j place k v) :
    Leads batch i (.entry name :: place) k v
  | several {i j k : Instruction} {name : String} {n : Nat} {rows : List RowRef}
    {place : List NodeStep} {v : InputValue} (hinput : (name, .refs rows) ∈ i.action.inputs)
    (hrow : rows[n]? = some j.ref) (hj : j ∈ batch) (h : Leads batch j place k v) :
    Leads batch i (.entry name :: .item n :: place) k v

namespace Leads

variable {batch : List Instruction} {i j k : Instruction} {place : List NodeStep} {v w : InputValue}

theorem ne_nil (h : Leads batch i place j v) : place ≠ [] := by
  cases h <;> exact List.cons_ne_nil _ _

theorem mem (h : Leads batch i place j v) (hi : i ∈ batch) : j ∈ batch := by
  induction h with
  | input => exact hi
  | within => exact hi
  | element => exact hi
  | single _ hj _ ih => exact ih hj
  | several _ _ hj _ ih => exact ih hj

/-- A place leads to one instruction, if no row has two and inputs of the same name are the same or
values both. -/
theorem unique (h : Leads batch i place j v) (h' : Leads batch i place k w) (hi : i ∈ batch)
    (hrefs : ∀ i ∈ batch, ∀ j ∈ batch, i.ref = j.ref → i = j)
    (hinputs : ∀ i ∈ batch, ∀ name v w, (name, v) ∈ i.action.inputs → (name, w) ∈ i.action.inputs →
      v = w ∨ v.isValue ∧ w.isValue) : k = j := by
  induction h generalizing k w with
  | input =>
    cases h' with
    | input => rfl
    | single _ _ h' => exact absurd rfl h'.ne_nil
  | within hinput =>
    cases h' with
    | within => rfl
    | element hinput' | single hinput' | several hinput' =>
      rcases hinputs _ hi _ _ _ hinput hinput' with heq | ⟨-, hvalue⟩ <;> contradiction
  | element hinput =>
    cases h' with
    | element => rfl
    | within hinput' | single hinput' =>
      rcases hinputs _ hi _ _ _ hinput hinput' with heq | ⟨hvalue, -⟩ <;> contradiction
    | several _ _ _ h' => exact absurd rfl h'.ne_nil
  | @single i j _ name place v hinput hj h ih =>
    cases h' with
    | input => exact absurd rfl h.ne_nil
    | @single _ j' _ _ _ _ hinput' hj' h' =>
      rcases hinputs _ hi _ _ _ hinput hinput' with heq | ⟨hvalue, -⟩
      · obtain rfl := hrefs j hj j' hj' (InputValue.ref.inj heq)
        exact ih h' hj
      · cases hvalue
    | within hinput' | element hinput' | several hinput' =>
      rcases hinputs _ hi _ _ _ hinput hinput' with heq | ⟨hvalue, -⟩ <;> contradiction
  | @several i j _ name n rows place v hinput hrow hj h ih =>
    cases h' with
    | element => exact absurd rfl h.ne_nil
    | @several _ j' _ _ _ _ _ _ hinput' hrow' hj' h' =>
      rcases hinputs _ hi _ _ _ hinput hinput' with heq | ⟨hvalue, -⟩
      · obtain rfl := InputValue.refs.inj heq
        obtain rfl := hrefs j hj j' hj' (Option.some.inj (hrow.symm.trans hrow'))
        exact ih h' hj
      · cases hvalue
    | within hinput' | single hinput' =>
      rcases hinputs _ hi _ _ _ hinput hinput' with heq | ⟨hvalue, -⟩ <;> contradiction

end Leads

end Instruction

namespace Draft

variable {s : Schema} {args : Args} {e : Entity} {p : Property} {d : Draft}
  {named : List String} {name : String} {body : List (String × Node Value)} {leaf n : Node Value}
  {place : List NodeStep}

/-- Without errors every entry is one of a property, and what it stands for is in the draft. -/
theorem entries_mem (h : (entries s args e named body).errors = []) :
    ∀ x ∈ body, ∃ p d, e.get? x.1 = some p ∧ Entered s args ⟨e.name, x.1⟩ p x.2 d ∧
    (x.1, d) ∈ (entries s args e named body).result := by
  induction body generalizing named with
  | nil => exact nofun
  | cons y body ih =>
    obtain ⟨name, node⟩ := y
    obtain ⟨p, hadmitted, hentry, hrest, hresult⟩ := entries_cons_ok h
    rw [hresult]
    refine List.forall_mem_cons.mpr ⟨?_, fun x hx ↦ ?_⟩
    · obtain ⟨d, hd, hentered⟩ := entry_entered hentry
      refine ⟨p, d, admitted_get? hadmitted, hentered, List.mem_append_left _ ?_⟩
      exact Option.mem_toList.mpr (Option.mem_map_of_mem _ hd)
    · obtain ⟨p, d, hget, hentered, hmem⟩ := ih hrest x hx
      exact ⟨p, d, hget, hentered, List.mem_append_right _ hmem⟩

/-- Without errors the elements of an owned collection are objects, and each is drafted as a row. -/
theorem elements_getElem? {target : PropertyKey} {items : List (Node Value)}
    (h : (elements s args target e items).errors = []) {i : Nat} (hi : items[i]? = some n) :
      ∃ body, n = .object body ∧ (entries s args e (taken true) body).errors = [] ∧
      (elements s args target e items).result[i]? =
        some (complete e (taken true ++ body.map Prod.fst)
          (entries s args e (taken true) body)).result := by
  induction items generalizing i with
  | nil => cases hi
  | cons node items ih =>
    cases node with
    | object body =>
      obtain ⟨hrow, hrest⟩ := List.append_eq_nil_iff.mp h
      cases i with
      | zero =>
        cases hi
        exact ⟨body, rfl, errors_of_complete hrow, rfl⟩
      | succ i => exact ih hrest hi
    | literal v => cases h
    | param name => cases h
    | list items => cases h

namespace Place

variable {x y z : Place}

/-- An entry of a row gives its inputs, and the rows that it stands for. -/
theorem exists_numberEntry (h : (name, d) ∈ y.row) :
    ∃ next, (numberEntry y.slot next name d).inputs ⊆ y.inputs ∧
    ∀ z ∈ entryChildren y.slot next d, z.Child y := by
  have hrow (owner next : Nat) (row : RowDraft) (hmem : (name, d) ∈ row) :
      ∃ next', (numberEntry owner next' name d).inputs ⊆ (numberRow owner next row).inputs ∧
        ∀ z ∈ entryChildren owner next' d, ∃ c ∈ rowChildren owner next row, z ∈ c.2 := by
    induction row generalizing next with
    | nil => cases hmem
    | cons x rest ih =>
      obtain ⟨name', d'⟩ := x
      rw [numberRow_cons, Numbered.append, rowChildren]
      rcases List.mem_cons.mp hmem with heq | hmem
      · cases heq
        exact ⟨next, List.subset_append_left _ _, fun z hz ↦ ⟨_, List.mem_cons_self, hz⟩⟩
      · obtain ⟨next', hinputs, hchildren⟩ := ih _ hmem
        refine ⟨next', List.subset_append_of_subset_right _ hinputs, fun z hz ↦ ?_⟩
        obtain ⟨c, hc, hz⟩ := hchildren z hz
        exact ⟨c, List.mem_cons_of_mem _ hc, hz⟩
  obtain ⟨next, hinputs, hchildren⟩ := hrow y.slot (y.slot + 1) y.row h
  exact ⟨next, List.subset_append_of_subset_right _ hinputs, hchildren⟩

theorem exists_input {v : InputValue} (h : (name, .input v) ∈ y.row) : (name, v) ∈ y.inputs := by
  obtain ⟨next, hinputs, -⟩ := exists_numberEntry h
  exact hinputs List.mem_cons_self

theorem exists_single {entity : String} {row : RowDraft} (h : (name, .single entity row) ∈ y.row) :
    ∃ z : Place, z.Child y ∧ z.row = row ∧ (name, .ref z.ref) ∈ y.inputs := by
  obtain ⟨next, hinputs, hchildren⟩ := exists_numberEntry h
  exact ⟨_, hchildren _ List.mem_cons_self, rfl, hinputs List.mem_cons_self⟩

theorem rowsChildren_rows (entity : String) (owner next : Nat) (rows : List RowDraft) :
    (rowsChildren entity owner next rows).map Place.row = rows := by
  induction rows generalizing next with
  | nil => rfl
  | cons row rest ih => exact congrArg (row :: ·) (ih _)

theorem exists_several {entity : String} {rows : List RowDraft}
    (h : (name, .several entity rows) ∈ y.row) :
    ∃ refs, (name, .refs refs) ∈ y.inputs ∧
      ∀ (i : Nat) (row : RowDraft), rows[i]? = some row → ∃ z : Place, z.Child y ∧ z.row = row ∧
      refs[i]? = some z.ref := by
  obtain ⟨next, hinputs, hchildren⟩ := exists_numberEntry h
  refine ⟨_, hinputs List.mem_cons_self, fun i row hi ↦ ?_⟩
  rw [← rowsChildren_rows entity y.slot next rows, List.getElem?_map] at hi
  obtain ⟨z, hz, rfl⟩ := Option.map_eq_some_iff.mp hi
  refine ⟨z, hchildren z (List.mem_of_getElem? hz), rfl, ?_⟩
  rw [numberRows_trees, List.map_map, List.getElem?_map, hz]
  rfl

/-- What a row keeps of the leaf at a place of the text below it: nothing if the leaf leaves out a
reference, else what the leaf comes to. -/
def Keeps (s : Schema) (args : Args) (x y : Place) (e : Entity) (place : List NodeStep)
    (leaf : Node Value) : Prop :=
  ∃ p inner, s.Governs e place p inner ∧ (p.LeavesOut leaf ∨
    ∃ i v, Instruction.Leads (x.places.map instruction) y.instruction place i v ∧
    p.Resolves args leaf inner v)

/-- A row keeps what is kept by one that it owns. -/
theorem Keeps.single {child : Entity} (h : Keeps s args x z child place leaf) (hz : z ∈ x.places)
    (hget : e.get? name = some p) (howned : s.ownedRow? p = some child)
    (hinput : (name, .ref z.ref) ∈ y.inputs) :
    Keeps s args x y e (.entry name :: place) leaf := by
  obtain ⟨q, inner, hgoverns, hkept⟩ := h
  refine ⟨q, inner, .single hget howned hgoverns, hkept.imp_right ?_⟩
  rintro ⟨i, v, hleads, hresolves⟩
  exact ⟨i, v, .single hinput (List.mem_map_of_mem hz) hleads, hresolves⟩

theorem Keeps.several {child : Entity} {i : Nat} {rows : List RowRef}
    (h : Keeps s args x z child place leaf) (hz : z ∈ x.places) (hget : e.get? name = some p)
    (howned : s.ownedRows? p = some child) (hinput : (name, .refs rows) ∈ y.inputs)
    (hrow : rows[i]? = some z.ref) :
    Keeps s args x y e (.entry name :: .item i :: place) leaf := by
  obtain ⟨q, inner, hgoverns, hkept⟩ := h
  refine ⟨q, inner, .several i hget howned hgoverns, hkept.imp_right ?_⟩
  rintro ⟨j, v, hleads, hresolves⟩
  exact ⟨j, v, .several hinput hrow (List.mem_map_of_mem hz) hleads, hresolves⟩

/-- The entry of a field keeps a leaf in the value of the field. -/
theorem keeps_field {f : Field} {raw v : Value} (hget : e.get? name = some p)
    (hkind : p.kind = .field f) (hspells : Node.Spells args n raw) (htakes : f.Takes raw v)
    (hinput : (name, .value v) ∈ y.inputs) (hleads : Node.Leads n place leaf) :
    Keeps s args x y e (.entry name :: place) leaf := by
  obtain ⟨w, hw, hat⟩ := hspells.at hleads
  refine ⟨p, place, .entry hget place, .inr ?_⟩
  cases place with
  | nil =>
    cases hleads
    exact ⟨y.instruction, _, .input hinput, .field hkind hspells htakes⟩
  | cons step place =>
    exact ⟨y.instruction, _, .within hinput (htakes.at_eq hat), .within step place hkind hw⟩

/-- The entry of linked rows keeps a leaf among them. -/
theorem keeps_rows {c : Collection} {rows : List RowRef} (hget : e.get? name = some p)
    (hkind : p.kind = .collection c) (hnames : Node.NamesRows args n rows)
    (hinput : (name, .refs rows) ∈ y.inputs) (hleads : Node.Leads n place leaf) :
    Keeps s args x y e (.entry name :: place) leaf := by
  refine ⟨p, place, .entry hget place, .inr ?_⟩
  cases hleads with
  | here => exact ⟨y.instruction, _, .input hinput, .rows hkind hnames⟩
  | @item items i m _ place hm hleads =>
    cases hnames with
    | list hrows =>
      obtain ⟨r, hr, hrow⟩ := List.forall₂_getElem? hrows hm
      have hm : Node.isLeaf m := by cases hrow <;> rfl
      obtain ⟨rfl, rfl⟩ := hleads.of_isLeaf hm
      exact ⟨y.instruction, _, .element hinput hr, .element i hkind hrow⟩
  | entry => cases hnames

/-- Every leaf in the object of a row is kept below the row. -/
theorem keeps_leaf (hleaf : Node.isLeaf leaf) {y : Place} {e : Entity} {named : List String}
    {body : List (String × Node Value)} (hy : y ∈ x.places)
    (herrors : (entries s args e named body).errors = [])
    (hrow : ∀ z ∈ (entries s args e named body).result, z ∈ y.row) {place : List NodeStep}
    (hleads : Node.Leads (.object body) place leaf) : Keeps s args x y e place leaf := by
  -- the recursion is on the place: the way into an owned row takes one step off it, into an element
  -- two
  cases hleads with
  | here => cases hleaf
  | @entry before after name n _ place hlast hleads =>
    obtain ⟨p, d, hget, hentered, hmem⟩ :=
      entries_mem herrors (name, n) (List.mem_append_right _ List.mem_cons_self)
    have hdraft := hrow _ hmem
    dsimp only at hget hentered hdraft
    cases hentered with
    | field hkind hvalue =>
      obtain ⟨raw, hspells, htakes⟩ := Node.fieldValue_eq_ok.mp hvalue
      exact keeps_field hget hkind hspells htakes (exists_input hdraft) hleads
    | absent hkind hoptional =>
      obtain ⟨rfl, rfl⟩ := hleads.of_isLeaf rfl
      exact ⟨p, [], .entry hget [], .inl ⟨rfl, _, hkind, hoptional⟩⟩
    | @owned r child _ hkind hr hchild hbody =>
      obtain ⟨z, hz, hzrow, hinput⟩ := exists_single hdraft
      have hmem := hz.mem_places hy
      have howned : s.ownedRow? p = some child := by
        rw [Schema.ownedRow?_reference hkind, if_pos hr, hchild]
      refine (keeps_leaf hleaf hmem (errors_of_complete hbody) (fun c hc ↦ ?_) hleads).single
        hmem hget howned hinput
      exact hzrow ▸ List.mem_append_left _ hc
    | linked hkind hr hlinked =>
      have hnames := Node.rowRef_eq_ok.mp hlinked
      have hn : Node.isLeaf n := by cases hnames <;> rfl
      obtain ⟨rfl, rfl⟩ := hleads.of_isLeaf hn
      exact ⟨p, [], .entry hget [],
        .inr ⟨y.instruction, _, .input (exists_input hdraft), .row hkind hnames⟩⟩
    | @ownedMany c child _ hkind hc hchild hitems =>
      obtain ⟨rows, hinput, hrows⟩ := exists_several hdraft
      cases hleads with
      | here => cases hleaf
      | item hn hleads =>
        obtain ⟨body, rfl, hbody, hresult⟩ := elements_getElem? hitems hn
        obtain ⟨z, hz, hzrow, hroot⟩ := hrows _ _ hresult
        have hmem := hz.mem_places hy
        have howned : s.ownedRows? p = some child := by
          rw [Schema.ownedRows?_collection hkind, if_pos hc, hchild]
        refine (keeps_leaf hleaf hmem hbody (fun c hc ↦ ?_) hleads).several hmem
          hget howned hinput hroot
        exact hzrow ▸ List.mem_append_left _ hc
    | linkedMany hkind hc hrows =>
      exact keeps_rows hget hkind (Node.rowRefs_eq_ok.mp hrows) (exists_input hdraft) hleads
termination_by place.length

end Place

end Draft

/-- In the inputs of a compiled create those of the same name are the same, or are both values. -/
theorem Entity.Creates.eq_or_isValue {e : Entity} {inputs : Inputs} (he : e.WellFormed)
    (h : e.Creates inputs) {name : String} {v w : InputValue} (hv : (name, v) ∈ inputs)
    (hw : (name, w) ∈ inputs) :
    v = w ∨ v.isValue ∧ w.isValue := by
  -- what a property is set to tells its kind
  have hkind {a b : String × InputValue} (ha : a ∈ inputs) (hb : b ∈ inputs) (hname : a.1 = b.1)
      (hvalue : a.2.isValue) :
      b.2.isValue := by
    obtain ⟨-, p, hp, hpname, hcreates⟩ := h.property a ha
    obtain ⟨-, q, hq, hqname, hcreates'⟩ := h.property b hb
    obtain rfl := he.indexed.eq_of_name_eq hp hq (hpname.trans (hname.trans hqname.symm))
    obtain ⟨name, v⟩ := a
    obtain ⟨name', w⟩ := b
    cases v with
    | value v =>
      obtain ⟨f, hf, -⟩ := hcreates
      cases w with
      | value w => rfl
      | _ => simp [Property.Creates, hf] at hcreates'
    | _ => cases hvalue
  by_cases hne : v = w
  · exact .inl hne
  · have hboth : inputs.Pairwise fun a b ↦ a.1 = b.1 → a.2.isValue ∧ b.2.isValue :=
      h.once.imp_of_mem fun ha hb honce hname ↦ ⟨honce hname, hkind ha hb hname (honce hname)⟩
    have : Std.Symm fun a b : String × InputValue ↦ a.1 = b.1 → a.2.isValue ∧ b.2.isValue :=
      ⟨fun a b hab hname ↦ (hab hname.symm).symm⟩
    exact .inr (hboth.forall hv hw (fun heq ↦ hne (congrArg Prod.snd heq)) rfl)

/-- A create keeps the text of its body. -/
structure Creation.Keeps (c : Creation) (s : Schema) (args : Args) (e : Entity)
    (body : List (String × Node Value)) :
    Prop where
  /-- No object that is compiled to a row has two entries of the same name. -/
  once : ∀ o ∈ Nested.objects s e body, (o.body.map Prod.fst).Nodup
  /-- Every literal and every parameter is a null that leaves out an optional reference, or stands
  with its value at its place among the inputs of one instruction. -/
  leaf : ∃ root, c.instructions.head? = some root ∧ ∀ place leaf, Node.Leads
    (.object body) place leaf → Node.isLeaf leaf →
    ∃ p inner, s.Governs e place p inner ∧ (p.LeavesOut leaf ∨ ∃ i ∈ c.instructions,
      (∃ v, Instruction.Leads c.instructions root place i v ∧ p.Resolves args leaf inner v) ∧
      ∀ j w, Instruction.Leads c.instructions root place j w → j = i)

namespace Schema

variable {s : Schema} {args : Args} {slots : Slots} {form : CreateForm Value} {c : Creation}

/-- A create that compiles loses no entry of an object that is compiled to a row, and within lists
and maps none but those that a later entry of the same key replaces. -/
theorem compileCreate_keeps (hs : s.Reachable) (h : s.compileCreate form args slots = .ok c) :
    ∃ e ∈ s.entities, e.name = form.entity ∧ c.Keeps s args e form.body := by
  have hwell := hs.wellFormed
  obtain ⟨x, e, hfit, howner, hentity, -, hinstructions, -, -, hrow, herrors⟩ :=
    compileCreate_place hwell h
  have hbody := Draft.errors_of_complete herrors
  refine ⟨e, hfit.mem, hfit.name.trans hentity,
    ⟨fun o ho ↦ ?_, x.instruction, ?_, fun place leaf hleads hleaf ↦ ?_⟩⟩
  · obtain ⟨hmem, hfaultless⟩ :=
      Draft.objects_faultless hwell hfit.mem herrors o ho (decide (o.path ≠ [])) (by simp)
    exact ((Draft.entries_exact hwell hmem _ o.body _).mp
      ⟨Draft.errors_of_complete hfaultless, rfl⟩).2.1
  · rw [hinstructions]
    rfl
  have hkept : x.Keeps s args x e place leaf :=
    Draft.Place.keeps_leaf hleaf x.mem_places_self hbody
      (fun z hz ↦ hrow ▸ List.mem_append_left _ hz) hleads
  obtain ⟨p, inner, hgoverns, hkept⟩ := hkept
  rw [← hinstructions] at hkept
  refine ⟨p, inner, hgoverns, hkept.imp_right ?_⟩
  rintro ⟨i, v, hi, hresolves⟩
  have hroot : x.instruction ∈ c.instructions :=
    hinstructions ▸ List.mem_map_of_mem x.mem_places_self
  refine ⟨i, hi.mem hroot, ⟨v, hi, hresolves⟩,
    fun j w hj ↦ hi.unique hj hroot (fun j hj k hk href ↦ ?_) fun j hj ↦ ?_⟩
  · rw [hinstructions] at hj hk
    obtain ⟨y, hy, rfl⟩ := List.mem_map.mp hj
    obtain ⟨z, hz, rfl⟩ := List.mem_map.mp hk
    have hnodup : (x.places.map Draft.Place.slot).Nodup :=
      x.places_consecutive.slots ▸ List.nodup_range'
    rw [List.inj_on_of_nodup_map hnodup hy hz (RowRef.pending.inj href)]
  · obtain ⟨d, hd, -, hcreates⟩ := (compileCreate_shaped hwell h j hj).entity
    rw [hinstructions] at hj
    obtain ⟨y, hy, rfl⟩ := List.mem_map.mp hj
    have hinputs : d.Creates y.inputs := hcreates
    exact fun name v w hv hw ↦ hinputs.eq_or_isValue (hwell.entity d hd) hv hw

theorem compileCreate_keeps_of_orders :
    ∃ c, (Schema.empty.after ordersCalls).compileCreate orderForm [] ⟨3, []⟩ = .ok c ∧
      ∃ e ∈ (Schema.empty.after ordersCalls).entities, e.name = orderForm.entity ∧
        c.Keeps (Schema.empty.after ordersCalls) [] e orderForm.body := by
  obtain ⟨c, hc⟩ : ∃ c, (Schema.empty.after ordersCalls).compileCreate orderForm []
    ⟨3, []⟩ = .ok c := ⟨_, rfl⟩
  exact ⟨c, hc, compileCreate_keeps ⟨ordersCalls, rfl⟩ hc⟩

/-- Notes with tags. -/
def tagsCalls : List Schema.Call :=
  [.addEntity "Note" .master, .addProperty "Note" (.field "tags" (.ofType .map)), .commit]

/-- A note with a tag that is given twice. -/
def tagsForm : CreateForm Value :=
  ⟨"Note", [("tags", .object [("a", .literal (.long 1)), ("a", .literal (.long 2))])]⟩

/-- In a map, unlike in the object of a row, an entry is lost to a later one of the same name: the
create compiles, and the number of the first is found nowhere in it. -/
theorem map_entry_lost :
    ∃ entries, ("tags", Language.Node.object entries) ∈ tagsForm.body ∧
      ("a", Language.Node.literal (.long 1)) ∈ entries ∧
      ∃ c root, (Schema.empty.after tagsCalls).compileCreate tagsForm [] ⟨0, []⟩ = .ok c ∧
        c.instructions = [root] ∧ ∀ place i v, Instruction.Leads c.instructions root place i v →
        v ≠ .value (.long 1) := by
  obtain ⟨c, hc, root, hroot, hinputs⟩ : ∃ c, (Schema.empty.after tagsCalls).compileCreate tagsForm
      [] ⟨0, []⟩ = .ok c ∧ ∃ root, c.instructions = [root] ∧
      root.action.inputs = [("tags", .value (.map [("a", .long 2)]))] :=
    ⟨_, rfl, _, rfl, rfl⟩
  refine ⟨_, List.mem_cons_self, List.mem_cons_self, c, root, hc, hroot, ?_⟩
  rintro place i _ h rfl
  cases h with
  | input hinput =>
    rw [hinputs] at hinput
    cases List.mem_singleton.mp hinput
  | @within _ _ step place _ _ hinput hat =>
    rw [hinputs] at hinput
    cases List.mem_singleton.mp hinput
    cases step with
    | item k => cases hat
    | entry key =>
      unfold Value.at? at hat
      obtain ⟨w, hw, hat⟩ := Option.bind_eq_some_iff.mp hat
      cases List.mem_singleton.mp (mem_of_lookup hw)
      rcases place with _ | ⟨_ | _, _⟩ <;> cases hat
  | single hinput =>
    rw [hinputs] at hinput
    cases List.mem_singleton.mp hinput
  | several hinput =>
    rw [hinputs] at hinput
    cases List.mem_singleton.mp hinput

end Schema

end EntityStore
