import EntityStore.Proofs.Compile.Inputs
import EntityStore.Proofs.Compile.Operand

/-!
The instructions of a create. A draft without errors has an entry for every required input of its
rows, and none of their relations twice; numbering its rows turns every one into an instruction with
the same entries.
-/

set_option autoImplicit false

namespace EntityStore

open EntityStore.Language (Node)

/-- Only a field that is optional or derived is left without a value. -/
def Property.Permits (p : Property) : InputValue → Prop
  | .value v => v.isNull → ∃ f, p.kind = .field f ∧ (f.optional ∨ f.derive.isSome)
  | _ => True

/-- No field is both given and derived. -/
def Entity.DerivesNoInput (e : Entity) : Prop :=
  ∀ p ∈ e.inputs, ∀ f, p.kind = .field f → f.derive = none

namespace Draft

def isValue : Draft → Bool
  | .input v => v.isValue
  | _ => false

/-- The entries of a row, of which the names in `taken` are set elsewhere: no relation twice, and
all that is required. -/
structure Regular (e : Entity) (taken : List String) (row : RowDraft) : Prop where
  free : ∀ x ∈ row, x.1 ∉ taken
  input : ∀ x ∈ row, x.1 ≠ idName
  once : row.Pairwise fun x y ↦ x.1 = y.1 → x.2.isValue
  complete : ∀ p ∈ e.inputs, ¬p.isOptional → p.name ∈ taken ++ row.map Prod.fst
  distinct : e.DerivesNoInput → (row.map Prod.fst).Nodup

mutual

/-- What an entry stands for is of the kind of its property. -/
def Fits (s : Schema) (p : Property) : Draft → Prop
  | .input v => p.Creates v ∧ ¬p.isOwned ∧ p.Permits v
  | .absent => ∃ r, p.kind = .reference r ∧ r.optional
  | .single entity row => ∃ r, p.kind = .reference r ∧ r.kind = .owned ∧ r.target = entity ∧
    ∃ d ∈ s.entities, d.name = entity ∧ Regular d (taken true) row ∧ EntriesFit s d row
  | .several entity rows => ∃ c, p.kind = .collection c ∧ c.kind = .owned ∧ c.target = entity ∧
    ∃ d ∈ s.entities, d.name = entity ∧ RowsFit s d rows

def EntriesFit (s : Schema) (e : Entity) : List (String × Draft) → Prop
  | [] => True
  | (name, d) :: rest => (∃ p ∈ e.properties, p.name = name ∧ d.Fits s p) ∧ EntriesFit s e rest

def RowsFit (s : Schema) (e : Entity) : List (List (String × Draft)) → Prop
  | [] => True
  | row :: rest => (Regular e (taken true) row ∧ EntriesFit s e row) ∧ RowsFit s e rest

end

variable {s : Schema} {args : Args} {e d : Entity} {p : Property} {named : List String}
  {name : String} {target : PropertyKey}

theorem entriesFit_append {row rest : RowDraft} : EntriesFit s e (row ++ rest) ↔
    EntriesFit s e row ∧ EntriesFit s e rest := by
  induction row with
  | nil => simp [EntriesFit]
  | cons x row ih =>
    obtain ⟨name, d⟩ := x
    simp only [List.cons_append, EntriesFit, ih, and_assoc]

theorem entriesFit_iff {row : RowDraft} :
    EntriesFit s e row ↔ ∀ x ∈ row, ∃ p ∈ e.properties, p.name = x.1 ∧ x.2.Fits s p := by
  induction row with
  | nil => simp [EntriesFit]
  | cons x row ih =>
    obtain ⟨name, d⟩ := x
    rw [EntriesFit, ih, List.forall_mem_cons]

theorem rowsFit_iff {rows : List RowDraft} :
    RowsFit s e rows ↔ ∀ row ∈ rows, Regular e (taken true) row ∧ EntriesFit s e row := by
  induction rows with
  | nil => simp [RowsFit]
  | cons row rows ih => rw [RowsFit, ih, List.forall_mem_cons]

/-! ### Reading objects -/

theorem admitted_get? (h : admitted e named name = .ok p) : e.get? name = some p := by
  unfold admitted at h
  split at h
  · cases h
  · split at h
    · cases h
    · next hget =>
      split at h
      · cases h
        exact hget
      · cases h

/-- Without errors the first entry is admitted, and it and the others are compiled without an
error. -/
theorem entries_cons_ok {name : String} {node : Node Value} {rest : List (String × Node Value)}
    {named : List String} (h : (entries s args e named ((name, node) :: rest)).errors = []) :
      ∃ p, admitted e named name = .ok p ∧ (entry s args ⟨e.name, name⟩ p node).errors = [] ∧
      (entries s args e (name :: named) rest).errors = [] ∧
        (entries s args e named ((name, node) :: rest)).result =
          ((entry s args ⟨e.name, name⟩ p node).result.map (name, ·)).toList ++
          (entries s args e (name :: named) rest).result := by
  rw [entries] at h ⊢
  obtain ⟨hentry, hrest⟩ := List.append_eq_nil_iff.mp h
  cases hadmitted : admitted e named name with
  | error err =>
    rw [hadmitted] at hentry
    cases hentry
  | ok p =>
    rw [hadmitted] at hentry
    exact ⟨p, rfl, hentry, hrest, rfl⟩

/-- What an entry of a property stands for, if it has no errors. -/
inductive Entered (s : Schema) (args : Args) (target : PropertyKey) (p : Property) :
    Node Value → Draft → Prop where
  | field {f : Field} {node : Node Value} {v : Value} (hkind : p.kind = .field f)
      (hvalue : Node.fieldValue args target f node = .ok v) :
      Entered s args target p node (.input (.value v))
  | absent {r : Reference} (hkind : p.kind = .reference r) (hoptional : r.optional) :
      Entered s args target p (.literal .null) .absent
  | owned {r : Reference} {d : Entity} {body : List (String × Node Value)}
      (hkind : p.kind = .reference r) (hr : r.kind = .owned) (hget : s.get? r.target = some d)
      (hbody : (complete d (taken true ++ body.map Prod.fst)
        (entries s args d (taken true) body)).errors = []) :
      Entered s args target p (.object body) (.single d.name
        (complete d (taken true ++ body.map Prod.fst)
          (entries s args d (taken true) body)).result)
  | linked {r : Reference} {node : Node Value} {row : RowRef} (hkind : p.kind = .reference r)
      (hr : r.kind = .linked) (hrow : Node.rowRef args target node = .ok row) :
      Entered s args target p node (.input (.ref row))
  | ownedMany {c : Collection} {d : Entity} {items : List (Node Value)}
      (hkind : p.kind = .collection c) (hc : c.kind = .owned) (hget : s.get? c.target = some d)
      (hitems : (elements s args target d items).errors = []) :
      Entered s args target p (.list items)
        (.several d.name (elements s args target d items).result)
  | linkedMany {c : Collection} {node : Node Value} {rows : List RowRef}
      (hkind : p.kind = .collection c) (hc : c.kind = .linked)
      (hrows : Node.rowRefs args target node = .ok rows) :
      Entered s args target p node (.input (.refs rows))

theorem ofExcept_eq_ok {α : Type} {f : α → Draft} {outcome : Except CompileError α}
    (h : (Checked.ofExcept f outcome).errors = []) :
    ∃ a, outcome = .ok a ∧ (Checked.ofExcept f outcome).result = some (f a) := by
  cases outcome with
  | ok a => exact ⟨a, rfl, rfl⟩
  | error err => cases h

theorem entry_entered {node : Node Value} : (entry s args target p node).errors = [] →
    ∃ d, (entry s args target p node).result = some d ∧ Entered s args target p node d := by
  -- the cases left to the last are those that report an error
  fun_cases entry s args target p node with
  | case1 f =>
    rename_i hkind
    intro h
    obtain ⟨v, hv, hresult⟩ := ofExcept_eq_ok h
    exact ⟨_, hresult, .field hkind hv⟩
  | case2 r hkind hoptional => exact fun _ ↦ ⟨_, rfl, .absent hkind hoptional⟩
  | case5 child optional unique body hkind d hget => exact fun h ↦ ⟨_, rfl, .owned hkind rfl hget h⟩
  | case7 =>
    rename_i hkind _
    intro h
    obtain ⟨row, hrow, hresult⟩ := ofExcept_eq_ok h
    exact ⟨_, hresult, .linked hkind rfl hrow⟩
  | case9 child items hkind d hget => exact fun h ↦ ⟨_, rfl, .ownedMany hkind rfl hget h⟩
  | case11 =>
    rename_i hkind
    intro h
    obtain ⟨rows, hrows, hresult⟩ := ofExcept_eq_ok h
    exact ⟨_, hresult, .linkedMany hkind rfl hrows⟩
  | _ => exact nofun

theorem Entered.entry_eq {node : Node Value} {d : Draft} (h : Entered s args target p node d) :
    entry s args target p node = ⟨[], some d⟩ := by
  cases h with
  | field hkind hvalue =>
    unfold entry
    simp only [hkind, hvalue, Checked.ofExcept]
  | absent hkind hoptional =>
    unfold entry
    simp only [hkind, hoptional, ↓reduceIte]
  | @owned r _ _ hkind hr hget hbody =>
    obtain ⟨_, child, optional, unique⟩ := r
    cases hr
    unfold entry
    simp only [hkind, hget, hbody]
  | @linked r _ _ hkind hr hrow =>
    obtain ⟨_, child, optional, unique⟩ := r
    cases hr
    cases Node.rowRef_eq_ok.mp hrow <;>
    · unfold entry
      simp only [hkind, hrow, Checked.ofExcept]
  | @ownedMany c _ _ hkind hc hget hitems =>
    obtain ⟨_, child⟩ := c
    cases hc
    unfold entry
    simp only [hkind, hget, hitems]
  | @linkedMany c _ _ hkind hc hrows =>
    obtain ⟨_, child⟩ := c
    cases hc
    unfold entry
    simp only [hkind, hrows, Checked.ofExcept]

theorem admitted_ok (he : e.WellFormed) (h : admitted e named name = .ok p) :
    p ∈ e.properties ∧ p.name = name ∧ name ∉ named ∧ p.input := by
  unfold admitted at h
  split at h
  · cases h
  · next hnamed =>
    split at h
    · cases h
    · next q hget =>
      obtain ⟨hp, hname⟩ := (Entity.get?_eq_some_iff he).mp hget
      split at h
      · next hinput =>
        cases h
        exact ⟨hp, hname, by simpa using hnamed, hinput⟩
      · cases h

theorem derived_ok {entity : String} {given : List (String × Value)} {f : Field}
    {x : String × Draft} (h : derived entity given name f = some (.ok x)) :
    f.derive.isSome ∧ ∃ v, x = (name, .input (.value v)) ∧ f.type.Holds v := by
  obtain ⟨derive, hderive, h⟩ := Option.map_eq_some_iff.mp h
  dsimp only at h
  split at h
  · next hfits =>
    cases h
    refine ⟨Option.isSome_of_eq_some hderive, _, rfl, ?_⟩
    rw [Bool.or_eq_true, Bool.or_eq_true] at hfits
    rcases hfits with (hnull | hcontainer) | htype
    · exact .inl hnull
    · exact .inr (.inl hcontainer)
    · exact .inr (.inr (by simpa [Value.hasType] using htype))
  · cases h

/-- The entries read from an object under names that are still free. -/
structure Read (s : Schema) (e : Entity) (named : List String) (row : RowDraft) : Prop where
  fits : EntriesFit s e row
  once : (row.map Prod.fst).Nodup
  free : ∀ x ∈ row, x.1 ∉ named
  input : ∀ x ∈ row, x.1 ≠ idName
  given : ∀ x ∈ row, ∃ p ∈ e.inputs, p.name = x.1

/-- The entries that are added to a row: the values derived of those that are given. -/
def derivedRow (e : Entity) (given : List (String × Value)) : RowDraft :=
  (e.fields.filterMap fun (name, f) ↦ derived e.name given name f).filterMap Except.toOption

/-- An entry that is added is a value of a field, which is neither the row number nor the owner. -/
structure IsDerived (s : Schema) (e : Entity) (x : String × Draft) : Prop where
  ne_id : x.1 ≠ idName
  ne_parent : x.1 ≠ parentName
  isValue : x.2.isValue
  property :
    ∃ p ∈ e.properties, p.name = x.1 ∧ (∃ f, p.kind = .field f ∧ f.derive.isSome) ∧ x.2.Fits s p

theorem isDerived_of_mem (hs : s.WellFormed) (he : e ∈ s.entities) {given : List (String × Value)}
    {x : String × Draft} (hx : x ∈ derivedRow e given) : IsDerived s e x := by
  obtain ⟨outcome, hmem, hx⟩ := List.mem_filterMap.mp hx
  obtain rfl := Except.toOption_eq_some_iff.mp hx
  obtain ⟨⟨name, f⟩, hfield, hx⟩ := List.mem_filterMap.mp hmem
  obtain ⟨p, hp, hfield⟩ := List.mem_filterMap.mp hfield
  obtain ⟨g, hkind, hfield⟩ := Option.map_eq_some_iff.mp hfield
  cases hfield
  obtain ⟨hderive, v, rfl, hholds⟩ := derived_ok hx
  have hkind : p.kind = .field f := Property.field?_eq_some_iff.mp hkind
  refine ⟨fun hid ↦ ?_, fun hparent ↦ ?_, rfl, p, hp, rfl, ⟨f, hkind, hderive⟩,
    ⟨f, hkind, hholds⟩, ?_, fun _ ↦ ⟨f, hkind, .inr hderive⟩⟩
  · rw [(hs.entity e he).eq_id hp hid] at hkind
    cases hkind
    cases hderive
  · obtain ⟨r, hr⟩ := Update.isParent_reference hs he hp (Property.isParent_iff.mpr hparent)
    cases hkind.symm.trans hr
  · simp [Property.isOwned, Property.relation?, hkind]

theorem Fits.isValue {d : Draft} (h : d.Fits s p) {f : Field} (hkind : p.kind = .field f) :
    d.isValue := by
  cases d with
  | input v => cases v <;> simp_all [Fits, Property.Creates, Draft.isValue, InputValue.isValue]
  | _ => simp_all [Fits]

/-- No field is derived twice. -/
theorem derivedRow_nodup (he : e.WellFormed) (given : List (String × Value)) :
    ((derivedRow e given).map Prod.fst).Nodup := by
  have hfields : e.fields.Pairwise fun x y ↦ x.1 ≠ y.1 := by
    refine (List.pairwise_map.mp he.indexed.nodup).filterMap _ fun p q hne x hx y hy ↦ ?_
    obtain ⟨f, -, rfl⟩ := Option.map_eq_some_iff.mp hx
    obtain ⟨g, -, rfl⟩ := Option.map_eq_some_iff.mp hy
    exact hne
  have houtcomes :
      (e.fields.filterMap fun (name, f) ↦ derived e.name given name f).Pairwise fun a b ↦
      ∀ x y, a = .ok x → b = .ok y → x.1 ≠ y.1 := by
    refine hfields.filterMap _ fun x y hne a ha b hb u v hu hv ↦ ?_
    obtain ⟨-, _, rfl, -⟩ := derived_ok (hu ▸ ha)
    obtain ⟨-, _, rfl, -⟩ := derived_ok (hv ▸ hb)
    exact hne
  refine List.pairwise_map.mpr (houtcomes.filterMap _ fun a b hne x hx y hy ↦ ?_)
  exact hne x y (Except.toOption_eq_some_iff.mp hx) (Except.toOption_eq_some_iff.mp hy)

section

variable {row : RowDraft} (hread : Read s e named row) (hs : s.WellFormed) (he : e ∈ s.entities)
  (given : List (String × Value))

include hread hs he

theorem Read.entriesFit : EntriesFit s e (row ++ derivedRow e given) := by
  refine entriesFit_append.mpr ⟨hread.fits, entriesFit_iff.mpr fun x hx ↦ ?_⟩
  obtain ⟨p, hp, hname, -, hfits⟩ := (isDerived_of_mem hs he hx).property
  exact ⟨p, hp, hname, hfits⟩

/-- An entry of a name that is derived as well is a value. -/
theorem Read.isValue {x y : String × Draft} (hx : x ∈ row) (hy : IsDerived s e y)
    (hname : x.1 = y.1) : x.2.isValue := by
  obtain ⟨p, hp, hpname, ⟨f, hkind, -⟩, -⟩ := hy.property
  obtain ⟨q, hq, hqname, hfits⟩ := entriesFit_iff.mp hread.fits x hx
  obtain rfl := (hs.entity e he).indexed.eq_of_name_eq hq hp (by rw [hqname, hname, hpname])
  exact hfits.isValue hkind

/-- What is derived is not given unless an input is derived. -/
theorem Read.name_ne (hnone : e.DerivesNoInput) {x y : String × Draft} (hx : x ∈ row)
    (hy : IsDerived s e y) :
    x.1 ≠ y.1 := by
  intro heq
  obtain ⟨p, hp, hpname⟩ := hread.given x hx
  obtain ⟨q, hq, hqname, ⟨f, hkind, hderive⟩, -⟩ := hy.property
  obtain rfl := (hs.entity e he).indexed.eq_of_name_eq hq (List.mem_filter.mp hp).1
    (hqname.trans (heq.symm.trans hpname.symm))
  rw [hnone q hp f hkind] at hderive
  cases hderive

/-- A row with what is derived of it is regular if nothing is missing. -/
theorem Read.regular (hnamed : ∀ name ∈ named, name = parentName)
    (hmissing : missing e (named ++ row.map Prod.fst) = []) :
    Regular e named (row ++ derivedRow e given) where
  free := List.forall_mem_append.mpr
    ⟨hread.free, fun x hx hin ↦ (isDerived_of_mem hs he hx).ne_parent (hnamed _ hin)⟩
  input := List.forall_mem_append.mpr ⟨hread.input, fun x hx ↦ (isDerived_of_mem hs he hx).ne_id⟩
  once := by
    refine List.pairwise_append.mpr ⟨?_, ?_, fun x hx y hy hname ↦ ?_⟩
    · exact (List.pairwise_map.mp hread.once).imp fun hne heq ↦ absurd heq hne
    · exact List.pairwise_of_forall_mem_list fun x hx y hy _ ↦ (isDerived_of_mem hs he hx).isValue
    · exact hread.isValue hs he hx (isDerived_of_mem hs he hy) hname
  complete p hp hrequired := by
    have hp := List.filter_eq_nil_iff.mp (List.map_eq_nil_iff.mp hmissing) p hp
    rw [List.map_append, ← List.append_assoc]
    refine List.mem_append_left _ ?_
    simpa [hrequired, or_iff_not_imp_left] using hp
  distinct hnone := by
    rw [List.map_append]
    refine List.nodup_append.mpr ⟨hread.once, derivedRow_nodup (hs.entity e he) given,
      fun name hname name' hname' ↦ ?_⟩
    obtain ⟨x, hx, rfl⟩ := List.mem_map.mp hname
    obtain ⟨y, hy, rfl⟩ := List.mem_map.mp hname'
    exact hread.name_ne hs he hnone hx (isDerived_of_mem hs he hy)

end

/-- A completed row lacks nothing. -/
theorem complete_fit (hs : s.WellFormed) (he : e ∈ s.entities) {object : Checked RowDraft}
    {names : List String} (h : (complete e (named ++ names) object).errors = [])
    (hnames : object.result.map Prod.fst = names) (hread : Read s e named object.result)
    (hnamed : ∀ name ∈ named, name = parentName) :
    Regular e named (complete e (named ++ names) object).result ∧
      EntriesFit s e (complete e (named ++ names) object).result := by
  have hmissing : missing e (named ++ names) = [] :=
    (List.append_eq_nil_iff.mp (List.append_eq_nil_iff.mp h).1).2
  exact ⟨hread.regular hs he (values object.result) hnamed (hnames ▸ hmissing),
    hread.entriesFit hs he (values object.result)⟩

/-- The objects of an owned entity that are read to rows which fit. -/
def Reads (s : Schema) (args : Args) (d : Entity) (body : List (String × Node Value)) : Prop :=
  (entries s args d (taken true) body).errors = [] →
    (entries s args d (taken true) body).result.map Prod.fst = body.map Prod.fst ∧
      Read s d (taken true) (entries s args d (taken true) body).result

theorem Reads.complete {body : List (String × Node Value)} (hs : s.WellFormed) (hd : d ∈ s.entities)
    (hreads : Reads s args d body) (h : (complete d (taken true ++ body.map Prod.fst)
      (entries s args d (taken true) body)).errors = []) :
    Regular d (taken true) (complete d (taken true ++ body.map Prod.fst)
      (entries s args d (taken true) body)).result ∧
    EntriesFit s d (complete d (taken true ++ body.map Prod.fst)
      (entries s args d (taken true) body)).result := by
  have hobject := (List.append_eq_nil_iff.mp (List.append_eq_nil_iff.mp h).1).1
  obtain ⟨hnames, hread⟩ := hreads hobject
  exact complete_fit hs hd h hnames hread (by simp [taken])

/-- An entry fits if the rows below it do. -/
theorem entry_fits (hs : s.WellFormed) {node : Node Value}
    (hobject : ∀ body, node = .object body → ∀ d ∈ s.entities, Reads s args d body)
    (hlist : ∀ items, node = .list items →
      ∀ d ∈ s.entities, (elements s args target d items).errors = [] →
      RowsFit s d (elements s args target d items).result)
    (h : (entry s args target p node).errors = []) :
    ∃ d, (entry s args target p node).result = some d ∧ d.Fits s p := by
  obtain ⟨d, hresult, hentered⟩ := entry_entered h
  refine ⟨d, hresult, ?_⟩
  cases hentered with
  | field hkind hvalue =>
    refine ⟨⟨_, hkind, Node.fieldValue_holds hvalue⟩, by
      simp [Property.isOwned, Property.relation?, hkind], fun hnull ↦ ?_⟩
    obtain ⟨raw, -, htakes⟩ := Node.fieldValue_eq_ok.mp hvalue
    exact ⟨_, hkind, .inl (htakes.optional hnull)⟩
  | absent hkind hoptional => exact ⟨_, hkind, hoptional⟩
  | owned hkind hr hget hbody =>
    obtain ⟨hd, hname⟩ := (Schema.get?_eq_some_iff hs).mp hget
    exact ⟨_, hkind, hr, hname.symm, _, hd, rfl, (hobject _ rfl _ hd).complete hs hd hbody⟩
  | linked hkind hr =>
    exact ⟨⟨_, hkind⟩, by simp [Property.isOwned, Property.relation?, hkind, hr], trivial⟩
  | ownedMany hkind hc hget hitems =>
    obtain ⟨hd, hname⟩ := (Schema.get?_eq_some_iff hs).mp hget
    exact ⟨_, hkind, hc, hname.symm, _, hd, rfl, hlist _ rfl _ hd hitems⟩
  | linkedMany hkind hc =>
    exact ⟨⟨_, hkind⟩, by simp [Property.isOwned, Property.relation?, hkind, hc], trivial⟩

mutual

theorem entries_read (hs : s.WellFormed) {e : Entity} (he : e ∈ s.entities) (named : List String) :
    ∀ body : List (String × Node Value), (entries s args e named body).errors = [] →
      (entries s args e named body).result.map Prod.fst = body.map Prod.fst ∧
        Read s e named (entries s args e named body).result
  | [], _ => ⟨rfl, trivial, .nil, nofun, nofun, nofun⟩
  | (name, node) :: rest, h => by
    obtain ⟨p, hadmitted, hentry, hrest, hresult⟩ := entries_cons_ok h
    obtain ⟨hnames, hread⟩ := entries_read hs he (name :: named) rest hrest
    obtain ⟨hp, rfl, hnew, hinput⟩ := admitted_ok (hs.entity e he) hadmitted
    obtain ⟨d, hd, hfits⟩ := node_fits hs p ⟨e.name, p.name⟩ node hentry
    rw [hresult, hd, Option.map_some, Option.toList_some, List.singleton_append, List.map_cons,
      List.map_cons, hnames]
    have hfree : ∀ x ∈ (entries s args e (p.name :: named) rest).result, x.1 ≠ p.name ∧
        x.1 ∉ named := fun x hx ↦ by
      simpa using hread.free x hx
    refine ⟨rfl, ⟨⟨p, hp, rfl, hfits⟩, hread.fits⟩, List.nodup_cons.mpr ⟨fun hmem ↦ ?_, hread.once⟩,
      List.forall_mem_cons.mpr ⟨hnew, fun x hx ↦ (hfree x hx).2⟩,
      List.forall_mem_cons.mpr ⟨Update.input_ne_id (hs.entity e he) hp hinput, hread.input⟩,
      List.forall_mem_cons.mpr ⟨⟨p, List.mem_filter.mpr ⟨hp, hinput⟩, rfl⟩, hread.given⟩⟩
    obtain ⟨x, hx, hname⟩ := List.mem_map.mp hmem
    exact (hfree x hx).1 hname

theorem node_fits (hs : s.WellFormed) (p : Property) (target : PropertyKey) :
    ∀ node : Node Value, (entry s args target p node).errors = [] →
      ∃ d, (entry s args target p node).result = some d ∧ d.Fits s p
  | .literal v => entry_fits hs nofun nofun
  | .param name => entry_fits hs nofun nofun
  | .list items => entry_fits hs nofun fun items' heq d hd h ↦ by
    cases heq
    exact elements_fit hs hd target items h
  | .object body => entry_fits hs (fun body' heq d hd h ↦ by
    cases heq
    exact entries_read hs hd (taken true) body h) nofun

theorem elements_fit (hs : s.WellFormed) {d : Entity} (hd : d ∈ s.entities) (target : PropertyKey) :
    ∀ items : List (Node Value), (elements s args target d items).errors = [] →
      RowsFit s d (elements s args target d items).result
  | [], _ => trivial
  | .object body :: rest, h => by
    unfold elements at h ⊢
    obtain ⟨hrow, hrest⟩ := List.append_eq_nil_iff.mp h
    have hreads : Reads s args d body := entries_read hs hd (taken true) body
    exact ⟨hreads.complete hs hd hrow, elements_fit hs hd target rest hrest⟩
  | .literal v :: rest, h => by cases h
  | .param name :: rest, h => by cases h
  | .list items :: rest, h => by cases h

end

/-- The draft of an object that no other row owns. -/
theorem row_fits (hs : s.WellFormed) (he : e ∈ s.entities) {body : List (String × Node Value)}
    (h : (row s args e body).errors = []) :
    Regular e [] (row s args e body).result ∧ EntriesFit s e (row s args e body).result := by
  have hobject := (List.append_eq_nil_iff.mp (List.append_eq_nil_iff.mp h).1).1
  obtain ⟨hnames, hread⟩ := entries_read hs he (taken false) body hobject
  exact complete_fit hs he h hnames hread (List.forall_mem_nil _)

/-! ### Numbering rows -/

/-- An entry gives at most one input. Without one its reference is optional. -/
theorem numberEntry_inputs {d : Draft} (h : d.Fits s p) (owner next : Nat) (name : String) :
    (∃ v, (numberEntry owner next name d).inputs = [(name, v)] ∧ p.Creates v ∧
        (d.isValue → v.isValue)) ∨
      (numberEntry owner next name d).inputs = [] ∧ p.isOptional := by
  cases d with
  | input v => exact .inl ⟨v, rfl, h.1, id⟩
  | absent =>
    obtain ⟨r, hkind, hoptional⟩ := h
    exact .inr ⟨rfl, by simp [Property.isOptional, hkind, hoptional]⟩
  | single entity row =>
    obtain ⟨r, hkind, -⟩ := h
    exact .inl ⟨_, rfl, ⟨r, hkind⟩, nofun⟩
  | several entity rows =>
    obtain ⟨c, hkind, -⟩ := h
    exact .inl ⟨_, rfl, ⟨c, hkind⟩, nofun⟩

theorem numberRow_cons (owner next : Nat) (name : String) (d : Draft) (rest : RowDraft) :
    numberRow owner next ((name, d) :: rest) = (numberEntry owner next name d).append
      (numberRow owner (numberEntry owner next name d).next rest) :=
  rfl

/-- Every input of a row comes from an entry, which is a value only if the input is. -/
theorem mem_numberRow_inputs {row : RowDraft} (h : EntriesFit s e row) {owner next : Nat}
    {x : String × InputValue} (hx : x ∈ (numberRow owner next row).inputs) :
    (∃ d, (x.1, d) ∈ row) ∧ ∃ p ∈ e.properties, p.name = x.1 ∧ p.Creates x.2 := by
  induction row generalizing next with
  | nil => cases hx
  | cons y row ih =>
    obtain ⟨name, d⟩ := y
    obtain ⟨⟨p, hp, rfl, hfits⟩, hrow⟩ := h
    rw [numberRow_cons, Numbered.append] at hx
    rcases List.mem_append.mp hx with hx | hx
    · rcases numberEntry_inputs hfits owner next p.name with ⟨v, hv, hcreates, -⟩ | ⟨hnone, -⟩
      · rw [hv] at hx
        obtain rfl := List.mem_singleton.mp hx
        exact ⟨⟨d, List.mem_cons_self⟩, p, hp, rfl, hcreates⟩
      · rw [hnone] at hx
        cases hx
    · obtain ⟨⟨d', hd'⟩, hproperty⟩ := ih hrow hx
      exact ⟨⟨d', List.mem_cons_of_mem _ hd'⟩, hproperty⟩

theorem numberRow_once {row : RowDraft} (h : EntriesFit s e row)
    (honce : row.Pairwise fun x y ↦ x.1 = y.1 → x.2.isValue) (owner next : Nat) :
    (numberRow owner next row).inputs.Pairwise fun x y ↦ x.1 = y.1 → x.2.isValue := by
  induction row generalizing next with
  | nil => exact .nil
  | cons y row ih =>
    obtain ⟨name, d⟩ := y
    obtain ⟨⟨p, hp, rfl, hfits⟩, hrow⟩ := h
    obtain ⟨hfirst, honce⟩ := List.pairwise_cons.mp honce
    have hrest := ih hrow honce (numberEntry owner next p.name d).next
    rw [numberRow_cons, Numbered.append]
    rcases numberEntry_inputs hfits owner next p.name with ⟨v, hv, -, hvalue⟩ | ⟨hnone, -⟩
    · rw [hv]
      refine List.pairwise_cons.mpr ⟨fun x hx hname ↦ ?_, hrest⟩
      obtain ⟨⟨d', hd'⟩, -⟩ := mem_numberRow_inputs hrow hx
      exact hvalue (hfirst _ hd' hname)
    · rw [hnone]
      exact hrest

/-- What is required has an input. -/
theorem numberRow_complete {row : RowDraft} (h : EntriesFit s e row) (owner next : Nat)
    {x : String × Draft} (hx : x ∈ row) : ∃ p ∈ e.properties, p.name = x.1 ∧
      (p.isOptional ∨ ∃ v, (p.name, v) ∈ (numberRow owner next row).inputs ∧ p.Creates v) := by
  induction row generalizing next with
  | nil => cases hx
  | cons y row ih =>
    obtain ⟨name, d⟩ := y
    obtain ⟨⟨p, hp, rfl, hfits⟩, hrow⟩ := h
    rw [numberRow_cons, Numbered.append]
    rcases List.mem_cons.mp hx with rfl | hx
    · refine ⟨p, hp, rfl, ?_⟩
      rcases numberEntry_inputs hfits owner next p.name with ⟨v, hv, hcreates, -⟩ | ⟨-, hoptional⟩
      · exact .inr ⟨v, List.mem_append_left _ (hv ▸ List.mem_singleton_self _), hcreates⟩
      · exact .inl hoptional
    · obtain ⟨q, hq, hname, hor⟩ := ih hrow _ hx
      exact ⟨q, hq, hname,
        hor.imp_right fun ⟨v, hv, hcreates⟩ ↦ ⟨v, List.mem_append_right _ hv, hcreates⟩⟩

/-- The input for the owner of a row. -/
def parentInput (owner : Option RowRef) : Inputs :=
  (owner.map fun r ↦ (parentName, InputValue.ref r)).toList

theorem mem_parentInput {owner : Option RowRef} {x : String × InputValue} :
    x ∈ parentInput owner ↔ ∃ r, owner = some r ∧ x = (parentName, .ref r) := by
  unfold parentInput
  rw [Option.mem_toList, Option.map_eq_some_iff]
  simp only [eq_comm]

/-- The inputs of a row: its owner, if there is one, and its entries. -/
theorem creates_of_row (hs : s.WellFormed) (he : e ∈ s.entities) {row : RowDraft}
    {owner : Option RowRef} (hregular : Regular e (taken owner.isSome) row)
    (hfit : EntriesFit s e row) (hparent : owner.isSome → ∃ p ∈ e.properties, p.name = parentName)
    (slot next : Nat) :
    e.Creates (parentInput owner ++ (numberRow slot next row).inputs) where
  property x hx := by
    rcases List.mem_append.mp hx with hx | hx
    · obtain ⟨r, rfl, rfl⟩ := mem_parentInput.mp hx
      obtain ⟨p, hp, hname⟩ := hparent rfl
      refine ⟨show parentName ≠ idName by decide, p, hp, hname, ?_⟩
      exact Update.isParent_reference hs he hp (Property.isParent_iff.mpr hname)
    · obtain ⟨⟨d, hd⟩, hproperty⟩ := mem_numberRow_inputs hfit hx
      exact ⟨hregular.input _ hd, hproperty⟩
  once := by
    refine List.pairwise_append.mpr ⟨?_, numberRow_once hfit hregular.once slot next,
      fun x hx y hy hname ↦ ?_⟩
    · cases owner with
      | none => exact .nil
      | some r => exact List.pairwise_singleton _ _
    · obtain ⟨r, rfl, rfl⟩ := mem_parentInput.mp hx
      obtain ⟨⟨d, hd⟩, -⟩ := mem_numberRow_inputs hfit hy
      refine absurd ?_ (hregular.free _ hd)
      rw [← hname]
      exact List.mem_singleton_self parentName
  complete p hp r hkind hrequired := by
    have hcomplete := hregular.complete p hp (by simpa [Property.isOptional, hkind] using hrequired)
    rcases List.mem_append.mp hcomplete with hname | hname
    · cases owner with
      | none => cases hname
      | some r =>
        rw [List.mem_singleton.mp hname]
        exact ⟨r, List.mem_append_left _ (mem_parentInput.mpr ⟨r, rfl, rfl⟩)⟩
    · obtain ⟨x, hx, hname⟩ := List.mem_map.mp hname
      obtain ⟨q, hq, hqname, hor⟩ := numberRow_complete hfit slot next hx
      obtain rfl :=
        (hs.entity e he).indexed.eq_of_name_eq hq (List.mem_filter.mp hp).1 (hqname.trans hname)
      rcases hor with hoptional | ⟨v, hv, hcreates⟩
      · exact absurd (by simpa [Property.isOptional, hkind] using hoptional) hrequired
      · cases v with
        | ref row => exact ⟨row, List.mem_append_right _ hv⟩
        | _ => simp [Property.Creates, hkind] at hcreates

/-- The owner of an entity is known to it. -/
theorem parent_of_owned (hs : s.WellFormed) (he : e ∈ s.entities) (hp : p ∈ e.properties)
    (hd : d ∈ s.entities) (howned : p.relation? = some (d.name, .owned)) :
    ∃ q ∈ d.properties, q.name = parentName := by
  obtain ⟨own, hown⟩ := hs.ownership d hd
  have howns : s.Owns e.name p d.name := ⟨⟨e, he, rfl, hp⟩, Property.owned?_eq_some_iff.mpr howned⟩
  cases hown with
  | free _ hnone _ => exact absurd howns (hnone _ _)
  | owned _ _ hback _ => exact ⟨_, ((hback _).mpr rfl).1, rfl⟩

theorem instructions_shaped (hs : s.WellFormed) (he : e ∈ s.entities) {row : RowDraft}
    (owner : Option RowRef) (hregular : Regular e (taken owner.isSome) row)
    (hfit : EntriesFit s e row) (hparent : owner.isSome → ∃ p ∈ e.properties, p.name = parentName)
    (slot next : Nat) (howned : ∀ i ∈ (numberRow slot next row).owned, i.Shaped s) :
    ∀ i ∈ instructions e.name owner slot row (numberRow slot next row), i.Shaped s :=
  List.forall_mem_cons.mpr ⟨⟨e, he, rfl, creates_of_row hs he hregular hfit hparent slot next⟩,
    howned⟩

mutual

theorem numberEntry_shaped (hs : s.WellFormed) {e : Entity} (he : e ∈ s.entities) {p : Property}
    (hp : p ∈ e.properties) (owner next : Nat) (name : String) :
    ∀ d : Draft, d.Fits s p → ∀ i ∈ (numberEntry owner next name d).owned, i.Shaped s
  | .input v, _ => nofun
  | .absent, _ => nofun
  | .single entity row, h => by
    obtain ⟨r, hkind, hr, htarget, d, hd, rfl, hregular, hfit⟩ := h
    have hparent := parent_of_owned hs he hp hd (by simp [Property.relation?, hkind, hr, htarget])
    exact instructions_shaped hs hd (some (.pending owner)) hregular hfit
      (fun _ ↦ hparent) next (next + 1) (numberRow_shaped hs hd next (next + 1) row hfit)
  | .several entity rows, h => by
    obtain ⟨c, hkind, hc, htarget, d, hd, rfl, hrows⟩ := h
    have hparent := parent_of_owned hs he hp hd (by simp [Property.relation?, hkind, hc, htarget])
    exact numberRows_shaped hs hd hparent owner next rows hrows

theorem numberRow_shaped (hs : s.WellFormed) {e : Entity} (he : e ∈ s.entities) (owner next : Nat) :
    ∀ row : List (String × Draft), EntriesFit s e row →
    ∀ i ∈ (numberRow owner next row).owned, i.Shaped s
  | [], _ => nofun
  | (name, d) :: rest, h => by
    obtain ⟨⟨p, hp, -, hfits⟩, hrest⟩ := h
    intro i hi
    rcases List.mem_append.mp hi with hi | hi
    · exact numberEntry_shaped hs he hp owner next name d hfits i hi
    · exact numberRow_shaped hs he owner _ rest hrest i hi

theorem numberRows_shaped (hs : s.WellFormed) {d : Entity} (hd : d ∈ s.entities)
    (hparent : ∃ q ∈ d.properties, q.name = parentName) (owner next : Nat) :
    ∀ rows : List (List (String × Draft)), RowsFit s d rows →
      ∀ i ∈ (numberRows d.name owner next rows).instructions, i.Shaped s
  | [], _ => nofun
  | row :: rest, h => by
    obtain ⟨⟨hregular, hfit⟩, hrest⟩ := h
    intro i hi
    rcases List.mem_append.mp hi with hi | hi
    · exact instructions_shaped hs hd (some (.pending owner)) hregular hfit
        (fun _ ↦ hparent) next (next + 1) (numberRow_shaped hs hd next (next + 1) row hfit) i hi
    · exact numberRows_shaped hs hd hparent owner _ rest hrest i hi

end

end Draft

namespace Schema

variable {s : Schema} {i : Instruction}

/-- A create compiles to the instructions of its rows if no entry of any of them is an error. -/
theorem compileCreate_ok_iff {form : Language.CreateForm Value} {args : Args}
    {slots : Slots} {c : Creation} :
    s.compileCreate form args slots = .ok c ↔
      ∃ e n, s.get? form.entity = some e ∧ (Draft.row s args e form.body).errors = [] ∧
        n = Draft.numberRow slots.next (slots.next + 1) (Draft.row s args e form.body).result ∧
        c = ⟨Draft.instructions e.name none slots.next (Draft.row s args e form.body).result n,
          Draft.tree slots.next n, { slots with next := n.next }⟩ := by
  unfold compileCreate
  cases s.get? form.entity with
  | none => exact iff_of_false nofun nofun
  | some e =>
    dsimp only
    constructor
    · intro h
      split at h
      · next herrors =>
        cases h
        exact ⟨e, _, rfl, List.isEmpty_iff.mp herrors, rfl, rfl⟩
      · cases h
    · rintro ⟨_, _, ⟨⟩, herrors, rfl, rfl⟩
      rw [if_pos (List.isEmpty_iff.mpr herrors)]

theorem compileCreate_shaped (hs : s.WellFormed) {form : Language.CreateForm Value}
    {args : Args} {slots : Slots} {c : Creation} (h : s.compileCreate form args slots = .ok c) :
    ∀ i ∈ c.instructions, i.Shaped s := by
  obtain ⟨e, _, hget, herrors, rfl, rfl⟩ := compileCreate_ok_iff.mp h
  obtain ⟨he, -⟩ := (get?_eq_some_iff hs).mp hget
  obtain ⟨hregular, hfit⟩ := Draft.row_fits hs he herrors
  exact Draft.instructions_shaped hs he none hregular hfit nofun _ _
    (Draft.numberRow_shaped hs he _ _ _ hfit)

/-- A compiled instruction sets properties of its entity only, none of its relations twice and, if
it creates a row, all that is required. -/
theorem Compiles.shaped (hs : s.WellFormed) (h : s.Compiles i) : i.Shaped s := by
  cases h with
  | create h hi => exact compileCreate_shaped hs h i hi
  | update h => exact compileUpdate_shaped hs h
  | delete h => exact compileDelete_shaped hs h

end Schema

end EntityStore
