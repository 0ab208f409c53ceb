import EntityStore.Compile.Operand
import EntityStore.Proofs.Outcome
import EntityStore.Proofs.Value.Typing

/-!
What the nodes of a text stand for under arguments: values, which a field may take, and rows. The
operands that compile are those that stand for something (`fieldValue_eq_ok`, `rowRef_eq_ok`,
`rowRefs_eq_ok`).
-/

set_option autoImplicit false

namespace EntityStore

open EntityStore.Language (Node)

/-- What a field comes to hold of a value it is given: nothing if it is optional, else a value of a
type that it takes, narrowed to its own, if its check approves. -/
inductive Field.Takes (f : Field) : Value → Value → Prop where
  | null (h : f.optional) : Takes f .null .null
  | value {raw v : Value} {attempted : FieldType} (htype : raw.type? = some attempted)
      (htakes : f.type.takes attempted) (hnarrow : f.type.narrow raw = .ok v)
      (haccepts : f.accepts v) : Takes f raw v

/-- A value with a type is not null. -/
theorem Value.not_isNull {v : Value} {t : FieldType} (h : v.type? = some t) : ¬v.isNull := by
  cases v with
  | null => cases h
  | _ => exact Bool.false_ne_true

namespace Node

/-- The values that nodes spell: literals, what parameters are bound to, and lists and maps of
such. -/
inductive Spells (args : Args) : Node Value → Value → Prop where
  | literal (v : Value) : Spells args (.literal v) v
  | param {name : String} {v : Value} (h : args.lookup name = some (.value v)) :
      Spells args (.param name) v
  | list {items : List (Node Value)} {vs : List Value} (h : List.Forall₂ (Spells args) items vs) :
      Spells args (.list items) (.list vs)
  | object {entries : List (String × Node Value)} {vs : List (String × Value)}
      (hkeys : vs.map Prod.fst = entries.map Prod.fst)
      (h : List.Forall₂ (Spells args) (entries.map Prod.snd) (vs.map Prod.snd)) :
      Spells args (.object entries) (.ofEntries vs)

/-- The row that a node names, by its number or by a parameter. -/
inductive NamesRow (args : Args) : Node Value → RowRef → Prop where
  | literal (id : Int64) : NamesRow args (.literal (.long id)) (.known id)
  | ref {name : String} {r : RowRef} (h : args.lookup name = some (.ref r)) :
      NamesRow args (.param name) r
  | number {name : String} {v : Value} {id : Int64} (h : args.lookup name = some (.value v))
      (hid : v.asLong? = some id) :
      NamesRow args (.param name) (.known id)

/-- The rows that a node names, one by one or by a parameter. -/
inductive NamesRows (args : Args) : Node Value → List RowRef → Prop where
  | list {items : List (Node Value)} {rows : List RowRef}
      (h : List.Forall₂ (NamesRow args) items rows) :
      NamesRows args (.list items) rows
  | refs {name : String} {rows : List RowRef} (h : args.lookup name = some (.refs rows)) :
      NamesRows args (.param name) rows
  | ref {name : String} {r : RowRef} (h : args.lookup name = some (.ref r)) :
      NamesRows args (.param name) [r]
  | numbers {name : String} {items : List Value} {ids : List Int64}
      (h : args.lookup name = some (.value (.list items)))
      (hids : items.map Value.asLong? = ids.map some) :
      NamesRows args (.param name) (ids.map .known)

variable {args : Args} {target : PropertyKey} {f : Field} {n : Node Value} {v : Value}

mutual

theorem plain_eq_ok : ∀ (n : Node Value) {v : Value}, plain args target n = .ok v ↔ Spells args n v
  | .literal w, v => by
    constructor
    · rintro ⟨⟩
      exact .literal w
    · rintro ⟨⟩
      rfl
  | .param name, v => by
    unfold plain
    constructor
    · intro h
      split at h
      · next hlookup =>
        cases h
        exact .param hlookup
      · cases h
    · rintro (_ | hlookup)
      rw [hlookup]
  | .list items, v => by
    unfold plain
    rw [Except.map_eq_ok]
    constructor
    · rintro ⟨vs, hvs, rfl⟩
      exact .list ((plainItems_eq_ok items).mp hvs)
    · rintro (_ | _ | hvs)
      exact ⟨_, (plainItems_eq_ok items).mpr hvs, rfl⟩
  | .object entries, v => by
    unfold plain
    rw [Except.map_eq_ok]
    constructor
    · rintro ⟨vs, hvs, rfl⟩
      obtain ⟨hkeys, hvs⟩ := (plainEntries_eq_ok entries).mp hvs
      exact .object hkeys hvs
    · rintro (_ | _ | _ | ⟨hkeys, hvs⟩)
      exact ⟨_, (plainEntries_eq_ok entries).mpr ⟨hkeys, hvs⟩, rfl⟩

theorem plainItems_eq_ok : ∀ (items : List (Node Value)) {vs : List Value},
    plainItems args target items = .ok vs ↔ List.Forall₂ (Spells args) items vs
  | [], vs => by
    rw [List.forall₂_nil_left_iff]
    exact ⟨fun h ↦ by cases h; rfl, fun h ↦ h ▸ rfl⟩
  | n :: ns, vs => by
    unfold plainItems
    simp only [Except.bind_eq_ok, List.forall₂_cons_left_iff, plain_eq_ok n, plainItems_eq_ok ns]
    constructor
    · rintro ⟨v, hv, vs, hvs, ⟨⟩⟩
      exact ⟨v, vs, hv, hvs, rfl⟩
    · rintro ⟨v, vs, hv, hvs, rfl⟩
      exact ⟨v, hv, vs, hvs, rfl⟩

theorem plainEntries_eq_ok : ∀ (entries : List (String × Node Value)) {vs : List (String × Value)},
    plainEntries args target entries = .ok vs ↔ vs.map Prod.fst = entries.map Prod.fst ∧
      List.Forall₂ (Spells args) (entries.map Prod.snd) (vs.map Prod.snd)
  | [], vs => by
    simp only [List.map_nil, List.map_eq_nil_iff, List.forall₂_nil_left_iff, and_self]
    exact ⟨fun h ↦ by cases h; rfl, fun h ↦ h ▸ rfl⟩
  | (key, n) :: ns, vs => by
    unfold plainEntries
    simp only [Except.bind_eq_ok, plain_eq_ok n, plainEntries_eq_ok ns]
    constructor
    · rintro ⟨v, hv, vs, ⟨hkeys, hvs⟩, ⟨⟩⟩
      exact ⟨congrArg (key :: ·) hkeys, .cons hv hvs⟩
    · rintro ⟨hkeys, hvs⟩
      cases vs with
      | nil => cases hkeys
      | cons x vs =>
        obtain ⟨key', v⟩ := x
        obtain ⟨hkey, hrest⟩ := List.cons_eq_cons.mp hkeys
        obtain rfl : key' = key := hkey
        obtain ⟨hv, hvs⟩ := List.forall₂_cons.mp hvs
        exact ⟨v, hv, vs, ⟨hrest, hvs⟩, rfl⟩

end

/-- A parameter at the place of a field is a value like any other node. -/
theorem given_eq_ok {type : FieldType} : given args target type n = .ok v ↔ Spells args n v := by
  unfold given
  split
  · next name =>
    constructor
    · intro h
      split at h
      · next hlookup =>
        cases h
        exact .param hlookup
      · cases h
      · cases h
    · rintro (_ | hlookup)
      rw [hlookup]
  · exact plain_eq_ok n

theorem fieldValue_eq_ok : fieldValue args target f n = .ok v ↔
    ∃ raw, Spells args n raw ∧ f.Takes raw v := by
  unfold fieldValue
  simp only [Except.bind_eq_ok, given_eq_ok]
  refine exists_congr fun raw ↦ and_congr_right fun _ ↦ ?_
  constructor
  · intro h
    split at h
    · next hnull =>
      obtain rfl : raw = .null := by cases raw <;> first | rfl | cases hnull
      split at h
      · next hoptional =>
        cases h
        exact .null hoptional
      · cases h
    · obtain ⟨w, hfit, h⟩ := Except.bind_eq_ok.mp h
      split at h
      · next haccepts =>
        cases h
        have hfit := Except.mapError_eq_ok.mp hfit
        unfold FieldType.fit at hfit
        split at hfit
        · cases hfit
        · next htype =>
          split at hfit
          · next htakes => exact .value htype htakes (Except.mapError_eq_ok.mp hfit) haccepts
          · cases hfit
      · cases h
  · intro h
    cases h with
    | null hoptional =>
      rw [if_pos hoptional]
      rfl
    | value htype htakes hnarrow haccepts =>
      have hfit : f.type.fit raw = .ok v := by
        simp [FieldType.fit, htype, htakes, hnarrow, Except.mapError]
      rw [if_neg (Value.not_isNull htype), hfit]
      exact if_pos haccepts

theorem rowRef_eq_ok {r : RowRef} : rowRef args target n = .ok r ↔ NamesRow args n r := by
  constructor
  · intro h
    unfold rowRef at h
    split at h
    · cases h
      exact .literal _
    · split at h
      · next hlookup =>
        cases h
        exact .ref hlookup
      · next hlookup =>
        split at h
        · next hid =>
          cases h
          exact .number hlookup hid
        · cases h
      · cases h
      · cases h
    · cases h
  · intro h
    cases h with
    | literal id => rfl
    | ref hlookup => simp [rowRef, hlookup]
    | number hlookup hid => simp [rowRef, hlookup, hid]

theorem numberedRows_eq_ok {name : String} {items : List Value} {rows : List RowRef} :
    numberedRows name target items = .ok rows ↔
      ∃ ids : List Int64, items.map Value.asLong? = ids.map some ∧ rows = ids.map .known := by
  unfold numberedRows
  induction items generalizing rows with
  | nil =>
    constructor
    · rintro ⟨⟩
      exact ⟨[], rfl, rfl⟩
    · rintro ⟨ids, hids, rfl⟩
      rw [List.map_eq_nil_iff.mp hids.symm]
      rfl
  | cons v items ih =>
    simp only [List.mapM_cons, Except.bind_eq_ok, ih]
    constructor
    · rintro ⟨r, hr, rows, ⟨ids, hids, rfl⟩, ⟨⟩⟩
      split at hr
      · next id hid =>
        cases hr
        exact ⟨id :: ids, by rw [List.map_cons, hid, hids]; rfl, rfl⟩
      · cases hr
    · rintro ⟨ids, hids, rfl⟩
      cases ids with
      | nil => cases hids
      | cons id ids =>
        obtain ⟨hid, hids⟩ := List.cons_eq_cons.mp hids
        exact ⟨.known id, by rw [hid], _, ⟨ids, hids, rfl⟩, rfl⟩

theorem rowRefs_eq_ok {rows : List RowRef} : rowRefs args target n = .ok rows ↔
    NamesRows args n rows := by
  constructor
  · intro h
    unfold rowRefs at h
    split at h
    · exact .list ((Except.mapM_eq_ok.mp h).imp fun _ _ ↦ rowRef_eq_ok.mp)
    · split at h
      · next hlookup =>
        cases h
        exact .refs hlookup
      · next hlookup =>
        cases h
        exact .ref hlookup
      · next hlookup =>
        obtain ⟨ids, hids, rfl⟩ := numberedRows_eq_ok.mp h
        exact .numbers hlookup hids
      · cases h
      · cases h
    · cases h
  · intro h
    cases h with
    | list hrows => exact Except.mapM_eq_ok.mpr (hrows.imp fun _ _ ↦ rowRef_eq_ok.mpr)
    | refs hlookup => simp [rowRefs, hlookup]
    | ref hlookup => simp [rowRefs, hlookup]
    | numbers hlookup hids =>
      simp only [rowRefs, hlookup]
      exact numberedRows_eq_ok.mpr ⟨_, hids, rfl⟩

end Node

/-- A field is left without a value only if it may be. -/
theorem Field.Takes.optional {f : Field} {raw v : Value} (h : f.Takes raw v)
    (hnull : v.isNull) : f.optional := by
  cases h with
  | null hoptional => exact hoptional
  | value htype htakes hnarrow =>
    exfalso
    unfold FieldType.narrow at hnarrow
    split at hnarrow
    · split at hnarrow <;> cases hnarrow
      cases hnull
    · split at hnarrow <;> cases hnarrow
      cases hnull
    · cases hnarrow
      exact Value.not_isNull htype hnull

end EntityStore
