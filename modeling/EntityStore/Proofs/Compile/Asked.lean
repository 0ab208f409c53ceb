import EntityStore.Proofs.Compile.Create
import EntityStore.Proofs.Query.Wanted

/-!
Queries that ask for all that a create gives: for every row of a create there is a query that
selects each relation given in it and, below owned relations, in the rows there (`exists_asked`).
-/

set_option autoImplicit false

namespace EntityStore

open Query (Levels Wanted)

namespace Draft

mutual

/-- What an entry of a row gives is asked for: linked rows, or owned rows with all that they give in
turn. -/
def Asked (name : String) : Draft → List Wanted → Prop
  | .input v, wanted => ¬v.isValue → .linked name ∈ wanted
  | .absent, _ => True
  | .single _ row, wanted => ∃ below, .owned name below ∈ wanted ∧ RowAsked row below
  | .several _ rows, wanted => ∃ below, .owned name below ∈ wanted ∧ RowsAsked rows below

def RowAsked : List (String × Draft) → List Wanted → Prop
  | [], _ => True
  | (name, d) :: rest, wanted => d.Asked name wanted ∧ RowAsked rest wanted

def RowsAsked : List (List (String × Draft)) → List Wanted → Prop
  | [], _ => True
  | row :: rest, wanted => RowAsked row wanted ∧ RowsAsked rest wanted

end

/-- The rows that an entry stands for. -/
def rows : Draft → List RowDraft
  | .single _ row => [row]
  | .several _ rows => rows
  | _ => []

variable {s : Schema} {e d : Entity} {p : Property} {name : String}
  {wanted wanted' : List Wanted} {entry : Draft}

theorem rowAsked_iff {row : RowDraft} : RowAsked row wanted ↔ ∀ x ∈ row, x.2.Asked x.1 wanted := by
  induction row with
  | nil => simp [RowAsked]
  | cons x row ih => rw [RowAsked, ih, List.forall_mem_cons]

theorem rowsAsked_iff {rows : List RowDraft} :
    RowsAsked rows wanted ↔ ∀ row ∈ rows, RowAsked row wanted := by
  induction rows with
  | nil => simp [RowsAsked]
  | cons row rows ih => rw [RowsAsked, ih, List.forall_mem_cons]

theorem Asked.mono (h : entry.Asked name wanted) (hsub : wanted ⊆ wanted') :
    entry.Asked name wanted' := by
  cases entry with
  | input v => exact fun hv ↦ hsub (h hv)
  | absent => trivial
  | single entity row =>
    obtain ⟨below, hbelow, hrow⟩ := h
    exact ⟨below, hsub hbelow, hrow⟩
  | several entity rows =>
    obtain ⟨below, hbelow, hrows⟩ := h
    exact ⟨below, hsub hbelow, hrows⟩

/-- An entry without rows of its own is a value, or links rows. -/
theorem asked_of_not_owned (h : entry.Fits s p)
    (hlinked : p.relation?.isSome → .linked name ∈ wanted)
    (howned : ∀ target, p.relation? ≠ some (target, .owned)) : entry.Asked name wanted := by
  cases entry with
  | input v =>
    intro hv
    refine hlinked ?_
    cases v with
    | value v => exact absurd rfl hv
    | ref r =>
      obtain ⟨⟨q, hkind⟩, -⟩ := h
      simp [Property.relation?, hkind]
    | refs rs =>
      obtain ⟨⟨q, hkind⟩, -⟩ := h
      simp [Property.relation?, hkind]
    | link op r => exact h.1.elim
    | links ls => exact h.1.elim
  | absent => trivial
  | single entity row =>
    obtain ⟨q, hkind, hq, -⟩ := h
    exact absurd (by simp [Property.relation?, hkind, hq]) (howned q.target)
  | several entity rows =>
    obtain ⟨q, hkind, hq, -⟩ := h
    exact absurd (by simp [Property.relation?, hkind, hq]) (howned q.target)

/-- The rows of an owned relation fit the entity that it leads to. -/
theorem Fits.rows (hs : s.WellFormed) (h : entry.Fits s p) (hd : d ∈ s.entities)
    (howned : p.relation? = some (d.name, .owned)) : ∀ row ∈ entry.rows, EntriesFit s d row := by
  cases entry with
  | single entity row =>
    obtain ⟨q, hkind, -, htarget, f, hf, hname, -, hfit⟩ := h
    rw [Property.relation?, hkind] at howned
    obtain rfl := hs.eq_of_name_eq hf hd
      (hname.trans (htarget.symm.trans (congrArg Prod.fst (Option.some.inj howned))))
    exact List.forall_mem_singleton.mpr hfit
  | several entity rows =>
    obtain ⟨q, hkind, -, htarget, f, hf, hname, hfit⟩ := h
    rw [Property.relation?, hkind] at howned
    obtain rfl := hs.eq_of_name_eq hf hd
      (hname.trans (htarget.symm.trans (congrArg Prod.fst (Option.some.inj howned))))
    exact fun row hrow ↦ (rowsFit_iff.mp hfit row hrow).2
  | _ => exact List.forall_mem_nil _

/-- An entry of owned rows is asked for with what is asked for in them. -/
theorem asked_of_owned (h : entry.Fits s p) (howned : p.isOwned) {below : List Wanted}
    (hbelow : .owned name below ∈ wanted) (hrows : ∀ row ∈ entry.rows, RowAsked row below) :
    entry.Asked name wanted := by
  cases entry with
  | input v => exact absurd howned h.2.1
  | absent => trivial
  | single entity row => exact ⟨below, hbelow, hrows row (List.mem_singleton_self row)⟩
  | several entity rows => exact ⟨below, hbelow, rowsAsked_iff.mpr hrows⟩

theorem rows_sizeOf {row : RowDraft} (h : row ∈ entry.rows) : sizeOf row < sizeOf entry := by
  cases entry with
  | single entity row =>
    obtain rfl := List.mem_singleton.mp h
    simp only [Draft.single.sizeOf_spec]
    omega
  | several entity rows =>
    have hlt := List.sizeOf_lt_of_mem (show row ∈ rows from h)
    simp only [Draft.several.sizeOf_spec]
    omega
  | _ => cases h

/-- The rows that entries of a name stand for in some rows. -/
def rowsUnder (name : String) (rows : List RowDraft) : List RowDraft :=
  rows.flatMap fun row ↦ (row.filter fun x ↦ x.1 = name).flatMap fun x ↦ x.2.rows

theorem mem_rowsUnder {rows : List RowDraft} {row : RowDraft} :
    row ∈ rowsUnder name rows ↔ ∃ outer ∈ rows, ∃ x ∈ outer, x.1 = name ∧ row ∈ x.2.rows := by
  simp [rowsUnder, and_assoc]

section

variable (hs : s.WellFormed) (he : e ∈ s.entities) {rows : List RowDraft}
  (hfit : ∀ row ∈ rows, EntriesFit s e row)

include hs he hfit

/-- An entry fits the property of its name. -/
theorem fits_of_mem (hp : p ∈ e.properties) {row : RowDraft} (hrow : row ∈ rows)
    {x : String × Draft} (hx : x ∈ row) (hname : x.1 = p.name) : x.2.Fits s p := by
  obtain ⟨q, hq, hqname, hqfits⟩ := entriesFit_iff.mp (hfit row hrow) x hx
  rwa [(hs.entity e he).indexed.eq_of_name_eq hq hp (hqname.trans hname)] at hqfits

/-- Relations that are asked for one by one, where this can be done for what is below them. -/
theorem exists_asked_of_below
    (hbelow : ∀ p ∈ e.properties, ∀ d ∈ s.entities, p.relation? = some (d.name, .owned) →
      ∃ wanted relations, Levels s d wanted relations ∧
      ∀ row ∈ rowsUnder p.name rows, RowAsked row wanted)
    {ps : List Property} (hps : ps ⊆ e.properties) (hnodup : (ps.map Property.name).Nodup) :
    ∃ wanted relations, Levels s e wanted relations ∧
      wanted.map Wanted.relation ⊆ ps.map Property.name ∧
      ∀ row ∈ rows, ∀ x ∈ row, x.1 ∈ ps.map Property.name → x.2.Asked x.1 wanted := by
  induction ps with
  | nil =>
    exact ⟨[], [], .nil, List.Subset.refl _, fun _ _ _ _ hname ↦ absurd hname List.not_mem_nil⟩
  | cons p ps ih =>
    obtain ⟨hp, hps⟩ := List.cons_subset.mp hps
    obtain ⟨hnew, hnodup⟩ := List.nodup_cons.mp hnodup
    obtain ⟨wanted, relations, hlevels, hsub, hasked⟩ := ih hps hnodup
    have hfree : p.name ∉ wanted.map Wanted.relation := fun hmem ↦ hnew (hsub hmem)
    have hboth {wanted' : List Wanted} (hmore : wanted ⊆ wanted')
        (hthis : ∀ row ∈ rows, ∀ x ∈ row, x.1 = p.name → x.2.Asked x.1 wanted') :
        ∀ row ∈ rows, ∀ x ∈ row, x.1 ∈ (p :: ps).map Property.name → x.2.Asked x.1 wanted' := by
      intro row hrow x hx hname
      rcases List.mem_cons.mp hname with hname | hname
      · exact hthis row hrow x hx hname
      · exact (hasked row hrow x hx hname).mono hmore
    cases hrelation : p.relation? with
    | none =>
      refine ⟨wanted, relations, hlevels, fun w hw ↦ List.mem_cons_of_mem _ (hsub hw),
        hboth (List.Subset.refl _) ?_⟩
      intro row hrow x hx hname
      refine asked_of_not_owned (fits_of_mem hs he hfit hp hrow hx hname) (fun hsome ↦ ?_)
        (by simp [hrelation])
      simp [hrelation] at hsome
    | some relation =>
      obtain ⟨target, kind⟩ := relation
      obtain ⟨d, hd, rfl⟩ := hs.target e he p hp target kind hrelation
      cases kind with
      | linked =>
        refine ⟨.linked p.name :: wanted, _, .linked hp hd hrelation hfree hlevels,
          List.cons_subset_cons _ hsub, hboth (List.subset_cons_self _ _)
            fun row hrow x hx hname ↦ ?_⟩
        exact asked_of_not_owned (fits_of_mem hs he hfit hp hrow hx hname)
          (fun _ ↦ hname ▸ List.mem_cons_self) (by simp [hrelation])
      | owned =>
        obtain ⟨inner, levels, hinner, hasked'⟩ := hbelow p hp d hd hrelation
        refine ⟨.owned p.name inner :: wanted, _, .owned hp hd hrelation hfree hinner hlevels,
          List.cons_subset_cons _ hsub, hboth (List.subset_cons_self _ _)
            fun row hrow x hx hname ↦ ?_⟩
        exact asked_of_owned (fits_of_mem hs he hfit hp hrow hx hname)
          (by simp [Property.isOwned, hrelation]) (hname ▸ List.mem_cons_self)
            fun row' hrow' ↦ hasked' row' (mem_rowsUnder.mpr ⟨row, hrow, x, hx, hname, hrow'⟩)

end

/-- There is a query that asks for all that some rows of an entity give. -/
theorem exists_asked (hs : s.WellFormed) (he : e ∈ s.entities) {rows : List RowDraft}
    (hfit : ∀ row ∈ rows, EntriesFit s e row) : ∃ wanted relations, Levels s e wanted relations ∧
      ∀ row ∈ rows, RowAsked row wanted := by
  -- by induction on a bound for the size of the rows
  obtain ⟨n, hsize⟩ : ∃ n, ∀ row ∈ rows, sizeOf row < n :=
    ⟨sizeOf rows, fun _ ↦ List.sizeOf_lt_of_mem⟩
  induction n generalizing e rows with
  | zero => exact ⟨[], [], .nil, fun row hrow ↦ absurd (hsize row hrow) (Nat.not_lt_zero _)⟩
  | succ n ih =>
    obtain ⟨wanted, relations, hlevels, -, hasked⟩ :=
        exists_asked_of_below hs he hfit (fun p hp d hd howned ↦ by
      refine ih hd (fun row hrow ↦ ?_) (fun row hrow ↦ ?_)
      · obtain ⟨outer, houter, x, hx, hname, hrow⟩ := mem_rowsUnder.mp hrow
        exact (fits_of_mem hs he hfit hp houter hx hname).rows hs hd howned row hrow
      · obtain ⟨outer, houter, ⟨name, entry⟩, hx, -, hrow⟩ := mem_rowsUnder.mp hrow
        have hinner : sizeOf row < sizeOf entry := rows_sizeOf hrow
        have hentry := List.sizeOf_lt_of_mem hx
        have houter := hsize outer houter
        simp only [Prod.mk.sizeOf_spec] at hentry
        omega) (List.Subset.refl e.properties) (hs.entity e he).indexed.nodup
    refine ⟨wanted, relations, hlevels, fun row hrow ↦ rowAsked_iff.mpr
      fun x hx ↦ hasked row hrow x hx ?_⟩
    obtain ⟨p, hp, hname, -⟩ := entriesFit_iff.mp (hfit row hrow) x hx
    exact List.mem_map.mpr ⟨p, hp, hname⟩

end Draft

end EntityStore
