import EntityStore.Proofs.Mapping.Batch
import EntityStore.Proofs.Mapping.Rows

/-!
Completing a row changes nothing but the lists of relations to many rows: the completed row of a
record is what a query asks for of it with these lists read for it alone.
-/

set_option autoImplicit false

namespace EntityStore

open Query (HasField Leads Tree)

namespace Mapping

/-- The rows of a relation to many rows, read for one row alone. -/
def alone (store : Store) (bindings : Query.Bindings) :
    String → Query.Relation → Tree → Record → List Row :=
  fun entity r t a ↦ childRows store bindings t ⟨entity, r, [a.row.id]⟩

variable {store : Store} {bindings : Query.Bindings} {s : Schema} {e : Entity}
  {entity name : String} {a : Record} {below : String → Query.Relation → Tree → Record → List Row}
  {relations : List (Query.Relation × Tree)} {own related : Row} {notes : List Query.Note}

/-! ### The names of a row -/

/-- Related rows have the names of relations. -/
theorem relatedOf_get?_eq_none (h : relatedOf store bindings below entity relations a = .ok related)
    (hname : ∀ x ∈ relations, x.1.name ≠ name) : related.get? name = none := by
  induction relations generalizing related with
  | nil =>
    cases h
    rfl
  | cons x rest ih =>
    obtain ⟨r, t⟩ := x
    have hr : r.name ≠ name := hname (r, t) List.mem_cons_self
    have hrest := fun x hx ↦ hname x (List.mem_cons_of_mem _ hx)
    obtain ⟨others, hothers, hfirst⟩ := relatedOf_cons_ok.mp h
    cases hfirst with
    | many | one => rw [Row.get?_cons, if_neg hr, ih hothers hrest]
    | none => exact ih hothers hrest

theorem entries_get?_eq_none {fields : List Query.SelectedField}
    (h : fields.mapM (entryOf a) = .ok own) (hname : ∀ f ∈ fields, f.name ≠ name) :
    own.get? name = none := by
  have hall := Except.mapM_eq_ok.mp h
  clear h
  induction hall with
  | nil => rfl
  | @cons f x fields own hx _ ih =>
    obtain ⟨v, -, hv⟩ := Except.bind_eq_ok.mp hx
    cases hv
    rw [Row.get?_cons, if_neg (hname f List.mem_cons_self),
      ih fun g hg ↦ hname g (List.mem_cons_of_mem _ hg)]

/-- No field has the name of a relation. -/
theorem field_ne_relation (hs : s.WellFormed) (he : e ∈ s.entities) {f : Query.SelectedField}
    {r : Query.Relation} {target : String} (hfield : HasField e f.name f.type)
    (hleads : Leads s e r target) : f.name ≠ r.name := by
  obtain ⟨p, hp, g, hpname, hkind, -⟩ := hfield
  obtain ⟨q, hq, d, -, hqname, hrelation, -⟩ := hleads
  intro heq
  obtain rfl := (hs.entity e he).indexed.eq_of_name_eq hp hq (hpname.trans (heq.trans hqname.symm))
  simp [Property.relation?, hkind] at hrelation

/-- The number and the fields of a row are not under the names of relations. -/
theorem fields_get?_eq_none {level : Query.Level} (hs : s.WellFormed) (he : e ∈ s.entities)
    (hsound : Tree.Sound s notes e (.node level relations))
    (hown : (Plan.ownFields level).mapM (entryOf a) = .ok own) :
    ∀ x ∈ relations, Row.get? ((idName, .value (.long a.row.id)) :: own) x.1.name = none := by
  intro x hx
  have hx := hsound.relation x.1 x.2 hx
  rw [Row.get?_cons, if_neg, entries_get?_eq_none hown]
  · exact fun g hg ↦ field_ne_relation hs he (hsound.field g (List.mem_filter.mp hg).1) hx
  · exact field_ne_relation hs he (f := ⟨idName, .long, none⟩) ⟨_, (hs.entity e he).id_mem,
      _, rfl, rfl, rfl⟩ hx

/-! ### Completed rows -/

/-- Completing the row of a record gives what is asked for with the lists of this row. -/
def CompletesRow (store : Store) (bindings : Query.Bindings) (t : Tree) : Prop :=
  ∀ a row, rowOf store bindings unread t a = .ok row →
    rowOf store bindings (alone store bindings) t a =
      .ok (completed store bindings t.level.entity t.relations row)

/-- The entry of a relation is none of the other relations. -/
theorem unanswered_append {r : Query.Relation} {t : Tree}
    {rest : List (Query.Relation × Tree)} {before : Row} (hnew : r.name ∉ rest.map fun x ↦ x.1.name)
    (hbefore : ∀ x ∈ (r, t) :: rest, before.get? x.1.name = none)
    (d : Data) : ∀ x ∈ rest, Row.get? (before ++ [(r.name, d)]) x.1.name = none := by
  intro x hx
  have hother : r.name ≠ x.1.name := fun heq ↦ hnew (List.mem_map.mpr ⟨x, hx, heq.symm⟩)
  rw [Row.get?_append, hbefore x (List.mem_cons_of_mem _ hx), Row.get?_cons, if_neg hother]
  rfl

/-- Completing a row completes its related rows behind its fields. -/
theorem completed_relatedOf (hnames : (relations.map fun x ↦ x.1.name).Nodup)
    (ih : ∀ r t, (r, t) ∈ relations → CompletesRow store bindings t) {before : Row}
    (hid : before.id? = some a.row.id) (hbefore : ∀ x ∈ relations, before.get? x.1.name = none)
    (h : relatedOf store bindings unread entity relations a = .ok related) :
    ∃ whole, relatedOf store bindings (alone store bindings) entity relations a = .ok whole ∧
      completed store bindings entity relations (before ++ related) = before ++ whole := by
  induction relations generalizing before related with
  | nil => exact ⟨related, h, rfl⟩
  | cons x rest ihrest =>
    obtain ⟨r, t⟩ := x
    rw [List.map_cons, List.nodup_cons] at hnames
    have hr : before.get? r.name = none := hbefore (r, t) List.mem_cons_self
    have hafter := fun d ↦ unanswered_append hnames.1 hbefore d
    have hrest := fun r' t' hmem ↦ ih r' t' (List.mem_cons_of_mem _ hmem)
    -- the entry of the relation is settled, and the rest is completed behind it
    have hgo (d : Data) {others : Row}
        (hothers : relatedOf store bindings unread entity rest a = .ok others) :
        ∃ whole, relatedOf store bindings (alone store bindings) entity rest a = .ok whole ∧
          completed store bindings entity rest (before ++ (r.name, d) :: others) =
            before ++ (r.name, d) :: whole := by
      obtain ⟨whole, hwhole, hcompleted⟩ :=
        ihrest hnames.2 hrest (Row.id?_append hid _) (hafter d) hothers
      rw [List.append_assoc, List.append_assoc] at hcompleted
      exact ⟨whole, hwhole, hcompleted⟩
    unfold completed
    obtain ⟨others, hothers, hfirst⟩ := relatedOf_cons_ok.mp h
    cases hfirst with
    | many hmany =>
      obtain ⟨whole, hwhole, hcompleted⟩ := hgo (.many (alone store bindings entity r t a)) hothers
      refine ⟨_, relatedOf_cons_ok.mpr ⟨whole, hwhole, .many hmany⟩, ?_⟩
      rw [completedBy_many hmany (Row.id?_append hid _), Row.set_append hr]
      exact hcompleted
    | none hsingle hpartner =>
      obtain ⟨whole, hwhole, hcompleted⟩ := ihrest hnames.2 hrest hid
        (fun x hx ↦ hbefore x (List.mem_cons_of_mem _ hx)) hothers
      refine ⟨whole, relatedOf_cons_ok.mpr ⟨whole, hwhole, .none hsingle hpartner⟩, ?_⟩
      have hnone : related.get? r.name = none :=
        relatedOf_get?_eq_none hothers fun x hx heq ↦ hnames.1 (List.mem_map.mpr ⟨x, hx, heq⟩)
      rw [completedBy_single hsingle, Row.modify_append hr, Row.modify_eq_self hnone, hcompleted]
    | @one c row hsingle hpartner hrow =>
      obtain ⟨whole, hwhole, hcompleted⟩ :=
        hgo (.one (completed store bindings t.level.entity t.relations row)) hothers
      refine ⟨_,
        relatedOf_cons_ok.mpr ⟨whole, hwhole,
          .one hsingle hpartner (ih r t List.mem_cons_self c row hrow)⟩, ?_⟩
      rw [completedBy_single hsingle, Row.modify_append hr, Row.modify, if_pos rfl]
      exact hcompleted

/-- A completed row is what a query asks for of the record, with lists read for each row alone. -/
theorem rowOf_alone (hs : s.WellFormed) {t : Tree} (ht : t.Everywhere s notes)
    (hnames : ∀ u ∈ t.nodes, (u.relations.map fun x ↦ x.1.name).Nodup) :
    CompletesRow store bindings t := by
  induction t using Tree.induction with
  | node level relations ih =>
    obtain ⟨e, he, hsound⟩ := ht _ (Tree.mem_nodes_self _)
    have hbelow : ∀ r t, (r, t) ∈ relations → CompletesRow store bindings t := fun r t hmem ↦
      ih r t hmem (fun u hu ↦ ht u (Tree.mem_nodes.mpr (.inr ⟨r, t, hmem, hu⟩)))
        fun u hu ↦ hnames u (Tree.mem_nodes.mpr (.inr ⟨r, t, hmem, hu⟩))
    intro a row h
    unfold rowOf at h ⊢
    obtain ⟨own, hown, h⟩ := Except.bind_eq_ok.mp h
    obtain ⟨related, hrelated, h⟩ := Except.bind_eq_ok.mp h
    cases h
    have hbefore := fields_get?_eq_none hs he hsound hown
    have hid : Row.id? ((idName, .value (.long a.row.id)) :: own) = some a.row.id := rfl
    obtain ⟨whole, hwhole, hcompleted⟩ :=
      completed_relatedOf (hnames _ (Tree.mem_nodes_self _)) hbelow hid hbefore hrelated
    refine Except.bind_eq_ok.mpr ⟨own, hown, Except.bind_eq_ok.mpr ⟨whole, hwhole, ?_⟩⟩
    exact congrArg Except.ok hcompleted.symm

end Mapping

end EntityStore
