import EntityStore.Proofs.Mapping.Listing

/-!
What is read below a row over one relation, if the content tells which rows the relation leads to
(`wholeRelated_cons`).
-/

set_option autoImplicit false

namespace EntityStore

open Query (Leads Tree)

/-- The entry of a relation for the rows that it leads to: a list of them, or one row if there is
one. -/
def Row.entry (name : String) (many : Bool) (rows : List Row) : Row :=
  if many then [(name, .many rows)] else rows.map fun row ↦ (name, .one row)

namespace Mapping

variable {s : Schema} {store : Store} {bindings : Query.Bindings} {e d : Entity} {t : Tree}
  {notes : List Query.Note} {r : Query.Relation} {a : Record} {n : Int64} {ids : List Int64}

variable {α : Type} {ys : List α} {number : α → Int64} {shown : α → Row}
  {rest : List (Query.Relation × Tree)} {others : Row}

/-- The rows of a relation to many rows are read as what is shown of them. -/
theorem mapM_wholeRow (h : store.Models s) (hd : d ∈ s.entities) (hentity : t.level.entity = d.name)
    (hlist : (hits store bindings t (some ⟨e.name, r, [n]⟩)).map
      (fun f ↦ f.record.row.id) = ys.map number)
    (hrows : ∀ y ∈ ys, ∃ c ∈ store.records d.name, c.row.id = number y ∧
      wholeRow store bindings t c = .ok (shown y)) :
    (hits store bindings t (some ⟨e.name, r, [n]⟩)).mapM
      (fun f ↦ wholeRow store bindings t f.record) = .ok (ys.map shown) := by
  have hsame : List.Forall₂ (fun f y ↦ f.record.row.id = number y)
      (hits store bindings t (some ⟨e.name, r, [n]⟩)) ys := by
    rw [← List.forall₂_map_left_iff (f := fun f : Hit ↦ f.record.row.id) (R :=
        fun id y ↦ id = number y),
      ← List.forall₂_map_right_iff (f := number) (R := fun id m ↦ id = m), hlist]
    exact List.forall₂_same.mpr fun _ _ ↦ rfl
  rw [Except.mapM_eq_ok, List.forall₂_map_right_iff]
  obtain ⟨hlength, hzip⟩ := List.forall₂_iff_zip.mp hsame
  refine List.forall₂_iff_zip.mpr ⟨hlength, fun {f y} hpair ↦ ?_⟩
  obtain ⟨hf, hy⟩ := List.of_mem_zip hpair
  obtain ⟨c, hc, hid, hwhole⟩ := hrows y hy
  have hrecord := ((mem_hits h hd hentity f).mp hf).record
  rwa [h.keyed.record_ext (hentity ▸ hrecord) hc ((hzip hpair).trans hid.symm)]

section

variable (h : store.Models s) (hs : s.WellFormed) (hshaped : store.Shaped s) (he : e ∈ s.entities)
  (hd : d ∈ s.entities) (hleads : Leads s e r d.name) (hentity : t.level.entity = d.name)
  (hfilter : t.level.filter = none)

include h hs hshaped he hd hleads hentity hfilter

/-- The rows of an owned relation are listed by their numbers. -/
theorem hits_owned (ht : t.Everywhere s notes) (hbound : ∀ u ∈ t.nodes, u.Bound bindings)
    (hunsorted : t.Unsorted) (hparent : ¬r.isParent) (howned : r.kind = .owned)
    (hids : ids.Pairwise (· < ·))
    (hmem : ∀ m, (store.content s).Leads e.name r d.name n m ↔ m ∈ ids) :
    ((hits store bindings t (some ⟨e.name, r, [n]⟩)).map fun f ↦ f.record.row.id) = ids := by
  have hlinks : ∀ f ∈ hits store bindings t (some ⟨e.name, r, [n]⟩), f.link = none := by
    intro f hf
    have hreached := ((mem_hits h hd hentity f).mp hf).reached
    unfold Hit.Reached at hreached
    simp only [howned] at hreached
    exact hreached.1
  have hsorted := hits_ascending h hs hd hentity ht hbound hunsorted hlinks
  refine hsorted.eq_of_mem_iff hids fun m ↦ ?_
  rw [← hmem, ← mem_hits_owned h hs hshaped he hd hleads hentity hfilter hparent howned,
    List.mem_map]

/-- What is read below a row begins with the rows that its first relation leads to. -/
theorem wholeRelated_cons (ha : a ∈ store.records e.name)
    (hlist : r.many →
      ((hits store bindings t (some ⟨e.name, r, [a.row.id]⟩)).map fun f ↦ f.record.row.id) =
      ys.map number)
    (hmem : ∀ m, (store.content s).Leads e.name r d.name a.row.id m ↔ m ∈ ys.map number)
    (hnodup : (ys.map number).Nodup)
    (hrows : ∀ y ∈ ys, ∃ c ∈ store.records d.name, c.row.id = number y ∧
      wholeRow store bindings t c = .ok (shown y))
    (hrest : wholeRelated store bindings e.name rest a = .ok others) :
    wholeRelated store bindings e.name ((r, t) :: rest) a =
      .ok (Row.entry r.name r.many (ys.map shown) ++ others) := by
  refine wholeRelated_cons_ok.mpr ⟨others, hrest, ?_⟩
  unfold Row.entry
  by_cases hmany : r.many
  · rw [if_pos hmany]
    exact .many hmany (mapM_wholeRow h hd hentity (hlist hmany) hrows)
  · rw [if_neg hmany]
    have hpartner {c : Record} (hc : c ∈ store.records d.name) :
        partner store bindings e.name r t.level a = some c ↔ c.row.id ∈ ys.map number :=
      (partner_eq_iff h hs hshaped he hd hleads hentity hfilter hmany ha hc).trans (hmem _)
    rcases ys with _ | ⟨y, _ | ⟨y', ys⟩⟩
    · refine .none hmany (Option.eq_none_iff_forall_ne_some.mpr fun c hc ↦ ?_)
      obtain ⟨hrecord, -⟩ := (partner_eq_some_iff h he (hentity ▸ hleads) hmany ha).mp hc
      exact List.not_mem_nil ((hpartner (hentity ▸ hrecord)).mp hc)
    · obtain ⟨c, hc, hid, hwhole⟩ := hrows y List.mem_cons_self
      exact .one hmany ((hpartner hc).mpr (hid ▸ List.mem_cons_self)) hwhole
    · -- a relation to one row leads to no two
      obtain ⟨c, hc, hid, -⟩ := hrows y List.mem_cons_self
      obtain ⟨c', hc', hid', -⟩ := hrows y' (List.mem_cons_of_mem _ List.mem_cons_self)
      have hthis := (hpartner hc).mpr (hid ▸ List.mem_cons_self)
      have hthat := (hpartner hc').mpr (hid' ▸ List.mem_cons_of_mem _ List.mem_cons_self)
      obtain rfl := Option.some.inj (hthis.symm.trans hthat)
      exact absurd (hid.symm.trans hid' ▸ List.mem_cons_self) (List.nodup_cons.mp hnodup).1

end

end Mapping

end EntityStore
