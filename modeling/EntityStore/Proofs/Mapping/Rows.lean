import EntityStore.Proofs.Mapping.Models

/-!
What a query asks for of a row (`rowOf`), told over the rows of the store. In a store of the schema
a level shows every row in one combination with related rows, and its cells assemble to that.
-/

set_option autoImplicit false

namespace EntityStore

open Query (Leads Tree)

namespace Mapping

/-- The row that a single relation leads to, if there is one and the filter of its level is true of
it. -/
def partner (store : Store) (bindings : Query.Bindings) (entity : String) (r : Query.Relation)
    (child : Query.Level) (a : Record) : Option Record :=
  ((store.records child.entity).find? fun c ↦ store.leads entity r.name r.kind a c).filter
    (passes store bindings child.filter)

/-- A selected field of a row. -/
def entryOf (a : Record) (f : Query.SelectedField) : Except ColumnError (String × Data) := do
  let v ← f.type.readCell (a.cell f.name)
  pure (f.name, .value v)

section

variable (store : Store) (bindings : Query.Bindings)

mutual

/-- What a level shows for a row whose single relations lead to one row at most. -/
def viewOf (depth : Nat) : Tree → Option Record → View
  | .node level relations, a =>
    (View.ofLevel level depth a).append (relatedView depth level.entity relations a)

def relatedView (depth : Nat) (entity : String) :
    List (Query.Relation × Tree) → Option Record → View
  | [], _ => .none
  | (r, t) :: rest, a =>
    if r.many then relatedView depth entity rest a
    else (viewOf (depth + 1) t (a.bind (partner store bindings entity r t.level))).append
      (relatedView depth entity rest a)

end

variable (below : String → Query.Relation → Tree → Record → List Row)

mutual

/-- What a query asks for of a row: its number, the selected fields, then the rows that it is
related to. Those of a relation to many rows are told by `below`. -/
def rowOf : Tree → Record → Except ColumnError Row
  | .node level relations, a => do
    let own ← (Plan.ownFields level).mapM (entryOf a)
    let related ← relatedOf level.entity relations a
    pure ((idName, .value (.long a.row.id)) :: own ++ related)

/-- A single relation that leads to no row has no entry. -/
def relatedOf (entity : String) : List (Query.Relation × Tree) → Record → Except ColumnError Row
  | [], _ => pure []
  | (r, t) :: rest, a => do
    if r.many then
      let others ← relatedOf entity rest a
      pure ((r.name, .many (below entity r t a)) :: others)
    else
      let inner ← (partner store bindings entity r t.level a).mapM fun c ↦ rowOf t c
      let others ← relatedOf entity rest a
      pure ((inner.map fun row ↦ (r.name, .one row)).toList ++ others)

end

end

/-- What is read of the first of some relations, before the entries of the others. -/
inductive ReadsRelated (store : Store) (bindings : Query.Bindings)
    (below : String → Query.Relation → Tree → Record → List Row) (entity : String)
    (r : Query.Relation) (t : Tree) (a : Record) (others : Row) : Row → Prop where
  | many (hmany : r.many) : ReadsRelated store bindings below entity r t a others
      ((r.name, .many (below entity r t a)) :: others)
  | none (hsingle : ¬r.many) (hpartner : partner store bindings entity r t.level a = none) :
    ReadsRelated store bindings below entity r t a others others
  | one {c : Record} {row : Row} (hsingle : ¬r.many)
    (hpartner : partner store bindings entity r t.level a = some c)
    (hrow : rowOf store bindings below t c = .ok row) :
    ReadsRelated store bindings below entity r t a others ((r.name, .one row) :: others)

theorem relatedOf_cons_ok {store : Store} {bindings : Query.Bindings}
    {below : String → Query.Relation → Tree → Record → List Row} {entity : String}
    {r : Query.Relation} {t : Tree} {rest : List (Query.Relation × Tree)}
    {a : Record} {related : Row} :
    relatedOf store bindings below entity ((r, t) :: rest) a = .ok related ↔ ∃ others,
      relatedOf store bindings below entity rest a = .ok others ∧
        ReadsRelated store bindings below entity r t a others related := by
  constructor
  · intro h
    rw [relatedOf] at h
    split at h
    · next hmany =>
      obtain ⟨others, hothers, ⟨⟩⟩ := Except.bind_eq_ok.mp h
      exact ⟨others, hothers, .many hmany⟩
    · next hsingle =>
      obtain ⟨inner, hinner, h⟩ := Except.bind_eq_ok.mp h
      obtain ⟨others, hothers, ⟨⟩⟩ := Except.bind_eq_ok.mp h
      refine ⟨others, hothers, ?_⟩
      cases hpartner : partner store bindings entity r t.level a with
      | none =>
        rw [hpartner] at hinner
        cases hinner
        exact .none hsingle hpartner
      | some c =>
        rw [hpartner] at hinner
        obtain ⟨row, hrow, rfl⟩ := Except.map_eq_ok.mp hinner
        exact .one hsingle hpartner hrow
  · rintro ⟨others, hothers, hfirst⟩
    rw [relatedOf]
    cases hfirst with
    | many hmany =>
      rw [if_pos hmany]
      exact Except.bind_eq_ok.mpr ⟨others, hothers, rfl⟩
    | none hsingle hpartner =>
      rw [if_neg hsingle, hpartner]
      exact Except.bind_eq_ok.mpr ⟨none, rfl, Except.bind_eq_ok.mpr ⟨_, hothers, rfl⟩⟩
    | one hsingle hpartner hrow =>
      rw [if_neg hsingle, hpartner]
      exact Except.bind_eq_ok.mpr ⟨some _, Except.map_eq_ok.mpr ⟨_, hrow, rfl⟩,
        Except.bind_eq_ok.mpr ⟨others, hothers, rfl⟩⟩

/-- Of relations to many rows nothing is read yet. -/
def unread : String → Query.Relation → Tree → Record → List Row :=
  fun _ _ _ _ ↦ []

variable {store : Store} {bindings : Query.Bindings} {s : Schema} {e : Entity} {r : Query.Relation}
  {notes : List Query.Note}

theorem find?_eq_some_iff_of_unique {α : Type} {p : α → Bool} {l : List α}
    (h : ∀ a ∈ l, ∀ b ∈ l, p a → p b → a = b) {a : α} : l.find? p = some a ↔ a ∈ l ∧ p a := by
  constructor
  · exact fun hfind ↦ ⟨List.mem_of_find?_eq_some hfind, List.find?_some hfind⟩
  · rintro ⟨ha, hpa⟩
    obtain ⟨b, hb⟩ := Option.isSome_iff_exists.mp (List.find?_isSome.mpr ⟨a, ha, hpa⟩)
    rw [hb, h a ha b (List.mem_of_find?_eq_some hb) hpa (List.find?_some hb)]

theorem partner_eq_some_iff (h : store.Models s) (he : e ∈ s.entities) {child : Query.Level}
    (hleads : Leads s e r child.entity) (hsingle : ¬r.many) {a c : Record}
    (ha : a ∈ store.records e.name) :
    partner store bindings e.name r child a = some c ↔ c ∈ store.records child.entity ∧
      store.leads e.name r.name r.kind a c ∧ passes store bindings child.filter c := by
  obtain ⟨p, hp, q, hname, hkind, hq, htarget⟩ := hleads.reference hsingle
  have hunique : ∀ c ∈ store.records child.entity, ∀ c' ∈ store.records child.entity,
      store.leads e.name r.name r.kind a c → store.leads e.name r.name r.kind a c' → c = c' := by
    rw [← htarget, ← hname, ← hq]
    exact fun c hc c' hc' ↦ h.leads_unique he hp hkind ha hc hc'
  unfold partner
  rw [Option.filter_eq_some_iff, find?_eq_some_iff_of_unique hunique, and_assoc]

/-- The related row of a row that may be absent. -/
theorem bind_partner_eq_some_iff (bindings : Query.Bindings) (h : store.Models s)
    (he : e ∈ s.entities) {child : Query.Level} (hleads : Leads s e r child.entity)
    (hsingle : ¬r.many) {a : Option Record} (ha : ∀ b, a = some b → b ∈ store.records e.name)
    {c : Record} :
    a.bind (partner store bindings e.name r child) = some c ↔ c ∈ store.records child.entity ∧
      store.LeadsBy e.name r.name r.kind a c ∧ passes store bindings child.filter c := by
  cases a with
  | none => exact iff_of_false nofun fun hc ↦ Store.not_leadsBy_none hc.2.1
  | some b =>
    have hb := ha b rfl
    rw [Option.bind_some, partner_eq_some_iff h he hleads hsingle hb]
    refine and_congr_right fun hc ↦ and_congr_left fun _ ↦ ?_
    exact h.keyed.leads_iff (h.keyed.record hb) (h.keyed.record hc)

/-- A join along columns that name rows finds one row if at most one meets. -/
theorem joinedRows_meet (h : store.Keyed) {table : String} (htable : (store.table? table).isSome)
    {x : Option Record} (hx : Record.KeyedIf x) {column other : String}
    (hcolumn : column ∈ Record.names) (hother : other ∈ Record.names) {q : Record → Bool}
    {found : Option Record} (hfound : ∀ c, found = some c ↔ c ∈ store.records table ∧
      (∃ n, c.cell column = .integer n ∧ Record.cell? x other = .integer n) ∧ q c) :
    store.joinedRows table (fun c ↦ Record.meet (some c) column x other && q c) = [found] := by
  refine h.joinedRows_eq htable fun c ↦ (hfound c).trans (and_congr_right fun hc ↦ ?_)
  have hmeet := Record.meet_iff (a :=
    some c) (fun _ heq ↦ Option.some.inj heq ▸ h.record hc) hx hcolumn hother
  rw [Bool.and_eq_true, hmeet]
  rfl

/-- A join along links finds one row if at most one link starts at a row. -/
theorem joinedRows_links (h : store.Keyed) {table entity : String}
    (htable : (store.table? table).isSome) (hentity : (store.table? entity).isSome)
    {x link : Option Record} (hx : Record.KeyedIf x)
    (hlink : ∀ l, link = some l ↔ l ∈ store.records table ∧
    ∃ n, l.cell ownerColumn = .integer n ∧ Record.cell? x idName = .integer n)
    {q : Record → Bool} {found : Option Record}
    (hfound : ∀ c, found = some c ↔ c ∈ store.records entity ∧ (∃ l ∈ store.records table,
      (∃ n, c.cell idName = .integer n ∧ l.cell targetColumn = .integer n) ∧
        ∃ n, l.cell ownerColumn = .integer n ∧ Record.cell? x idName = .integer n) ∧ q c) :
    ((store.joinedRows table fun l ↦ Record.meet (some l) ownerColumn x idName).flatMap fun l ↦
      store.joinedRows entity fun c ↦ Record.meet (some c) idName l targetColumn &&
          q c) = [found] := by
  have hid : idName ∈ Record.names := by decide
  have hone := joinedRows_meet h htable hx
    (by decide : ownerColumn ∈ Record.names) hid (q := fun _ ↦ true)
    fun l ↦ by rw [hlink, and_iff_left rfl]
  simp only [Bool.and_true] at hone
  have hlinkKeyed : Record.KeyedIf link := fun l hl ↦ h.record ((hlink l).mp hl).1
  rw [hone, List.flatMap_singleton]
  refine joinedRows_meet h hentity hlinkKeyed hid (by decide) fun c ↦ ?_
  rw [hfound c]
  refine and_congr_right fun _ ↦ and_congr_left fun _ ↦ ?_
  constructor
  · rintro ⟨l, hl, hmeet, howner⟩
    rw [(hlink l).mpr ⟨hl, howner⟩]
    exact hmeet
  · rintro ⟨n, hc, htarget⟩
    cases heq : link with
    | none =>
      rw [heq] at htarget
      cases htarget
    | some l =>
      rw [heq] at htarget
      obtain ⟨hl, howner⟩ := (hlink l).mp heq
      exact ⟨l, hl, ⟨n, hc, htarget⟩, howner⟩

theorem exists_option_of_unique {α : Type} {P : α → Prop} (h : ∀ a b, P a → P b → a = b) :
    ∃ o : Option α, ∀ a, o = some a ↔ P a := by
  by_cases hex : ∃ a, P a
  · obtain ⟨a, ha⟩ := hex
    exact ⟨some a,
      fun b ↦ ⟨fun heq ↦ Option.some.inj heq ▸ ha, fun hb ↦ congrArg some (h a b ha hb)⟩⟩
  · exact ⟨none, fun a ↦ iff_of_false nofun fun ha ↦ hex ⟨a, ha⟩⟩

/-- The link by which a linked relation to a single row starts at a row. -/
theorem exists_link (h : store.Models s) (he : e ∈ s.entities) {target : String}
    (hleads : Leads s e r target) (hsingle : ¬r.many) (hlinked : r.kind = .linked)
    (hparent : ¬r.isParent) {a : Option Record} (ha : ∀ b, a = some b → b ∈ store.records e.name) :
    ∃ link : Option Record, ∀ l, link = some l ↔ l ∈ store.records (linkTableName e.name r.name) ∧
      ∃ n, l.cell ownerColumn = .integer n ∧ Record.cell? a idName = .integer n := by
  obtain ⟨p, hp, q, hname, hkind, hq, -⟩ := hleads.reference hsingle
  refine exists_option_of_unique ?_
  rintro l l' ⟨hl, n, howner, hn⟩ ⟨hl', m, howner', hm⟩
  cases a with
  | none => cases hn
  | some b =>
    have hid := h.cell_id he (ha b rfl)
    obtain rfl : n = b.row.id := Cell.integer.inj (hn.symm.trans hid)
    obtain rfl : m = b.row.id := Cell.integer.inj (hm.symm.trans hid)
    rw [← hname] at hl hl'
    have hparent : p.isParent = false := by
      rw [Property.isParent, hname]
      exact Bool.eq_false_iff.mpr hparent
    exact h.link_unique he hp hkind (hq.trans hlinked) hparent (ha b rfl) hl hl' howner howner'

/-- The joins of a single relation find for a row its related row or an absent one. -/
theorem singleRows_eq (h : store.Models s) (hs : s.WellFormed) (he : e ∈ s.entities)
    {child : Query.Level} (hleads : Leads s e r child.entity)
    (hsingle : ¬r.many) {a : Option Record} (ha : ∀ b, a = some b → b ∈ store.records e.name) :
    singleRows store bindings e.name r child a =
      [a.bind (partner store bindings e.name r child)] := by
  have hk := h.keyed
  have hlinks := hleads.links h.serves hs he
  have hpartner (c : Record) := bind_partner_eq_some_iff bindings h he hleads hsingle ha (c := c)
  have hkeyed : Record.KeyedIf a := fun b hb ↦ hk.record (ha b hb)
  have hid : idName ∈ Record.names := by decide
  have hback : parentName ∈ Record.names := by decide
  unfold singleRows
  unfold Store.LeadsBy at hpartner
  unfold Store.Links at hlinks
  dsimp only
  by_cases hparent : r.isParent
  · have hname : (r.name == parentName) = true := hparent
    simp only [hname, if_true] at hpartner
    rw [if_pos hparent] at hlinks ⊢
    exact joinedRows_meet hk hlinks.2.isSome hkeyed hid hback hpartner
  · have hname : ¬(r.name == parentName) = true := hparent
    simp only [if_neg hname] at hpartner
    rw [if_neg hparent] at hlinks ⊢
    cases hkind : r.kind with
    | owned =>
      rw [hkind] at hlinks
      simp only [hkind] at hpartner
      exact joinedRows_meet hk hlinks.2.isSome hkeyed hback hid hpartner
    | linked =>
      rw [hkind] at hlinks
      simp only [hkind] at hpartner
      obtain ⟨link, hlink⟩ := exists_link h he hleads hsingle hkind hparent ha
      exact joinedRows_links hk hlinks.2.1.isSome hlinks.2.2.2.isSome hkeyed hlink hpartner

/-! ### What a level shows -/

/-- A level shows a row of its entity once. -/
def ViewsOnce (store : Store) (bindings : Query.Bindings) (t : Tree) : Prop :=
  ∀ {depth : Nat} {a : Option Record}, (∀ b, a = some b → b ∈ store.records t.level.entity) →
    views store bindings depth t a = [viewOf store bindings depth t a]

theorem relationViews_eq (h : store.Models s) (hs : s.WellFormed) (he : e ∈ s.entities)
    {relations : List (Query.Relation × Tree)}
    (hleads : ∀ r t, (r, t) ∈ relations → Leads s e r t.level.entity)
    (ih : ∀ r t, (r, t) ∈ relations → ViewsOnce store bindings t) {depth : Nat} {a : Option Record}
    (ha : ∀ b, a = some b → b ∈ store.records e.name) :
    relationViews store bindings depth e.name relations a =
      [relatedView store bindings depth e.name relations a] := by
  induction relations with
  | nil => rfl
  | cons x rest ihrest =>
    obtain ⟨r, t⟩ := x
    have hrest := ihrest (fun r' t' hmem ↦ hleads r' t' (List.mem_cons_of_mem _ hmem))
      fun r' t' hmem ↦ ih r' t' (List.mem_cons_of_mem _ hmem)
    have hfirst := hleads r t List.mem_cons_self
    unfold relationViews relatedView
    split
    · exact hrest
    · next hsingle =>
      have hpartner : ∀ c, a.bind (partner store bindings e.name r t.level) = some c →
          c ∈ store.records t.level.entity :=
        fun c hc ↦ ((bind_partner_eq_some_iff bindings h he hfirst hsingle ha).mp hc).1
      rw [singleRows_eq h hs he hfirst hsingle ha, List.flatMap_singleton,
        ih r t List.mem_cons_self hpartner, List.flatMap_singleton, hrest]
      rfl

theorem views_eq (h : store.Models s) (hs : s.WellFormed) {t : Tree} (ht : t.Everywhere s notes) :
    ViewsOnce store bindings t := by
  induction t using Tree.induction with
  | node level relations ih =>
    obtain ⟨e, he, hsound⟩ := ht _ (Tree.mem_nodes_self _)
    have hentity : level.entity = e.name := hsound.entity
    have hleads : ∀ r t, (r, t) ∈ relations → Leads s e r t.level.entity := hsound.relation
    intro depth a ha
    change ∀ b, a = some b → b ∈ store.records level.entity at ha
    rw [hentity] at ha
    unfold views viewOf
    rw [hentity, relationViews_eq h hs he hleads (fun r t hmem ↦ ih r t hmem fun u hu ↦
      ht u (Tree.mem_nodes.mpr (.inr ⟨r, t, hmem, hu⟩))) ha]
    rfl

/-! ### Assembling what a level shows -/

theorem readFields_map (fields : List Query.SelectedField) (a : Record) (rest : List Cell) :
    readFields fields ((fields.map fun f ↦ a.cell f.name) ++ rest) = fields.mapM (entryOf a) := by
  unfold readFields
  induction fields with
  | nil => rfl
  | cons f fields ih =>
    rw [List.map_cons, List.cons_append, List.zip_cons_cons, List.mapM_cons, List.mapM_cons, ih]
    rfl

/-- The cells that a level shows assemble to the row asked for, whatever cells follow. -/
def Assembles (store : Store) (bindings : Query.Bindings) (t : Tree) : Prop :=
  ∀ {depth : Nat} {a : Option Record} {rest : List Cell}, (∀ b, a = some b →
      b ∈ store.records t.level.entity) →
    assemble t ((viewOf store bindings depth t a).cells ++ rest) =
      a.mapM (rowOf store bindings unread t)

theorem assembleRelations_eq (h : store.Models s) (hs : s.WellFormed) (he : e ∈ s.entities)
    {relations : List (Query.Relation × Tree)}
    (hleads : ∀ r t, (r, t) ∈ relations → Leads s e r t.level.entity)
    (hbelow : ∀ r t, (r, t) ∈ relations → t.Everywhere s notes)
    (ih : ∀ r t, (r, t) ∈ relations → Assembles store bindings t) (depth : Nat) {a : Record}
    (ha : a ∈ store.records e.name) (rest : List Cell) :
    assembleRelations relations
      ((relatedView store bindings depth e.name relations (some a)).cells ++ rest) =
      relatedOf store bindings unread e.name relations a := by
  induction relations with
  | nil => rfl
  | cons x others ihothers =>
    obtain ⟨r, t⟩ := x
    have hothers := ihothers (fun r' t' hmem ↦ hleads r' t' (List.mem_cons_of_mem _ hmem))
      (fun r' t' hmem ↦ hbelow r' t' (List.mem_cons_of_mem _ hmem))
      fun r' t' hmem ↦ ih r' t' (List.mem_cons_of_mem _ hmem)
    unfold assembleRelations relatedView relatedOf
    split
    · rw [hothers]
      rfl
    · next hsingle =>
      have hpartner : ∀ c, partner store bindings e.name r t.level a = some c →
          c ∈ store.records t.level.entity :=
        fun c hc ↦ ((partner_eq_some_iff h he (hleads r t List.mem_cons_self) hsingle ha).mp hc).1
      have hview : viewOf store bindings (depth + 1) t (partner store bindings e.name r t.level a) ∈
          views store bindings (depth + 1) t (partner store bindings e.name r t.level a) := by
        rw [views_eq h hs (hbelow r t List.mem_cons_self) hpartner]
        exact List.mem_singleton.mpr rfl
      rw [View.append, List.append_assoc, Option.bind_some, ih r t List.mem_cons_self hpartner,
        ← views_wide t hview, List.drop_left, hothers]

theorem assemble_eq (h : store.Models s) (hs : s.WellFormed) {t : Tree}
    (ht : t.Everywhere s notes) :
    Assembles store bindings t := by
  induction t using Tree.induction with
  | node level relations ih =>
    obtain ⟨e, he, hsound⟩ := ht _ (Tree.mem_nodes_self _)
    have hentity : level.entity = e.name := hsound.entity
    have hleads : ∀ r t, (r, t) ∈ relations → Leads s e r t.level.entity := hsound.relation
    have hbelow : ∀ r t, (r, t) ∈ relations → t.Everywhere s notes :=
      fun r t hmem u hu ↦ ht u (Tree.mem_nodes.mpr (.inr ⟨r, t, hmem, hu⟩))
    intro depth a rest ha
    cases a with
    | none => rfl
    | some a =>
      have ha : a ∈ store.records e.name := hentity ▸ ha a rfl
      have hrelations := assembleRelations_eq h hs he hleads hbelow
        (fun r t hmem ↦ ih r t hmem (hbelow r t hmem)) depth ha rest
      have hcells : (viewOf store bindings depth (.node level relations) (some a)).cells ++ rest =
          .integer a.row.id :: (((Plan.ownFields level).map fun f ↦ a.cell f.name) ++
            ((relatedView store bindings depth e.name relations (some a)).cells ++ rest)) := by
        rw [← h.cell_id he ha, ← List.append_assoc, ← hentity, viewOf]
        rfl
      rw [hcells]
      unfold assemble
      dsimp only
      rw [readFields_map, List.drop_left' (List.length_map _), hrelations, ← hentity,
        Option.mapM_some, rowOf]
      simp only [map_bind, map_pure]

end Mapping

end EntityStore
