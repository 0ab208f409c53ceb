import EntityStore.Proofs.Mapping.Hosts

/-!
What writing an instruction leaves alone. Of a row that is there it changes the properties at most
that an update of its entity sets, and a row that it adds is empty in the properties that it is
given nothing for. The number of a row that was removed is not given again.
-/

set_option autoImplicit false

namespace EntityStore

open Mapping

/-! ### Cells -/

namespace Table

variable {t t' : Table} {r : StoredRow} {sets values : List (String × Cell)}
  {name : String} {id n : Int64}

/-- A column of a name that is the same as that of another is that one. -/
theorem Distinct.eq_of_sameName {columns : List Column} (h : Distinct columns)
    {c d : Column} (hc : c ∈ columns) (hd : d ∈ columns) (hsame : sameName c.name d.name) :
    c = d := by
  refine List.Pairwise.forall_of_forall_of_flip (R := fun c d ↦ sameName c.name d.name →
      c = d) (fun _ _ _ ↦ rfl)
    (h.imp fun hne hsame ↦ ?_) (h.imp fun hne hsame ↦ ?_) hc hd hsame
  · rw [hne] at hsame
    cases hsame
  · rw [sameName_comm, hne] at hsame
    cases hsame

/-- Values for other columns are not meant for a column. -/
theorem given_other (h : Distinct t.columns) {c : Column} (hc : c ∈ t.columns)
    (hvalues : ∀ x ∈ values, x.1 ≠ c.name ∧ ∃ d ∈ t.columns, d.name = x.1) :
    given values c.name = none := by
  cases hgiven : given values c.name with
  | none => rfl
  | some v =>
    obtain ⟨x, hx, hsame, -⟩ := given_eq_some hgiven
    obtain ⟨hne, d, hd, hname⟩ := hvalues x hx
    rw [← hname] at hsame hne
    exact absurd (congrArg Column.name (h.eq_of_sameName hd hc hsame)) hne

/-- An update leaves a column that it does not set. -/
theorem Keyed.cell_changedRow_other (hkeyed : t.Keyed) (h : Distinct t.columns) (hr : r ∈ t.rows)
    (hsets : ∀ x ∈ sets, x.1 ≠ name ∧ ∃ d ∈ t.columns, d.name = x.1) :
    (t.changedRow sets r id).cell name = r.cell name := by
  by_cases hcolumn : ∃ c ∈ t.columns, c.name = name
  · obtain ⟨c, hc, rfl⟩ := hcolumn
    rw [cell_changedRow h hc, given_other h hc fun x hx ↦ hsets x (List.mem_reverse.mp hx)]
    rfl
  · have hnone : ∀ c ∈ t.columns, c.name ≠ name := fun c hc heq ↦ hcolumn ⟨c, hc, heq⟩
    rw [Table.cell_changedRow_other hnone, cell_eq_null]
    intro x hx heq
    obtain ⟨c, hc, hname⟩ := hkeyed.known r hr x hx
    exact hnone c hc (hname.trans heq)

/-- A row that is given nothing for a column is empty there. -/
theorem cell_newRow_null (h : Distinct t.columns)
    (hvalues : ∀ x ∈ values, x.1 ≠ name ∧ ∃ d ∈ t.columns, d.name = x.1) :
    (t.newRow values id).cell name = .null := by
  by_cases hcolumn : ∃ c ∈ t.columns, c.name = name
  · obtain ⟨c, hc, rfl⟩ := hcolumn
    rw [cell_newRow h hc, given_other h hc hvalues]
    rfl
  · exact cell_newRow_other fun c hc heq ↦ hcolumn ⟨c, hc, heq⟩

/-- What is seen of a row that was there: its cell, if it is there, and else that its number is not
given again. -/
def Sees (t : Table) (id : Int64) (name : String) (c : Cell) : Prop :=
  match t.row? id with
  | some r => r.cell name = c
  | none => t.rowColumn.isSome ∧ id ≤ t.last

variable {c : Cell}

theorem Sees.insert (h : t.Sees id name c) (hkeyed : t.Keyed) {named : String} {new : Int64}
    (hvalues : ∀ x ∈ values, Settable x) (hinsert : t.insert named values = .ok (t', new)) :
    t'.Sees id name c ∧ new ≠ id := by
  obtain ⟨hnext, rfl⟩ := hkeyed.insert_ok hvalues hinsert
  have hlt := lt_nextId hkeyed.ascending hnext
  have hnew : id ≠ new := by
    rintro rfl
    unfold Sees at h
    split at h
    · next r hr =>
      obtain ⟨hin, heq⟩ := row?_eq_some hr
      exact Int64.lt_irrefl (heq ▸ hlt r hin)
    · exact Int64.lt_irrefl (Int64.lt_of_lt_of_le ((nextId_eq_ok hnext).2.2 h.1) h.2)
  refine ⟨?_, hnew.symm⟩
  have hrow : (t.withRow (t.newRow values new)).row? id = t.row? id := by
    rw [row?_withRow hkeyed.ascending fun s hs heq ↦ Int64.lt_irrefl (heq ▸ hlt s hs)]
    exact if_neg hnew
  unfold Sees at h ⊢
  rw [hrow]
  split at h
  · exact h
  · refine ⟨h.1, ?_⟩
    change id ≤ if t.rowColumn.isSome then max t.last new else t.last
    rw [if_pos h.1]
    exact Int64.le_trans h.2 (le_max_left t.last new)

theorem Sees.update (h : t.Sees id name c) (hkeyed : t.Keyed) (hdistinct : Distinct t.columns)
    (hsettable : ∀ x ∈ sets, Settable x)
    (hsets : ∀ x ∈ sets, x.1 ≠ name ∧ ∃ d ∈ t.columns, d.name = x.1) {count : Nat}
    (hupdate : t.update sets n = .ok (t', count)) : t'.Sees id name c := by
  rcases hkeyed.update_ok hsettable hupdate with rfl | ⟨old, hold, hid, rfl⟩
  · exact h
  unfold Sees at h ⊢
  rw [row?_withChanged hid]
  split at h
  · next r hr =>
    by_cases heq : id = n
    · subst heq
      obtain rfl := Option.some.inj (hr.symm.trans hold)
      rw [if_pos rfl, hr]
      exact (hkeyed.cell_changedRow_other hdistinct (row?_eq_some hr).1 hsets).trans h
    · rwa [if_neg heq, hr]
  · next hr =>
    simp only [hr, Option.map_none, ite_self]
    exact h

/-- A row of a number, if there is one, is empty in a column. -/
def Blank (t : Table) (id : Int64) (name : String) : Prop :=
  ∀ r, t.row? id = some r → r.cell name = .null

theorem Blank.insert (h : t.Blank id name) (hkeyed : t.Keyed)
    (hdistinct : Distinct t.columns) {named : String} {new : Int64}
    (hsettable : ∀ x ∈ values, Settable x)
    (hvalues : ∀ x ∈ values, x.1 ≠ name ∧ ∃ d ∈ t.columns, d.name = x.1)
    (hinsert : t.insert named values = .ok (t', new)) : t'.Blank id name := by
  obtain ⟨hnext, rfl⟩ := hkeyed.insert_ok hsettable hinsert
  have hlt := lt_nextId hkeyed.ascending hnext
  intro r hr
  rw [row?_withRow hkeyed.ascending fun s hs heq ↦ Int64.lt_irrefl (heq ▸ hlt s hs)] at hr
  split at hr
  · cases hr
    exact cell_newRow_null hdistinct hvalues
  · exact h r hr

theorem row?_update_none (hkeyed : t.Keyed) (hsettable : ∀ x ∈ sets, Settable x) {count : Nat}
    (hupdate : t.update sets n = .ok (t', count)) (h : t.row? id = none) : t'.row? id = none := by
  rcases hkeyed.update_ok hsettable hupdate with rfl | ⟨old, hold, hid, rfl⟩
  · exact h
  · rw [row?_withChanged hid, h, Option.map_none, ite_self]

theorem delete_id (hkeyed : t.Keyed) (n : Int64) : (t.delete [(idName, n)]).1 = t ∨
    t.rowColumn.isSome ∧
    (t.delete [(idName, n)]).1 = { t with rows := t.rows.filter fun r ↦ !(r.id == n) } := by
  rcases hkeyed.rowColumn with hnone | hsome
  · have hcolumn : t.hasColumn idName = false := by
      unfold hasColumn isRowColumn column?
      rw [hnone, List.find?_eq_none.mpr fun c hc ↦ by simp [hkeyed.other c hc]]
      rfl
    refine .inl ?_
    simp [delete, hcolumn]
  · exact .inr ⟨by rw [hsome]; rfl, by rw [delete_row t hsome]⟩

theorem Sees.delete (h : t.Sees id name c) (hkeyed : t.Keyed)
    (hcounted : t.rowColumn.isSome → ∀ r ∈ t.rows, r.id ≤ t.last) (n : Int64) :
    (t.delete [(idName, n)]).1.Sees id name c := by
  rcases delete_id hkeyed n with heq | ⟨hsome, heq⟩ <;> rw [heq]
  · exact h
  unfold Sees at h ⊢
  rw [row?_filter hkeyed.ascending]
  split at h
  · next r hr =>
    obtain ⟨hin, rfl⟩ := row?_eq_some hr
    rw [hr, Option.filter_some]
    split
    · next hstays =>
      split at hstays
      · cases hstays
        exact h
      · cases hstays
    · exact ⟨hsome, hcounted hsome r hin⟩
  · next hr =>
    rw [hr]
    exact h

end Table

/-! ### Statements -/

namespace Store

variable {s : Schema} {store : Store} {statement : Statement} {effect : Effect}
  {a b : TableSpec} {e : Entity} {name : String}

theorem sameName_eq_false (hdistinct : s.Distinct) (ha : a ∈ s.tables)
    (hb : b ∈ s.tables) (hne : a ≠ b) :
    sameName a.name b.name = false := by
  refine List.Pairwise.forall_of_forall_of_flip (R :=
      fun a b ↦ a ≠ b → sameName a.name b.name = false)
    (fun _ _ h ↦ absurd rfl h) (hdistinct.imp ?_) (hdistinct.imp ?_) ha hb hne
  · exact fun h _ ↦ h
  · exact fun h _ ↦ sameName_comm.trans h

/-- A statement leaves the other tables of a schema. -/
theorem run_other (hdistinct : s.Distinct) (ha : a ∈ s.tables) (hb : b ∈ s.tables) (hne : a ≠ b)
    (htable : statement.table = a.name) (hrun : store.run statement = .ok effect) :
    effect.store.table? b.name = store.table? b.name := by
  obtain ⟨t, t', ht, hbecomes, hstore⟩ := run_cases hrun
  rw [hstore, table?_setTable]
  cases hu : store.table? b.name with
  | none => rfl
  | some u =>
    rw [Option.map_some, if_neg]
    intro hname
    rw [show t'.name = t.name by rw [hbecomes.eq_withRows]] at hname
    have hta := sameName_iff.mp (sameName_of_table? (htable ▸ ht))
    have hub := sameName_iff.mp (sameName_of_table? hu)
    have hsame := sameName_iff.mpr
      (hta.symm.trans
        ((congrArg (fun n : String ↦ n.toList.map Char.toLower) hname).symm.trans hub))
    rw [sameName_eq_false hdistinct ha hb hne] at hsame
    cases hsame

/-- The links of a relation stand in a table of their own. -/
theorem content_links_congr {store' : Store} (hs : s.WellFormed) (he : e ∈ s.entities)
    (h : ∀ p ∈ e.properties, p.name = name → ∀ spec, linkTable e.name p = some spec →
      store'.table? spec.name = store.table? spec.name) (id : Int64) :
    (store'.content s).links e.name name id = (store.content s).links e.name name id := by
  unfold content
  dsimp only
  rw [(Schema.get?_eq_some_iff hs).mpr ⟨he, rfl⟩, Option.any_some]
  split
  · next hlinks =>
    obtain ⟨p, hp, rfl, hlinked⟩ := (Entity.links_eq_true_iff (hs.entity e he)).mp hlinks
    obtain ⟨⟨target, hrelation⟩, hparent⟩ := Property.isLinked_iff.mp hlinked
    obtain ⟨unique, hspec⟩ := Schema.linkTable_eq (e := e) hrelation hparent
    rw [show linkTableName e.name p.name = _ from rfl, h p hp rfl _ hspec]
  · rfl

theorem content_links_other (hs : s.WellFormed) (hdistinct : s.Distinct)
    (he : e ∈ s.entities) (ha : a ∈ s.tables)
    (hne : ∀ p ∈ e.properties, p.name = name → linkTable e.name p ≠ some a)
    (htable : statement.table = a.name) (hrun : store.run statement = .ok effect) (id : Int64) :
    (effect.store.content s).links e.name name id = (store.content s).links e.name name id :=
  content_links_congr hs he
    (fun p hp hname _ hspec ↦ run_other hdistinct ha (Schema.linkTable_mem he hp hspec)
    (fun heq ↦ hne p hp hname (heq ▸ hspec)) htable hrun) id

/-- A link that is added shows among those of its owner only. -/
theorem content_links_insert (hs : s.WellFormed) (he : e ∈ s.entities)
    (hsound : store.Sound) {p : Property} (hp : p ∈ e.properties) (hlinked : p.isLinked)
    {owner target id : Int64} (hne : owner ≠ id)
    (hrun : store.run (.insert (linkTableName e.name p.name) [(ownerColumn, .integer owner),
      (targetColumn, .integer target)]) = .ok effect) :
    (effect.store.content s).links e.name p.name id = (store.content s).links e.name p.name id := by
  obtain ⟨t, t', ht, ⟨row, hinsert⟩, hstore⟩ := run_cases hrun
  have ht : store.table? (linkTableName e.name p.name) = some t := ht
  have hkeyed := hsound.keyed.table? ht
  have hcolumns := hsound.distinct t (List.mem_of_find?_eq_some ht)
  obtain ⟨hnext, rfl⟩ := hkeyed.insert_ok (settable_link owner target) hinsert
  have ht' : effect.store.table? (linkTableName e.name p.name) = some (t.withRow (t.newRow
      [(ownerColumn, .integer owner), (targetColumn, .integer target)] row)) := by
    rw [hstore, table?_setTable, ht, Option.map_some]
    exact congrArg some (if_pos rfl)
  rw [content_links hs he hp hlinked ht, content_links hs he hp hlinked ht']
  have hrows :
      (t.withRow
        (t.newRow [(ownerColumn, .integer owner), (targetColumn, .integer target)] row)).rows =
      t.rows ++ [t.newRow [(ownerColumn, .integer owner), (targetColumn, .integer target)] row] :=
    Table.insertRow_eq_append (Table.lt_nextId hkeyed.ascending hnext)
  have hother :
      (t.newRow [(ownerColumn, .integer owner), (targetColumn, .integer target)]
        row).number? ownerColumn ≠ some id := by
    rw [Ne, StoredRow.number?_eq_some_iff]
    by_cases hcolumn : ∃ c ∈ t.columns, c.name = ownerColumn
    · obtain ⟨c, hc, hname⟩ := hcolumn
      have hinteger := hkeyed.integer c hc (by rw [hname]; decide)
      rw [← hname, Table.cell_newRow hcolumns hc, hname, hinteger]
      exact fun heq ↦ hne (Cell.integer.inj heq)
    · rw [Table.cell_newRow_other fun c hc heq ↦ hcolumn ⟨c, hc, heq⟩]
      exact nofun
  unfold Table.targets
  rw [hrows, List.filter_append, List.filter_cons_of_neg (by simpa using hother),
    List.filter_nil, List.append_nil]

/-! ### The table of an entity and the links of a relation -/

/-- The table of an entity has its columns, and is as `P` says. -/
structure Finds (e : Entity) (P : Table → Prop) (store : Store) : Prop where
  sound : store.Sound
  covers : store.Covers e
  found : ∃ t, store.table? e.name = some t ∧ P t

/-- The table of an entity is as `P` says, and a relation has some links of a row. -/
structure Frame (s : Schema) (e : Entity) (P : Table → Prop) (name : String) (id : Int64)
    (targets : List Int64) (store : Store) : Prop extends store.Finds e P where
  links : (store.content s).links e.name name id = targets

variable {d : Entity} {p : Property} {P : Table → Prop} {id owner : Int64} {targets : List Int64}

namespace Finds

theorem table (h : store.Finds e P) {t : Table} (ht : store.table? e.name = some t) :
    P t ∧ t.Keyed ∧ Table.Distinct t.columns ∧ (t.rowColumn.isSome → ∀ r ∈ t.rows, r.id ≤ t.last) ∧
      ∀ q ∈ columns e, ∃ d ∈ t.columns, d.name = q.name := by
  have hmem := List.mem_of_find?_eq_some ht
  obtain ⟨u, hu, hP⟩ := h.found
  obtain rfl := Option.some.inj (hu.symm.trans ht)
  refine ⟨hP, h.sound.keyed _ hmem, h.sound.distinct _ hmem, h.sound.counted _ hmem, fun q hq ↦ ?_⟩
  obtain ⟨u', hu', hcolumn⟩ := h.covers.column q hq
  obtain rfl := Option.some.inj (ht.symm.trans hu')
  exact hcolumn

/-- A statement on another table. -/
theorem other (h : store.Finds e P) (hdistinct : s.Distinct)
    (he : e ∈ s.entities) (ha : a ∈ s.tables) (hne : a ≠ entityTable e)
    (hrun : store.run statement = .ok effect) (hplain : statement.Plain)
    (htable : statement.table = a.name) : effect.store.Finds e P where
  sound := h.sound.run hplain hrun
  covers := h.covers.run hrun
  found := by
    obtain ⟨t, ht, hP⟩ := h.found
    exact ⟨t, (run_other hdistinct ha (Schema.entityTable_mem he) hne htable hrun).trans ht, hP⟩

/-- A statement on the table of an entity. -/
theorem row (h : store.Finds e P) (hs : s.WellFormed) (hdistinct : s.Distinct) (he : e ∈ s.entities)
    (hd : d ∈ s.entities) (hrun : store.run statement = .ok effect) (hplain : statement.Plain)
    (htable : statement.table = d.name)
    (hP : d = e → ∀ t t', store.table? e.name = some t → t.Becomes statement t' → P t') :
    effect.store.Finds e P := by
  by_cases heq : entityTable d = entityTable e
  · obtain rfl : d = e := hs.eq_of_name_eq hd he (congrArg TableSpec.name heq)
    obtain ⟨t, t', ht, hbecomes, hstore⟩ := run_cases hrun
    rw [htable] at ht
    refine ⟨h.sound.run hplain hrun, h.covers.run hrun, t', ?_, hP rfl t t' ht hbecomes⟩
    rw [hstore, table?_setTable, ht, Option.map_some, hbecomes.eq_withRows]
    exact congrArg some (if_pos rfl)
  · exact h.other hdistinct he (Schema.entityTable_mem hd) heq hrun hplain htable

end Finds

namespace Frame

theorem other (h : store.Frame s e P name id targets) (hdistinct : s.Distinct)
    (he : e ∈ s.entities) (ha : a ∈ s.tables) (hne : a ≠ entityTable e)
    (hrun : store.run statement = .ok effect) (hplain : statement.Plain)
    (htable : statement.table = a.name)
    (hlinks : (effect.store.content s).links e.name name id =
      (store.content s).links e.name name id) :
    effect.store.Frame s e P name id targets :=
  ⟨h.toFinds.other hdistinct he ha hne hrun hplain htable, hlinks.trans h.links⟩

/-- A statement on the table of an entity leaves the links. -/
theorem row (h : store.Frame s e P name id targets) (hs : s.WellFormed) (hdistinct : s.Distinct)
    (he : e ∈ s.entities) (hd : d ∈ s.entities) (hrun : store.run statement = .ok effect)
    (hplain : statement.Plain) (htable : statement.table = d.name)
    (hP : d = e → ∀ t t', store.table? e.name = some t → t.Becomes statement t' → P t') :
    effect.store.Frame s e P name id targets := by
  refine ⟨h.toFinds.row hs hdistinct he hd hrun hplain htable hP, Eq.trans ?_ h.links⟩
  exact content_links_other hs hdistinct he (Schema.entityTable_mem hd)
    (fun _ _ _ hspec ↦ entityTable_ne_linkTable hspec rfl) htable hrun id

/-- A statement on the table of another relation. -/
theorem link (h : store.Frame s e P name id targets) (hs : s.WellFormed) (hdistinct : s.Distinct)
    (he : e ∈ s.entities) (hd : d ∈ s.entities) (hp : p ∈ d.properties) (hlinked : p.isLinked)
    (hne : d = e → p.name ≠ name) (hrun : store.run statement = .ok effect)
    (hplain : statement.Plain) (htable : statement.table = linkTableName d.name p.name) :
    effect.store.Frame s e P name id targets := by
  obtain ⟨⟨target, hrelation⟩, hparent⟩ := Property.isLinked_iff.mp hlinked
  obtain ⟨unique, hspec⟩ := Schema.linkTable_eq (e := d) hrelation hparent
  have hmem := Schema.linkTable_mem hd hp hspec
  refine h.other hdistinct he hmem (entityTable_ne_linkTable hspec).symm hrun hplain htable
    (content_links_other hs hdistinct he hmem (fun q hq hname hsame ↦ ?_) htable hrun id)
  obtain ⟨hentity, hrelated⟩ := linkTable_inj hspec hsame
  exact hne (hs.eq_of_name_eq hd he hentity) (hrelated.trans hname)

/-- A link is added to another row. -/
theorem addLink (h : store.Frame s e P name id targets) (hs : s.WellFormed) (hdistinct : s.Distinct)
    (he : e ∈ s.entities) (hd : d ∈ s.entities) (hp : p ∈ d.properties) (hlinked : p.isLinked)
    (hne : d = e → owner ≠ id) {target : Int64}
    (hrun : store.run (.insert (linkTableName d.name p.name) [(ownerColumn, .integer owner),
      (targetColumn, .integer target)]) = .ok effect) :
    effect.store.Frame s e P name id targets := by
  by_cases hself : d = e ∧ p.name = name
  · obtain ⟨rfl, rfl⟩ := hself
    obtain ⟨⟨other, hrelation⟩, hparent⟩ := Property.isLinked_iff.mp hlinked
    obtain ⟨unique, hspec⟩ := Schema.linkTable_eq (e := d) hrelation hparent
    exact h.other hdistinct he (Schema.linkTable_mem hd hp hspec)
      (entityTable_ne_linkTable hspec).symm hrun (settable_link owner target) rfl
        (content_links_insert hs hd h.sound hp hlinked (hne rfl) hrun)
  · exact h.link hs hdistinct he hd hp hlinked (fun heq hname ↦ hself ⟨heq, hname⟩) hrun
      (settable_link owner target) rfl

end Frame

end Store

end EntityStore
