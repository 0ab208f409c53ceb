import EntityStore.Proofs.Store.Table
import EntityStore.Store.Basic

/-!
What statements leave of a store: the table that a statement names is changed, if the foreign keys
allow it, and no other one.
-/

set_option autoImplicit false

namespace EntityStore

/-- What a statement makes of the table that it names. -/
def Table.Becomes (t : Table) : Statement → Table → Prop
  | .insert named values, t' => ∃ id, t.insert named values = .ok (t', id)
  | .update _ sets id, t' => ∃ count, t.update sets id = .ok (t', count)
  | .delete _ keys, t' => t' = (t.delete keys).1

namespace Table

variable {t t' : Table} {statement : Statement}

/-- A table has the same columns and foreign keys as before. -/
theorem Becomes.eq_withRows (h : t.Becomes statement t') :
    t' = { t with rows := t'.rows, last := t'.last } := by
  cases statement with
  | insert named values =>
    obtain ⟨id, hinsert⟩ := h
    obtain ⟨-, -, -, -, rfl⟩ := insert_eq_ok.mp hinsert
    rfl
  | update named sets id =>
    obtain ⟨count, hupdate⟩ := h
    obtain ⟨-, ⟨-, rfl, -⟩ | ⟨old, new, -, -, -, -, rfl, -⟩⟩ := update_eq_ok.mp hupdate <;> rfl
  | delete named keys =>
    obtain rfl := h
    rfl

theorem mem_withChanged {r s : StoredRow} {id : Int64} (hs : s ∈ (t.withChanged id r).rows) :
    s = r ∨ s ∈ t.rows := by
  unfold withChanged at hs
  split at hs
  · obtain ⟨old, hold, rfl⟩ := List.mem_map.mp hs
    split
    · exact .inl rfl
    · exact .inr hold
  · exact (mem_insertRow.mp hs).imp_right fun hmem ↦ (List.mem_filter.mp hmem).1

/-- A row of a table was there before, or is written and has what is required. -/
theorem Becomes.mem_rows (h : t.Becomes statement t') {r : StoredRow}
    (hr : r ∈ t'.rows) : r ∈ t.rows ∨ t.checkRequired r = .ok () ∧
      ((∃ values id, r = t.newRow values id) ∨
        ∃ sets id, ∃ old ∈ t.rows, r = t.changedRow sets old id) := by
  cases statement with
  | insert named values =>
    obtain ⟨id, hinsert⟩ := h
    obtain ⟨-, -, hrequired, -, rfl⟩ := insert_eq_ok.mp hinsert
    rcases mem_insertRow.mp hr with rfl | hr
    · exact .inr ⟨hrequired, .inl ⟨values, id, rfl⟩⟩
    · exact .inl hr
  | update named sets id =>
    obtain ⟨count, hupdate⟩ := h
    obtain ⟨-, ⟨-, rfl, -⟩ | ⟨old, new, hold, -, hrequired, -, rfl, -⟩⟩ := update_eq_ok.mp hupdate
    · exact .inl hr
    · rcases mem_withChanged hr with rfl | hr
      · exact .inr ⟨hrequired, .inr ⟨sets, new, old, (row?_eq_some (target_eq_some hold)).1, rfl⟩⟩
      · exact .inl hr
  | delete named keys =>
    obtain rfl := h
    exact .inl (List.mem_filter.mp hr).1

end Table

namespace Store

/-- What a statement that succeeds makes of its table, and the effect that it reports: the rows that
it wrote have passed their checks, and so has the removal of rows. -/
inductive Ran (s : Store) (t : Table) : Statement → Table → Effect → Prop
  | insert {table : String} {values : List (String × Cell)} {t' : Table} {id : Int64}
    (hinsert : t.insert table values = .ok (t', id))
    (hcheck : ∀ r, t'.row? id = some r → (s.setTable t').checkForeignKeys t' r = .ok ()) :
    Ran s t (.insert table values) t' ⟨s.setTable t', 1, id⟩
  | update {table : String} {sets : List (String × Cell)} {id : Int64} {t' : Table} {count : Nat}
    (hupdate : t.update sets id = .ok (t', count))
    (hcheck : ∀ r ∈ t'.rows, r ∉ t.rows → (s.setTable t').checkForeignKeys t' r = .ok ())
    (hgone : (s.setTable t').checkUnreferenced t' ((t.rows.map StoredRow.id).filter
      fun i ↦ (t'.row? i).isNone) = .ok ()) :
    Ran s t (.update table sets id) t' ⟨s.setTable t', count, 0⟩
  | delete {table : String} {keys : List (String × Int64)}
    (hgone : (s.setTable (t.delete keys).1).checkUnreferenced (t.delete keys).1
      ((t.delete keys).2.map StoredRow.id) = .ok ()) :
    Ran s t (.delete table keys) (t.delete keys).1 ⟨s.setTable (t.delete keys).1,
      (t.delete keys).2.length, 0⟩

variable {s s' : Store} {table : String} {values sets : List (String × Cell)} {id : Int64}
  {keys : List (String × Int64)} {effect : Effect} {t : Table}

theorem run_insert (ht : s.table? table = some t) :
    s.run (.insert table values) = t.insert table values >>= fun (t', id) ↦
      (t'.row? id).elim (.ok ()) ((s.setTable t').checkForeignKeys t') >>= fun _ ↦
        .ok ⟨s.setTable t', 1, id⟩ := by
  unfold run
  rw [show (Statement.insert table values).table = table from rfl, ht]
  refine congrArg (t.insert table values >>= ·) (funext fun (t', id) ↦ ?_)
  dsimp only
  cases t'.row? id <;> rfl

theorem run_update (ht : s.table? table = some t) :
    s.run (.update table sets id) = t.update sets id >>= fun (t', count) ↦
      (t'.rows.filter fun r ↦ !t.rows.contains r).forM
        ((s.setTable t').checkForeignKeys t') >>= fun _ ↦
      (s.setTable t').checkUnreferenced t'
        ((t.rows.map StoredRow.id).filter fun i ↦ (t'.row? i).isNone) >>= fun _ ↦
      .ok ⟨s.setTable t', count, 0⟩ := by
  unfold run
  rw [show (Statement.update table sets id).table = table from rfl, ht]
  rfl

theorem run_delete (ht : s.table? table = some t) :
    s.run (.delete table keys) =
      (s.setTable (t.delete keys).1).checkUnreferenced (t.delete keys).1
        ((t.delete keys).2.map StoredRow.id) >>= fun _ ↦
      .ok ⟨s.setTable (t.delete keys).1, (t.delete keys).2.length, 0⟩ := by
  unfold run
  rw [show (Statement.delete table keys).table = table from rfl, ht]
  rfl

theorem ran_of_run {statement : Statement} (h : s.run statement = .ok effect)
    (ht : s.table? statement.table = some t) :
    ∃ t', s.Ran t statement t' effect := by
  cases statement with
  | insert table values =>
    change s.table? table = some t at ht
    rw [run_insert ht] at h
    obtain ⟨⟨t', id⟩, hinsert, h⟩ := Except.bind_eq_ok.mp h
    obtain ⟨⟨⟩, hcheck, h⟩ := Except.bind_eq_ok.mp h
    cases h
    refine ⟨t', .insert hinsert fun r hr ↦ ?_⟩
    rwa [hr] at hcheck
  | update table sets id =>
    change s.table? table = some t at ht
    rw [run_update ht] at h
    obtain ⟨⟨t', count⟩, hupdate, h⟩ := Except.bind_eq_ok.mp h
    obtain ⟨⟨⟩, hcheck, h⟩ := Except.bind_eq_ok.mp h
    obtain ⟨⟨⟩, hgone, h⟩ := Except.bind_eq_ok.mp h
    cases h
    refine ⟨t', .update hupdate (fun r hr hnew ↦ ?_) hgone⟩
    exact Except.forM_eq_ok.mp hcheck r (List.mem_filter.mpr ⟨hr, by simpa using hnew⟩)
  | delete table keys =>
    change s.table? table = some t at ht
    rw [run_delete ht] at h
    obtain ⟨⟨⟩, hgone, h⟩ := Except.bind_eq_ok.mp h
    cases h
    exact ⟨(t.delete keys).1, .delete hgone⟩

theorem run_eq_ok {statement : Statement} (h : s.run statement = .ok effect) :
    ∃ t t', s.table? statement.table = some t ∧ s.Ran t statement t' effect := by
  cases ht : s.table? statement.table with
  | none =>
    unfold run at h
    rw [ht] at h
    cases h
  | some t =>
    obtain ⟨t', hran⟩ := ran_of_run h ht
    exact ⟨t, t', rfl, hran⟩

theorem Ran.becomes {statement : Statement} {t' : Table} (h : s.Ran t statement t' effect) :
    t.Becomes statement t' := by
  cases h with
  | insert hinsert => exact ⟨_, hinsert⟩
  | update hupdate => exact ⟨_, hupdate⟩
  | delete => rfl

theorem Ran.store_eq {statement : Statement} {t' : Table} (h : s.Ran t statement t' effect) :
    effect.store = s.setTable t' := by
  cases h <;> rfl

/-- A statement that succeeds changes the table that it names. -/
theorem run_cases {statement : Statement} (h : s.run statement = .ok effect) :
    ∃ t t', s.table? statement.table = some t ∧ t.Becomes statement t' ∧
    effect.store = s.setTable t' := by
  obtain ⟨t, t', ht, hran⟩ := run_eq_ok h
  exact ⟨t, t', ht, hran.becomes, hran.store_eq⟩

/-- A definition that succeeds adds a table of a new name or a column, or finds its table there. -/
theorem define_cases {d : Definition} (h : s.define d = .ok s') :
    (∃ spec, d = .createTable spec ∧ ((s.table? spec.name).isSome ∧ s' = s ∨
      s.table? spec.name = none ∧ s' = { s with tables := s.tables ++ [spec.table] })) ∨
    ∃ table c t t', d = .addColumn table c ∧ s.table? table = some t ∧
      t.addColumn c.column c.foreignKeys = .ok t' ∧ s' = s.setTable t' := by
  unfold define at h
  split at h
  · next spec =>
    refine .inl ⟨spec, rfl, ?_⟩
    split at h
    · cases h
    · split at h
      · next hsome =>
        cases h
        exact .inl ⟨hsome, rfl⟩
      · next hnone =>
        split at h
        · cases h
        · cases h
          exact .inr ⟨by simpa using hnone, rfl⟩
  · next table c =>
    cases ht : s.table? table with
    | none =>
      rw [ht] at h
      cases h
    | some t =>
      rw [ht] at h
      obtain ⟨t', hadd, rfl⟩ := Except.map_eq_ok.mp h
      exact .inr ⟨table, c, t, t', rfl, ht, hadd, rfl⟩

end Store

end EntityStore
