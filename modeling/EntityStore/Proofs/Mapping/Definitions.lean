import EntityStore.Proofs.Mapping.Hosts
import EntityStore.Proofs.Session.Together

/-!
The definitions that a schema makes: the tables that it asks for, and the columns of its entities,
as columns that are added. What these keep is kept by creating the tables of the schema
(`bootstrap_keeps`), and stores that they do not tell apart are not told apart by it
(`bootstrap_together`).
-/

set_option autoImplicit false

namespace EntityStore

open Mapping

/-- A definition that a schema makes. -/
inductive Definition.Asked (s : Schema) : Definition → Prop
  | table {spec : TableSpec} (h : spec ∈ s.tables) : Asked s (.createTable spec)
  | column {e : Entity} {c : ColumnSpec} (he : e ∈ s.entities) (hc : c ∈ columns e) :
      Asked s (.addColumn e.name (addedColumn c))

namespace Mapping

variable {s : Schema} {e : Entity} {P : Store → Prop} {T : Store → Store → Prop}
  {S : Slots → Slots → Prop} {E : Error → Error → Prop} {t t' : Session} {existing : List String}

theorem asked_missing (he : e ∈ s.entities) {c : ColumnSpec} (hc : c ∈ missingColumns e existing) :
    (Definition.addColumn e.name c).Asked s := by
  obtain ⟨c, hin, rfl⟩ := List.mem_map.mp hc
  exact .column he (List.mem_filter.mp hin).1

theorem asked_link (he : e ∈ s.entities) {spec : TableSpec}
    (hspec : spec ∈ e.properties.filterMap (linkTable e.name)) :
    (Definition.createTable spec).Asked s := by
  obtain ⟨p, hp, hspec⟩ := List.mem_filterMap.mp hspec
  exact .table (Schema.linkTable_mem he hp hspec)

theorem bootstrap_keeps
    (h : ∀ d, Definition.Asked s d → ∀ store store', P store →
      store.define d = .ok store' → P store') :
    Run.Keeps P (bootstrap s) fun _ ↦ True := by
  refine .atomically (.forM fun e he ↦ ?_)
  refine .bind (.define (h _ (.table (Schema.entityTable_mem he))))
    fun _ _ ↦ .bind .get fun u _ ↦ ?_
  refine .bind (.forM fun c hc ↦ .define (h _ (asked_missing he hc)))
    fun _ _ ↦ .forM fun spec hspec ↦ ?_
  exact .define (h _ (asked_link he hspec))

/-- What the definitions keep holds of the store that a schema has created its tables in. -/
theorem bootstrap_kept
    (h : ∀ d, Definition.Asked s d → ∀ store store', P store →
      store.define d = .ok store' → P store')
    (ht : P t.store) (hrun : (bootstrap s).run t = (.ok (), t')) : P t'.store := by
  have hkept := bootstrap_keeps h t ht
  rw [hrun] at hkept
  exact hkept.1

theorem bootstrap_together (hdefine : ∀ d, Definition.Asked s d → ∀ store store', T store store' →
      Except.Both (fun e e' ↦ E (Run.storeError e) (Run.storeError e')) T
        (store.define d) (store'.define d))
    (hnames : ∀ store store', T store store' → ∀ name,
      (store.table? name).map Table.columnNames = (store'.table? name).map Table.columnNames) :
    Run.Together T S E (bootstrap s) (bootstrap s) fun _ _ ↦ True := by
  refine .atomically (.forM fun e he ↦ ?_)
  refine .bind (.define (hdefine _ (.table (Schema.entityTable_mem he))))
    fun _ _ _ ↦ .bind .get fun u u' h ↦ ?_
  rw [hnames _ _ h.store]
  refine .bind (.forM fun c hc ↦ .define (hdefine _ (asked_missing he hc)))
    fun _ _ _ ↦ .forM fun spec hspec ↦ ?_
  exact .define (hdefine _ (asked_link he hspec))

/-- The tables of a schema are there once it has created them. -/
theorem isSome_of_bootstrap (hrun : (bootstrap s).run t = (.ok (), t')) :
    ∀ spec ∈ s.tables, (t'.store.table? spec.name).isSome := by
  intro spec hspec
  obtain ⟨e, he, hspec⟩ := List.mem_flatMap.mp hspec
  exact (((bootstrap_provides hrun).2 e he).tables spec hspec).found

end Mapping

end EntityStore
