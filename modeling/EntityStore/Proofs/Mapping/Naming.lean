import EntityStore.Proofs.Mapping.Batch
import EntityStore.Proofs.Mapping.Frame
import EntityStore.Proofs.Mapping.Refinement

/-!
When the tables of a schema have names of their own. The name of a table of links is the entity's
and the relation's with an underscore between, and names hold underscores themselves, so that a name
can be cut at another underscore than it was joined at. `Schema.distinct_iff` tells all the ways in
which two tables can get the same name; nothing that a schema checks excludes one of them.
-/

set_option autoImplicit false

namespace EntityStore

open Mapping (entityTable linkTable linkTableName)

/-! ### Joined names -/

theorem append_cons_eq_append_cons_iff {α : Type} {c : α} {a b r q : List α} :
    a ++ c :: r = b ++ c :: q ↔ a = b ∧ r = q ∨ (∃ x, b = a ++ c :: x ∧ r = x ++ c :: q) ∨
    ∃ x, a = b ++ c :: x ∧ q = x ++ c :: r := by
  constructor
  · intro h
    rcases List.append_eq_append_iff.mp h with ⟨x, rfl, hx⟩ | ⟨x, rfl, hx⟩
    · cases x with
      | nil => exact .inl ⟨(List.append_nil a).symm, (List.cons.inj hx).2⟩
      | cons d x =>
        obtain ⟨rfl, hr⟩ := List.cons.inj hx
        exact .inr (.inl ⟨x, rfl, hr⟩)
    · cases x with
      | nil => exact .inl ⟨List.append_nil b, (List.cons.inj hx).2.symm⟩
      | cons d x =>
        obtain ⟨rfl, hq⟩ := List.cons.inj hx
        exact .inr (.inr ⟨x, rfl, hq⟩)
  · rintro (⟨rfl, rfl⟩ | ⟨x, rfl, rfl⟩ | ⟨x, rfl, rfl⟩) <;> simp

namespace Mapping

variable {d e r q : String}

theorem lower_linkTableName : (linkTableName e r).toList.map Char.toLower =
    e.toList.map Char.toLower ++ '_' :: r.toList.map Char.toLower := by
  simp [linkTableName, String.toList_append, ToString.toString]

theorem sameName_linkTableName_iff : sameName d (linkTableName e r) ↔
    d.toList.map Char.toLower = e.toList.map Char.toLower ++ '_' :: r.toList.map Char.toLower := by
  rw [sameName_iff, lower_linkTableName]

/-- A link table is never named as its own entity is. -/
theorem not_sameName_linkTableName (h : sameName d e) : ¬sameName d (linkTableName e r) := by
  rw [sameName_linkTableName_iff, sameName_iff.mp h]
  intro heq
  have hlength := congrArg List.length heq
  simp at hlength

/-- A name that goes on after another and an underscore, whatever the case of letters. -/
theorem exists_lower {x : List Char}
    (h : d.toList.map Char.toLower = e.toList.map Char.toLower ++ '_' :: x) :
    ∃ y : String, y.toList.map Char.toLower = x := by
  obtain ⟨_, rest, -, -, hrest⟩ := List.map_eq_append_iff.mp h
  obtain ⟨_, rest, rfl, -, rfl⟩ := List.map_eq_cons_iff.mp hrest
  exact ⟨String.ofList rest, by rw [String.toList_ofList]⟩

/-- Two tables of links have the same name only if entities and relations have, or if the name of
one entity goes on, after an underscore, with what the relation of the other starts with. -/
theorem sameName_linkTableNames_iff : sameName (linkTableName d r) (linkTableName e q) ↔
    sameName d e ∧ sameName r q ∨
      (∃ x, sameName e (linkTableName d x) ∧ sameName r (linkTableName x q)) ∨
        ∃ x, sameName d (linkTableName e x) ∧ sameName q (linkTableName x r) := by
  simp only [sameName_iff (a := linkTableName d r), sameName_linkTableName_iff, lower_linkTableName]
  rw [append_cons_eq_append_cons_iff, ← sameName_iff, ← sameName_iff]
  refine or_congr Iff.rfl (or_congr ⟨?_, ?_⟩ ⟨?_, ?_⟩)
  · rintro ⟨x, he, hr⟩
    obtain ⟨y, rfl⟩ := exists_lower he
    exact ⟨y, he, hr⟩
  · rintro ⟨x, he, hr⟩
    exact ⟨_, he, hr⟩
  · rintro ⟨x, hd, hq⟩
    obtain ⟨y, rfl⟩ := exists_lower hd
    exact ⟨y, hd, hq⟩
  · rintro ⟨x, hd, hq⟩
    exact ⟨_, hd, hq⟩

end Mapping

/-! ### The tables of a schema -/

/-- The names of the tables of an entity. -/
def Entity.tableNames (e : Entity) : List String :=
  e.name :: e.linkedRelations.map (linkTableName e.name)

namespace Schema

open Mapping (not_sameName_linkTableName sameName_linkTableNames_iff)

/-- The names of a schema lead to no two tables of the same name. -/
structure NamesApart (s : Schema) : Prop where
  entities : s.entities.Pairwise fun d e ↦ sameName d.name e.name = false
  relations : ∀ e ∈ s.entities, e.linkedRelations.Pairwise fun r q ↦ sameName r q = false
  /-- No entity is named as a table of links is. -/
  tables : ∀ d ∈ s.entities, ∀ e ∈ s.entities, ∀ r ∈ e.linkedRelations, sameName d.name
    (linkTableName e.name r) = false
  /-- Where the name of an entity goes on after that of another, no two relations of them make up
  for it. -/
  joints : ∀ d ∈ s.entities, ∀ e ∈ s.entities, ∀ x, sameName e.name (linkTableName d.name x) →
    ∀ r ∈ d.linkedRelations, ∀ q ∈ e.linkedRelations, sameName r (linkTableName x q) = false

variable {s : Schema} {d e : Entity} {r : String}

theorem mem_tableNames (hr : r ∈ e.linkedRelations) : linkTableName e.name r ∈ e.tableNames :=
  List.mem_cons_of_mem _ (List.mem_map_of_mem hr)

theorem map_name_linkTable (entity : String) (p : Property) :
    (linkTable entity p).map TableSpec.name = if p.isLinked then
      some (linkTableName entity p.name) else none := by
  unfold linkTable
  cases hrelation : p.relation? with
  | none => simp [Property.isLinked, hrelation]
  | some relation => exact apply_ite (Option.map TableSpec.name) ..

theorem map_name_tables (s : Schema) :
    s.tables.map TableSpec.name = s.entities.flatMap Entity.tableNames := by
  unfold tables
  rw [List.map_flatMap]
  refine List.flatMap_congr fun e _ ↦ ?_
  rw [List.map_cons, List.map_filterMap, Entity.tableNames, Entity.linkedRelations,
    ← List.filterMap_eq_map, ← List.filterMap_eq_map, List.filterMap_filterMap,
    List.filterMap_filter]
  exact congrArg _ (List.filterMap_congr fun p _ ↦ map_name_linkTable e.name p)

theorem distinct_iff_pairwise : s.Distinct ↔
    (∀ e ∈ s.entities, e.tableNames.Pairwise fun a b ↦ sameName a b = false) ∧
      s.entities.Pairwise fun d e ↦ ∀ a ∈ d.tableNames, ∀ b ∈ e.tableNames,
      sameName a b = false := by
  rw [← List.pairwise_flatMap, ← map_name_tables, List.pairwise_map]
  rfl

theorem Distinct.apart (h : s.Distinct) (hd : d ∈ s.entities) (he : e ∈ s.entities) (hne : d ≠ e) :
    ∀ a ∈ d.tableNames, ∀ b ∈ e.tableNames, sameName a b = false := by
  have hcross := (distinct_iff_pairwise.mp h).2
  refine List.Pairwise.forall_of_forall_of_flip
    (R := fun d e ↦ d ≠ e → ∀ a ∈ d.tableNames, ∀ b ∈ e.tableNames, sameName a b = false)
    (fun _ _ h ↦ absurd rfl h) (hcross.imp ?_) (hcross.imp ?_) hd he hne
  · exact fun h _ ↦ h
  · exact fun h _ a ha b hb ↦ sameName_comm.trans (h b hb a ha)

theorem Distinct.namesApart (h : s.Distinct) : s.NamesApart := by
  obtain ⟨hown, hcross⟩ := distinct_iff_pairwise.mp h
  constructor
  · exact hcross.imp fun h ↦ h _ List.mem_cons_self _ List.mem_cons_self
  · intro e he
    refine (List.pairwise_map.mp (List.pairwise_cons.mp (hown e he)).2).imp fun {r q} hrq ↦ ?_
    refine Bool.eq_false_iff.mpr fun hsame ↦ Bool.eq_false_iff.mp hrq ?_
    exact sameName_linkTableNames_iff.mpr (.inl ⟨Table.sameName_refl e.name, hsame⟩)
  · intro d hd e he r hr
    by_cases heq : d = e
    · exact Bool.eq_false_iff.mpr (not_sameName_linkTableName (heq ▸ Table.sameName_refl d.name))
    · exact h.apart hd he heq _ List.mem_cons_self _ (mem_tableNames hr)
  · intro d hd e he x hx r hr q hq
    by_cases heq : d = e
    · exact absurd hx (not_sameName_linkTableName (heq ▸ Table.sameName_refl d.name))
    · refine Bool.eq_false_iff.mpr fun hsame ↦ ?_
      refine Bool.eq_false_iff.mp (h.apart hd he heq _ (mem_tableNames hr) _ (mem_tableNames hq)) ?_
      exact sameName_linkTableNames_iff.mpr (.inr (.inl ⟨x, hx, hsame⟩))

/-- The tables of one entity have names of their own. -/
theorem NamesApart.within (h : s.NamesApart) (he : e ∈ s.entities) :
    e.tableNames.Pairwise fun a b ↦ sameName a b = false := by
  refine List.pairwise_cons.mpr
    ⟨?_, List.pairwise_map.mpr ((h.relations e he).imp fun {r q} hrq ↦ ?_)⟩
  · intro a ha
    obtain ⟨r, hr, rfl⟩ := List.mem_map.mp ha
    exact h.tables e he e he r hr
  · refine Bool.eq_false_iff.mpr fun hsame ↦ ?_
    rcases sameName_linkTableNames_iff.mp hsame with ⟨-, hsame⟩ | ⟨x, hx, -⟩ | ⟨x, hx, -⟩
    · exact Bool.eq_false_iff.mp hrq hsame
    · exact not_sameName_linkTableName (Table.sameName_refl e.name) hx
    · exact not_sameName_linkTableName (Table.sameName_refl e.name) hx

/-- The tables of two entities have different names. -/
theorem NamesApart.between (h : s.NamesApart) (hd : d ∈ s.entities) (he : e ∈ s.entities)
    (hne : sameName d.name e.name = false) :
    ∀ a ∈ d.tableNames, ∀ b ∈ e.tableNames, sameName a b = false := by
  intro a ha b hb
  rcases List.mem_cons.mp ha with rfl | ha <;> rcases List.mem_cons.mp hb with rfl | hb
  · exact hne
  · obtain ⟨q, hq, rfl⟩ := List.mem_map.mp hb
    exact h.tables d hd e he q hq
  · obtain ⟨r, hr, rfl⟩ := List.mem_map.mp ha
    exact sameName_comm.trans (h.tables e he d hd r hr)
  · obtain ⟨r, hr, rfl⟩ := List.mem_map.mp ha
    obtain ⟨q, hq, rfl⟩ := List.mem_map.mp hb
    refine Bool.eq_false_iff.mpr fun hsame ↦ ?_
    rcases sameName_linkTableNames_iff.mp hsame with ⟨hsame, -⟩ | ⟨x, hx, hrx⟩ | ⟨x, hx, hqx⟩
    · exact Bool.eq_false_iff.mp hne hsame
    · exact Bool.eq_false_iff.mp (h.joints d hd e he x hx r hr q hq) hrx
    · exact Bool.eq_false_iff.mp (h.joints e he d hd x hx q hq r hr) hqx

theorem NamesApart.distinct (h : s.NamesApart) : s.Distinct :=
  distinct_iff_pairwise.mpr ⟨fun _ he ↦ h.within he,
    h.entities.imp_of_mem fun hd he hne ↦ h.between hd he hne⟩

/-- The tables of a schema have names of their own exactly if its names are apart. -/
theorem distinct_iff : s.Distinct ↔ s.NamesApart :=
  ⟨Distinct.namesApart, NamesApart.distinct⟩

/-- Two entities and their relations with names of which the same one is made. -/
def sharedCalls : List Call :=
  [.addEntity "B" .master, .addEntity "A" .master, .addEntity "A_b" .master,
    .addProperty "A" (.collection "b_c" ⟨.linked, "B"⟩),
    .addProperty "A_b" (.collection "c" ⟨.linked, "B"⟩), .commit]

/-- A schema accepts these names, and the links that a batch gives to rows of the one entity are
links of rows of the other, which the batch says nothing about. -/
theorem links_shared : ∃ t c₁ c₂ t', ¬(empty.after sharedCalls).Distinct ∧
    (Mapping.bootstrap (empty.after sharedCalls)).run (.start true) = (.ok (), t) ∧
      (empty.after sharedCalls).compileCreate ⟨"B", []⟩ [] .empty = .ok c₁ ∧
      (empty.after sharedCalls).compileCreate ⟨"A", [("b_c", .list [.literal (.long 1)])]⟩
        [] c₁.slots = .ok c₂ ∧
      (Mapping.execute (empty.after sharedCalls) (c₁.instructions ++ c₂.instructions)).run
        ⟨t.store, c₂.slots, t.log⟩ = (.ok (), t') ∧
      (∀ i ∈ c₁.instructions ++ c₂.instructions, i.entity ≠ "A_b") ∧
        (t'.store.content (empty.after sharedCalls)).links "A_b" "c" 1 = [1] := by
  have hshared : ¬(empty.after sharedCalls).Distinct := by decide +kernel
  have hboot : ((Mapping.bootstrap (empty.after sharedCalls)).run (.start true)).1.isOk := by
    decide +kernel
  have hok : (((empty.after sharedCalls).compileCreate ⟨"B", []⟩ [] .empty).toOption.any fun c₁ ↦
      ((empty.after sharedCalls).compileCreate ⟨"A", [("b_c", .list [.literal (.long 1)])]⟩ []
          c₁.slots).toOption.any
        fun c₂ ↦
          have t := ((Mapping.bootstrap (empty.after sharedCalls)).run (.start true)).2
          have r :=
            (Mapping.execute (empty.after sharedCalls) (c₁.instructions ++ c₂.instructions)).run
            ⟨t.store, c₂.slots, t.log⟩
          r.1.isOk && ((c₁.instructions ++ c₂.instructions).all (fun i ↦ i.entity != "A_b") &&
            (r.2.store.content (empty.after sharedCalls)).links "A_b" "c" 1 == [1])) := by
              decide +kernel
  obtain ⟨c₁, hc₁, hok⟩ := (Option.any_eq_true _ _).mp hok
  obtain ⟨c₂, hc₂, hok⟩ := (Option.any_eq_true _ _).mp hok
  obtain ⟨hrun, hok⟩ := Bool.and_eq_true_iff.mp hok
  obtain ⟨hother, hlinks⟩ := Bool.and_eq_true_iff.mp hok
  obtain ⟨⟨⟩, hboot⟩ := Except.isOk_iff.mp hboot
  obtain ⟨⟨⟩, hrun⟩ := Except.isOk_iff.mp hrun
  exact ⟨_, c₁, c₂, _, hshared, Run.run_eq_ok hboot, Except.toOption_eq_some_iff.mp hc₁,
    Except.toOption_eq_some_iff.mp hc₂, Run.run_eq_ok hrun,
    fun i hi ↦ bne_iff_ne.mp (List.all_eq_true.mp hother i hi), eq_of_beq hlinks⟩

end Schema

/-! ### The tables of two schemas -/

/-- What the tables of an entity are for: its rows, or the links of a relation. -/
def Entity.tableKeys (e : Entity) : List (String × Option String) :=
  (e.name, none) :: e.linkedRelations.map fun r ↦ (e.name, some r)

namespace Schema

def tableKeys (s : Schema) : List (String × Option String) :=
  s.entities.flatMap Entity.tableKeys

/-- The name of a table. -/
def keyName : String × Option String → String
  | (entity, none) => entity
  | (entity, some relation) => linkTableName entity relation

/-- The tables of two schemas together have names of their own: those of the same name are for the
same rows or links. -/
structure Beside (s s' : Schema) : Prop where
  left : s.Distinct
  right : s'.Distinct
  across : ∀ x ∈ s.tableKeys, ∀ y ∈ s'.tableKeys, sameName (keyName x) (keyName y) → x = y

theorem beside_iff {s s' : Schema} : s.Beside s' ↔ s.Distinct ∧ s'.Distinct ∧
    ∀ x ∈ s.tableKeys, ∀ y ∈ s'.tableKeys, sameName (keyName x) (keyName y) → x = y :=
  ⟨fun h ↦ ⟨h.left, h.right, h.across⟩, fun h ↦ ⟨h.1, h.2.1, h.2.2⟩⟩

instance (s s' : Schema) : Decidable (s.Beside s') :=
  decidable_of_iff _ beside_iff.symm

variable {s s' : Schema} {d e : Entity} {spec : TableSpec}

theorem entityKey_mem (he : e ∈ s.entities) : (e.name, none) ∈ s.tableKeys :=
  List.mem_flatMap.mpr ⟨e, he, List.mem_cons_self⟩

/-- A table is for the rows of an entity or for the links of a relation. -/
theorem tables_cases (hspec : spec ∈ s.tables) : ∃ e ∈ s.entities, spec = entityTable e ∨
    ∃ p ∈ e.properties, linkTable e.name p = some spec ∧ (e.name, some p.name) ∈ s.tableKeys := by
  obtain ⟨e, he, hspec⟩ := List.mem_flatMap.mp hspec
  refine ⟨e, he, (List.mem_cons.mp hspec).imp_right fun hlink ↦ ?_⟩
  obtain ⟨p, hp, hlink⟩ := List.mem_filterMap.mp hlink
  refine ⟨p, hp, hlink,
    List.mem_flatMap.mpr ⟨e, he, List.mem_cons_of_mem _ (List.mem_map_of_mem ?_)⟩⟩
  exact List.mem_map_of_mem (List.mem_filter.mpr ⟨hp, Mapping.linkTable_isLinked hlink⟩)

theorem linkTable_name {entity : String} {p : Property} (h : linkTable entity p = some spec) :
    spec.name = linkTableName entity p.name := by
  obtain ⟨_, _, -, rfl⟩ := Mapping.linkTable_eq_some h
  rfl

/-- A table that has the name of an entity of the other schema is for rows. -/
theorem Beside.counted (h : s.Beside s') (hspec : spec ∈ s.tables) (hd : d ∈ s'.entities)
    (hname : sameName spec.name d.name) : spec.counted := by
  obtain ⟨e, -, rfl | ⟨p, -, hlink, hkey⟩⟩ := tables_cases hspec
  · rfl
  · rw [linkTable_name hlink] at hname
    cases congrArg Prod.snd (h.across _ hkey _ (entityKey_mem hd) hname)

theorem Distinct.counted (h : s.Distinct) (hspec : spec ∈ s.tables) (hd : d ∈ s.entities)
    (hname : sameName spec.name d.name) : spec.counted := by
  by_cases heq : spec = entityTable d
  · rw [heq]
    rfl
  · have hfalse := Store.sameName_eq_false h hspec (entityTable_mem hd) heq
    rw [show (entityTable d).name = d.name from rfl, hname] at hfalse
    cases hfalse

end Schema

end EntityStore
