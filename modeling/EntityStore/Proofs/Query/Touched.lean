import EntityStore.Proofs.Query.Distinct
import EntityStore.Proofs.Query.Standing

/-!
The properties that a query touches, told by what is written: the row number of every level, every
field and relation that is selected, all declared fields where all are, and every relation and field
on the way of a filter. A query that compiles notes these and no others (`accessed_iff_touches`),
though it skips fields that are selected already.
-/

set_option autoImplicit false

namespace EntityStore

open EntityStore.Language (Bound Expr Item)

/-- The paths that a filter compares. -/
def Language.Expr.paths : Expr Value → List (List String)
  | .and l r | .or l r => paths l ++ paths r
  | .predicate path _ _ => [path]

namespace Query

/-- A name on a path from an entity: each but the last is a relation to the entity of the next. -/
inductive OnPath (s : Schema) : Entity → List String → PropertyKey → Prop where
  | first {e : Entity} {name : String} {rest : List String} :
      OnPath s e (name :: rest) ⟨e.name, name⟩
  | beyond {e next : Entity} {p : Property} {kind : RelationKind}
      {rest : List String} {k : PropertyKey} (hp : p ∈ e.properties) (hnext : next ∈ s.entities)
      (hrel : p.relation? = some (next.name, kind)) (h : OnPath s next rest k) :
      OnPath s e (p.name :: rest) k

mutual

/-- What a level touches that filters and selects: its row number, what is on the paths of its
filter, and what its selections touch. -/
inductive Touches (s : Schema) : Entity → Option (Expr Value) → List (Item Value Int64) →
    PropertyKey → Prop where
  | id {e : Entity} {x : Option (Expr Value)} {is : List (Item Value Int64)} :
      Touches s e x is ⟨e.name, idName⟩
  | filter {e : Entity} {x : Expr Value} {is : List (Item Value Int64)}
      {path : List String} {k : PropertyKey} (hpath : path ∈ x.paths) (h : OnPath s e path k) :
      Touches s e (some x) is k
  | item {e : Entity} {x : Option (Expr Value)} {is : List (Item Value Int64)}
      {i : Item Value Int64} {k : PropertyKey} (hi : i ∈ is) (h : ItemTouches s e i k) :
      Touches s e x is k

/-- What a selection touches: the declared fields, a field, or a relation with all that the level
below it touches. -/
inductive ItemTouches (s : Schema) : Entity → Item Value Int64 → PropertyKey → Prop where
  | all {e : Entity} {f : String × Field} (hf : f ∈ e.userFields) :
      ItemTouches s e .all ⟨e.name, f.1⟩
  | field {e : Entity} {name : String} {sort : Option (Direction × Int64)} :
      ItemTouches s e (.field name sort) ⟨e.name, name⟩
  | relation {e : Entity} {name : String} {x : Option (Expr Value)}
      {limit page : Option (Bound Int64)} {is : List (Item Value Int64)} :
      ItemTouches s e (.relation name x limit page is) ⟨e.name, name⟩
  | nested {e child : Entity} {p : Property} {kind : RelationKind} {x : Option (Expr Value)}
      {limit page : Option (Bound Int64)} {is : List (Item Value Int64)} {k : PropertyKey}
      (hp : p ∈ e.properties) (hchild : child ∈ s.entities)
      (hrel : p.relation? = some (child.name, kind)) (h : Touches s child x is k) :
      ItemTouches s e (.relation p.name x limit page is) k

end

/-! ### Accesses -/

namespace Noted

variable {α β : Type} {k : PropertyKey}

def Accesses (x : Noted α) (k : PropertyKey) : Prop :=
  .access k ∈ x.notes

@[simp] theorem accesses_pure (a : α) : ¬(pure a : Noted α).Accesses k :=
  List.not_mem_nil

@[simp] theorem accesses_bind {x : Noted α} {f : α → Noted β} :
    (x >>= f).Accesses k ↔ x.Accesses k ∨ (f x.result).Accesses k := by
  rw [Accesses, bind_notes, List.mem_append]
  rfl

@[simp] theorem accesses_access {j : PropertyKey} : (note (.access j)).Accesses k ↔ k = j := by
  simp [Accesses]

@[simp] theorem accesses_error (err : CompileError) : ¬(note (.error err)).Accesses k := by
  simp [Accesses]

@[simp] theorem accesses_parameter (p : Parameter) : ¬(note (.parameter p)).Accesses k := by
  simp [Accesses]

@[simp] theorem accesses_fail (err : CompileError) : ¬(fail err : Noted (Option α)).Accesses k := by
  simp [Accesses, fail]

@[simp] theorem accesses_ofExcept (x : Except CompileError α) : ¬(ofExcept x).Accesses k := by
  cases x <;> simp [Accesses, ofExcept, fail]

end Noted

/-- What was noted is what the findings tell. -/
theorem Findings.mem_accessed {notes : List Note} {k : PropertyKey} :
    k ∈ (ofNotes notes).accessed ↔ .access k ∈ notes := by
  suffices h : ∀ f : Findings, k ∈ (notes.foldl add f).accessed ↔ k ∈ f.accessed ∨
      .access k ∈ notes from
    (h none).trans (or_iff_right List.not_mem_nil)
  induction notes with
  | nil => simp
  | cons n notes ih =>
    intro f
    rw [List.foldl_cons, ih, List.mem_cons]
    cases n with
    | error e => simp [add]
    | access j => simp [add, Accessed.mem_insert, or_assoc, or_left_comm]
    | parameter p =>
      unfold add
      dsimp only
      split <;> simp

/-! ### Filters -/

section

variable {s : Schema} {e : Entity} {k : PropertyKey}

theorem lastPlace_accesses {full : List String} {name : String}
    (h : (lastPlace s full e name).Clean) :
    (lastPlace s full e name).Accesses k ↔ k = ⟨e.name, name⟩ := by
  unfold lastPlace at h ⊢
  split at h
  · simp at h
  · split at h
    · next f _ =>
      by_cases hcontainer : f.type.isContainer
      · simp [hcontainer] at h
      · simp [hcontainer]
    · simp at h
    · simp at h

theorem onPath_cons (hs : s.WellFormed) (he : e ∈ s.entities) {p : Property} {next : Entity}
    {kind : RelationKind} {rest : List String} (hp : p ∈ e.properties) (hnext : next ∈ s.entities)
    (hrel : p.relation? = some (next.name, kind)) :
    OnPath s e (p.name :: rest) k ↔ k = ⟨e.name, p.name⟩ ∨ OnPath s next rest k := by
  constructor
  · generalize hpath : p.name :: rest = path
    intro h
    cases h with
    | first =>
      cases hpath
      exact .inl rfl
    | @beyond _ next' p' _ _ _ hp' hnext' hrel' h =>
      obtain ⟨hname, rfl⟩ := List.cons.inj hpath
      obtain rfl := (hs.entity e he).indexed.eq_of_name_eq hp hp' hname
      rw [hrel, Option.some.injEq, Prod.mk.injEq] at hrel'
      obtain rfl := hs.eq_of_name_eq hnext hnext' hrel'.1
      exact .inr h
  · rintro (rfl | h)
    · exact .first
    · exact .beyond hp hnext hrel h

theorem onPath_singleton {name : String} : OnPath s e [name] k ↔ k = ⟨e.name, name⟩ := by
  constructor
  · rintro (_ | ⟨_, _, _, h⟩)
    · rfl
    · cases h
  · rintro rfl
    exact .first

/-- A path without an error notes the names on it. -/
theorem place_accesses (hs : s.WellFormed) (he : e ∈ s.entities) {full path : List String}
    (h : (place s full e path).Clean) : (place s full e path).Accesses k ↔ OnPath s e path k := by
  induction path generalizing e with
  | nil =>
    refine iff_of_false (Noted.accesses_pure _) nofun
  | cons name rest ih =>
    cases rest with
    | nil => exact (lastPlace_accesses h).trans onPath_singleton.symm
    | cons name' rest =>
      unfold place at h ⊢
      split at h
      · simp at h
      · next p hget =>
        split at h
        · simp at h
        · next target kind hrel =>
          simp only [Noted.clean_bind] at h
          split at h
          · simp at h
          · next next hnext =>
            obtain ⟨hp, rfl⟩ := (Entity.get?_eq_some_iff (hs.entity e he)).mp hget
            obtain ⟨hin, rfl⟩ := (Schema.get?_eq_some_iff hs).mp hnext
            simp only [Noted.clean_bind, Noted.accesses_bind, Noted.accesses_access,
              Noted.accesses_pure, or_false] at h ⊢
            rw [ih hin h.2.1, onPath_cons hs he hp hin hrel]

theorem predicate_accesses (hs : s.WellFormed) (he : e ∈ s.entities) {path : List String}
    {c : Language.Comparator} {n : Language.Node Value} (h : (predicate s e path c n).Clean) :
    (predicate s e path c n).Accesses k ↔ OnPath s e path k := by
  unfold predicate at h ⊢
  rw [Noted.clean_bind] at h
  rw [Noted.accesses_bind, place_accesses hs he h.1, or_iff_left]
  split
  · simp only [Noted.accesses_bind, Noted.accesses_ofExcept, false_or]
    split
    · split <;> simp
    · simp
  · simp

theorem filter_accesses (hs : s.WellFormed) (he : e ∈ s.entities) {x : Expr Value}
    (h : (filter s e x).Clean) :
    (filter s e x).Accesses k ↔ ∃ path ∈ x.paths, OnPath s e path k := by
  induction x with
  | and l r ihl ihr | or l r ihl ihr =>
    simp only [filter, Noted.clean_bind] at h
    simp only [filter, Noted.accesses_bind, Noted.accesses_pure, or_false, ihl h.1, ihr h.2.1,
      Language.Expr.paths, List.mem_append, or_and_right, exists_or]
  | predicate path c n =>
    simp only [filter, Noted.clean_bind] at h
    simp [filter, predicate_accesses hs he h.1, Language.Expr.paths]

theorem bound_accesses (paged : Bool) (clause : PageClause) (b : Bound Int64) :
    ¬(bound e paged clause b).Accesses k := by
  unfold bound
  split
  · simp
  · cases b with
    | literal n =>
      dsimp only
      split <;> simp
    | param name => simp

theorem optionally_bound_accesses (paged : Bool) (clause : PageClause) (b : Option (Bound Int64)) :
    ¬(optionally (bound e paged clause) b).Accesses k := by
  cases b with
  | none => exact Noted.accesses_pure _
  | some b => exact bound_accesses paged clause b

/-- The start of a level notes its row number and the paths of its filter. -/
theorem levelStart_accesses (hs : s.WellFormed) (he : e ∈ s.entities) {paged : Bool}
    {x : Option (Expr Value)} {limit page : Option (Bound Int64)}
    (h : (levelStart s e paged x limit page).Clean) :
    (levelStart s e paged x limit page).Accesses k ↔
      k = ⟨e.name, idName⟩ ∨ ∃ y ∈ x, ∃ path ∈ y.paths, OnPath s e path k := by
  unfold levelStart at h ⊢
  simp only [Noted.clean_bind] at h
  have hfilter : (optionally (filter s e) x).Accesses k ↔
      ∃ y ∈ x, ∃ path ∈ y.paths, OnPath s e path k := by
    cases x with
    | none => exact iff_of_false (Noted.accesses_pure _) (by simp)
    | some y => exact (filter_accesses hs he h.2.1).trans (by simp)
  simp only [Noted.accesses_bind, Noted.accesses_access, hfilter,
    optionally_bound_accesses, false_or]
  refine or_congr_right (or_iff_left ?_)
  split <;> simp

end

/-! ### Selections -/

namespace Selection

/-- A property of an entity that is selected as a field. -/
def Holds (sel : Selection) (e : Entity) (k : PropertyKey) : Prop :=
  k.entity = e.name ∧ sel.hasField k.property

variable {e : Entity} {k : PropertyKey}

theorem holds_start : start.Holds e k ↔ k = ⟨e.name, idName⟩ := by
  obtain ⟨entity, property⟩ := k
  simp [Holds, start, hasField, @eq_comm _ idName]

theorem hasField_addField (sel : Selection) (f : SelectedField) (name : String) :
    (sel.addField f).hasField name ↔ sel.hasField name ∨ name = f.name := by
  unfold addField
  split
  · next hold =>
    have hsame : ({ sel with fields := sel.fields.map fun g ↦
        if g.name = f.name then { g with sort := f.sort.or g.sort } else g } :
            Selection).hasField name =
          sel.hasField name := by
      unfold hasField
      rw [List.any_map]
      congr 1
      funext g
      simp only [Function.comp_apply]
      split <;> rfl
    rw [hsame]
    exact (or_iff_left_of_imp fun hname ↦ hname ▸ hold).symm
  · simp [hasField, @eq_comm _ f.name]

end Selection

/-- Selecting takes one step: together with what was selected before, its notes tell what it
touches, and it selects no field without telling. -/
structure Tells (e : Entity) (sel : Selection) (x : Noted Selection)
    (touched : PropertyKey → Prop) : Prop where
  accesses : ∀ k, sel.Holds e k ∨ x.Accesses k ↔ sel.Holds e k ∨ touched k
  holds : ∀ k, x.result.Holds e k → sel.Holds e k ∨ touched k

section

variable {s : Schema} {e : Entity} {sel : Selection}

theorem Tells.pure (e : Entity) (sel : Selection) : Tells e sel (pure sel) fun _ ↦ False where
  accesses k := by simp
  holds k hk := .inl hk

theorem Tells.bind {x : Noted Selection} {f : Selection → Noted Selection}
    {touched more : PropertyKey → Prop} (hx : Tells e sel x touched)
    (hf : Tells e x.result (f x.result) more) :
    Tells e sel (x >>= f) fun k ↦ touched k ∨ more k where
  accesses k := by
    rw [Noted.accesses_bind, ← or_assoc, hx.accesses, or_assoc]
    constructor
    · rintro (h | h | h)
      · exact .inl h
      · exact .inr (.inl h)
      · rcases (hf.accesses k).mp (.inr h) with h | h
        · exact (hx.holds k h).imp_right .inl
        · exact .inr (.inr h)
    · rintro (h | h | h)
      · exact .inl h
      · exact .inr (.inl h)
      · rcases (hf.accesses k).mpr (.inr h) with h | h
        · exact (hx.holds k h).imp_right .inl
        · exact .inr (.inr h)
  holds k hk := by
    rcases hf.holds k hk with h | h
    · exact (hx.holds k h).imp_right .inl
    · exact .inr (.inr h)

theorem Tells.congr {x : Noted Selection} {touched touched' : PropertyKey → Prop}
    (hx : Tells e sel x touched) (h : ∀ k, touched k ↔ touched' k) : Tells e sel x touched' where
  accesses k := by rw [hx.accesses, h]
  holds k hk := (hx.holds k hk).imp_right (h k).mp

/-- Fields that are selected already are not noted again. -/
theorem selectAll_tells (s : Schema) (e : Entity) (sel : Selection) :
    Tells e sel (selectAll e sel) (ItemTouches s e .all) := by
  have htouches (k : PropertyKey) : ItemTouches s e .all k ↔ k.entity = e.name ∧
      k.property ∈ e.userFields.map Prod.fst := by
    constructor
    · rintro ⟨hf⟩
      exact ⟨rfl, List.mem_map_of_mem hf⟩
    · obtain ⟨entity, property⟩ := k
      rintro ⟨rfl, hmem⟩
      obtain ⟨f, hf, rfl⟩ := List.mem_map.mp hmem
      exact .all hf
  have haccesses (k : PropertyKey) : (selectAll e sel).Accesses k ↔
      k.entity = e.name ∧ k.property ∈ e.userFields.map Prod.fst ∧ ¬sel.hasField k.property := by
    obtain ⟨entity, property⟩ := k
    simp only [Noted.Accesses, selectAll, List.mem_map, List.mem_filter, Note.access.injEq,
      PropertyKey.mk.injEq]
    constructor
    · rintro ⟨f, ⟨hf, hnew⟩, rfl, rfl⟩
      exact ⟨rfl, ⟨f, hf, rfl⟩, by simpa using hnew⟩
    · rintro ⟨rfl, ⟨f, hf, rfl⟩, hnew⟩
      exact ⟨f, ⟨hf, by simpa using hnew⟩, rfl, rfl⟩
  refine ⟨fun k ↦ ?_, fun k hk ↦ ?_⟩
  · rw [htouches, haccesses]
    unfold Selection.Holds
    tauto
  · rw [htouches]
    obtain ⟨hentity, hfield⟩ := hk
    rw [Selection.hasField_iff, Selection.selectAll_names, List.mem_append,
      ← Selection.hasField_iff] at hfield
    refine hfield.imp (fun hold ↦ ⟨hentity, hold⟩) fun hnew ↦ ⟨hentity, ?_⟩
    exact (List.filter_sublist.map Prod.fst).subset hnew

theorem sorting_accesses (name : String) (ranks : List Int64)
    (sort : Option (Direction × Int64)) (k : PropertyKey) :
    ¬(sorting e name ranks sort).Accesses k := by
  unfold sorting
  split
  · exact Noted.accesses_pure _
  · split
    · exact Noted.accesses_fail _
    · split <;> simp

theorem selectField_tells {name : String} {sort : Option (Direction × Int64)}
    (h : (selectField e sel name sort).Clean) :
    Tells e sel (selectField e sel name sort) (ItemTouches s e (.field name sort)) := by
  have htouches (k : PropertyKey) : ItemTouches s e (.field name sort) k ↔ k = ⟨e.name, name⟩ := by
    constructor
    · rintro ⟨⟩
      rfl
    · rintro rfl
      exact .field
  unfold selectField at h ⊢
  split at h
  · simp at h
  · split at h
    · simp at h
    · next f hf =>
      refine ⟨fun k ↦ ?_, fun k hk ↦ ?_⟩
      · simp [htouches, sorting_accesses]
      · obtain ⟨hentity, hfield⟩ := hk
        rcases (Selection.hasField_addField sel _ k.property).mp hfield with hold | hname
        · exact .inl ⟨hentity, hold⟩
        · obtain ⟨entity, property⟩ := k
          exact .inr ((htouches _).mpr (by rw [PropertyKey.mk.injEq]; exact ⟨hentity, hname⟩))

theorem touches_iff {x : Option (Expr Value)} {is : List (Item Value Int64)} {k : PropertyKey} :
    Touches s e x is k ↔ (k = ⟨e.name, idName⟩ ∨ ∃ y ∈ x, ∃ path ∈ y.paths, OnPath s e path k) ∨
      ∃ i ∈ is, ItemTouches s e i k := by
  constructor
  · intro h
    cases h with
    | id => exact .inl (.inl rfl)
    | filter hpath h => exact .inl (.inr ⟨_, rfl, _, hpath, h⟩)
    | item hi h => exact .inr ⟨_, hi, h⟩
  · rintro ((rfl | ⟨y, rfl, path, hpath, h⟩) | ⟨i, hi, h⟩)
    · exact .id
    · exact .filter hpath h
    · exact .item hi h

/-- The start of a level and its selections note together what it touches. -/
theorem level_accesses (hs : s.WellFormed) (he : e ∈ s.entities) {paged : Bool}
    {x : Option (Expr Value)} {limit page : Option (Bound Int64)} {is : List (Item Value Int64)}
    {chosen : Noted Selection} (hstart : (levelStart s e paged x limit page).Clean)
    (hchosen : Tells e .start chosen fun k ↦ ∃ i ∈ is, ItemTouches s e i k) (k : PropertyKey) :
    (levelStart s e paged x limit page).Accesses k ∨ chosen.Accesses k ↔ Touches s e x is k := by
  have hboth := hchosen.accesses k
  rw [Selection.holds_start] at hboth
  -- the row number, which the start notes, is what is selected at the start
  rw [levelStart_accesses hs he hstart, touches_iff, or_right_comm, hboth, or_right_comm]

theorem itemTouches_relation (hs : s.WellFormed) (he : e ∈ s.entities)
    {p : Property} {child : Entity} {kind : RelationKind} (hp : p ∈ e.properties)
    (hchild : child ∈ s.entities) (hrel : p.relation? = some (child.name, kind))
    {x : Option (Expr Value)} {limit page : Option (Bound Int64)}
    {is : List (Item Value Int64)} {k : PropertyKey} :
      ItemTouches s e (.relation p.name x limit page is) k ↔
      k = ⟨e.name, p.name⟩ ∨ Touches s child x is k := by
  constructor
  · generalize hitem : Item.relation p.name x limit page is = i
    intro h
    cases h with
    | all | field => cases hitem
    | relation =>
      cases hitem
      exact .inl rfl
    | @nested _ child' p' _ _ _ _ _ _ hp' hchild' hrel' h =>
      obtain ⟨hname, rfl, rfl, rfl, rfl⟩ := Item.relation.inj hitem
      obtain rfl := (hs.entity e he).indexed.eq_of_name_eq hp hp' hname
      rw [hrel, Option.some.injEq, Prod.mk.injEq] at hrel'
      obtain rfl := hs.eq_of_name_eq hchild hchild' hrel'.1
      exact .inr h
  · rintro (rfl | h)
    · exact .relation
    · exact .nested hp hchild hrel h

/-- A relation that is found is one of the entity, and is noted. -/
theorem related_found (hs : s.WellFormed) (he : e ∈ s.entities) {name : String}
    (h : (related s e name).Clean) :
    ∃ r child p kind, (related s e name).result = some (r, child) ∧
      p ∈ e.properties ∧ p.name = name ∧ child ∈ s.entities ∧
      p.relation? = some (child.name, kind) ∧ ∀ k, (related s e name).Accesses k ↔
      k = ⟨e.name, name⟩ := by
  unfold related at h ⊢
  split at h
  · simp at h
  · next p hget =>
    obtain ⟨hp, hname⟩ := (Entity.get?_eq_some_iff (hs.entity e he)).mp hget
    split at h
    · simp at h
    · next target kind hrel =>
      split at h
      · simp at h
      · next child hchild =>
        obtain ⟨hin, rfl⟩ := (Schema.get?_eq_some_iff hs).mp hchild
        exact ⟨_, child, p, kind, rfl, hp, hname, hin, hrel, fun k ↦ by simp⟩

mutual

theorem selectItem_tells (hs : s.WellFormed) {e : Entity} (he : e ∈ s.entities) {sel : Selection}
    (i : Item Value Int64) (h : (selectItem s e sel i).Clean) :
    Tells e sel (selectItem s e sel i) (ItemTouches s e i) := by
  cases i with
  | all => exact selectAll_tells s e sel
  | field name sort => exact selectField_tells h
  | relation name x limit page inner =>
    unfold selectItem at h ⊢
    rw [Noted.clean_bind] at h
    obtain ⟨r, child, p, kind, hfound, hp, rfl, hchild, hrel, haccesses⟩ := related_found hs he h.1
    simp only [hfound, Noted.clean_bind] at h
    have hlevel := level_accesses hs hchild h.2.1 (selectItems_tells hs hchild inner h.2.2.1)
    have htouches (k : PropertyKey) : ItemTouches s e (.relation p.name x limit page inner) k ↔
        k = ⟨e.name, p.name⟩ ∨ Touches s child x inner k :=
          itemTouches_relation hs he hp hchild hrel
    refine ⟨fun k ↦ ?_, fun k hk ↦ ?_⟩
    · simp only [Noted.accesses_bind, hfound, haccesses, Noted.accesses_pure,
        or_false, hlevel, htouches]
    · simp only [Noted.bind_result, hfound, Noted.pure_result] at hk
      exact .inl hk

theorem selectItems_tells (hs : s.WellFormed) {e : Entity} (he : e ∈ s.entities) {sel : Selection}
    (is : List (Item Value Int64)) (h : (selectItems s e sel is).Clean) :
    Tells e sel (selectItems s e sel is) fun k ↦ ∃ i ∈ is, ItemTouches s e i k := by
  cases is with
  | nil => exact (Tells.pure e sel).congr fun k ↦ by simp
  | cons i is =>
    unfold selectItems at h ⊢
    rw [Noted.clean_bind] at h
    exact ((selectItem_tells hs he i h.1).bind (selectItems_tells hs he is h.2)).congr fun k ↦ by
      simp

end

end

/-- The properties that a compiled query tells are those it touches. -/
theorem accessed_iff_touches {s : Schema} (hs : s.WellFormed)
    {form : Language.QueryForm Value Int64} {q : Compiled} (h : s.compileQuery form = .ok q) :
      ∃ e ∈ s.entities, e.name = form.entity ∧ ∀ k, k ∈ q.accessed ↔
      Touches s e form.body.filter form.body.items k := by
  obtain ⟨e, hget, hclean, -, rfl⟩ := compileQuery_eq_ok.mp h
  obtain ⟨he, hname⟩ := (Schema.get?_eq_some_iff hs).mp hget
  refine ⟨e, he, hname, fun k ↦ ?_⟩
  rw [Findings.mem_accessed]
  change (top s e form.body).Accesses k ↔ _
  unfold top at hclean ⊢
  simp only [Noted.clean_bind] at hclean
  simp only [Noted.accesses_bind, Noted.accesses_pure, or_false]
  exact level_accesses hs he hclean.1 (selectItems_tells hs he form.body.items hclean.2.1) k

end Query

end EntityStore
