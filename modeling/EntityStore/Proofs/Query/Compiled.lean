import EntityStore.Proofs.Outcome
import EntityStore.Proofs.Schema.Invariant
import EntityStore.Query.Compile

/-!
What holds of every level of a compiled query: the names of its fields, relations and filters are
those of its entity, and every parameter it asks for was noted for the use it makes of the argument.
-/

set_option autoImplicit false

namespace EntityStore.Query

open EntityStore.Language (Bound Comparator Expr Item Node)

/-! ### The levels of a tree -/

namespace Tree

/-- What passes from the trees of the relations to a level holds of every tree. -/
@[elab_as_elim]
theorem induction {motive : Tree → Prop}
    (node : ∀ level relations, (∀ r t, (r, t) ∈ relations → motive t) →
      motive (.node level relations)) :
    ∀ t, motive t
  | .node level relations => node level relations fun _ t _ ↦ induction node t
termination_by t => sizeOf t
decreasing_by
  have := List.sizeOf_lt_of_mem ‹_ ∈ relations›
  simp only [Prod.mk.sizeOf_spec, Tree.node.sizeOf_spec] at this ⊢
  omega

mutual

/-- A tree and all trees below it. -/
def nodes : Tree → List Tree
  | .node level relations => .node level relations :: relationNodes relations

def relationNodes : List (Relation × Tree) → List Tree
  | [] => []
  | (_, t) :: rest => t.nodes ++ relationNodes rest

end

theorem mem_relationNodes {u : Tree} {relations : List (Relation × Tree)} :
    u ∈ relationNodes relations ↔ ∃ r t, (r, t) ∈ relations ∧ u ∈ t.nodes := by
  induction relations with
  | nil => simp [relationNodes]
  | cons x rest ih =>
    obtain ⟨r, t⟩ := x
    simp only [relationNodes, List.mem_append, ih, List.mem_cons, Prod.mk.injEq]
    constructor
    · rintro (hu | ⟨r', t', hmem, hu⟩)
      · exact ⟨r, t, .inl ⟨rfl, rfl⟩, hu⟩
      · exact ⟨r', t', .inr hmem, hu⟩
    · rintro ⟨r', t', ⟨rfl, rfl⟩ | hmem, hu⟩
      · exact .inl hu
      · exact .inr ⟨r', t', hmem, hu⟩

theorem mem_nodes {t u : Tree} :
    u ∈ t.nodes ↔ u = t ∨ ∃ r v, (r, v) ∈ t.relations ∧ u ∈ v.nodes := by
  obtain ⟨level, relations⟩ := t
  simp [nodes, mem_relationNodes, Tree.relations]

theorem mem_nodes_self (t : Tree) : t ∈ t.nodes :=
  mem_nodes.mpr (.inl rfl)

theorem mem_nodes_relation {t u : Tree} {r : Relation} (h : (r, u) ∈ t.relations) : u ∈ t.nodes :=
  mem_nodes.mpr (.inr ⟨r, u, h, u.mem_nodes_self⟩)

theorem mem_nodes_trans {t u v : Tree} (hu : u ∈ t.nodes) (hv : v ∈ u.nodes) : v ∈ t.nodes := by
  induction t using Tree.induction with
  | node level relations ih =>
    obtain rfl | ⟨r, w, hw, hu⟩ := mem_nodes.mp hu
    · exact hv
    · exact mem_nodes.mpr (.inr ⟨r, w, hw, ih r w hw hu⟩)

end Tree

/-! ### What a level is told by its entity -/

/-- The relations that a path crosses, each one of the entity that the step before leads to. -/
inductive Path (s : Schema) : Entity → List Step → Entity → Prop where
  | here (e : Entity) : Path s e [] e
  | step {e next last : Entity} {p : Property} {kind : RelationKind} {steps : List Step}
      (hp : p ∈ e.properties) (hrel : p.relation? = some (next.name, kind))
      (hnext : next ∈ s.entities) (rest : Path s next steps last) :
      Path s e (⟨p.name, kind, e.name, next.name⟩ :: steps) last

/-- A field of an entity under a name. -/
def HasField (e : Entity) (name : String) (type : FieldType) : Prop :=
  ∃ p ∈ e.properties, ∃ f, p.name = name ∧ p.kind = .field f ∧ f.type = type

/-- A list stands after `in` and nowhere else. -/
def Operand.Fits (c : Comparator) : Operand → Prop
  | .value _ => c ≠ .isIn
  | .list _ => c = .isIn
  | .param _ => True

/-- What a predicate is told by the schema and by the notes: its path ends at a field, and a
parameter was noted for the use it is made of. -/
structure Predicate.Sound (s : Schema) (notes : List Note) (e : Entity) (p : Predicate) : Prop where
  path : ∃ last ∈ s.entities, Path s e p.steps last ∧ HasField last p.field p.type
  comparable : ¬p.type.isContainer
  fits : p.operand.Fits p.comparator
  noted : ∀ name, p.operand = .param name →
    .parameter ⟨name, p.type, if p.comparator = .isIn then .list else .operand⟩ ∈ notes

def Filter.Sound (s : Schema) (notes : List Note) (e : Entity) : Filter → Prop
  | .and l r | .or l r => l.Sound s notes e ∧ r.Sound s notes e
  | .predicate p => p.Sound s notes e

/-- What a limit or a page is told by the notes. -/
def boundNoted (notes : List Note) : Bound Int64 → Prop
  | .literal _ => True
  | .param name => .parameter ⟨name, .long, .bound⟩ ∈ notes

/-- A selected relation leads to the entity of the level below it, and is `many` if it is a
collection. -/
def Leads (s : Schema) (e : Entity) (r : Relation) (target : String) : Prop :=
  ∃ p ∈ e.properties, ∃ child ∈ s.entities, p.name = r.name ∧
    p.relation? = some (child.name, r.kind) ∧
    (r.many ↔ ∃ c, p.kind = .collection c) ∧ target = child.name

/-- What a tree's topmost level is told by its entity and by the notes. -/
structure Tree.Sound (s : Schema) (notes : List Note) (e : Entity) (t : Tree) : Prop where
  entity : t.level.entity = e.name
  filter : ∀ f, t.level.filter = some f → f.Sound s notes e
  limit : ∀ b, t.level.limit = some b → boundNoted notes b
  page : ∀ b, t.level.page = some b → boundNoted notes b
  field : ∀ f ∈ t.level.fields, HasField e f.name f.type
  relation : ∀ r u, (r, u) ∈ t.relations → Leads s e r u.level.entity

/-- What a tree is told throughout. -/
def Tree.Everywhere (s : Schema) (notes : List Note) (t : Tree) : Prop :=
  ∀ u ∈ t.nodes, ∃ e ∈ s.entities, u.Sound s notes e

section

variable {s : Schema} {e : Entity} {notes notes' : List Note}

theorem Predicate.Sound.mono {p : Predicate} (h : p.Sound s notes e) (hsub : notes ⊆ notes') :
    p.Sound s notes' e :=
  ⟨h.path, h.comparable, h.fits, fun name hname ↦ hsub (h.noted name hname)⟩

theorem Filter.Sound.mono {f : Filter} (h : f.Sound s notes e) (hsub : notes ⊆ notes') :
    f.Sound s notes' e := by
  induction f with
  | and l r ihl ihr => exact ⟨ihl h.1, ihr h.2⟩
  | or l r ihl ihr => exact ⟨ihl h.1, ihr h.2⟩
  | predicate p => exact Predicate.Sound.mono h hsub

theorem boundNoted_mono {b : Bound Int64} (h : boundNoted notes b) (hsub : notes ⊆ notes') :
    boundNoted notes' b := by
  cases b with
  | literal n => trivial
  | param name => exact hsub h

theorem Tree.Sound.mono {t : Tree} (h : t.Sound s notes e) (hsub : notes ⊆ notes') :
    t.Sound s notes' e :=
  ⟨h.entity, fun f hf ↦ (h.filter f hf).mono hsub, fun b hb ↦ boundNoted_mono (h.limit b hb) hsub,
    fun b hb ↦ boundNoted_mono (h.page b hb) hsub, h.field, h.relation⟩

theorem Tree.Everywhere.mono {t : Tree} (h : t.Everywhere s notes) (hsub : notes ⊆ notes') :
    t.Everywhere s notes' := by
  intro u hu
  obtain ⟨e, he, hsound⟩ := h u hu
  exact ⟨e, he, hsound.mono hsub⟩

end

/-! ### Compiling -/

namespace Noted

variable {α β : Type}

@[simp] theorem pure_notes (a : α) : (pure a : Noted α).notes = [] := rfl

@[simp] theorem pure_result (a : α) : (pure a : Noted α).result = a := rfl

@[simp] theorem bind_notes (x : Noted α) (f : α → Noted β) :
    (x >>= f).notes = x.notes ++ (f x.result).notes := rfl

@[simp] theorem bind_result (x : Noted α) (f : α → Noted β) :
    (x >>= f).result = (f x.result).result := rfl

@[simp] theorem note_notes (n : Note) : (note n).notes = [n] := rfl

@[simp] theorem fail_result (e : CompileError) : (fail e : Noted (Option α)).result = none := rfl

theorem ofExcept_result_eq_some {x : Except CompileError α} {a : α} :
    (ofExcept x).result = some a ↔ x = .ok a := by
  cases x <;> simp [ofExcept]

end Noted

variable {s : Schema} {e : Entity}

theorem kind_of_field? {p : Property} {f : Field} (h : p.field? = some f) : p.kind = .field f := by
  unfold Property.field? at h
  split at h <;> simp_all

section

variable (h : s.WellFormed) (he : e ∈ s.entities)

include h he

theorem lastPlace_result {full : List String} {name : String} {p : Place}
    (hp : (lastPlace s full e name).result = some p) :
    HasField e p.name p.field.type ∧ ¬p.field.type.isContainer ∧
    p = ⟨[], e.name, name, p.field⟩ := by
  unfold lastPlace at hp
  split at hp
  · simp at hp
  · next q hq =>
    split at hp
    · next f hkind =>
      by_cases hcontainer : f.type.isContainer
      · simp [hcontainer] at hp
      · simp only [Noted.bind_result, hcontainer, Bool.false_eq_true, ↓reduceIte, Noted.pure_result,
          Option.some.injEq] at hp
        subst hp
        obtain ⟨hmem, hname⟩ := (Entity.get?_eq_some_iff (h.entity e he)).mp hq
        exact ⟨⟨q, hmem, f, hname, hkind, rfl⟩, hcontainer, rfl⟩
    · simp at hp
    · simp at hp

omit he in
theorem place_result (he : e ∈ s.entities) {full path : List String} {p : Place}
    (hp : (place s full e path).result = some p) :
    ∃ last ∈ s.entities, Path s e p.steps last ∧ HasField last p.name p.field.type ∧
      ¬p.field.type.isContainer := by
  induction path generalizing e p with
  | nil => simp [place] at hp
  | cons name rest ih =>
    cases rest with
    | nil =>
      obtain ⟨hfield, hcontainer, heq⟩ := lastPlace_result h he hp
      refine ⟨e, he, ?_, hfield, hcontainer⟩
      rw [heq]
      exact .here e
    | cons name' rest =>
      unfold place at hp
      split at hp
      · simp at hp
      · next q hq =>
        split at hp
        · simp at hp
        · next target kind hrel =>
          simp only [Noted.bind_result] at hp
          split at hp
          · simp at hp
          · next next hnext =>
            simp only [Noted.bind_result, Noted.pure_result, Option.map_eq_some_iff] at hp
            obtain ⟨p', hp', rfl⟩ := hp
            obtain ⟨hmem, rfl⟩ := (Entity.get?_eq_some_iff (h.entity e he)).mp hq
            obtain ⟨hin, rfl⟩ := (Schema.get?_eq_some_iff h).mp hnext
            obtain ⟨last, hlast, hpath, hrest⟩ := ih hin hp'
            exact ⟨last, hlast, .step hmem hrel hin hpath, hrest⟩

end

theorem operand_ok {target : PropertyKey} {type : FieldType} {c : Comparator} {n : Node Value}
    {o : Operand} (h : operand target type c n = .ok o) : o.Fits c := by
  unfold operand at h
  split at h
  · cases h
    trivial
  · obtain ⟨vs, -, rfl⟩ := Except.map_eq_ok.mp h
    rfl
  · contradiction
  · split at h
    · cases h
      nofun
    · contradiction
  · obtain ⟨v, -, rfl⟩ := Except.map_eq_ok.mp h
    nofun
  · contradiction

section

variable (h : s.WellFormed) (he : e ∈ s.entities)

include h he

theorem predicate_result {path : List String} {c : Comparator} {n : Node Value} {p : Predicate}
    (hp : (predicate s e path c n).result = some p) :
    p.Sound s (predicate s e path c n).notes e := by
  unfold predicate at hp ⊢
  simp only [Noted.bind_result, Noted.bind_notes] at hp ⊢
  split at hp
  · next end_ hend =>
    obtain ⟨last, hlast, hpath, hfield, hcontainer⟩ := place_result h he hend
    have hpath : ∃ last ∈ s.entities, Path s e end_.steps last ∧
        HasField last end_.name end_.field.type :=
      ⟨last, hlast, hpath, hfield⟩
    simp only [Noted.bind_result, Noted.bind_notes] at hp ⊢
    split at hp
    · next o ho =>
      have hfits := operand_ok (Noted.ofExcept_result_eq_some.mp ho)
      cases o with
      | value v | list vs =>
        cases hp
        exact ⟨hpath, hcontainer, hfits, nofun⟩
      | param name =>
        cases hp
        refine ⟨hpath, hcontainer, hfits, fun name hname ↦ ?_⟩
        cases hname
        simp [parameter?]
    · simp at hp
  · simp at hp

theorem filter_result {x : Expr Value} {f : Filter} (hf : (filter s e x).result = some f) :
    f.Sound s (filter s e x).notes e := by
  induction x generalizing f with
  | and l r ihl ihr =>
    simp only [filter, Noted.bind_result, Noted.bind_notes, Noted.pure_result, Option.pure_def,
      Option.bind_eq_bind, Option.bind_eq_some_iff, Option.some.injEq] at hf ⊢
    obtain ⟨fl, hl, fr, hr, rfl⟩ := hf
    exact ⟨(ihl hl).mono (by simp), (ihr hr).mono (by simp)⟩
  | or l r ihl ihr =>
    simp only [filter, Noted.bind_result, Noted.bind_notes, Noted.pure_result, Option.pure_def,
      Option.bind_eq_bind, Option.bind_eq_some_iff, Option.some.injEq] at hf ⊢
    obtain ⟨fl, hl, fr, hr, rfl⟩ := hf
    exact ⟨(ihl hl).mono (by simp), (ihr hr).mono (by simp)⟩
  | predicate path c n =>
    simp only [filter, Noted.bind_result, Noted.bind_notes, Noted.pure_result,
      Option.map_eq_some_iff] at hf ⊢
    obtain ⟨p, hp, rfl⟩ := hf
    exact Predicate.Sound.mono (predicate_result h he hp) (by simp)

end

theorem bound_result {paged : Bool} {clause : PageClause} {b b' : Bound Int64}
    (h : (bound e paged clause b).result = some b') :
    boundNoted (bound e paged clause b).notes b' := by
  unfold bound at h ⊢
  split at h
  · simp at h
  · next hpaged =>
    rw [if_neg hpaged]
    cases b with
    | literal n =>
      simp only at h
      split at h
      · simp at h
      · cases h
        trivial
    | param name =>
      cases h
      simp [boundNoted]

theorem optionally_result {α β : Type} {f : α → Noted (Option β)} {x : Option α} {b : β}
    (h : (optionally f x).result = some b) : ∃ a, x = some a ∧ (f a).result = some b := by
  cases x with
  | none => simp [optionally] at h
  | some a => exact ⟨a, rfl, h⟩

theorem levelStart_result (paged : Bool) (x : Option (Expr Value))
    (limit page : Option (Bound Int64)) :
    (levelStart s e paged x limit page).result =
      ⟨e.name, (optionally (filter s e) x).result, (optionally (bound e paged .limit) limit).result,
        (optionally (bound e paged .page) page).result, []⟩ := by
  simp only [levelStart, Noted.bind_result]
  split <;> rfl

theorem levelStart_notes (paged : Bool) (x : Option (Expr Value))
    (limit page : Option (Bound Int64)) :
    ∀ n ∈ (optionally (filter s e) x).notes ++ (optionally (bound e paged .limit) limit).notes ++
      (optionally (bound e paged .page) page).notes,
      n ∈ (levelStart s e paged x limit page).notes := by
  intro n hn
  simp only [levelStart, Noted.bind_notes, List.mem_append] at hn ⊢
  rcases hn with (hn | hn) | hn
  · exact .inr (.inl hn)
  · exact .inr (.inr (.inl hn))
  · exact .inr (.inr (.inr (.inl hn)))

/-- What a level is told by its start, whatever it selects. -/
theorem levelStart_sound (h : s.WellFormed) (he : e ∈ s.entities) {paged : Bool}
    {x : Option (Expr Value)} {limit page : Option (Bound Int64)} {fields : List SelectedField}
    {relations : List (Relation × Tree)} (hfields : ∀ f ∈ fields, HasField e f.name f.type)
    (hrelations : ∀ r u, (r, u) ∈ relations → Leads s e r u.level.entity) :
    (Tree.node { (levelStart s e paged x limit page).result with fields := fields } relations).Sound
      s (levelStart s e paged x limit page).notes e := by
  have hnotes := levelStart_notes (s := s) (e := e) paged x limit page
  simp only [List.mem_append] at hnotes
  rw [levelStart_result]
  constructor
  case entity => rfl
  case field => exact hfields
  case relation => exact hrelations
  case filter =>
    intro f hf
    obtain ⟨x', rfl, hx⟩ := optionally_result hf
    exact (filter_result h he hx).mono fun n hn ↦ hnotes n (.inl (.inl hn))
  case limit =>
    intro b hb
    obtain ⟨b', rfl, hb'⟩ := optionally_result hb
    exact boundNoted_mono (bound_result hb') fun n hn ↦ hnotes n (.inl (.inr hn))
  case page =>
    intro b hb
    obtain ⟨b', rfl, hb'⟩ := optionally_result hb
    exact boundNoted_mono (bound_result hb') fun n hn ↦ hnotes n (.inr hn)

namespace Selection

structure Sound (s : Schema) (notes : List Note) (e : Entity) (sel : Selection) : Prop where
  field : ∀ f ∈ sel.fields, HasField e f.name f.type
  relation : ∀ r u, (r, u) ∈ sel.relations → Leads s e r u.level.entity ∧ u.Everywhere s notes

variable {sel : Selection} {notes notes' : List Note}

theorem Sound.mono (hsel : sel.Sound s notes e) (hsub : notes ⊆ notes') : sel.Sound s notes' e :=
  ⟨hsel.field, fun r u hu ↦ ⟨(hsel.relation r u hu).1, (hsel.relation r u hu).2.mono hsub⟩⟩

theorem Sound.start (h : s.WellFormed) (he : e ∈ s.entities) : start.Sound s notes e := by
  refine ⟨fun f hf ↦ ?_, by simp [Selection.start]⟩
  obtain rfl := List.mem_singleton.mp hf
  exact ⟨_, (h.entity e he).id_mem, _, rfl, rfl, rfl⟩

theorem Sound.addField (hsel : sel.Sound s notes e) {f : SelectedField}
    (hf : HasField e f.name f.type) :
    (sel.addField f).Sound s notes e := by
  unfold Selection.addField
  split
  · refine ⟨fun g hg ↦ ?_, hsel.relation⟩
    obtain ⟨g', hg', rfl⟩ := List.mem_map.mp hg
    split <;> exact hsel.field g' hg'
  · refine ⟨fun g hg ↦ ?_, hsel.relation⟩
    rcases List.mem_append.mp hg with hg | hg
    · exact hsel.field g hg
    · obtain rfl := List.mem_singleton.mp hg
      exact hf

theorem Sound.selectAll (hsel : sel.Sound s notes e) :
    (selectAll e sel).result.Sound s notes e := by
  refine ⟨fun g hg ↦ ?_, hsel.relation⟩
  rcases List.mem_append.mp hg with hg | hg
  · exact hsel.field g hg
  · obtain ⟨⟨name, f⟩, hin, rfl⟩ := List.mem_map.mp hg
    obtain ⟨p, hp, hfield⟩ :=
      List.mem_filterMap.mp (List.mem_filter.mp (List.mem_filter.mp hin).1).1
    obtain ⟨f', hf', heq⟩ := Option.map_eq_some_iff.mp hfield
    cases heq
    exact ⟨p, hp, f, rfl, kind_of_field? hf', rfl⟩

theorem Sound.selectField (h : s.WellFormed) (he : e ∈ s.entities) (hsel : sel.Sound s notes e)
    {name : String} {sort : Option (Direction × Int64)} :
    (selectField e sel name sort).result.Sound s notes e := by
  unfold Query.selectField
  split
  · exact hsel
  · next p hp =>
    split
    · exact hsel
    · next f hf =>
      obtain ⟨hmem, hname⟩ := (Entity.get?_eq_some_iff (h.entity e he)).mp hp
      have hfield : HasField e name f.type := ⟨p, hmem, f, hname, kind_of_field? hf, rfl⟩
      have hadd :=
        hsel.addField (f := ⟨name, f.type, (sorting e name sel.ranks sort).result⟩) hfield
      exact ⟨hadd.field, hadd.relation⟩

theorem Sound.addRelation (hsel : sel.Sound s notes e) {r : Relation} {t : Tree}
    (hleads : Leads s e r t.level.entity) (ht : t.Everywhere s notes) :
    (sel.addRelation r t).Sound s notes e := by
  refine ⟨hsel.field, fun r' u hu ↦ ?_⟩
  rcases List.mem_append.mp hu with hu | hu
  · exact hsel.relation r' u hu
  · cases List.mem_singleton.mp hu
    exact ⟨hleads, ht⟩

end Selection

theorem related_result (h : s.WellFormed) (he : e ∈ s.entities) {name : String} {r : Relation}
    {child : Entity} (hrelated : (related s e name).result = some (r, child)) :
    child ∈ s.entities ∧ Leads s e r child.name := by
  unfold related at hrelated
  split at hrelated
  · simp at hrelated
  · next p hp =>
    split at hrelated
    · simp at hrelated
    · next target kind hrel =>
      split at hrelated
      · simp at hrelated
      · next d hd =>
        obtain ⟨hmem, rfl⟩ := (Entity.get?_eq_some_iff (h.entity e he)).mp hp
        obtain ⟨hin, rfl⟩ := (Schema.get?_eq_some_iff h).mp hd
        cases hrelated
        refine ⟨hin, p, hmem, child, hin, rfl, hrel, ?_, rfl⟩
        split <;> simp_all

/-- The tree of a level and of what was selected below it. -/
theorem everywhere_tree (h : s.WellFormed) (he : e ∈ s.entities)
    {sel : Selection} {notes : List Note} (hsel : sel.Sound s notes e) {paged : Bool}
    {x : Option (Expr Value)} {limit page : Option (Bound Int64)}
    (hsub : (levelStart s e paged x limit page).notes ⊆ notes) :
    (sel.tree (levelStart s e paged x limit page).result).Everywhere s notes := by
  intro u hu
  obtain rfl | ⟨r, v, hv, hu⟩ := Tree.mem_nodes.mp hu
  · exact ⟨e, he,
      (levelStart_sound h he hsel.field fun r u hu ↦ (hsel.relation r u hu).1).mono hsub⟩
  · exact (hsel.relation r v hv).2 u hu

mutual

theorem selectItem_sound (h : s.WellFormed) {e : Entity} (he : e ∈ s.entities)
    {sel : Selection} {notes : List Note} (hsel : sel.Sound s notes e) (i : Item Value Int64) :
    (selectItem s e sel i).result.Sound s (notes ++ (selectItem s e sel i).notes) e := by
  cases i with
  | all => exact hsel.selectAll.mono (by simp)
  | field name sort => exact (hsel.selectField h he).mono (by simp)
  | relation name x limit page inner =>
    unfold selectItem
    simp only [Noted.bind_result, Noted.bind_notes]
    split
    · exact hsel.mono (by simp)
    · next r child hrelated =>
      obtain ⟨hchild, hleads⟩ := related_result h he hrelated
      have hstart : Selection.start.Sound s [] child := .start h hchild
      have hinner := selectItems_sound h hchild hstart inner
      simp only [Noted.bind_result, Noted.bind_notes, Noted.pure_result, Noted.pure_notes,
        List.append_nil]
      refine (hsel.mono (by simp)).addRelation ?_ (everywhere_tree h hchild (hinner.mono ?_) ?_)
      · simpa [Selection.tree, Tree.level, levelStart_result] using hleads
      · intro n hn
        simp only [List.nil_append, List.mem_append] at hn ⊢
        exact .inr (.inr (.inr hn))
      · intro n hn
        simp only [List.mem_append]
        exact .inr (.inr (.inl hn))

theorem selectItems_sound (h : s.WellFormed) {e : Entity} (he : e ∈ s.entities)
    {sel : Selection} {notes : List Note} (hsel : sel.Sound s notes e)
    (is : List (Item Value Int64)) :
    (selectItems s e sel is).result.Sound s (notes ++ (selectItems s e sel is).notes) e := by
  cases is with
  | nil => exact hsel.mono (by simp)
  | cons i is =>
    unfold selectItems
    simp only [Noted.bind_result, Noted.bind_notes]
    rw [← List.append_assoc]
    exact selectItems_sound h he (selectItem_sound h he hsel i) is

end

theorem top_sound (h : s.WellFormed) (he : e ∈ s.entities) (body : Language.Level Value Int64) :
    (top s e body).result.Everywhere s (top s e body).notes := by
  have hstart : Selection.start.Sound s [] e := .start h he
  have hitems := selectItems_sound h he hstart body.items
  unfold top
  simp only [Noted.bind_result, Noted.bind_notes, Noted.pure_result,
    Noted.pure_notes, List.append_nil]
  exact everywhere_tree h he (hitems.mono (by simp)) (by simp)

end EntityStore.Query
