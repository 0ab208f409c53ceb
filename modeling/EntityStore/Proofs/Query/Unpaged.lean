import EntityStore.Proofs.Mapping.Asking
import EntityStore.Proofs.Query.Literal

/-!
Queries without their limits and pages: without that of the topmost level, or without those of all
levels. They compile if the query does and are bound to what it is bound to (`compileQuery_fewer`),
and their trees are that of the query without its limits and pages.
-/

set_option autoImplicit false

namespace EntityStore

open EntityStore.Language (Bound Expr Item QueryForm)

namespace Language

variable {α ι : Type}

mutual

/-- A selection without limits and pages. -/
def Item.unpaged : Item α ι → Item α ι
  | .all => .all
  | .field name sort => .field name sort
  | .relation name x _ _ is => .relation name x none none (unpagedItems is)

def unpagedItems : List (Item α ι) → List (Item α ι)
  | [] => []
  | i :: is => i.unpaged :: unpagedItems is

end

/-- A query without the limit and page of its topmost level. -/
def QueryForm.whole (form : QueryForm α ι) : QueryForm α ι :=
  { form with body := { form.body with limit := none, page := none } }

/-- A query without limits and pages. -/
def QueryForm.unpaged (form : QueryForm α ι) : QueryForm α ι :=
  ⟨form.entity, ⟨form.body.filter, none, none, unpagedItems form.body.items⟩⟩

end Language

namespace Query

def Level.unpaged (l : Level) : Level := { l with limit := none, page := none }

mutual

/-- A tree without limits and pages. -/
def Tree.unpaged : Tree → Tree
  | .node level relations => .node level.unpaged (unpagedRelations relations)

def unpagedRelations : List (Relation × Tree) → List (Relation × Tree)
  | [] => []
  | (r, t) :: rest => (r, t.unpaged) :: unpagedRelations rest

end

/-- A tree without the limit and page of its topmost level. -/
def Tree.whole : Tree → Tree
  | .node level relations => .node level.unpaged relations

def Selection.unpaged (sel : Selection) :
    Selection := { sel with relations := unpagedRelations sel.relations }

theorem unpagedRelations_append (xs ys : List (Relation × Tree)) :
    unpagedRelations (xs ++ ys) = unpagedRelations xs ++ unpagedRelations ys := by
  induction xs with
  | nil => rfl
  | cons x xs ih => rw [List.cons_append, unpagedRelations, unpagedRelations, ih, List.cons_append]

theorem unpagedRelations_eq_map (relations : List (Relation × Tree)) :
    unpagedRelations relations = relations.map fun x ↦ (x.1, x.2.unpaged) := by
  induction relations with
  | nil => rfl
  | cons x rest ih => rw [unpagedRelations, ih, List.map_cons]

theorem forall_mem_unpagedRelations {relations : List (Relation × Tree)} {P : Relation → Prop}
    (h : ∀ x ∈ relations, P x.1) : ∀ x ∈ unpagedRelations relations, P x.1 := by
  rw [unpagedRelations_eq_map]
  exact List.forall_mem_map.mpr h

namespace Tree

@[simp] theorem level_unpaged (t : Tree) : t.unpaged.level = t.level.unpaged := by
  cases t
  rfl

@[simp] theorem relations_unpaged (t : Tree) :
    t.unpaged.relations = unpagedRelations t.relations := by
  cases t
  rfl

@[simp] theorem unpaged_whole (t : Tree) : t.whole.unpaged = t.unpaged := by
  cases t
  rfl

@[simp] theorem unpaged_unpaged (t : Tree) : t.unpaged.unpaged = t.unpaged := by
  induction t using Tree.induction with
  | node level relations ih =>
    change Tree.node level.unpaged (unpagedRelations (unpagedRelations relations)) =
      .node level.unpaged (unpagedRelations relations)
    rw [unpagedRelations_eq_map, unpagedRelations_eq_map, List.map_map]
    refine congrArg (Tree.node _) (List.map_congr_left fun x hx ↦ ?_)
    exact congrArg (Prod.mk x.1) (ih x.1 x.2 hx)

theorem nodes_unpaged {t u : Tree} (hu : u ∈ t.unpaged.nodes) : ∃ v ∈ t.nodes, u = v.unpaged := by
  induction t using Tree.induction with
  | node level relations ih =>
    rcases mem_nodes.mp hu with rfl | ⟨r, v, hmem, hu⟩
    · exact ⟨_, mem_nodes_self _, rfl⟩
    · rw [relations_unpaged, unpagedRelations_eq_map] at hmem
      obtain ⟨⟨r', t⟩, hin, heq⟩ := List.mem_map.mp hmem
      cases heq
      obtain ⟨w, hw, rfl⟩ := ih _ t hin hu
      exact ⟨w, mem_nodes.mpr (.inr ⟨_, t, hin, hw⟩), rfl⟩

end Tree

/-! ### Compiling -/

namespace Noted

variable {α β γ : Type}

/-- What is noted is noted by another as well, in the same order. -/
def Fewer (x : Noted α) (y : Noted β) : Prop :=
  x.notes.Sublist y.notes

theorem Fewer.refl (x : Noted α) : x.Fewer x :=
  List.Sublist.refl _

theorem Fewer.bind {x y : Noted α} {f g : α → Noted β} (h : x.Fewer y)
    (hf : (f x.result).Fewer (g y.result)) :
    (x >>= f).Fewer (y >>= g) :=
  List.Sublist.append h hf

theorem Fewer.pure_left (a : α) (y : Noted β) : (pure a : Noted α).Fewer y :=
  List.nil_sublist _

theorem Fewer.clean {x : Noted α} {y : Noted β} (h : x.Fewer y) (hy : y.Clean) : x.Clean :=
  fun e he ↦ hy e (h.subset he)

theorem Fewer.parameters {x : Noted α} {y : Noted β} (h : x.Fewer y) :
    x.parameters.Sublist y.parameters :=
  h.filterMap _

end Noted

section

variable {s : Schema} {e : Entity}

theorem levelStart_fewer (paged : Bool) (x : Option (Expr Value))
    (limit page : Option (Bound Int64)) :
    (levelStart s e paged x none none).Fewer (levelStart s e paged x limit page) :=
  .bind (.refl _) <| .bind (.refl _) <| .bind (.pure_left _ _) <|
    .bind (.pure_left _ _) <| .pure_left _ _

theorem levelStart_unpaged (paged : Bool) (x : Option (Expr Value))
    (limit page : Option (Bound Int64)) :
    (levelStart s e paged x none none).result =
      (levelStart s e paged x limit page).result.unpaged := by
  rw [levelStart_result, levelStart_result]
  rfl

namespace Selection

theorem addField_unpaged (sel : Selection) (f : SelectedField) :
    sel.unpaged.addField f = (sel.addField f).unpaged := by
  unfold addField
  change (if sel.hasField f.name then _ else _) = _
  split <;> rfl

theorem addRelation_unpaged (sel : Selection) (r : Relation) (t : Tree) :
    sel.unpaged.addRelation r t.unpaged = (sel.addRelation r t).unpaged := by
  unfold addRelation unpaged
  rw [unpagedRelations_append]
  rfl

theorem tree_unpaged (level : Level) (sel : Selection) :
    sel.unpaged.tree level.unpaged = (sel.tree level).unpaged :=
  rfl

end Selection

theorem selectField_unpaged (sel : Selection) (name : String) (sort : Option (Direction × Int64)) :
    (selectField e sel.unpaged name sort).Fewer (selectField e sel name sort) ∧
      (selectField e sel.unpaged name sort).result =
        (selectField e sel name sort).result.unpaged := by
  unfold selectField
  split
  · exact ⟨.refl _, rfl⟩
  · split
    · exact ⟨.refl _, rfl⟩
    · refine ⟨.refl _, ?_⟩
      simp only [Noted.bind_result, Noted.pure_result, Selection.addField_unpaged]
      rfl

mutual

/-- Selecting without limits and pages notes no more and selects the same but for them. -/
theorem selectItem_unpaged (s : Schema) (e : Entity) (sel : Selection) (i : Item Value Int64) :
    (selectItem s e sel.unpaged i.unpaged).Fewer (selectItem s e sel i) ∧
      (selectItem s e sel.unpaged i.unpaged).result = (selectItem s e sel i).result.unpaged := by
  cases i with
  | all => exact ⟨.refl _, rfl⟩
  | field name sort => exact selectField_unpaged sel name sort
  | relation name x limit page inner =>
    unfold Language.Item.unpaged selectItem
    rw [Noted.bind_result, Noted.bind_result]
    cases hfound : (related s e name).result with
    | none => exact ⟨.bind (.refl _) (by rw [hfound]; exact .refl _), rfl⟩
    | some found =>
      obtain ⟨relation, child⟩ := found
      obtain ⟨hinner, hselected⟩ := selectItems_unpaged s child .start inner
      refine ⟨.bind (.refl _) ?_, ?_⟩
      · rw [hfound]
        exact .bind (levelStart_fewer _ _ _ _) (.bind hinner (.pure_left _ _))
      · simp only [Noted.bind_result, Noted.pure_result]
        change sel.unpaged.addRelation relation
          ((selectItems s child Selection.start.unpaged _).result.tree _) = _
        rw [hselected, levelStart_unpaged _ _ limit page, Selection.tree_unpaged,
          Selection.addRelation_unpaged]

theorem selectItems_unpaged (s : Schema) (e : Entity) (sel : Selection)
    (is : List (Item Value Int64)) :
    (selectItems s e sel.unpaged (Language.unpagedItems is)).Fewer (selectItems s e sel is) ∧
      (selectItems s e sel.unpaged (Language.unpagedItems is)).result =
        (selectItems s e sel is).result.unpaged := by
  cases is with
  | nil => exact ⟨.refl _, rfl⟩
  | cons i is =>
    obtain ⟨hfirst, hresult⟩ := selectItem_unpaged s e sel i
    obtain ⟨hrest, hlast⟩ := selectItems_unpaged s e (selectItem s e sel i).result is
    rw [← hresult] at hrest hlast
    unfold Language.unpagedItems selectItems
    exact ⟨hfirst.bind hrest, hlast⟩

end

theorem top_whole (s : Schema) (e : Entity) (form : QueryForm Value Int64) :
    (top s e form.whole.body).Fewer (top s e form.body) ∧
      (top s e form.whole.body).result = (top s e form.body).result.whole := by
  unfold top
  refine ⟨.bind (levelStart_fewer _ _ _ _) (.refl _), ?_⟩
  simp only [Noted.bind_result, Noted.pure_result]
  rw [QueryForm.whole, levelStart_unpaged _ _ form.body.limit form.body.page]
  rfl

theorem top_unpaged (s : Schema) (e : Entity) (form : QueryForm Value Int64) :
    (top s e form.unpaged.body).Fewer (top s e form.body) ∧
      (top s e form.unpaged.body).result = (top s e form.body).result.unpaged := by
  obtain ⟨hitems, hselected⟩ := selectItems_unpaged s e .start form.body.items
  unfold top
  refine ⟨.bind (levelStart_fewer _ _ _ _) (.bind hitems (.pure_left _ _)), ?_⟩
  simp only [Noted.bind_result, Noted.pure_result]
  change (selectItems s e Selection.start.unpaged
      (Language.unpagedItems form.body.items)).result.tree
    (levelStart s e true form.body.filter none none).result = _
  rw [hselected, levelStart_unpaged _ _ form.body.limit form.body.page, Selection.tree_unpaged]

end

/-! ### Binding -/

/-- Some of the parameters can be bound if all can, to the same. -/
theorem bind_sublist {ps ps₀ : List Parameter} {slots : Slots} {args : Args} {b : Bindings}
    (hsub : ps₀.Sublist ps) (hnodup : (ps.map Parameter.name).Nodup)
    (hb : bind ps slots args = .ok b) :
    ∃ b₀, bind ps₀ slots args = .ok b₀ ∧ ∀ p ∈ ps₀, b₀.lookup p.name = b.lookup p.name := by
  obtain ⟨b₀, hb₀⟩ := exists_bind.mpr fun p hp ↦ exists_bind.mp ⟨b, hb⟩ p (hsub.subset hp)
  have hlookup {ps : List Parameter} {b : Bindings} (hb : bind ps slots args = .ok b)
      (hnodup : (ps.map Parameter.name).Nodup) {p : Parameter} (hp : p ∈ ps) :
      ∃ v, b.lookup p.name = some v ∧ ∃ u, argument slots args p.name = .ok u ∧ p.check u = .ok v :=
    lookup_of_forall₂ (R := fun p v ↦ ∃ u, argument slots args p.name = .ok u ∧
        p.check u = .ok v) (bind_eq_ok.mp hb)
      hnodup hp
  refine ⟨b₀, hb₀, fun p hp ↦ ?_⟩
  obtain ⟨v, hv, u, hu, hcheck⟩ := hlookup hb hnodup (hsub.subset hp)
  obtain ⟨v₀, hv₀, u₀, hu₀, hcheck₀⟩ := hlookup hb₀ (hnodup.sublist (hsub.map _)) hp
  cases hu.symm.trans hu₀
  cases hcheck.symm.trans hcheck₀
  rw [hv, hv₀]

section

variable {s : Schema} {e : Entity} {notes : List Note} {b b' : Bindings}
  (hsame : ∀ p, .parameter p ∈ notes → b'.lookup p.name = b.lookup p.name)

include hsame

theorem Filter.Sound.same {f : Filter} (h : f.Sound s notes e) : f.Same b b' f := by
  induction f with
  | and l r ihl ihr => exact .and (ihl h.1) (ihr h.2)
  | or l r ihl ihr => exact .or (ihl h.1) (ihr h.2)
  | predicate p =>
    refine .predicate ⟨rfl, rfl, rfl, ?_⟩
    cases hoperand : p.operand with
    | value | list => rfl
    | param name =>
      rw [Mapping.operandValue, Mapping.operandValue,
        hsame _ (Predicate.Sound.noted h name hoperand)]

theorem Limit.Same.of_noted {x : Option (Bound Int64)} (h : ∀ y, x = some y → boundNoted notes y) :
    Limit.Same b b' x x := by
  refine ⟨rfl, ?_⟩
  match x with
  | none | some (.literal _) => rfl
  | some (.param name) => rw [Mapping.boundValue, Mapping.boundValue, hsame _ (h _ rfl)]

/-- A tree asks the same under bindings of the same parameters. -/
theorem Tree.Everywhere.same {t : Tree} (h : t.Everywhere s notes) : t.Same b b' t := by
  induction t using Tree.induction with
  | node level relations ih =>
    obtain ⟨e, -, hsound⟩ := h _ (Tree.mem_nodes_self _)
    have hbelow : ∀ r t, (r, t) ∈ relations → t.Same b b' t := fun r t hmem ↦
      ih r t hmem fun u hu ↦ h u (Tree.mem_nodes_trans (Tree.mem_nodes_relation hmem) hu)
    refine .node ⟨rfl, ?_, .of_noted hsame hsound.limit, .of_noted hsame hsound.page, rfl⟩ ?_
    · have hfilter := hsound.filter
      change ∀ f, level.filter = some f → f.Sound s notes e at hfilter
      cases hf : level.filter with
      | none => exact .none
      | some f => exact .some ((hfilter f hf).same hsame)
    · clear h ih hsound
      induction relations with
      | nil => exact .nil
      | cons x rest ihrest =>
        exact .cons (hbelow x.1 x.2 List.mem_cons_self)
          (ihrest fun r t hmem ↦ hbelow r t (List.mem_cons_of_mem _ hmem))

end

/-- A query that notes no more than one that compiles compiles too; it is bound with the arguments
of the other, and reads what its tree reads under the bindings of the other. -/
theorem compileQuery_fewer {s : Schema} (hs : s.WellFormed)
    {form form₀ : QueryForm Value Int64} {q : Compiled} {f : Tree → Tree}
    (hentity : form₀.entity = form.entity)
    (hfewer : ∀ e, (top s e form₀.body).Fewer (top s e form.body) ∧
    (top s e form₀.body).result = f (top s e form.body).result)
    (hq : s.compileQuery form = .ok q) {slots : Slots}
    {args : Args} {b : Bindings} (hb : bind q.parameters slots args = .ok b) :
    ∃ q₀ b₀, s.compileQuery form₀ = .ok q₀ ∧ bind q₀.parameters slots args = .ok b₀ ∧
      ∀ store, Mapping.read store b₀ q₀.tree = Mapping.read store b (f q.tree) := by
  obtain ⟨e, hget, hclean, hnodup, rfl⟩ := compileQuery_eq_ok.mp hq
  obtain ⟨hless, hresult⟩ := hfewer e
  have hnodup₀ := hnodup.sublist (hless.parameters.map Parameter.name)
  have hq₀ := compileQuery_eq_ok.mpr ⟨e, hentity ▸ hget, hless.clean hclean, hnodup₀, rfl⟩
  obtain ⟨b₀, hb₀, hlookup⟩ := bind_sublist hless.parameters hnodup hb
  obtain ⟨-, notes, hsound, hnoted⟩ := compileQuery_sound hs hq₀
  refine ⟨_, b₀, hq₀, hb₀, fun store ↦ ?_⟩
  rw [← hresult]
  exact Mapping.read_same store (hsound.same fun p hp ↦ hlookup p (hnoted p hp))

end Query

end EntityStore
