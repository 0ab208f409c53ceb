import EntityStore.Mapping.Condition

/-!
The select statement of a level of a query. It joins every single relation below the level, whose
filter is part of the join; relations to many rows are left to statements of their own.
-/

set_option autoImplicit false

namespace EntityStore

namespace Mapping

open Query (Tree)

/-- The rows a level is restricted to: those that a relation leads to from some owners. -/
structure Scope where
  source : String
  relation : Query.Relation
  owners : List Int64

/-- A column that rows are sorted by: first by the rank of the sorting, then by the depth it is
at. -/
structure SortKey where
  rank : Int64
  depth : Nat
  term : OrderTerm

/-- The columns, the joins and the sorting of a level and the single relations below it. -/
structure Plan where
  columns : List ColumnRef
  joins : List LeftJoin
  sorts : List SortKey

/-- A limit and the number of rows in front of the page. -/
structure PageBounds where
  limit : Int64
  offset : Int64

namespace SortKey

def le (a b : SortKey) : Bool :=
  a.rank < b.rank || (a.rank == b.rank && a.depth ≤ b.depth)

end SortKey

namespace Plan

def none : Plan := ⟨[], [], []⟩

def append (a b : Plan) : Plan := ⟨a.columns ++ b.columns, a.joins ++ b.joins, a.sorts ++ b.sorts⟩

/-- The selected fields other than the row number. -/
def ownFields (level : Query.Level) : List Query.SelectedField :=
  level.fields.filter fun f ↦ f.name != idName

/-- The row number and the selected fields of a level. -/
def ofLevel (level : Query.Level) (depth : Nat) (label : String) : Plan where
  columns := .column label idName :: (ownFields level).map fun f ↦ .column label f.name
  joins := []
  sorts := level.fields.filterMap fun f ↦ f.sort.map fun (direction, rank) ↦
    ⟨rank, depth, .column label f.name, some direction⟩

end Plan

/-- The joins that lead from a row to the row of a single relation, given the name of its table. -/
def relationJoins (entity label child : String) (r : Query.Relation) (target : String) :
    Planning (List LeftJoin × Join) := do
  if r.isParent then
    pure ([], ⟨⟨target, child⟩, .column child idName, .column label parentName⟩)
  else match r.kind with
    | .owned => pure ([], ⟨⟨target, child⟩, .column child parentName, .column label idName⟩)
    | .linked =>
      let link ← fresh "l"
      let toLink : Join := ⟨⟨linkTableName entity r.name, link⟩,
        .column link ownerColumn, .column label idName⟩
      pure ([⟨toLink, none⟩], ⟨⟨target, child⟩, .column child idName, .column link targetColumn⟩)

mutual

/-- Plans a level whose table has a name already. -/
def plan (bindings : Query.Bindings) (depth : Nat) (label : String) : Tree → Planning Plan
  | .node level relations => do
    let below ← planRelations bindings depth label level.entity relations
    pure ((Plan.ofLevel level depth label).append below)

/-- Plans the single relations of a level. -/
def planRelations (bindings : Query.Bindings) (depth : Nat) (label entity : String) :
    List (Query.Relation × Tree) → Planning Plan
  | [] => pure .none
  | (r, t) :: rest => do
    if r.many then planRelations bindings depth label entity rest
    else
      let child ← fresh "t"
      let (links, join) ← relationJoins entity label child r t.level.entity
      let cs ← conditions bindings child t.level.filter
      let inner ← plan bindings (depth + 1) child t
      let others ← planRelations bindings depth label entity rest
      pure ((Plan.mk [] (links ++ [⟨join, cs.head?⟩]) []).append (inner.append others))

end

/-- How a scope restricts a level: the column with the owner, the join and the first sorting of
links. -/
def restriction (main : String) (s : Scope) :
    Planning (ColumnRef × Option Join × List OrderTerm) := do
  match s.relation.kind with
  | .owned => pure (.column main parentName, none, [])
  | .linked =>
    let link ← fresh "s"
    let join : Join := ⟨⟨linkTableName s.source s.relation.name, link⟩,
      .column link targetColumn, .column main idName⟩
    pure (.column link ownerColumn, some join, [⟨.rowNumber link, none⟩])

def boundValue (bindings : Query.Bindings) : Option (Language.Bound Int64) →
    Except ExecutionError (Option Int64)
  | none => .ok none
  | some (.literal n) => .ok (some n)
  | some (.param name) =>
    match (bindings.lookup name).bind Value.asLong? with
    | some n => .ok (some n)
    | none => .error (.noArgument name)

/-- The page of a level. Without a limit there are no pages. -/
def pageBounds (bindings : Query.Bindings) (level : Query.Level) :
    Except ExecutionError (Option PageBounds) := do
  let limit ← boundValue bindings level.limit
  let page ← boundValue bindings level.page
  let before := int64Nearest ((page.getD 1).toInt - 1)
  pure (limit.map fun limit ↦ ⟨limit, int64Nearest (before.toInt * limit.toInt)⟩)

/-- The statement of a level, with the page that is cut for each owner of a scope afterwards. -/
def levelSelect (bindings : Query.Bindings) (t : Tree) (scope : Option Scope) :
    Planning (Select × Option PageBounds) := do
  let main ← fresh "t"
  let p ← plan bindings 0 main t
  let restricted ← scope.mapM (restriction main)
  let cs ← conditions bindings main t.level.filter
  let page ← pageBounds bindings t.level
  let owner := (restricted.map fun (c, _, _) ↦ c).toList
  let among := match scope, restricted with
    | some s, some (c, _, _) => [Condition.amongIds c s.owners]
    | _, _ => []
  let links := (restricted.map fun (_, _, terms) ↦ terms).getD []
  pure (⟨p.columns ++ owner, ⟨t.level.entity, main⟩, restricted.bind fun (_, j, _) ↦ j, p.joins,
    among ++ cs, (p.sorts.mergeSort SortKey.le).map SortKey.term ++ links ++
      [⟨.column main idName, none⟩],
    if scope.isNone then page.map fun b ↦ (b.limit, b.offset) else none⟩, page)

end Mapping

end EntityStore
