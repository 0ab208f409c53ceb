import EntityStore.Mapping.Column
import EntityStore.Schema.Basic
import EntityStore.Session.Basic

/-!
The tables of a schema: one for each entity, with a column for each field and one for `@parent`, and
one for each linked relation, which holds its links.
-/

set_option autoImplicit false

namespace EntityStore

namespace Mapping

/-- The column of a link table for the row that has the link. -/
def ownerColumn : String := "@inv"

/-- The column of a link table for the row linked to. -/
def targetColumn : String := "@ref"

def linkTableName (entity relation : String) : String :=
  s!"{entity}_{relation}"

/-- The column of a field. It is required unless the field is optional or can never be given. -/
def fieldColumn (name : String) (input : Bool) (f : Field) : ColumnSpec :=
  ⟨name, f.type.affinity, !f.optional && (input || f.derive.isSome), f.unique, none⟩

def ownColumn (p : Property) : Option ColumnSpec :=
  match p.kind with
  | .field f => if p.name = idName then none else some (fieldColumn p.name p.input f)
  | _ => none

def parentColumn (p : Property) : Option ColumnSpec :=
  match p.kind with
  | .reference r =>
    if p.isParent then some ⟨parentName, .integer, true, r.unique, some r.target⟩ else none
  | _ => none

/-- The columns of an entity, the one for its owner last. -/
def columns (e : Entity) : List ColumnSpec :=
  e.properties.filterMap ownColumn ++ e.properties.filterMap parentColumn

def entityTable (e : Entity) : TableSpec :=
  ⟨e.name, true, columns e, [], []⟩

/-- The table of a linked relation, where a pair stands once. -/
def linkTable (entity : String) (p : Property) : Option TableSpec :=
  match p.relation? with
  | some (target, _) =>
    if p.isLinked then
      let unique := match p.kind with
        | .reference r => r.unique
        | _ => false
      some ⟨linkTableName entity p.name, false,
        [⟨ownerColumn, .integer, true, false, some entity⟩,
          ⟨targetColumn, .integer, true, false, some target⟩],
        [ownerColumn, targetColumn], if unique then [[targetColumn]] else []⟩
    else none
  | none => none

/-- A column that is added to a table with rows: they have no value for it. -/
def addedColumn (c : ColumnSpec) : ColumnSpec :=
  { c with required := false, unique := false }

/-- The columns that a table does not have yet. -/
def missingColumns (e : Entity) (existing : List String) : List ColumnSpec :=
  ((columns e).filter fun c ↦ !existing.contains c.name).map addedColumn

/-- Creates the tables of an entity and adds the columns they lack. -/
def defineEntity (e : Entity) : Run Unit := do
  Run.define (.createTable (entityTable e))
  let existing := (((← get).store.table? e.name).map Table.columnNames).getD []
  (missingColumns e existing).forM fun c ↦ Run.define (.addColumn e.name c)
  (e.properties.filterMap (linkTable e.name)).forM fun t ↦ Run.define (.createTable t)

/-- Creates what a schema asks for and the store does not have. -/
def bootstrap (s : Schema) : Run Unit :=
  Run.atomically (s.entities.forM defineEntity)

end Mapping

end EntityStore
