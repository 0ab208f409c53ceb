import EntityStore.Access.Basic
import EntityStore.Compile.Transaction
import EntityStore.Mapping.Read
import EntityStore.Mapping.Write
import EntityStore.Query.Compile

/-!
Databases: a committed schema, an authorizer and a session with the store that holds the schema's
tables.
-/

set_option autoImplicit false

namespace EntityStore

/-- Allows or refuses an access of a kind to some properties; tells also what it logs. -/
abbrev Authorizer := AccessKind → Accessed → Except Error Unit × List Event

def Authorizer.allowAll : Authorizer := fun _ _ ↦ (.ok (), [])

/-- Refuses the access to a property that a policy denies, and logs that it did. -/
def Policy.authorizer (p : Policy) : Authorizer := fun kind accessed ↦
  match p.denied? kind accessed with
  | some key => (.error (.unauthorized kind key), [.denied kind key])
  | none => (.ok (), [])

structure Database where
  schema : Schema
  authorizer : Authorizer
  session : Session

namespace Run

/-- Fails if an authorizer refuses the access to the properties touched. -/
def authorize (a : Authorizer) (kind : AccessKind) (accessed : Accessed) : Run Unit := do
  let (outcome, events) := a kind accessed
  events.forM log
  orFail id outcome

/-- Reads the rows a query tree asks for. -/
def rows (bindings : Query.Bindings) (t : Query.Tree) : Run (List Row) := do
  let (outcome, statements) := Mapping.read (← get).store bindings t
  statements.forM fun s ↦ log (.selected s)
  orFail id outcome

/-- Executes a batch if all of it is allowed. -/
def apply (s : Schema) (a : Authorizer) (batch : List Instruction) : Run Unit := do
  batch.forM fun i ↦ authorize a i.action.kind i.accessed
  Mapping.execute s batch

/-- The rows that a query answers for some arguments. -/
def answer (a : Authorizer) (q : Query.Compiled) (args : Args) : Run (List Row) := do
  authorize a .query q.accessed
  let bindings ← orFail .execution (Query.bind q.parameters (← get).slots args)
  rows bindings q.tree

end Run

namespace Query

/-- All fields of the row of an entity with a number. -/
def ofRow (e : Entity) (id : Int64) : Compiled where
  tree :=
    .node ⟨e.name, some (.ofId id), none, none, e.fields.map fun (name, f) ↦ ⟨name, f.type, none⟩⟩
      []
  parameters := []
  accessed := .ofNames e.name (e.fields.map Prod.fst)

end Query

namespace Schema

/-- Reads and compiles the text of a query. -/
def query (s : Schema) (text : String) : Except Error Query.Compiled := do
  let form ← (Language.readQuery text).mapError .grammar
  (s.compileQuery form).mapError .semantic

end Schema

namespace Database

/-- Runs an action on the session. -/
def perform {α : Type} (db : Database) (action : Run α) : Except Error α × Database :=
  let (outcome, session) := action.run db.session
  (outcome, { db with session := session })

/-- Commits a schema and creates its tables in an empty store. -/
def create (enforced : Bool) (s : Schema) (a : Authorizer) : Except Error Unit × Database :=
  perform ⟨s.commit, a, .start enforced⟩ (Mapping.bootstrap s.commit)

def begin (db : Database) : Transaction :=
  .start db.schema db.session.slots

/-- Executes the batch of a transaction. -/
def execute (db : Database) (t : Transaction) : Except Error Unit × Database :=
  perform { db with session := { db.session with slots := t.slots } } do
    Run.apply t.schema db.authorizer t.instructions

def answer (db : Database) (q : Query.Compiled) (args : Args) :
    Except Error (List Row) × Database :=
  db.perform (Run.answer db.authorizer q args)

/-- The row of an entity with a number. -/
def row (db : Database) (entity : String) (id : Int64) : Except Error (Option Row) × Database :=
  db.perform do
    let e ← Run.orFail .schema (db.schema.find entity)
    let rows ← Run.answer db.authorizer (Query.ofRow e id) []
    pure rows.head?

/-- Changes a copy of the schema, commits it, creates what the store is missing and goes on with
it. -/
def change (db : Database) (f : Schema → Except SchemaError Schema) :
    Except Error Unit × Database :=
  let action : Run Schema := do
    let changed ← Run.orFail .schema (f db.schema.change)
    Mapping.bootstrap changed.commit
    Run.log (.changed changed.entities.length)
    pure changed.commit
  match db.perform action with
  | (.ok schema, db) => (.ok (), { db with schema := schema })
  | (.error e, db) => (.error e, db)

end Database

end EntityStore
