import EntityStore.Access.Basic
import EntityStore.Error
import EntityStore.Store.Select

/-!
The events that working with a store reports, with their log lines.
-/

set_option autoImplicit false

namespace EntityStore

inductive Event where
  | opened (enforced : Bool)
  | defined (d : Definition)
  | executing (instructions : Nat)
  | executed (s : Statement)
  | rolledBack (e : Error) (instruction : String)
  | committed (instructions : Nat)
  | selected (s : Select)
  | lookedUp (table column : String)
  | changed (entities : Nat)
  | denied (kind : AccessKind) (key : PropertyKey)

namespace Event

def text : Event → String
  | .opened enforced => s!"INFO row store opened | mode=InMemory | foreign_keys={enforced}"
  | .defined d => s!"DEBUG bootstrap | sql={d.text}"
  | .executing n => s!"INFO executing batch | instructions={n}"
  | .executed s => s!"DEBUG execute | sql={s.text} | params={s.parameters.length}"
  | .rolledBack e instruction =>
    s!"WARN batch rolled back | error={e.message} | instruction={instruction}"
  | .committed n => s!"INFO batch committed | instructions={n}"
  | .selected s => s!"DEBUG {s.text} [{s.parameters.length} params]"
  | .lookedUp table column =>
    s!"DEBUG query | sql={Store.lookupText table column} | params=1"
  | .changed n => s!"INFO schema changed | entities={n}"
  | .denied kind key => s!"WARN access denied | kind={kind.name} | property={key.text}"

end Event

end EntityStore
