import EntityStore.Text.Blank
import EntityStore.Text.Digest

/-!
The hash of a query's text.
-/

set_option autoImplicit false

namespace EntityStore.Query

/-- A digest of the text with every run of blanks made one space. -/
def hash (text : String) : String :=
  Digest.hex (collapseBlanks text).toUTF8

end EntityStore.Query
