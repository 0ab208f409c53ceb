import EntityStore.Database.Basic
import EntityStore.Proofs.Mapping.Answer
import EntityStore.Proofs.Mapping.Cardinality
import EntityStore.Proofs.Mapping.Safety
import EntityStore.Proofs.Schema.Invariant
import EntityStore.Proofs.Calendar.Written
import EntityStore.Proofs.Compile.Places
import EntityStore.Proofs.Mapping.Readable
import EntityStore.Proofs.Mapping.References
import EntityStore.Proofs.Value.Stored
import EntityStore.Proofs.Access.Denied
import EntityStore.Proofs.Compile.Acceptance
import EntityStore.Proofs.Access.Secret
import EntityStore.Proofs.Compile.Asked
import EntityStore.Proofs.Mapping.Branch
import EntityStore.Proofs.Mapping.Created
import EntityStore.Proofs.Mapping.ReadBack
import EntityStore.Proofs.Mapping.Naming
import EntityStore.Proofs.Mapping.Migration
import EntityStore.Proofs.Mapping.Answering
import EntityStore.Proofs.Mapping.History
import EntityStore.Proofs.Language.Queries
import EntityStore.Proofs.Query.Hash
import EntityStore.Proofs.Compile.Amending
import EntityStore.Proofs.Query.Literal
import EntityStore.Proofs.Mapping.Entries
import EntityStore.Proofs.Compile.Nesting
import EntityStore.Proofs.Schema.Forest
import EntityStore.Proofs.Value.Depth
import EntityStore.Proofs.Compile.Footprint
import EntityStore.Proofs.Mapping.Pages
import EntityStore.Proofs.Calendar.Chronology
import EntityStore.Proofs.Mapping.Chronology
import EntityStore.Proofs.Session.Single
import EntityStore.Proofs.Compile.Rearranged
import EntityStore.Proofs.Compile.Leaves
import EntityStore.Proofs.Query.Clauses
import EntityStore.Proofs.Schema.Frame
import EntityStore.Proofs.Mapping.Placeholders
import EntityStore.Proofs.Language.Pairs.Forms
import EntityStore.Proofs.Mapping.Extension
