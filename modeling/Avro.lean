import Avro.Config
import Avro.Inspect
import Avro.Proofs.Derivation.Runs
import Avro.Proofs.Graph.Members
import Avro.Proofs.Tree.Scoped
import Avro.Proofs.Tree.Coverage
import Avro.Proofs.Definitions
import Avro.Proofs.Translation
import Avro.Proofs.Derivable.Conditions
import Avro.Proofs.Derivable.Existence
import Avro.Proofs.Calendar
import Avro.Proofs.Conformance.Basic
import Avro.Proofs.Json.Entries
import Avro.Proofs.Conformance.Defaults
import Avro.Proofs.Conformance.Branches
import Avro.Proofs.Tree.Namespaces
import Avro.Proofs.Tree.Reading
import Avro.Proofs.Termination.Bound
import Avro.Proofs.Cache.Compilations
import Avro.Proofs.Cache.Requests
import Avro.Proofs.Cache.Transparency
import Avro.Proofs.Derivation.Ownership
import Avro.Proofs.Tree.WellFormed
import Avro.Proofs.Renaming.Compilation
import Avro.Proofs.Recast.GivenNamespace
import Avro.Proofs.Recast.Documentation
import Avro.Proofs.MandatoryDefaults
import Avro.Proofs.Json.KeyOrder
import Avro.Proofs.Json.Documents
import Avro.Proofs.Decimal.Defaults
import Avro.Proofs.Json.DocumentDefaults
import Avro.Proofs.Conformance.Null
import Avro.Proofs.Conformance.RecordEntries
import Avro.Proofs.Conformance.Paths
import Avro.Proofs.Graph.Expansion
import Avro.Proofs.Derivation.Reordering
import Avro.Proofs.Conformance.Temporal
import Avro.Proofs.Conformance.TimesOfDay
import Avro.Proofs.Conformance.Identifiers
import Avro.Proofs.Derivation.Lookup
import Avro.Proofs.Derivation.Registry
import Avro.Proofs.Paragraphs
import Avro.Proofs.Flags
import Avro.Proofs.Derivation.Calls
import Avro.Proofs.FullNames
