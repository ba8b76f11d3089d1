import Schemata.Emit.Writers
import Schemata.Graph.Report
import Schemata.Graph.Visit
import Schemata.Main
import Schemata.Proofs.Source.Agreement
import Schemata.Proofs.Source.Rewriting
import Schemata.Shape.Interchange
import Schemata.Proofs.Json.Reading
import Schemata.Proofs.Registry.Names
import Schemata.Proofs.Emit.Dropped
import Schemata.Proofs.Graph.Reports
import Schemata.Proofs.Program.Verdict
import Schemata.Proofs.Program.Reached
import Schemata.Proofs.Program.Dispatch
import Schemata.Proofs.Program.Listed
import Schemata.Proofs.Program.Targets
import Schemata.Proofs.Program.Broken
import Schemata.Proofs.Schema.Strings
import Schemata.Proofs.Schema.Reading
import Schemata.Proofs.Document.Rendering
import Schemata.Proofs.Document.Roots
import Schemata.Proofs.Document.Closed
import Schemata.Proofs.Document.Templates
import Schemata.Proofs.Emit.Collisions
import Schemata.Proofs.Emit.Confinement
import Schemata.Proofs.Graph.Frozen
import Schemata.Proofs.Compile
import Schemata.Proofs.Registry.Numbering
import Schemata.Proofs.Registry.Expansion
import Schemata.Proofs.Program.Coerced
import Schemata.Proofs.Source.Comments
import Schemata.Proofs.Document.Constants
import Schemata.Proofs.Document.Choices
import Schemata.Proofs.Program.Ending
import Schemata.Proofs.Source.Imports
import Schemata.Proofs.Document.Wrappers
import Schemata.Proofs.Document.Ending
import Schemata.Proofs.Sample.Ending
import Schemata.Proofs.Schema.Trimmed
import Schemata.Proofs.Program.Trimmed
import Schemata.Proofs.Json.Duplicates
import Schemata.Proofs.Fragment
import Schemata.Proofs.Import.Demands
import Schemata.Proofs.Yaml.Ending
import Schemata.Proofs.Sample.Optional
import Schemata.Proofs.Pointer
import Schemata.Proofs.Program.Located
import Schemata.Proofs.Failure
import Schemata.Proofs.Equality
import Schemata.Proofs.Registry.Identifiers
import Schemata.Proofs.Program.Composed
import Schemata.Proofs.Source.Emitted
