import CollationLint.Json.Writer
import CollationLint.Linter
import CollationLint.Lockstep
import CollationLint.Proofs.Links
import CollationLint.Proofs.Agreement
import CollationLint.Proofs.Exchange
import CollationLint.Proofs.Comparison
import CollationLint.Proofs.Calls
import CollationLint.Proofs.OutOfScope
import CollationLint.Proofs.Enclosure
import CollationLint.Proofs.Growth
import CollationLint.Proofs.StableSort
import CollationLint.Proofs.Outcomes
import CollationLint.Proofs.Overloads
import CollationLint.Proofs.Loading
import CollationLint.Proofs.History
import CollationLint.Proofs.Crashes
import CollationLint.Proofs.Defects
import CollationLint.Proofs.EntryPoints
import CollationLint.Proofs.Interfaces
import CollationLint.Proofs.Traversal
import CollationLint.Proofs.Binding
import CollationLint.Proofs.WellFormed
import CollationLint.Proofs.ElementType
import CollationLint.Proofs.BoundHierarchy
import CollationLint.Proofs.Naming
import CollationLint.Proofs.Obtainable
import CollationLint.Proofs.TypeExpressions
import CollationLint.Proofs.Denotation
import CollationLint.Proofs.Memo
import CollationLint.Proofs.Ordering
import CollationLint.Proofs.Reflection
import CollationLint.Proofs.EagerBinding
import CollationLint.Proofs.StoredTypes
import CollationLint.Proofs.Storage
import CollationLint.Proofs.OpenAncestors
import CollationLint.Proofs.Shapes
import CollationLint.Proofs.Forwarding
import CollationLint.Proofs.Signatures
import CollationLint.Proofs.Ancestors
import CollationLint.Proofs.Placeholders
import CollationLint.Proofs.Sameness
import CollationLint.Proofs.LoadSteps
import CollationLint.Proofs.Lockstep
import CollationLint.Proofs.Traces
import CollationLint.Proofs.Scanning
import CollationLint.Proofs.Tokens
import CollationLint.Proofs.Reading
import CollationLint.Proofs.Spelling
import CollationLint.Proofs.Records
import CollationLint.Proofs.Layout
import CollationLint.Proofs.SettingsText
