import TypedPaths.Session
import TypedPaths.Schema.Document
import TypedPaths.Options
import TypedPaths.CommandLine.Run
import TypedPaths.Main
import TypedPaths.Proofs.Segment
import TypedPaths.Proofs.Sameness
import TypedPaths.Proofs.Expansion
import TypedPaths.Proofs.Validity
import TypedPaths.Proofs.Kind
import TypedPaths.Proofs.Memberwise
import TypedPaths.Proofs.Resolution
import TypedPaths.Proofs.Leaves
import TypedPaths.Proofs.Composition
import TypedPaths.Proofs.Slot
import TypedPaths.Proofs.Conformance
import TypedPaths.Proofs.Reading
import TypedPaths.Proofs.Absence
import TypedPaths.Proofs.Listing
import TypedPaths.Proofs.Straying
import TypedPaths.Proofs.Acceptance
import TypedPaths.Proofs.Depth
import TypedPaths.Proofs.Truncation
import TypedPaths.Proofs.Checking
import TypedPaths.Proofs.Readonly
import TypedPaths.Proofs.Verdict
import TypedPaths.Proofs.Anchoring
import TypedPaths.Proofs.Presence
import TypedPaths.Proofs.Classification
import TypedPaths.Proofs.Enumeration
import TypedPaths.Proofs.Stepping
import TypedPaths.Proofs.Marking
import TypedPaths.Proofs.Descent
import TypedPaths.Proofs.Precision
import TypedPaths.Proofs.Traversal
import TypedPaths.Proofs.Writing
import TypedPaths.Proofs.Remembering
import TypedPaths.Proofs.Lexing
import TypedPaths.Proofs.Parsing
import TypedPaths.Proofs.Document
import TypedPaths.Proofs.InPlace
import TypedPaths.Proofs.Failure
import TypedPaths.Proofs.Assignable
import TypedPaths.Proofs.Counting
import TypedPaths.Proofs.Lacking
import TypedPaths.Proofs.Grouping
import TypedPaths.Proofs.Rearranging
import TypedPaths.Proofs.NormalForm
import TypedPaths.Proofs.UnionLaws
import TypedPaths.Proofs.Stripping
import TypedPaths.Proofs.WellFormed
import TypedPaths.Proofs.Covering
import TypedPaths.Proofs.Boundary
import TypedPaths.Proofs.Chain
import TypedPaths.Proofs.Wording
