import PathTyping.Command
import PathTyping.Span
import PathTyping.Decimal.Double
import PathTyping.Decimal.Shortest
import PathTyping.Decimal.Text
import PathTyping.Text.Range
import PathTyping.Text.Printable
import PathTyping.Text.Extender
import PathTyping.Text.Quoted
import PathTyping.Tree
import PathTyping.Ty
import PathTyping.Symbols
import PathTyping.Assoc
import PathTyping.Value
import PathTyping.Diagnostic
import PathTyping.Code
import PathTyping.Memory
import PathTyping.Finding
import PathTyping.Lookup
import PathTyping.Branch
import PathTyping.Json
import PathTyping.Options
import PathTyping.Code.Lower
import PathTyping.Analysis
import PathTyping.Overload
import PathTyping.Call
import PathTyping.Value.Operators
import PathTyping.Walk
import PathTyping.Resolution
import PathTyping.Invoke
import PathTyping.Query
import PathTyping.Token
import PathTyping.Token.Scan
import PathTyping.Tree.Cursor
import PathTyping.Tree.Expression
import PathTyping.Tree.Declaration
import PathTyping.Symbols.Declare
import PathTyping.Compilation
import PathTyping.Excerpt
import PathTyping.Token.Dump
import PathTyping.Command.Outcome
import PathTyping.Main
import PathTyping.Proofs.Execution
import PathTyping.Proofs.Lowering
import PathTyping.Proofs.Steps
import PathTyping.Proofs.Walks
import PathTyping.Proofs.Unbounded
import PathTyping.Proofs.Enumeration
import PathTyping.Proofs.Copies
import PathTyping.Proofs.Refinement
import PathTyping.Proofs.Renaming
import PathTyping.Proofs.Transport
import PathTyping.Proofs.Passage
import PathTyping.Proofs.Collapse
import PathTyping.Proofs.Leaves
import PathTyping.Proofs.Readings
import PathTyping.Proofs.Closed
import PathTyping.Proofs.Faces
import PathTyping.Proofs.Canonical
import PathTyping.Proofs.Joins
import PathTyping.Proofs.Sound
import PathTyping.Proofs.Annotations
import PathTyping.Proofs.Coverage
import PathTyping.Proofs.Following
import PathTyping.Proofs.Abreast
import PathTyping.Proofs.Lockstep
import PathTyping.Proofs.Keys
import PathTyping.Proofs.Spelling
import PathTyping.Proofs.Positions
import PathTyping.Proofs.Alongside
import PathTyping.Proofs.Totality
import PathTyping.Proofs.Grammar
import PathTyping.Proofs.Printing
import PathTyping.Proofs.Rereading
import PathTyping.Proofs.Budget
import PathTyping.Proofs.Histories
import PathTyping.Proofs.Origins
import PathTyping.Proofs.Tiling
import PathTyping.Proofs.Spans
import PathTyping.Proofs.Identities
import PathTyping.Proofs.Consistent
import PathTyping.Proofs.WellFormed
import PathTyping.Proofs.Lookups
import PathTyping.Proofs.Roles
import PathTyping.Proofs.Kinds
import PathTyping.Proofs.Operands
import PathTyping.Proofs.Frames
import PathTyping.Proofs.Limits
import PathTyping.Proofs.Filing
import PathTyping.Proofs.Assignments
import PathTyping.Proofs.Sightings
import PathTyping.Proofs.Arity
import PathTyping.Proofs.Folding
import PathTyping.Proofs.Attribution
import PathTyping.Proofs.Patches
import PathTyping.Proofs.Refusals
import PathTyping.Proofs.Callers
import PathTyping.Proofs.Ranking
import PathTyping.Proofs.Visits
import PathTyping.Proofs.Jumps
import PathTyping.Proofs.OneSided
import PathTyping.Proofs.Constants
import PathTyping.Proofs.Rejections
import PathTyping.Proofs.Failures
import PathTyping.Proofs.Gathering
import PathTyping.Proofs.Findings
import PathTyping.Proofs.Presence
import PathTyping.Proofs.Escapes
import PathTyping.Proofs.Reloads
