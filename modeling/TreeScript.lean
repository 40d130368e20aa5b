import TreeScript.Text.Blank
import TreeScript.Text.Lowercase
import TreeScript.Text.Quoted
import TreeScript.Decimal.Layout
import TreeScript.Json.Reader
import TreeScript.Json.Writer
import TreeScript.Tree.Reader
import TreeScript.Tree.Writer
import TreeScript.Tree.Construct
import TreeScript.Code.Listing
import TreeScript.Compile.Statement
import TreeScript.Value.Numeral
import TreeScript.Store.Basic
import TreeScript.Store.Copy
import TreeScript.Store.Comparison
import TreeScript.Store.Snapshot
import TreeScript.Machine
import TreeScript.Operator.Apply
import TreeScript.Evaluate
import TreeScript.Session
import TreeScript.Command
import TreeScript.Main
import TreeScript.Proofs.Run
import TreeScript.Proofs.Store.Change
import TreeScript.Proofs.Store.Copy
import TreeScript.Proofs.Code.Written
import TreeScript.Proofs.Discipline.Basic
import TreeScript.Proofs.Discipline.Steps
import TreeScript.Proofs.Discipline.Locations
import TreeScript.Proofs.Discipline.Operators
import TreeScript.Proofs.Discipline.Evaluation
import TreeScript.Proofs.Discipline.Execution
import TreeScript.Proofs.Store.Ownership
import TreeScript.Proofs.History
import TreeScript.Proofs.Ownership
import TreeScript.Proofs.Discipline.Control
import TreeScript.Proofs.Balance
import TreeScript.Proofs.Compile.Locals
import TreeScript.Proofs.Compile.Covered
import TreeScript.Proofs.Declared
import TreeScript.Proofs.Store.Tally
import TreeScript.Proofs.Store.Guard
import TreeScript.Proofs.Isolation.Outset
import TreeScript.Proofs.Isolation.Intact
import TreeScript.Proofs.Isolation
import TreeScript.Proofs.Store.Likeness
import TreeScript.Proofs.Store.Nesting
import TreeScript.Proofs.Copying
import TreeScript.Proofs.Uniform.Basic
import TreeScript.Proofs.Uniform.Steps
import TreeScript.Proofs.Uniform.Evaluation
import TreeScript.Proofs.Termination
import TreeScript.Proofs.Limits
import TreeScript.Proofs.Compile.Grammar
import TreeScript.Proofs.Compile.Accepted
import TreeScript.Proofs.Compile.Blocks
import TreeScript.Proofs.Compile.Hoisting
import TreeScript.Proofs.Compile.Slots
import TreeScript.Proofs.Loops.Own
import TreeScript.Proofs.Loops.Table
import TreeScript.Proofs.Loops.Simulation
import TreeScript.Proofs.Loops
import TreeScript.Proofs.Defaults.Begin
import TreeScript.Proofs.Defaults.Declaration
import TreeScript.Proofs.Defaults
import TreeScript.Proofs.Store.Filling
import TreeScript.Proofs.Operands.Taken
import TreeScript.Proofs.Operands
import TreeScript.Proofs.Json.Numbers
import TreeScript.Proofs.Json.Texts
import TreeScript.Proofs.Tree.Spelling
import TreeScript.Proofs.Tree.RoundTrip
import TreeScript.Proofs.Store.Placement
import TreeScript.Proofs.Store.Route
import TreeScript.Proofs.Routes
import TreeScript.Proofs.Assignments
import TreeScript.Proofs.Destructuring
import TreeScript.Proofs.Visits.Others
import TreeScript.Proofs.Visits.Reserve
import TreeScript.Proofs.Visits.Rounds
import TreeScript.Proofs.Visits
import TreeScript.Proofs.Pairing.Basic
import TreeScript.Proofs.Pairing.Copy
import TreeScript.Proofs.Pairing.Run
import TreeScript.Proofs.Pairing.Steps
import TreeScript.Proofs.Pairing.Store
import TreeScript.Proofs.Pairing.Operators
import TreeScript.Proofs.Pairing.Evaluation
import TreeScript.Proofs.Pairing.Execution
import TreeScript.Proofs.Pairing.Sessions
import TreeScript.Proofs.Compile.Contexts
import TreeScript.Proofs.Pairing.Junction
import TreeScript.Proofs.Splitting
import TreeScript.Proofs.Store.Depth
import TreeScript.Proofs.Store.Offshoot
import TreeScript.Proofs.Compile.Reading
import TreeScript.Proofs.Reading.Shift
import TreeScript.Proofs.Reading.Twins
import TreeScript.Proofs.Reading.Steps
import TreeScript.Proofs.Reading.Evaluation
import TreeScript.Proofs.Reading
import TreeScript.Proofs.Compile.Chains
import TreeScript.Proofs.Compile.Writes
import TreeScript.Proofs.Compile.Routines
import TreeScript.Proofs.Compile.Declarations
import TreeScript.Proofs.Compile.Loads
import TreeScript.Proofs.Names.Pledge
import TreeScript.Proofs.Names.Declarations
import TreeScript.Proofs.Names
import TreeScript.Proofs.Keys
import TreeScript.Proofs.Store.Indexing
import TreeScript.Proofs.Arrays
import TreeScript.Proofs.Floats
import TreeScript.Proofs.Store.Comparing
import TreeScript.Proofs.Store.Identity
import TreeScript.Proofs.Comparisons
import TreeScript.Proofs.Arithmetic
import TreeScript.Proofs.Numerals.Nearest
import TreeScript.Proofs.Numerals
import TreeScript.Proofs.Increments.Successor
import TreeScript.Proofs.Increments.Bytes
import TreeScript.Proofs.Increments
import TreeScript.Proofs.Store.Gathering
import TreeScript.Proofs.Unions
import TreeScript.Proofs.Indices
import TreeScript.Proofs.Keys.Texts
import TreeScript.Proofs.KeyTexts
import TreeScript.Proofs.Decimal.Shortest
import TreeScript.Proofs.Text.Quoted
import TreeScript.Proofs.Decimal.Written
import TreeScript.Proofs.Listing.Tokens
import TreeScript.Proofs.Listing.Spine
import TreeScript.Proofs.Listing.Items
import TreeScript.Proofs.Listing.Lines
import TreeScript.Proofs.Listing.Statements
import TreeScript.Proofs.Listing.Blocks
import TreeScript.Proofs.Compile.Identifiers
import TreeScript.Proofs.Listing
