import TaskMachine.Decimal.Layout
import TaskMachine.Decimal.Reading
import TaskMachine.Operator
import TaskMachine.Copy
import TaskMachine.Codec.Real48
import TaskMachine.Codec.Encoding
import TaskMachine.Process.Machine
import TaskMachine.Codec.Saving
import TaskMachine.Codec.Loading
import TaskMachine.Process.Run
import TaskMachine.Json
import TaskMachine.Context
import TaskMachine.Scheduler
import TaskMachine.Draft
import TaskMachine.Listing
import TaskMachine.Host
import TaskMachine.FuelWatch
import TaskMachine.Codec.Layout
import TaskMachine.ObjectFile.Container
import TaskMachine.ObjectFile.Writer
import TaskMachine.ObjectFile.Reader
import TaskMachine.Settings
import TaskMachine.Diagnostic
import TaskMachine.Console.Sandbox
import TaskMachine.Main
import TaskMachine.Proofs.Computation
import TaskMachine.Proofs.Heap.Copies
import TaskMachine.Proofs.Process.Changes
import TaskMachine.Proofs.Process.Instructions
import TaskMachine.Proofs.Process.WellFormed
import TaskMachine.Proofs.Process.Events
import TaskMachine.Proofs.Process.Isolation
import TaskMachine.Proofs.Codec.Items
import TaskMachine.Proofs.ObjectFile.Segments
import TaskMachine.Proofs.Codec.Code
import TaskMachine.Proofs.ObjectFile.Records
import TaskMachine.Proofs.ObjectFile.Passes
import TaskMachine.Proofs.ObjectFile.Dependents
import TaskMachine.Proofs.ObjectFile.Skipping
import TaskMachine.Proofs.Heap.Reach
import TaskMachine.Proofs.ObjectFile.Restoration
import TaskMachine.Proofs.ObjectFile.Strict
import TaskMachine.Proofs.Process.Reachable
import TaskMachine.Proofs.Codec.Storing
import TaskMachine.Proofs.ObjectFile.Numbers
import TaskMachine.Proofs.ObjectFile.Writing
import TaskMachine.Proofs.Draft
import TaskMachine.Proofs.ObjectFile.Stored
import TaskMachine.Proofs.Heap.Isomorphism
import TaskMachine.Proofs.ObjectFile.RoundTrip
import TaskMachine.Proofs.Regularity
import TaskMachine.Proofs.Float.Exact
import TaskMachine.Proofs.Codec.Rounding
import TaskMachine.Proofs.ObjectFile.Rounding
import TaskMachine.Proofs.ObjectFile.Growth
import TaskMachine.Proofs.ObjectFile.Complete
import TaskMachine.Proofs.ObjectFile.Replay
import TaskMachine.Proofs.ObjectFile.Resaving
import TaskMachine.Proofs.ObjectFile.Acceptance
import TaskMachine.Proofs.ObjectFile.Refusal
import TaskMachine.Proofs.Heap.Depth
import TaskMachine.Proofs.Heap.Similarity
import TaskMachine.Proofs.Operators
import TaskMachine.Proofs.Process.Simulation
import TaskMachine.Proofs.Process.Lockstep
import TaskMachine.Proofs.Process.Requests
import TaskMachine.Proofs.ObjectFile.Resumption
import TaskMachine.Proofs.Process.Runs
import TaskMachine.Proofs.Process.Limits
import TaskMachine.Proofs.Scheduler.Rounds
import TaskMachine.Proofs.Heap.Knots
import TaskMachine.Proofs.Heap.Regions
import TaskMachine.Proofs.Heap.Disciplines
import TaskMachine.Proofs.Heap.Untied
import TaskMachine.Proofs.Process.Confinement
import TaskMachine.Proofs.Scheduler.Moves
import TaskMachine.Proofs.Scheduler.Separation
import TaskMachine.Proofs.Scheduler.Copying
import TaskMachine.Proofs.Codec.Layouts
import TaskMachine.Proofs.ObjectFile.Container
import TaskMachine.Proofs.Codec.Segments
import TaskMachine.Proofs.Process.LifeCycle
import TaskMachine.Proofs.Scheduler.Accounting
import TaskMachine.Proofs.ObjectFile.Policies
import TaskMachine.Proofs.ObjectFile.Visits
import TaskMachine.Proofs.ObjectFile.Orders
import TaskMachine.Proofs.Console.Turns
import TaskMachine.Proofs.Heap.Bystanders
import TaskMachine.Proofs.Process.SelfContained
import TaskMachine.Proofs.Process.Doubles
import TaskMachine.Proofs.Scheduler.Abreast
import TaskMachine.Proofs.Scheduler.Independence
import TaskMachine.Proofs.Float.Nearest
import TaskMachine.Proofs.Codec.Reals
import TaskMachine.Proofs.Codec.Malformed
import TaskMachine.Proofs.Process.Handlers
import TaskMachine.Proofs.Heap.Binding
import TaskMachine.Proofs.Heap.Twins
import TaskMachine.Proofs.Heap.Detached
import TaskMachine.Proofs.Heap.Captures
import TaskMachine.Proofs.Scheduler.Captures
import TaskMachine.Proofs.Process.Arguments
import TaskMachine.Proofs.Draft.Entries
import TaskMachine.Proofs.Process.Arity
import TaskMachine.Proofs.Scheduler.Closures
import TaskMachine.Proofs.ObjectFile.Narrowing
import TaskMachine.Proofs.Float.Line
import TaskMachine.Proofs.Float.Rounding
import TaskMachine.Proofs.Operators.Arithmetic
import TaskMachine.Proofs.Operators.Faults
import TaskMachine.Proofs.Operators.Comparison
import TaskMachine.Proofs.Operators.Operands
import TaskMachine.Proofs.Grid.Offsets
import TaskMachine.Proofs.Grid.Origins
import TaskMachine.Proofs.Draft.Lines
import TaskMachine.Proofs.Console.Reals
import TaskMachine.Proofs.Float.Decimals
import TaskMachine.Proofs.Decimal.Shortest
import TaskMachine.Proofs.Decimal.Texts
import TaskMachine.Proofs.Codec.Charsets
import TaskMachine.Proofs.Console.Numbers
