import ConcIR.Sem.Ids
import ConcIR.Sem.Outcome
import ConcIR.Sem.Value
import ConcIR.Sem.Keys
import ConcIR.Sem.Domain
import ConcIR.Sem.Inhabitants
import ConcIR.Sem.Eval
import ConcIR.Sem.System
import ConcIR.Sem.Program
import ConcIR.Sem.Lower
import ConcIR.Sem.Lowering
import ConcIR.Sem.Monitor
import ConcIR.Hash.Bits
import ConcIR.Hash.Fips
import ConcIR.Hash.Sha256
import ConcIR.Interp.State
import ConcIR.Interp.Exec
import ConcIR.Interp.Observe
import ConcIR.Control.Threads
import ConcIR.Control.Locks
import ConcIR.Machine.Views
import ConcIR.Machine.Wf
import ConcIR.Machine.Quiet
import ConcIR.Machine.Waiting
import ConcIR.Machine.Activations
import ConcIR.Machine.Threads
import ConcIR.Machine.Steps
import ConcIR.Machine.Preserve
import ConcIR.Machine.Lifetimes
import ConcIR.Machine.Finish
import ConcIR.Machine.Live
import ConcIR.Machine.Runs
import ConcIR.Machine.Frames
import ConcIR.Machine.Births
import ConcIR.Machine.Tables
import ConcIR.Machine.Observed
import ConcIR.Machine.Semaphores
import ConcIR.Machine.Condvars
import ConcIR.Machine.Bounds
import ConcIR.Machine.Channels
import ConcIR.Machine.Domains
import ConcIR.Machine.Slice
import ConcIR.Machine.Moves
import ConcIR.Machine.Reached
import ConcIR.Interp.Labels
import ConcIR.Interp.Steps
import ConcIR.Interp.Waits
import ConcIR.Interp.Activation
import ConcIR.Interp.Channels
import ConcIR.Interp.Domains
import ConcIR.Interp.Control
import ConcIR.Runtime.Channel
import ConcIR.Runtime.Wakeups
import ConcIR.Runtime.Quiescence
import ConcIR.Petri.Net
import ConcIR.Petri.Exec
import ConcIR.Petri.Observe
import ConcIR.Petri.Places
import ConcIR.Petri.Corr
import ConcIR.Petri.Moves
import ConcIR.Petri.Records
import ConcIR.Petri.Finish
import ConcIR.Petri.Values
import ConcIR.Petri.Agree
import ConcIR.Petri.Pairs
import ConcIR.Petri.Creation
import ConcIR.Petri.Firing
import ConcIR.Petri.Waking
import ConcIR.Petri.Start
import ConcIR.Petri.Simulate
import ConcIR.Petri.Conserve
import ConcIR.Petri.Agreement
import ConcIR.Petri.Shown
import ConcIR.Petri.Semaphores
import ConcIR.Petri.Condvars
import ConcIR.Petri.Bounds
import ConcIR.Explore.Contract
import ConcIR.Explore.Verify
import ConcIR.Explore.Search
import ConcIR.Explore.Backward
import ConcIR.Explore.Coverage
import ConcIR.Explore.Verdicts
import ConcIR.Explore.Soundness
import ConcIR.Explore.Paths
import ConcIR.Ast.Syntax
import ConcIR.Ast.Types
import ConcIR.Expr.Syntax
import ConcIR.Expr.Typing
import ConcIR.Expr.Literals
import ConcIR.Expr.Parser
import ConcIR.Expr.Grammar
import ConcIR.Expr.Reading
import ConcIR.Expr.Rounds
import ConcIR.Expr.Accepting
import ConcIR.Expr.Recognize
import ConcIR.Expr.Printing
import ConcIR.Instrument.Offsets
import ConcIR.Typedef.Walks
import ConcIR.Typedef.Resolve
import ConcIR.Expr.Env
import ConcIR.Typedef.Json
import ConcIR.Explore.Spec
import ConcIR.Repair.Toolchain
import ConcIR.Repair.Patch
import ConcIR.Repair.Keyed
import ConcIR.Repair.Edits
import ConcIR.Repair.Enumerate
import ConcIR.Repair.Candidates
import ConcIR.Repair.Search
import ConcIR.Repair.Nodes
import ConcIR.Repair.Chains
import ConcIR.Repair.Replay
import ConcIR.Repair.Evidence
import ConcIR.Repair.Replays
import ConcIR.Repair.Negative
import ConcIR.Repair.External
import ConcIR.Repair.FileCandidates
import ConcIR.Trace.Worklist
import ConcIR.Trace.Events
import ConcIR.Trace.Conform
import ConcIR.Trace.Runs
import ConcIR.Trace.Soundness
import ConcIR.Trace.Completeness
import ConcIR.Trace.OpResource
import ConcIR.Codegen.Generate
import ConcIR.Codegen.Layout
import ConcIR.Codegen.CodeMap
import ConcIR.Validate.Walk
import ConcIR.Validate.Flood
import ConcIR.Validate.Components
import ConcIR.Validate.Cfg
import ConcIR.Validate.Names
import ConcIR.Validate.Locks
import ConcIR.Validate.Pairing
import ConcIR.Validate.Awaits
import ConcIR.Validate.Passes
import ConcIR.Validate.Interface
import ConcIR.Validate.Control
import ConcIR.Validate.Held
import ConcIR.Sem.Flow
import ConcIR.Sem.Names
import ConcIR.Interp.Flow
import ConcIR.Interp.Locks
import ConcIR.Typedef.Declarations
import ConcIR.Validate.Ordering
import ConcIR.Monitor.Replay
import ConcIR.Monitor.Verdicts
import ConcIR.Sem.Discipline
import ConcIR.Sem.Accesses
