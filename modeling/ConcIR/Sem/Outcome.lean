import ConcIR.Sem.Ids

/-!
# Outcomes, analysis bounds, boundary events and origins
-/

namespace ConcIR

/-- Result of a verification run over a fixed contract. -/
inductive Outcome
  | pass
  | fail
  | unknown
  | invalid
  | unsupported
deriving DecidableEq

structure Unsupported where
  construct : String
  location : Option String
  detail : String
deriving DecidableEq

/-- A semantic error of the program under the fixed semantics. -/
structure Invalid where
  code : String
  message : String
  location : Option String
deriving DecidableEq

inductive BackendError
  | unsupported (u : Unsupported)
  | invalid (i : Invalid)
deriving DecidableEq

namespace BackendError

def mkUnsupported (construct detail : String) : BackendError :=
  .unsupported { construct := construct, location := none, detail := detail }

def mkInvalid (code message : String) : BackendError :=
  .invalid { code := code, message := message, location := none }

/-- Attach a location unless one is there already. -/
def atLoc (e : BackendError) (location : String) : BackendError :=
  match e with
  | .unsupported u => .unsupported { u with location := u.location.or (some location) }
  | .invalid i => .invalid { i with location := i.location.or (some location) }

/-- A Rust panic (an `unwrap` of nothing, an index out of range). The process
would stop there; the model reports it as an error value of its own. -/
def panicked (site : String) : BackendError := mkInvalid "panic" site

end BackendError

abbrev BackendResult (α : Type) := Except BackendError α

/-- Analyzer limits; they are not part of the program semantics. -/
structure AnalysisBounds where
  maxThreads : ℕ
  maxFramesPerThread : ℕ
  maxStates : ℕ
  maxDepth : ℕ
  maxBoundaryEvents : ℕ
deriving DecidableEq

inductive BoundaryKind
  | threadLimit
  | frameLimit
  | stateLimit
  | depthLimit
deriving DecidableEq

structure BoundaryEvent where
  kind : BoundaryKind
  detail : String
deriving DecidableEq

inductive Phase
  | statement
  | reacquire
  | wake
deriving DecidableEq

/-- Structured origin of a transition or step. -/
structure TransitionOrigin where
  module : ModuleId
  function : FunctionId
  sid : Option ℕ
  phase : Phase
deriving DecidableEq

/-- An observable execution step: its origin plus the concrete binding. -/
structure StepLabel where
  origin : TransitionOrigin
  thread : Option ThreadId
  frame : Option FrameId
deriving DecidableEq

def StepLabel.withBinding (l : StepLabel) (thread : ThreadId) (frame : FrameId) : StepLabel :=
  { l with thread := some thread, frame := some frame }

end ConcIR
