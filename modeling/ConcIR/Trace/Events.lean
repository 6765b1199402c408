import ConcIR.Interp.Observe
import ConcIR.Ast.Syntax

/-!
# Observable events

Which statements the generated code reports, at which of their steps the interpreter
renders that report, and the tags under which threads report.
-/

namespace ConcIR

/-- Ops whose trace event is emitted when the statement is reached; every other
observable op reports after its completing step. -/
def eventAtAttempt : SemOp → Bool
  | .mutexUnlock _ | .condvarNotify _ | .condvarNotifyAll _ | .semaphoreRelease _ _
  | .channelSend _ _ | .channelRecv _ _ | .spawn _ _ | .scope _ | .join _ => true
  | _ => false

def isObservable : SemOp → Bool
  | .mutexLock _ | .mutexUnlock _ | .condvarWait _ _ | .condvarNotify _ | .condvarNotifyAll _
  | .semaphoreAcquire _ _ | .semaphoreRelease _ _ | .channelSend _ _ | .channelRecv _ _
  | .spawn _ _ | .scope _ | .join _ => true
  | _ => false

/-- `stmt_index`: the map is filled in the order of the body, so the last statement
with an id is the one it names. -/
def SemFunction.stmtIndex (f : SemFunction) (sid : String) : Option ℕ :=
  (List.range f.body.length).reverse.find? fun i ↦ f.body[i]?.map (·.sid) = some sid

/-- Child thread tags for a spawn or scope statement. -/
def childTags (f : SemFunction) (sid : String) : List String :=
  match ((f.stmtIndex sid).bind fun i ↦ f.body[i]?.map (·.op) : Option SemOp) with
  | some (.scope funcs) =>
      (List.range funcs.length).map fun i ↦ "t" ++ sid ++ "_" ++ toString (i + 1)
  | some (.spawn _ _) => ["t" ++ sid]
  | _ => []

namespace Trace

/-- Which thread a tag stands for. -/
abbrev Tags := BTreeMap String ThreadId

variable (P : SemProgram)

def sidOf (function : FunctionId) (idx : ℕ) : Option String :=
  (P.function function).body[idx]?.map (·.sid)

/-- `module::function::sid`, the key of the coverage sets. -/
def statementName (f : SemFunction) (sid : String) : String :=
  fqn (fqn (P.moduleName f.module) f.name) sid

/-- All observable statements of the program. -/
def observableSids : BTreeSet String :=
  P.functions.foldl (fun out f ↦ f.body.foldl (fun out s ↦
    if isObservable s.op then out.insert (statementName P f s.sid) else out) out) ∅

/-- Current statement index of a thread. -/
def pcOf (σ : MachineState) (tid : ThreadId) : Option ℕ := (σ.currentFrame tid).map (·.pc)

def threadRunnable (σ : MachineState) (tid : ThreadId) : Bool :=
  σ.threads[tid]?.map (·.status) = some .runnable

/-- The thread has left the statement it stood at. -/
def movedOn (σ τ : MachineState) (tid : ThreadId) : Bool :=
  match pcOf σ tid, pcOf τ tid with
  | some before, some after => before < after
  | some _, none => true
  | _, _ => false

def threadAdvanced (σ : MachineState) (step : Step MachineState) : Bool :=
  match step.label.thread with
  | none => false
  | some tid => movedOn σ step.state tid

/-- The operation of the statement a step is labelled with. -/
def opOf (step : Step MachineState) : Option SemOp :=
  step.label.origin.sid.bind (P.opAt step.label.origin.function)

def attempts (σ : MachineState) (step : Step MachineState) : Bool :=
  match step.label.thread with
  | none => false
  | some tid => threadRunnable σ tid

/-- Whether this step is the model's rendering of an observable event. -/
def eventCapable (attemptAll silentSpawn : Bool) (σ : MachineState)
    (step : Step MachineState) : Bool :=
  match opOf P step with
  | none => false
  | some op =>
      if !isObservable op || step.label.origin.phase ≠ .statement then false
      else
        let forks := match op with
          | .spawn _ _ | .scope _ | .join _ => true
          | _ => false
        if silentSpawn && forks then false
        else if attemptAll then attempts σ step
        else if eventAtAttempt op then attempts σ step
        else threadAdvanced σ step

/-- In extraction mode an unlock may be taken silently: guards drop implicitly. -/
def lenientSkippable (attemptAll silentSpawn : Bool) (σ : MachineState)
    (step : Step MachineState) : Bool :=
  match opOf P step with
  | some (.mutexUnlock _) =>
      step.label.origin.phase = .statement && eventCapable P attemptAll silentSpawn σ step
  | _ => false

/-- The threads of `τ` that `σ` does not have, in the order of their ids. -/
def newThreads (σ τ : MachineState) : List ThreadId :=
  τ.threads.keys.filter fun tid ↦ !σ.threads.contains tid

/-- The tags the threads created by a step of this statement get. -/
def tagged (function : FunctionId) (idx : ℕ) (created : List ThreadId) :
    List (String × ThreadId) :=
  match sidOf P function idx with
  | none => []
  | some sid => (childTags (P.function function) sid).zip created

def newTagsForStep (before : MachineState) (step : Step MachineState) :
    List (String × ThreadId) :=
  match step.label.origin.sid with
  | none => []
  | some idx => tagged P step.label.origin.function idx (newThreads before step.state)

/-- Later bindings replace earlier ones of the same tag. -/
def Tags.bind (tags : Tags) (new : List (String × ThreadId)) : Tags :=
  new.foldl (fun m p ↦ m.insert p.1 p.2) tags

/-- What an event is matched against: a statement id, or an operation with its
resource where the statement ids of the trace are synthetic. -/
inductive Target
  | sid (s : String)
  | opRes (op res : String)

/-- What follows the last `::`, if there is one. -/
def afterSeparator : List Char → Option (List Char)
  | [] => none
  | c :: cs => (afterSeparator cs).or <|
      match c, cs with
      | ':', ':' :: rest => some rest
      | _, _ => none

/-- `rsplit("::").next()`: the part of a qualified name after the last separator. -/
def shortName (s : String) : String :=
  ((afterSeparator s.toList).map String.ofList).getD s

/-- The model uses qualified names where the instrumented program uses variable names. -/
def resourceMatches (model event : String) : Bool :=
  event = "" || model = event || shortName model = shortName event

/-- Runtime op name of an observable statement. -/
def opName : SemOp → String
  | .mutexLock _ => "mutex_lock"
  | .mutexUnlock _ => "mutex_unlock"
  | .condvarWait _ _ => "condvar_wait"
  | .condvarNotify _ => "condvar_notify"
  | .condvarNotifyAll _ => "condvar_notify_all"
  | .semaphoreAcquire _ _ => "sem_acquire"
  | .semaphoreRelease _ _ => "sem_release"
  | .channelSend _ _ => "channel_send"
  | .channelRecv _ _ => "channel_recv"
  | .spawn _ _ => "spawn"
  | .scope _ => "scope"
  | .join _ => "join"
  | _ => "other"

def resourceName (r : ResourceId) : String :=
  fqn (P.moduleName (P.resource r).module) (P.resource r).name

def functionName (f : FunctionId) : String :=
  fqn (P.moduleName (P.function f).module) (P.function f).name

/-- Operation and resource of an observable statement; a spawn's resource is the name
of the function it starts. -/
def observableSig (f : FunctionId) (idx : ℕ) : Option (String × String) :=
  match P.opAt f idx with
  | none => none
  | some op =>
      if !isObservable op then none
      else
        let resource := match op with
          | .mutexLock r | .mutexUnlock r | .condvarWait r _ | .condvarNotify r
          | .condvarNotifyAll r | .semaphoreAcquire r _ | .semaphoreRelease r _
          | .channelSend r _ | .channelRecv r _ => resourceName P r
          | .spawn func _ => functionName P func
          | _ => ""
        some (opName op, resource)

def statementMatches (f : FunctionId) (idx : ℕ) : Target → Bool
  | .sid s => sidOf P f idx = some s
  | .opRes op res =>
      match observableSig P f idx with
      | none => false
      | some (mop, mres) =>
          mop = op && (op ∈ ["spawn", "scope", "join"] || resourceMatches mres res)

def targetLabel (f : FunctionId) (idx : ℕ) : Target → Option String
  | .sid _ => sidOf P f idx
  | .opRes _ _ => (observableSig P f idx).map fun p ↦ p.1 ++ ":" ++ p.2

end Trace

end ConcIR
