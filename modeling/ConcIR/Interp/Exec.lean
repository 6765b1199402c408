import ConcIR.Interp.State
import ConcIR.Sem.Monitor

/-!
# The reference interpreter

One step of a runnable thread, the resumption of a blocked one, and what a
finished thread triggers. Waiting is enabledness: every eligible waiter is an
independent choice. Steps that would leave a declared domain are disabled.
-/

namespace ConcIR

/-- What both engines are configured with. -/
structure Engine where
  program : SemProgram
  bounds : AnalysisBounds
  monitor : MonitorConfig

/-- Decimal digits as a number; at least one digit is required. -/
def parseDigits (cs : List Char) : Option ℕ :=
  if cs = [] then none
  else cs.foldl (fun acc c ↦ acc.bind fun n ↦
    if c.isDigit then some (10 * n + (c.toNat - 48)) else none) (some 0)

/-- `str::parse::<i64>`: an optional sign, digits, and no overflow. -/
def parseI64 (s : String) : Option ℤ :=
  match s.toList with
  | '-' :: cs => (parseDigits cs).bind fun n ↦ checkedI64 (-(n : ℤ))
  | '+' :: cs => (parseDigits cs).bind fun n ↦ checkedI64 n
  | cs => (parseDigits cs).bind fun n ↦ checkedI64 n

/-- Label comparison of a `switch` case. -/
def valueMatchesLabel : Value → String → Bool
  | .enum e, label => e = label
  | .int i, label => parseI64 label = some i
  | _, _ => false

namespace Enabled

variable {S : Type}

def single (label : StepLabel) (s : S) : Enabled S := ⟨[⟨label, s⟩], []⟩

def append (a b : Enabled S) : Enabled S := ⟨a.steps ++ b.steps, a.boundary ++ b.boundary⟩

end Enabled

namespace Engine

variable [FloatArith] (E : Engine)

def function (f : FunctionId) : SemFunction := E.program.function f

def loc (fr : Frame) : String := E.program.location fr.function (some fr.pc)

def stepLabel (fr : Frame) (tid : ThreadId) (fid : FrameId) : StepLabel :=
  ⟨⟨(E.function fr.function).module, fr.function, some fr.pc, .statement⟩, some tid, some fid⟩

def recordCompletion (σ : MachineState) (f : FunctionId) : MachineState :=
  let max := E.monitor.maxFor f
  if max = 0 then σ
  else
    let e := σ.completedFunctions[f]?.getD 0
    { σ with
      completedFunctions := σ.completedFunctions.insert f (if e < max then e + 1 else e) }

/-- Whether a value is in the declared domain of a resource. -/
def resourceTypeOk (r : ResourceId) (v : Value) : Bool :=
  match (E.program.resource r).ty with
  | some ty => withinType ty v
  | none => true

/-- Whether writing `v` respects the destination's declared domain. -/
def dstTypeOk (σ : MachineState) (fid : FrameId) (dst : SlotRef) (v : Value) : Bool :=
  match dst with
  | .discard => true
  | .localSlot slot =>
      match (σ.store.frames[fid]?).bind fun fr ↦ (E.function fr.function).slots[slot]? with
      | some s => withinType s.ty v
      | none => true
  | .shared r => E.resourceTypeOk r v

/-- Checked write: nothing is written if the value is outside the domain. -/
def tryWriteDst (σ : MachineState) (fid : FrameId) (dst : SlotRef) (v : Value) :
    Option MachineState :=
  if E.dstTypeOk σ fid dst v then some (σ.writeDst fid dst v) else none

def complete (σ : MachineState) (tid : ThreadId) : MachineState := (σ.setRunnable tid).advance tid

def recvDstOf (σ : MachineState) (tid : ThreadId) : Option SlotRef :=
  match (σ.currentFrame tid).bind fun fr ↦ E.program.opAt fr.function fr.pc with
  | some (.channelRecv _ dst) => some dst
  | _ => none

/-- Deliver a value to a blocked receiver's destination. -/
def deliverToRecv (σ : MachineState) (recv : ThreadId) (v : Value) : Option MachineState :=
  match E.recvDstOf σ recv, σ.currentFrameId recv with
  | some dst, some fid => E.tryWriteDst σ fid dst v
  | _, _ => some σ

section Finish

/-- Release the owner of a scope whose last member has finished, and reclaim the
members and the scope. -/
def completeScope (σ : MachineState) (scope : ScopeId) (sc : ScopeState) : MachineState :=
  let σ := match σ.store.frames[sc.ownerFrame]? with
    | some fr => { σ with completedScopes := σ.completedScopes.insert (fr.function, fr.pc) }
    | none => σ
  let σ := (σ.setRunnable sc.owner).advance sc.owner
  { σ with
    threads := σ.threads.filter fun _ t ↦ t.parentScope ≠ some scope
    finished := σ.finished.filter fun m ↦ σ.threads[m]?.bind (·.parentScope) ≠ some scope
    scopes := σ.scopes.erase scope }

def leaveScope (σ : MachineState) (tid : ThreadId) (scope : ScopeId) : MachineState :=
  match σ.scopes[scope]? with
  | some sc =>
      let sc := { sc with remaining := sc.remaining.erase tid }
      let σ := { σ with scopes := σ.scopes.insert scope sc }
      if sc.remaining.isEmpty then completeScope σ scope sc else σ
  | none => σ

def isJoiner (tid : ThreadId) (t : ThreadState) : Bool :=
  match t.status with
  | .blocked (.join h) => t.handleChildren[h]? = some tid
  | _ => false

/-- Consume the joiner's handle binding and child mapping, and let it go on. -/
def wakeJoiner (tid : ThreadId) (σ : MachineState) (j : ThreadId) : MachineState :=
  let σ := σ.modifyThread j fun t ↦
    { t with handleChildren := t.handleChildren.filter fun _ c ↦ c ≠ tid }
  let σ := match σ.currentFrame j with
    | some fr =>
        match E.program.opAt fr.function fr.pc with
        | some (.join handle) =>
            σ.modifyFrame ((σ.currentFrameId j).getD 0) fun fr ↦
              { fr with handles := fr.handles.erase handle }
        | _ => σ
    | none => σ
  complete σ j

/-- Remove a thread's record. -/
def reclaim (σ : MachineState) (tid : ThreadId) : MachineState :=
  { σ with threads := σ.threads.erase tid, finished := σ.finished.erase tid }

/-- Wake the joiners of a finished thread; one of them consumes the thread. -/
def wakeJoiners (σ : MachineState) (tid : ThreadId) : MachineState :=
  let joiners := (σ.threads.toList.filter fun p ↦ isJoiner tid p.2).map Prod.fst
  let σ := joiners.foldl (E.wakeJoiner tid) σ
  if joiners = [] then σ else reclaim σ tid

def finishThread (σ : MachineState) (tid : ThreadId) (f : FunctionId) : MachineState :=
  let σ := σ.setStatus tid .finished
  let σ := E.recordCompletion { σ with finished := σ.finished.insert tid } f
  let σ := match σ.threads[tid]?.bind (·.parentScope) with
    | some scope => leaveScope σ tid scope
    | none => σ
  E.wakeJoiners σ tid

/-- Unwind the running activation. -/
def popFrame (σ : MachineState) (tid : ThreadId) (fid : FrameId) : MachineState :=
  let σ := σ.modifyThread tid fun t ↦ { t with stack := t.stack.tail }
  { σ with store := { σ.store with frames := σ.store.frames.erase fid } }

/-- The declared return type and the caller's destination both accept the value. -/
def returnOk (σ : MachineState) (fr : Frame) (caller : Option FrameId) (val : Option Value) :
    Bool :=
  match val with
  | none => true
  | some v =>
      (match (E.function fr.function).returns with
        | some ret => withinType ret.ty v
        | none => true) &&
      (match caller, fr.ret with
        | some caller, some ret => E.dstTypeOk σ caller ret.dst v
        | _, _ => true)

/-- Return to a calling activation of the same thread. -/
def returnTo (σ : MachineState) (tid : ThreadId) (fid caller : FrameId) (fr : Frame)
    (val : Option Value) : MachineState :=
  let σ := popFrame σ tid fid
  let σ := match fr.ret with
    | some ret =>
        let σ := match val with
          | some v => σ.writeDst caller ret.dst v
          | none => σ
        σ.setPc caller ret.pcNext
    | none => σ
  E.recordCompletion σ fr.function

/-- A `return`, explicit or at the end of a body; `none` when it is disabled. -/
def applyReturn (σ : MachineState) (tid : ThreadId) (fid : FrameId) (fr : Frame)
    (val : Option Value) : Option MachineState :=
  let caller := (σ.threads[tid]?.map (·.stack)).bind (·[1]?)
  if E.returnOk σ fr caller val then
    match caller with
    | some caller => some (E.returnTo σ tid fid caller fr val)
    | none => some (E.finishThread (popFrame σ tid fid) tid fr.function)
  else none

end Finish

section Create

def isLive (t : ThreadState) : Bool := t.status ≠ .finished

def withinFunctionBound (σ : MachineState) (func : FunctionId) : Bool :=
  match (E.function func).bound with
  | none => true
  | some bound =>
      let active := σ.threads.toList.countP fun p ↦ isLive p.2 &&
        (p.2.stack.getLast?.bind (σ.store.frames[·]?)).map (·.function) = some func
      active < (max bound 0).toNat

/-- A new thread and its state, unless the thread limit is reached. -/
def createThread (σ : MachineState) (func : FunctionId) (parentScope : Option ScopeId) :
    Option (ThreadId × MachineState) :=
  if E.bounds.maxThreads ≤ σ.threads.toList.countP fun p ↦ isLive p.2 then none
  else
    let tid := σ.alloc.nextThread
    let σ := { σ with alloc := { σ.alloc with nextThread := tid + 1 } }
    if (E.function func).isTransparentNobody then
      some (tid, E.recordCompletion
        { σ with
          threads := σ.threads.insert tid ⟨tid, .finished, [], func, ∅, parentScope⟩
          finished := σ.finished.insert tid } func)
    else
      let fr := σ.newFrame E.program func
      let σ := { σ with alloc := { σ.alloc with nextFrame := fr.id + 1 } }
      let σ := σ.writeFrame fr.id fr
      some (tid,
        { σ with
          threads := σ.threads.insert tid ⟨tid, .runnable, [fr.id], func, ∅, parentScope⟩ })

def threadLimit : BoundaryEvent :=
  ⟨.threadLimit, s!"thread limit {E.bounds.maxThreads} reached while spawning"⟩

/-- The members of a scope, in order, with the ones that are not finished at once. -/
def createMembers (scope : ScopeId) : MachineState → BTreeSet ThreadId → List FunctionId →
    Option (MachineState × BTreeSet ThreadId)
  | σ, remaining, [] => some (σ, remaining)
  | σ, remaining, func :: funcs =>
      match E.createThread σ func (some scope) with
      | none => none
      | some (child, σ) =>
          createMembers scope σ
            (if (σ.threads[child]?.map isLive).getD false then remaining.insert child
              else remaining) funcs

end Create

section Steps

variable (σ : MachineState) (tid : ThreadId) (fid : FrameId) (fr : Frame)

/-- A single successor. -/
def one (σ' : MachineState) : BackendResult (Enabled MachineState) :=
  .ok (.single (E.stepLabel fr tid fid) σ')

/-- A successor for each state. -/
def many (σs : List MachineState) : BackendResult (Enabled MachineState) :=
  .ok ⟨σs.map fun σ' ↦ ⟨E.stepLabel fr tid fid, σ'⟩, []⟩

/-- The single successor of a checked update, or a disabled step. -/
def oneOf (o : Option MachineState) : BackendResult (Enabled MachineState) :=
  match o with
  | some σ' => E.one tid fid fr σ'
  | none => .ok .empty

def evalIn (e : LExpr) : BackendResult Value := eval (σ.store.view fr) (E.loc fr) e

def evalArgs : List LExpr → BackendResult (List Value)
  | [] => .ok []
  | e :: es => do
      let v ← E.evalIn σ fr e
      let vs ← evalArgs es
      .ok (v :: vs)

def fail (code message : String) : BackendResult (Enabled MachineState) :=
  .error ((BackendError.mkInvalid code message).atLoc (E.loc fr))

/-- The assigned value is in the domain of the slot. -/
def assignOk (target : SlotRef) (v : Value) : Bool :=
  match target with
  | .localSlot slot =>
      match (E.function fr.function).slots[slot]? with
      | some s => withinType s.ty v
      | none => true
  | _ => true

def stepSend (c : ResourceId) (v : Value) : BackendResult (Enabled MachineState) :=
  if !E.resourceTypeOk c v then .ok .empty
  else
    match σ.store.channels[c]? with
    | none => .error (.panicked "channel")
    | some ch =>
        let register := (σ.pushSend c ⟨tid, v⟩).block tid (.channelSend c)
        if (E.program.resource c).capacity = 0 then
          -- Rendezvous: every waiting receiver is a legal match.
          if ch.pendingRecv = [] then E.one tid fid fr register
          else E.many tid fid fr <| ch.pendingRecv.filterMap fun r ↦
            (E.deliverToRecv σ r v).map fun σ ↦ (complete (σ.dropRecv c r) r).advance tid
        else if ch.buffer.length < (E.program.resource c).capacity then
          E.one tid fid fr ((σ.pushBuffer c v).advance tid)
        else E.one tid fid fr register

def stepRecv (c : ResourceId) : BackendResult (Enabled MachineState) :=
  match σ.store.channels[c]? with
  | none => .error (.panicked "channel")
  | some ch =>
      let dst := (E.recvDstOf σ tid).getD .discard
      let register := (σ.pushRecv c tid).block tid (.channelRecv c)
      if (E.program.resource c).capacity = 0 then
        -- Rendezvous: every waiting sender is a legal match.
        if ch.pendingSend = [] then E.one tid fid fr register
        else E.many tid fid fr <| ch.pendingSend.filterMap fun p ↦
          (E.tryWriteDst σ fid dst p.value).map fun σ ↦
            (complete (σ.dropSend c p.thread) p.thread).advance tid
      else
        match ch.buffer with
        | v :: _ => E.oneOf tid fid fr <|
            (E.tryWriteDst σ fid dst v).map fun σ ↦ (σ.popBuffer c).advance tid
        | [] => E.one tid fid fr register

/-- One successor per current waiter, or a plain step when there is none. -/
def stepNotify (cv : ResourceId) : BackendResult (Enabled MachineState) :=
  let waiters := (σ.store.condvars[cv]?.map (·.waiters)).getD []
  if waiters = [] then E.one tid fid fr (σ.advance tid)
  else E.many tid fid fr <| waiters.map fun w ↦
    ((σ.modifyWaiters cv (·.filter (· ≠ w))).block w.1 (.lock w.2)).advance tid

def stepNotifyAll (cv : ResourceId) : BackendResult (Enabled MachineState) :=
  match σ.store.condvars[cv]? with
  | none => .error (.panicked "condvar")
  | some c =>
      let σ := c.waiters.foldl (fun σ w ↦ σ.block w.1 (.lock w.2)) (σ.modifyWaiters cv fun _ ↦ [])
      E.one tid fid fr (σ.advance tid)

def frameLimit (callee : SemFunction) : BoundaryEvent :=
  ⟨.frameLimit, s!"frame limit {E.bounds.maxFramesPerThread} reached while calling '" ++
    callee.name ++ "'"⟩

/-- Every argument is in the domain of the parameter it is bound to. -/
def argsOk (callee : SemFunction) (values : List Value) : Bool :=
  (callee.modeledParams.zip values).all fun p ↦
    match callee.slots[p.1]? with
    | some s => withinType s.ty p.2
    | none => true

/-- The activation a call creates. -/
def callFrame (func : FunctionId) (dst : Option SlotRef) (values : List Value) : Frame :=
  let new := σ.newFrame E.program func
  { new with
    locals := ((E.function func).modeledParams.zip values).foldl
      (fun m p ↦ m.insert p.1 p.2) new.locals
    ret := some ⟨fr.pc + 1, dst.getD .discard⟩ }

def pushFrame (callee : Frame) : MachineState :=
  let σ := { σ with alloc := { σ.alloc with nextFrame := callee.id + 1 } }
  let σ := σ.writeFrame callee.id callee
  σ.modifyThread tid fun t ↦ { t with stack := callee.id :: t.stack }

def stepCall (func : FunctionId) (args : List LExpr) (dst : Option SlotRef) :
    BackendResult (Enabled MachineState) :=
  let callee := E.function func
  if callee.isTransparentNobody then E.one tid fid fr ((E.recordCompletion σ func).advance tid)
  else if E.bounds.maxFramesPerThread ≤ ((σ.threads[tid]?.map (·.stack.length)).getD 0) then
    .ok ⟨[], [E.frameLimit callee]⟩
  else do
    let values ← E.evalArgs σ fr args
    if argsOk callee values then
      E.one tid fid fr (pushFrame σ tid (E.callFrame σ fr func dst values))
    else .ok .empty

/-- Bind a fresh handle to a child, in the current frame and in the thread. -/
def bindHandle (handle : String) (child : ThreadId) : MachineState :=
  let hid := σ.alloc.nextHandle
  let σ := { σ with alloc := { σ.alloc with nextHandle := hid + 1 } }
  let σ := σ.modifyFrame fid fun fr ↦ { fr with handles := fr.handles.insert handle hid }
  σ.modifyThread tid fun t ↦ { t with handleChildren := t.handleChildren.insert hid child }

def stepSpawn (func : FunctionId) (handle : String) : BackendResult (Enabled MachineState) :=
  if !E.withinFunctionBound σ func then .ok .empty
  else
    match E.createThread σ func none with
    | none => .ok ⟨[], [E.threadLimit]⟩
    | some (child, σ) => E.one tid fid fr ((bindHandle σ tid fid handle child).advance tid)

def stepScope (funcs : List FunctionId) : BackendResult (Enabled MachineState) :=
  if funcs = [] then E.fail fr "E410" "scope funcs is empty"
  else if !funcs.all (E.withinFunctionBound σ) then .ok .empty
  else
    let scope := σ.alloc.nextScope
    let σ := { σ with alloc := { σ.alloc with nextScope := scope + 1 } }
    match E.createMembers scope σ ∅ funcs with
    | none => .ok ⟨[], [E.threadLimit]⟩
    | some (σ, remaining) =>
        if remaining.isEmpty then
          E.one tid fid fr <| ({ σ with
            completedScopes := σ.completedScopes.insert (fr.function, fr.pc) }).advance tid
        else
          E.one tid fid fr <| ({ σ with
            scopes := σ.scopes.insert scope ⟨scope, tid, fid, remaining⟩ }).block tid
              (.scope scope)

/-- Consume the handle binding and reclaim the joined child. -/
def consumeJoin (handle : String) (hid : HandleId) (c : ThreadId) : MachineState :=
  let σ := σ.modifyFrame fid fun fr ↦ { fr with handles := fr.handles.erase handle }
  let σ := σ.modifyThread tid fun t ↦ { t with handleChildren := t.handleChildren.erase hid }
  reclaim σ c

def stepJoin (handle : String) : BackendResult (Enabled MachineState) :=
  match fr.handles[handle]? with
  | none => E.fail fr "E402"
      ("join handle '" ++ handle ++ "' was never spawned in this activation")
  | some hid =>
      match σ.threads[tid]?.bind (·.handleChildren[hid]?) with
      | none => E.fail fr "E402" ("join handle '" ++ handle ++ "' has no child")
      | some c =>
          if σ.finished.contains c then
            E.one tid fid fr ((consumeJoin σ tid fid handle hid c).advance tid)
          else E.one tid fid fr (σ.block tid (.join hid))

def switchTarget (cases : BTreeMap String ℕ) (default : ℕ) (v : Value) :
    BackendResult ℕ :=
  match v with
  | .enum e => .ok (cases[e]?.getD default)
  | .int i => .ok ((cases.toList.findSome? fun p ↦
      if parseI64 p.1 = some i then some p.2 else none).getD default)
  | other => .error ((BackendError.mkInvalid "E202"
      ("switch on non-Int/non-Enum value " ++ other.canonical)).atLoc (E.loc fr))

/-- A statement of a runnable thread, in the state that has it marked as reached. -/
def stepOp (op : SemOp) : BackendResult (Enabled MachineState) :=
  match op with
  | .nop => E.one tid fid fr (σ.advance tid)
  | .assignLocal target expr => do
      let v ← E.evalIn σ fr expr
      if E.assignOk fr target v then E.one tid fid fr ((σ.writeDst fid target v).advance tid)
      else .ok .empty
  | .readShared r dst =>
      match σ.store.readShared r with
      | none => .error (.mkInvalid "E900" s!"Var {r} has no value")
      | some v => E.oneOf tid fid fr
          ((E.tryWriteDst σ fid (dst.getD .discard) v).map (·.advance tid))
  | .writeShared r expr => do
      let v ← E.evalIn σ fr expr
      if E.resourceTypeOk r v then
        E.one tid fid fr ((σ.setVar r v).advance tid)
      else .ok .empty
  | .atomicLoad r dst =>
      match σ.store.atomics[r]? with
      | none => .error (.mkInvalid "E900" s!"Atomic {r} has no value")
      | some v => E.oneOf tid fid fr ((E.tryWriteDst σ fid dst v).map (·.advance tid))
  | .atomicStore r value => do
      let v ← E.evalIn σ fr value
      if E.resourceTypeOk r v then
        E.one tid fid fr ((σ.setAtomic r v).advance tid)
      else .ok .empty
  | .atomicCas r expected desired dst => do
      let exp ← E.evalIn σ fr expected
      let des ← E.evalIn σ fr desired
      if E.resourceTypeOk r des then
        match σ.store.atomics[r]? with
        | none => .error (.mkInvalid "E900" s!"Atomic {r} has no value")
        | some old => E.oneOf tid fid fr <| (E.tryWriteDst σ fid dst old).map fun σ ↦
            (if old = exp then σ.setAtomic r des else σ).advance tid
      else .ok .empty
  | .mutexLock r =>
      if σ.store.mutexes[r]? = some .free then
        E.one tid fid fr ((σ.setMutex r (.held tid)).advance tid)
      else E.one tid fid fr (σ.block tid (.lock r))
  | .mutexUnlock r =>
      match σ.store.mutexes[r]? with
      | some (.held owner) =>
          if owner = tid then E.one tid fid fr ((σ.setMutex r .free).advance tid)
          else E.fail fr "E510" s!"thread {tid} unlocked Mutex {r} it does not hold"
      | _ => E.fail fr "E510" s!"thread {tid} unlocked free Mutex {r}"
  | .channelSend c value => do
      let v ← E.evalIn σ fr value
      E.stepSend σ tid fid fr c v
  | .channelRecv c _ => E.stepRecv σ tid fid fr c
  | .condvarWait cv lock =>
      if σ.store.mutexes[lock]? = some (.held tid) then
        if σ.store.condvars.contains cv then
          E.one tid fid fr <| ((σ.setMutex lock .free).modifyWaiters cv
            (· ++ [(tid, lock)])).block tid (.condvar cv lock)
        else .error (.panicked "condvar")
      else E.fail fr "E511"
        s!"thread {tid} waited on Condvar {cv} without holding Mutex {lock}"
  | .condvarNotify cv => E.stepNotify σ tid fid fr cv
  | .condvarNotifyAll cv => E.stepNotifyAll σ tid fid fr cv
  | .semaphoreAcquire r count =>
      if count ≤ 0 then E.fail fr "E904" "semaphore count must be positive"
      else
        let available := σ.store.semaphores[r]?.getD 0
        if count ≤ available then
          E.one tid fid fr ((σ.setSemaphore r (available - count)).advance tid)
        else
          E.one tid fid fr ((σ.pushSemWaiter r (tid, count)).block tid (.semaphore r))
  | .semaphoreRelease r count =>
      if count ≤ 0 then E.fail fr "E904" "semaphore count must be positive"
      else
        match checkedI64 (σ.store.semaphores[r]?.getD 0 + count) with
        | none => E.fail fr "E905" s!"semaphore '{r}' permit count overflows i64"
        | some updated => E.one tid fid fr ((σ.setSemaphore r updated).advance tid)
  | .call func args dst => E.stepCall σ tid fid fr func args dst
  | .spawn func handle => E.stepSpawn σ tid fid fr func handle
  | .scope funcs => E.stepScope σ tid fid fr funcs
  | .join handle => E.stepJoin σ tid fid fr handle
  | .goto target => E.one tid fid fr (σ.setPc fid target)
  | .branch cond thenTarget elseTarget => do
      let v ← E.evalIn σ fr cond
      match v.asBool with
      | some take =>
          E.one tid fid fr (σ.setPc fid (if take then thenTarget else elseTarget))
      | none => E.fail fr "E201" "branch condition is not Bool"
  | .switch var cases default => do
      let v ← E.evalIn σ fr var
      let target ← E.switchTarget fr cases default v
      E.one tid fid fr (σ.setPc fid target)
  | .return none => E.oneOf tid fid fr (E.applyReturn σ tid fid fr none)
  | .return (some e) => do
      let v ← E.evalIn σ fr e
      E.oneOf tid fid fr (E.applyReturn σ tid fid fr (some v))
  | .unsupported construct =>
      .error ((BackendError.mkUnsupported construct
        ("reached unsupported statement at " ++ E.loc fr)).atLoc (E.loc fr))

end Steps

section Resume

variable (σ : MachineState) (tid : ThreadId) (fid : FrameId) (fr : Frame)

def resumeSend (c : ResourceId) : BackendResult (Enabled MachineState) :=
  match σ.store.channels[c]? with
  | none => .ok .empty
  | some ch =>
      match ch.pendingSend.find? (·.thread = tid) with
      | none => .ok .empty
      | some p =>
          if (E.program.resource c).capacity = 0 then
            -- A rendezvous never leaves both sides waiting; the pairing is defensive.
            match ch.pendingRecv with
            | [] => .ok .empty
            | recv :: _ =>
                E.oneOf tid fid fr <| (E.deliverToRecv σ recv p.value).map fun σ ↦
                  complete (complete ((σ.removeSend c tid).dropRecv c recv) recv) tid
          else if ch.buffer.length < (E.program.resource c).capacity then
            E.one tid fid fr (complete ((σ.removeSend c tid).pushBuffer c p.value) tid)
          else .ok .empty

def resumeRecv (c : ResourceId) : BackendResult (Enabled MachineState) :=
  match σ.store.channels[c]? with
  | none => .ok .empty
  | some ch =>
      let dst := (E.recvDstOf σ tid).getD .discard
      if (E.program.resource c).capacity = 0 then
        match ch.pendingSend with
        | [] => .ok .empty
        | p :: _ =>
            E.oneOf tid fid fr <| (E.tryWriteDst σ fid dst p.value).map fun σ ↦
              complete (complete (σ.dropSend c p.thread) p.thread) tid
      else
        match ch.buffer with
        | [] => .ok .empty
        | v :: _ =>
            E.oneOf tid fid fr <| (E.tryWriteDst σ fid dst v).map fun σ ↦
              complete ((σ.popBuffer c).dropRecv c tid) tid

def resumeSemaphore (r : ResourceId) : BackendResult (Enabled MachineState) :=
  match ((σ.semWaiters[r]?).getD []).find? (·.1 = tid) with
  | none => .ok .empty
  | some (_, need) =>
      let available := σ.store.semaphores[r]?.getD 0
      if available < need then .ok .empty
      else
        E.one tid fid fr
          (complete ((σ.setSemaphore r (available - need)).dropSemWaiter r tid) tid)

/-- Resume a blocked thread whose condition now holds. -/
def resumeOp (reason : BlockReason) : BackendResult (Enabled MachineState) :=
  match reason with
  | .lock r =>
      if σ.store.mutexes[r]? = some .free then
        E.one tid fid fr (complete (σ.setMutex r (.held tid)) tid)
      else .ok .empty
  | .semaphore r => E.resumeSemaphore σ tid fid fr r
  | .channelSend c => E.resumeSend σ tid fid fr c
  | .channelRecv c => E.resumeRecv σ tid fid fr c
  | .condvar _ _ | .join _ | .scope _ => .ok .empty

end Resume

def noFrame (tid : ThreadId) : BackendError := .mkInvalid "E999" s!"thread {tid} has no frame"

/-- The running activation of a thread, with its id. -/
def running (σ : MachineState) (tid : ThreadId) : BackendResult (FrameId × Frame) :=
  match σ.currentFrameId tid with
  | none => .error (noFrame tid)
  | some fid =>
      match σ.store.frames[fid]? with
      | none => .error (.panicked "frame")
      | some fr => .ok (fid, fr)

/-- A step for a runnable thread. -/
def stepThread (σ : MachineState) (tid : ThreadId) : BackendResult (Enabled MachineState) := do
  let (fid, fr) ← running σ tid
  match E.program.opAt fr.function fr.pc with
  | none => E.oneOf tid fid fr (E.applyReturn σ tid fid fr none)
  | some op => E.stepOp (σ.markReached fr.function fr.pc) tid fid fr op

def resumeThread (σ : MachineState) (tid : ThreadId) (reason : BlockReason) :
    BackendResult (Enabled MachineState) := do
  let (fid, fr) ← running σ tid
  E.resumeOp σ tid fid fr reason

def threadSteps (σ : MachineState) (tid : ThreadId) (t : ThreadState) :
    BackendResult (Enabled MachineState) :=
  match t.status with
  | .runnable => E.stepThread σ tid
  | .blocked reason => E.resumeThread σ tid reason
  | .finished => .ok .empty

/-- The steps of every thread, in the order of their ids. -/
def allSteps (σ : MachineState) : List (ThreadId × ThreadState) →
    BackendResult (Enabled MachineState)
  | [] => .ok .empty
  | (tid, t) :: rest => do
      let en ← E.threadSteps σ tid t
      let more ← allSteps σ rest
      .ok (en.append more)

def successors (σ : MachineState) : BackendResult (Enabled MachineState) :=
  E.allSteps σ σ.threads.toList

/-- Drop the completion of a transparent entry that the contract does not observe. -/
def initial : BackendResult MachineState :=
  let σ := MachineState.initial E.program
  .ok (if E.monitor.maxFor E.program.entry = 0 then
    { σ with completedFunctions := σ.completedFunctions.erase E.program.entry } else σ)

def isFinished (σ : MachineState) : Bool := σ.threads.toList.all fun p ↦ p.2.status = .finished

end Engine

end ConcIR
