import ConcIR.Petri.Net

/-!
# The net executor

Firing a transition under a binding, what a finished thread triggers, and the enabled
firings of a state. A firing that is not enabled yields no state. The places that a
transition names always exist; the executor asks for the others.
-/

namespace ConcIR

namespace Petri

open NetState

/-- The outcome of trying to fire: the new state, unless disabled, and the analyzer
limits that were met. -/
structure Fired where
  state : Option NetState
  boundary : List BoundaryEvent

def fired (m : NetState) : BackendResult Fired := .ok ⟨some m, []⟩

def disabled : BackendResult Fired := .ok ⟨none, []⟩

def limited (e : BoundaryEvent) : BackendResult Fired := .ok ⟨none, [e]⟩

section Places

variable (E : Engine)

def hasPlace (k : PlaceKey) : Bool := (places E.program).contains k

/-- Put a control token, keeping the program counter in step with the place. -/
def placeControl (m : NetState) (k : PlaceKey) (tid : ThreadId) (fid : FrameId) : NetState :=
  let m := match k with
    | .control _ sid => m.modifyFrame fid fun fr ↦ { fr with pc := sid }
    | _ => m
  m.put k (.control tid fid)

/-- Put the control token of a waiting thread behind its statement. -/
def putControlNext (m : NetState) (tid : ThreadId) (fid : FrameId) : BackendResult NetState :=
  match m.store.frames[fid]? with
  | none => .error (.panicked "frame")
  | some fr =>
      if hasPlace E (.control fr.function (fr.pc + 1)) then
        .ok ((placeControl m (.control fr.function (fr.pc + 1)) tid fid).unblock tid)
      else .error (.mkInvalid "E602" s!"no control place after pc {fr.pc}")

/-- The same for the partner of a rendezvous; without a place the token is lost. -/
def wakeControlNext (m : NetState) (tid : ThreadId) (fid : FrameId) : BackendResult NetState :=
  match m.store.frames[fid]? with
  | none => .error (.panicked "frame")
  | some fr =>
      let m := if hasPlace E (.control fr.function (fr.pc + 1)) then
        placeControl m (.control fr.function (fr.pc + 1)) tid fid else m
      .ok (m.unblock tid)

def recordCompletion (m : NetState) (f : FunctionId) : NetState :=
  let max := E.monitor.maxFor f
  if max = 0 then m
  else
    let e := m.store.completedFunctions[f]?.getD 0
    { m with store := { m.store with
      completedFunctions := m.store.completedFunctions.insert f (if e < max then e + 1 else e) } }

end Places

section Values

variable [FloatArith] (E : Engine)

/-- An activation and the data places, as expressions see them. -/
def view (m : NetState) (fr : Frame) : ValueStore where
  getSlot slot := fr.locals[slot]?
  getShared r :=
    if hasPlace E (.var r) then m.readData (.var r)
    else if hasPlace E (.atomic r) then m.readData (.atomic r)
    else none

def evalIn (m : NetState) (fr : Frame) (e : LExpr) : BackendResult Value :=
  eval (view E m fr) (E.loc fr) e

def evalArgs (m : NetState) (fr : Frame) : List LExpr → BackendResult (List Value)
  | [] => .ok []
  | e :: es => do
      let v ← evalIn E m fr e
      let vs ← evalArgs m fr es
      .ok (v :: vs)

omit [FloatArith] in
def dstTypeOk (m : NetState) (fid : FrameId) (dst : SlotRef) (v : Value) : Bool :=
  match dst with
  | .discard => true
  | .localSlot slot =>
      match (m.store.frames[fid]?).bind fun fr ↦ (E.function fr.function).slots[slot]? with
      | some s => withinType s.ty v
      | none => true
  | .shared r => E.resourceTypeOk r v

omit [FloatArith] in
/-- Checked write: nothing is written if the value is outside the domain. -/
def writeDst (m : NetState) (fid : FrameId) (dst : SlotRef) (v : Value) :
    BackendResult (Option NetState) :=
  if !dstTypeOk E m fid dst v then .ok none
  else
    match dst with
    | .discard => .ok (some m)
    | .localSlot slot =>
        .ok (some (m.modifyFrame fid fun fr ↦ { fr with locals := fr.locals.insert slot v }))
    | .shared r =>
        if hasPlace E (.var r) then .ok (some (m.setData (.var r) v))
        else if hasPlace E (.atomic r) then .ok (some (m.setData (.atomic r) v))
        else .error (.mkInvalid "E900" s!"no place for shared resource {r}")

omit [FloatArith] in
/-- Where the statement of an activation receives to. -/
def recvDst (fr : Frame) : Option SlotRef :=
  match E.program.opAt fr.function fr.pc with
  | some (.channelRecv _ dst) => some dst
  | _ => none

omit [FloatArith] in
/-- Deliver to the receiving statement of an activation. -/
def deliver (m : NetState) (fid : FrameId) (v : Value) : BackendResult (Option NetState) :=
  match (m.store.frames[fid]?).bind (recvDst E) with
  | some .discard | none => .ok (some m)
  | some dst => writeDst E m fid dst v

end Values

section Threads

variable (E : Engine)

def isLive (m : NetState) (tid : ThreadId) : Bool := !m.store.finished.contains tid

def threadLimit : BoundaryEvent :=
  ⟨.threadLimit, s!"thread limit {E.bounds.maxThreads} reached"⟩

/-- A new thread and its state, unless the thread limit is reached. -/
def createThread (m : NetState) (func : FunctionId) (parentScope : Option ScopeId) :
    BackendResult (Option (ThreadId × NetState)) :=
  if E.bounds.maxThreads ≤ m.store.threads.toList.countP fun p ↦ isLive m p.1 then .ok none
  else
    let tid := m.store.alloc.nextThread
    let m := { m with store := { m.store with
      alloc := { m.store.alloc with nextThread := tid + 1 } } }
    if (E.function func).isTransparentNobody then
      .ok (some (tid, recordCompletion E
        { m with store := { m.store with
          threads := m.store.threads.insert tid ⟨func, [], ∅, parentScope, none⟩
          finished := m.store.finished.insert tid } } func))
    else
      let fid := m.store.alloc.nextFrame
      let fr : Frame := ⟨fid, func, 0, (E.function func).defaultLocals, ∅, none⟩
      let m := { m with store := { m.store with
        alloc := { m.store.alloc with nextFrame := fid + 1 }
        frames := m.store.frames.insert fid fr
        threads := m.store.threads.insert tid ⟨func, [fid], ∅, parentScope, none⟩ } }
      if hasPlace E (.control func 0) then
        .ok (some (tid, placeControl m (.control func 0) tid fid))
      else .error (.mkInvalid "E602" s!"no entry control place for f{func}")

def withinBound (m : NetState) (func : FunctionId) : Bool :=
  match (E.function func).bound with
  | none => true
  | some bound =>
      let active := m.store.threads.toList.countP fun p ↦
        isLive m p.1 && p.2.entryFunction = func
      active < (max bound 0).toNat

/-- The members of a scope, in order, with the ones that are not finished at once. -/
def createMembers (scope : ScopeId) : NetState → BTreeSet ThreadId → List FunctionId →
    BackendResult (Option (NetState × BTreeSet ThreadId))
  | m, remaining, [] => .ok (some (m, remaining))
  | m, remaining, func :: funcs => do
      match ← createThread E m func (some scope) with
      | none => .ok none
      | some (child, m) =>
          createMembers scope m (if isLive m child then remaining.insert child else remaining) funcs

/-- Reclaim a finished thread. -/
def reclaim (m : NetState) (tid : ThreadId) : NetState :=
  { m with store := { m.store with
    threads := m.store.threads.erase tid
    finished := m.store.finished.erase tid } }

/-- Release the owner of a scope whose last member has finished, and reclaim the
members and the scope. -/
def completeScope (m : NetState) (scope : ScopeId) (sc : NetScope) : NetState :=
  match m.store.frames[sc.ownerFrame]? with
  | none => m
  | some fr =>
      let m := { m with store := { m.store with
        completedScopes := m.store.completedScopes.insert (fr.function, sc.ownerSid) } }
      let wait := PlaceKey.scopeWait fr.function sc.ownerSid
      let next := PlaceKey.control fr.function (sc.ownerSid + 1)
      let token := NetToken.scopeWait sc.owner sc.ownerFrame
      let m :=
        if hasPlace E wait ∧ token ∈ m.marking wait then
          let m := m.takeToken wait token
          let m := if hasPlace E next then placeControl m next sc.owner sc.ownerFrame else m
          m.unblock sc.owner
        else m
      { m with store := { m.store with
        threads := m.store.threads.filter fun _ t ↦ t.parentScope ≠ some scope
        finished := m.store.finished.filter fun x ↦
          m.store.threads[x]?.bind (·.parentScope) ≠ some scope
        scopes := m.store.scopes.erase scope } }

def leaveScope (m : NetState) (tid : ThreadId) (scope : ScopeId) : NetState :=
  match m.store.scopes[scope]? with
  | some sc =>
      let sc := { sc with remaining := sc.remaining.erase tid }
      let m := { m with store := { m.store with scopes := m.store.scopes.insert scope sc } }
      if sc.remaining.isEmpty then completeScope E m scope sc else m
  | none => m

/-- The child a waiting join statement names. -/
def joinedChild (m : NetState) (f : FunctionId) (sid : ℕ) (jt : ThreadId) (jf : FrameId) :
    Option ThreadId :=
  match E.program.opAt f sid with
  | some (.join handle) =>
      ((m.store.frames[jf]?).bind (·.handles[handle]?)).bind fun h ↦
        (m.store.threads[jt]?).bind (·.handleChildren[h]?)
  | _ => none

/-- Consume the joiner's handle binding and the finished child, and let the joiner go
on. -/
def wakeJoiner (tid : ThreadId) (f : FunctionId) (sid : ℕ) (m : NetState) (token : NetToken) :
    NetState :=
  match token with
  | .joinWait jt jf =>
      if joinedChild E m f sid jt jf = some tid then
        let m := m.takeToken (.joinWait f sid) token
        let next := PlaceKey.control f (sid + 1)
        let m := if hasPlace E next then placeControl m next jt jf else m
        let m := m.unblock jt
        let m := match E.program.opAt f sid with
          | some (.join handle) =>
              match (m.store.frames[jf]?).bind (·.handles[handle]?) with
              | some hid =>
                  (m.modifyThread jt fun t ↦
                    { t with handleChildren := t.handleChildren.erase hid }).modifyFrame jf
                      fun fr ↦ { fr with handles := fr.handles.erase handle }
              | none => m
          | _ => m
        reclaim m tid
      else m
  | _ => m

/-- Wake the joiners in one place of waiting joins. -/
def wakeJoinersAt (tid : ThreadId) (m : NetState) (k : PlaceKey) : NetState :=
  match k with
  | .joinWait f sid => (m.marking k).foldl (wakeJoiner E tid f sid) m
  | _ => m

def finishThread (m : NetState) (tid : ThreadId) (f : FunctionId) : NetState :=
  let m := { m with store := { m.store with finished := m.store.finished.insert tid } }
  let m := recordCompletion E m f
  let m := match m.store.threads[tid]?.bind (·.parentScope) with
    | some scope => leaveScope E m tid scope
    | none => m
  (places E.program).foldl (wakeJoinersAt E tid) m

end Threads

/-- The token that a binding moves. -/
inductive FireBind
  /-- A control token, with the chosen waiting token of a pairing. -/
  | control (thread : ThreadId) (frame : FrameId) (wait : Option NetToken)
  | wait (token : NetToken)

section Fire

variable (tr : Transition) (m : NetState) (tid : ThreadId) (fid : FrameId)

/-- Move the control token to the successor place. -/
def proceed : BackendResult Fired :=
  match tr.next with
  | some k => fired (placeControl m k tid fid)
  | none => .error (.panicked "next")

def proceedIf (m : Option NetState) : BackendResult Fired :=
  match m with
  | some m => proceed tr m tid fid
  | none => disabled

/-- Put a wait token in the successor place. -/
def waitIn (token : NetToken) (key : PlaceKey) : BackendResult Fired :=
  match tr.next with
  | some k => fired ((m.put k token).setBlocked tid key)
  | none => .error (.panicked "next")

variable [FloatArith] (E : Engine) (fr : Frame)

omit [FloatArith] in
def failAt (code message : String) : BackendResult Fired :=
  .error ((BackendError.mkInvalid code message).atLoc (E.loc fr))

omit [FloatArith] in
/-- The value a waiting send carries, if the channel takes it. -/
def payloadOk (c : ResourceId) (v : Value) : Bool := E.resourceTypeOk c v

/-- The value of the send statement an activation stands at. -/
def sendValue (site : String) : BackendResult Value :=
  match E.program.opAt fr.function fr.pc with
  | some (.channelSend _ value) => evalIn E m fr value
  | some _ => .error (.mkInvalid "E999" (site ++ " on non-send"))
  | none => .error (.panicked "body")

omit [FloatArith] in
def fireUnlock (r : ResourceId) : BackendResult Fired :=
  match m.readMutex (.mutex r) with
  | some (.held owner) =>
      if owner = tid then proceed tr (m.setMutex (.mutex r) .free) tid fid
      else failAt E fr "E510" s!"thread {tid} unlocked Mutex {r} it does not hold"
  | _ => failAt E fr "E510" s!"thread {tid} unlocked free Mutex {r}"

omit [FloatArith] in
def fireCondvarWait (cv lock : ResourceId) : BackendResult Fired :=
  if m.readMutex (.mutex lock) = some (.held tid) then
    waitIn tr (m.setMutex (.mutex lock) .free) tid (.condvarWait tid fid lock) (.condvar cv)
  else failAt E fr "E511" s!"thread {tid} waited on Condvar {cv} without holding Mutex {lock}"

/-- A notified waiter goes on to wait for its lock. -/
def notifyToken (cv : ResourceId) (m : NetState) (token : NetToken) : NetState :=
  match token with
  | .condvarWait wt wf lock =>
      ((m.takeToken (.condvar cv) token).put (.lockWait lock) (.lockWait wt wf)).setBlocked wt
        (.lockWait lock)
  | _ => m

def NetToken.isCondvarWait : NetToken → Bool
  | .condvarWait _ _ _ => true
  | _ => false

omit [FloatArith] in
def fireAcquire (r : ResourceId) (count : ℤ) : BackendResult Fired :=
  if count ≤ 0 then failAt E fr "E904" "semaphore count must be positive"
  else
    match m.readInt (.semaphore r) with
    | none => .error (.mkInvalid "E900" s!"Semaphore {r} has no count")
    | some available =>
        if available < count then disabled
        else proceed tr (m.setData (.semaphore r) (.int (available - count))) tid fid

omit [FloatArith] in
def fireRelease (r : ResourceId) (count : ℤ) : BackendResult Fired :=
  if count ≤ 0 then failAt E fr "E904" "semaphore count must be positive"
  else
    match checkedI64 ((m.readInt (.semaphore r)).getD 0 + count) with
    | some updated => proceed tr (m.setData (.semaphore r) (.int updated)) tid fid
    | none => failAt E fr "E905" s!"semaphore '{r}' permit count overflows i64"

def fireSendPair (c : ResourceId) (wait : Option NetToken) : BackendResult Fired :=
  match wait with
  | some (.recvWait rt rf) => do
      let v ← sendValue m E fr "SendPair"
      if !payloadOk E c v then disabled
      else if .recvWait rt rf ∉ m.marking (.channelRecv c) then disabled
      else
        match ← deliver E (m.takeToken (.channelRecv c) (.recvWait rt rf)) rf v with
        | none => disabled
        | some m => do proceed tr (← wakeControlNext E m rt rf) tid fid
  | _ => disabled

omit [FloatArith] in
def fireRecvPair (c : ResourceId) (wait : Option NetToken) : BackendResult Fired :=
  match wait with
  | some (.sendWait st sf value) => do
      if !payloadOk E c value then disabled
      else if .sendWait st sf value ∉ m.marking (.channelSend c) then disabled
      else
        match ← deliver E (m.takeToken (.channelSend c) (.sendWait st sf value)) fid value with
        | none => disabled
        | some m => do proceed tr (← wakeControlNext E m st sf) tid fid
  | _ => disabled

def fireSendBuf (c : ResourceId) (expr : LExpr) : BackendResult Fired :=
  if (E.program.resource c).capacity ≤ ((m.readArray (.channel c)).map List.length).getD 0 then
    disabled
  else do
    let v ← evalIn E m fr expr
    if !payloadOk E c v then disabled
    else
      match m.readArray (.channel c) with
      | some a => proceed tr (m.setData (.channel c) (.array (a ++ [v]))) tid fid
      | none => proceed tr m tid fid

def fireSendBufBlock (c : ResourceId) (expr : LExpr) : BackendResult Fired :=
  if ((m.readArray (.channel c)).map List.length).getD 0 < (E.program.resource c).capacity then
    disabled
  else do
    let v ← evalIn E m fr expr
    if !payloadOk E c v then disabled
    else waitIn tr m tid (.sendWait tid fid v) (.channelSend c)

omit [FloatArith] in
def fireRecvBuf (c : ResourceId) (dst : SlotRef) : BackendResult Fired :=
  match m.readArray (.channel c) with
  | some (v :: rest) => do
      proceedIf tr tid fid (← writeDst E (m.setData (.channel c) (.array rest)) fid dst v)
  | _ => disabled

def fireBranch (cond : LExpr) (wanted : Bool) : BackendResult Fired := do
  let v ← evalIn E m fr cond
  match v.asBool with
  | none => failAt E fr "E201" "branch condition is not Bool"
  | some take => if take = wanted then proceed tr m tid fid else disabled

omit [FloatArith] in
def frameLimit : BoundaryEvent :=
  ⟨.frameLimit, s!"frame limit {E.bounds.maxFramesPerThread} reached while calling"⟩

/-- The activation a call creates. -/
def callFrame (id : FrameId) (func : FunctionId) (dst : Option SlotRef) (values : List Value) :
    Frame where
  id := id
  function := func
  pc := 0
  locals := ((E.function func).modeledParams.zip values).foldl
    (fun m p ↦ m.insert p.1 p.2) (E.function func).defaultLocals
  handles := ∅
  ret := some ⟨fr.pc + 1, dst.getD .discard⟩

def fireCall (func : FunctionId) (args : List LExpr) (dst : Option SlotRef) :
    BackendResult Fired :=
  match m.store.threads[tid]? with
  | none => .error (.panicked "thread")
  | some t =>
      if E.bounds.maxFramesPerThread ≤ t.stack.length then limited (frameLimit E)
      else do
        let values ← evalArgs E m fr args
        if !Engine.argsOk (E.function func) values then disabled
        else
          let callee := m.store.alloc.nextFrame
          let m := { m with store := { m.store with
            alloc := { m.store.alloc with nextFrame := callee + 1 }
            frames := m.store.frames.insert callee (callFrame E fr callee func dst values) } }
          proceed tr (m.modifyThread tid fun t ↦ { t with stack := callee :: t.stack }) tid callee

omit [FloatArith] in
def fireSpawn (func : FunctionId) (handle : String) : BackendResult Fired :=
  if !withinBound E m func then disabled
  else do
    match ← createThread E m func none with
    | none => limited (threadLimit E)
    | some (child, m) =>
        let hid := m.store.alloc.nextHandle
        let m := { m with store := { m.store with
          alloc := { m.store.alloc with nextHandle := hid + 1 } } }
        let m := m.modifyFrame fid fun fr ↦ { fr with handles := fr.handles.insert handle hid }
        let m := m.modifyThread tid fun t ↦
          { t with handleChildren := t.handleChildren.insert hid child }
        proceed tr m tid fid

omit [FloatArith] in
def fireScope (funcs : List FunctionId) : BackendResult Fired :=
  if funcs = [] then failAt E fr "E410" "scope funcs is empty"
  else if !funcs.all (withinBound E m) then disabled
  else do
    let scope := m.store.alloc.nextScope
    let m := { m with store := { m.store with
      alloc := { m.store.alloc with nextScope := scope + 1 } } }
    match ← createMembers E scope m ∅ funcs with
    | none => limited (threadLimit E)
    | some (m, remaining) =>
        if remaining.isEmpty then
          proceed tr { m with store := { m.store with
            completedScopes := m.store.completedScopes.insert (fr.function, fr.pc) } } tid fid
        else
          let m := { m with store := { m.store with
            scopes := m.store.scopes.insert scope ⟨scope, tid, fid, fr.pc, remaining⟩ } }
          let wait := PlaceKey.scopeWait fr.function fr.pc
          fired ((m.put wait (.scopeWait tid fid)).setBlocked tid wait)

/-- The child that a join statement names, if there is one. -/
def childOf (m : NetState) (tid : ThreadId) (hid : HandleId) : BackendResult (Option ThreadId) :=
  match m.store.threads[tid]? with
  | some t => .ok t.handleChildren[hid]?
  | none => .error (.panicked "thread")

omit [FloatArith] in
def fireJoinReady (handle : String) : BackendResult Fired :=
  match fr.handles[handle]? with
  | none => failAt E fr "E402" ("join handle '" ++ handle ++ "' never spawned")
  | some hid => do
      match ← childOf m tid hid with
      | none => disabled
      | some c =>
          if c ∉ m.store.finished then disabled
          else
            -- Consume the handle binding and reclaim the finished child.
            let m := m.modifyFrame fid fun fr ↦ { fr with handles := fr.handles.erase handle }
            let m := m.modifyThread tid fun t ↦
              { t with handleChildren := t.handleChildren.erase hid }
            proceed tr (reclaim m c) tid fid

omit [FloatArith] in
def fireJoinBlock (handle : String) : BackendResult Fired :=
  match fr.handles[handle]? with
  | none => failAt E fr "E402" ("join handle '" ++ handle ++ "' never spawned")
  | some hid => do
      match ← childOf m tid hid with
      | none => disabled
      | some c =>
          if c ∈ m.store.finished then disabled
          else waitIn tr m tid (.joinWait tid fid) (.joinWait fr.function fr.pc)

def evalReturn : Option LExpr → BackendResult (Option Value)
  | none => .ok none
  | some e => do
      let v ← evalIn E m fr e
      .ok (some v)

omit [FloatArith] in
/-- The declared return type accepts the value. -/
def returnTypeOk (f : FunctionId) (val : Option Value) : Bool :=
  match (E.function f).returns, val with
  | some ret, some v => withinType ret.ty v
  | _, _ => true

/-- Unwind the running activation. -/
def popFrame (m : NetState) (tid : ThreadId) (fid : FrameId) : NetState :=
  { m with store := { m.store with
    frames := m.store.frames.erase fid
    threads := m.store.threads.modify tid fun t ↦ { t with stack := t.stack.tail } } }

omit [FloatArith] in
/-- Go on in the calling activation. -/
def resumeCaller (m : NetState) (tid : ThreadId) (caller : FrameId) (pcNext : ℕ) : NetState :=
  match m.store.frames[caller]? with
  | some fc =>
      if hasPlace E (.control fc.function pcNext) then
        placeControl m (.control fc.function pcNext) tid caller
      else m
  | none => m

def fireReturnInner (value : Option LExpr) : BackendResult Fired :=
  match m.store.threads[tid]?.map (·.stack) with
  | none => .error (.panicked "thread")
  | some [] | some [_] => disabled
  | some (_ :: caller :: _) => do
      let val ← evalReturn m E fr value
      if !returnTypeOk E fr.function val then disabled
      else
        let m := popFrame m tid fid
        match fr.ret with
        | none => fired (recordCompletion E m fr.function)
        | some ret =>
            match ← (match val with
              | some v => writeDst E m caller ret.dst v
              | none => .ok (some m)) with
            | none => disabled
            | some m =>
                fired (recordCompletion E (resumeCaller E m tid caller ret.pcNext) fr.function)

def fireReturnFinal (value : Option LExpr) : BackendResult Fired :=
  match m.store.threads[tid]?.map (·.stack) with
  | none => .error (.panicked "thread")
  | some [_] => do
      let val ← evalReturn m E fr value
      if !returnTypeOk E fr.function val then disabled
      else fired (finishThread E (popFrame m tid fid) tid fr.function)
  | some _ => disabled

/-- Fire on a control token that has been taken, in activation `fr`. -/
def fireOp (wait : Option NetToken) : BackendResult Fired :=
  match tr.op with
  | .nop | .goto => proceed tr m tid fid
  | .assignLocal target expr => do
      let v ← evalIn E m fr expr
      if !E.assignOk fr target v then disabled
      else
        let slot := match target with
          | .localSlot s => s
          | _ => 0
        proceed tr (m.modifyFrame fid fun fr ↦
          { fr with locals := fr.locals.insert slot v }) tid fid
  | .readVar r dst =>
      match m.readData (.var r) with
      | none => .error (.mkInvalid "E900" s!"Var {r} has no value")
      | some v =>
          match dst with
          | some dst => do proceedIf tr tid fid (← writeDst E m fid dst v)
          | none => proceed tr m tid fid
  | .writeVar r expr => do
      let v ← evalIn E m fr expr
      if !E.resourceTypeOk r v then disabled
      else proceed tr (m.setData (.var r) v) tid fid
  | .atomicLoad r dst =>
      match m.readData (.atomic r) with
      | none => .error (.mkInvalid "E900" s!"Atomic {r} has no value")
      | some v => do proceedIf tr tid fid (← writeDst E m fid dst v)
  | .atomicStore r expr => do
      let v ← evalIn E m fr expr
      if !E.resourceTypeOk r v then disabled
      else proceed tr (m.setData (.atomic r) v) tid fid
  | .atomicCas r expected desired dst => do
      let exp ← evalIn E m fr expected
      let des ← evalIn E m fr desired
      if !E.resourceTypeOk r des then disabled
      else
        match m.readData (.atomic r) with
        | none => .error (.mkInvalid "E900" s!"Atomic {r} has no value")
        | some old => do
            match ← writeDst E m fid dst old with
            | none => disabled
            | some m =>
                proceed tr (if old = exp then m.setData (.atomic r) des else m) tid fid
  | .mutexLockGrant r =>
      if m.readMutex (.mutex r) = some .free then
        proceed tr (m.setMutex (.mutex r) (.held tid)) tid fid
      else disabled
  | .mutexLockBlock r =>
      match m.readMutex (.mutex r) with
      | some (.held _) => waitIn tr m tid (.lockWait tid fid) (.lockWait r)
      | _ => disabled
  | .mutexUnlock r => fireUnlock tr m tid fid E fr r
  | .condvarWait cv lock => fireCondvarWait tr m tid fid E fr cv lock
  | .condvarNotifyHit cv =>
      match wait with
      | some (.condvarWait wt wf lock) =>
          if .condvarWait wt wf lock ∈ m.marking (.condvar cv) then
            proceed tr (notifyToken cv m (.condvarWait wt wf lock)) tid fid
          else disabled
      | _ => disabled
  | .condvarNotifyMiss cv =>
      if (m.marking (.condvar cv)).all (!·.isCondvarWait) then proceed tr m tid fid else disabled
  | .condvarNotifyAll cv =>
      proceed tr (((m.marking (.condvar cv)).filter (·.isCondvarWait)).foldl (notifyToken cv) m)
        tid fid
  | .semAcquire r count => fireAcquire tr m tid fid E fr r count
  | .semAcquireBlock r count =>
      if count ≤ (m.readInt (.semaphore r)).getD 0 then disabled
      else waitIn tr m tid (.semWait tid fid count) (.semWait r)
  | .semRelease r count => fireRelease tr m tid fid E fr r count
  | .sendRegister c =>
      if m.marking (.channelRecv c) ≠ [] then disabled
      else do
        let v ← sendValue m E fr "SendRegister"
        if !payloadOk E c v then disabled
        else waitIn tr m tid (.sendWait tid fid v) (.channelSend c)
  | .recvRegister c =>
      if m.marking (.channelSend c) ≠ [] then disabled
      else waitIn tr m tid (.recvWait tid fid) (.channelRecv c)
  | .sendPair c => fireSendPair tr m tid fid E fr c wait
  | .recvPair c => fireRecvPair tr m tid fid E c wait
  | .sendBuf c expr => fireSendBuf tr m tid fid E fr c expr
  | .sendBufBlock c expr => fireSendBufBlock tr m tid fid E fr c expr
  | .recvBuf c dst => fireRecvBuf tr m tid fid E c dst
  | .recvBufBlock c =>
      if ((m.readArray (.channel c)).map List.isEmpty).getD true then
        waitIn tr m tid (.recvWait tid fid) (.channelRecv c)
      else disabled
  | .branchThen cond => fireBranch tr m tid fid E fr cond true
  | .branchElse cond => fireBranch tr m tid fid E fr cond false
  | .switchCase var label => do
      let v ← evalIn E m fr var
      if valueMatchesLabel v label then proceed tr m tid fid else disabled
  | .switchDefault var labels => do
      let v ← evalIn E m fr var
      if labels.any (valueMatchesLabel v) then disabled else proceed tr m tid fid
  | .call func args dst => fireCall tr m tid E fr func args dst
  | .spawn func handle => fireSpawn tr m tid fid E func handle
  | .scope funcs => fireScope tr m tid fid E fr funcs
  | .joinReady handle => fireJoinReady tr m tid fid E fr handle
  | .joinBlock handle => fireJoinBlock tr m tid fid E fr handle
  | .returnInner value => fireReturnInner m tid fid E fr value
  | .returnFinal value => fireReturnFinal m tid fid E fr value
  | .lockWaitAcquire _ | .semGrant _ | .bufferDeliver _ | .bufferRecvWait _ => disabled

end Fire

section Wake

variable (E : Engine) (m : NetState) (token : NetToken)

/-- Put the thread of a wait token behind its statement. -/
def wakeToken (m : NetState) (tid : ThreadId) (fid : FrameId) : BackendResult Fired := do
  fired (← putControlNext E m tid fid)

def fireLockWait (r : ResourceId) : BackendResult Fired :=
  match token.binding with
  | none => .error (.panicked "token")
  | some (tid, fid) =>
      if m.readMutex (.mutex r) ≠ some .free then disabled
      else if token ∉ m.marking (.lockWait r) then disabled
      else wakeToken E ((m.takeToken (.lockWait r) token).setMutex (.mutex r) (.held tid)) tid fid

def fireSemGrant (r : ResourceId) : BackendResult Fired :=
  match token with
  | .semWait tid fid need =>
      let available := (m.readInt (.semaphore r)).getD 0
      if available < need then disabled
      else if token ∉ m.marking (.semWait r) then disabled
      else wakeToken E ((m.takeToken (.semWait r) token).setData (.semaphore r)
        (.int (available - need))) tid fid
  | _ => disabled

def fireBufferDeliver (c : ResourceId) : BackendResult Fired :=
  match token with
  | .sendWait tid fid value =>
      if (E.program.resource c).capacity ≤ ((m.readArray (.channel c)).map List.length).getD 0 then
        disabled
      else if !payloadOk E c value then disabled
      else if token ∉ m.marking (.channelSend c) then disabled
      else
        let m := m.takeToken (.channelSend c) token
        match m.readArray (.channel c) with
        | some a => wakeToken E (m.setData (.channel c) (.array (a ++ [value]))) tid fid
        | none => wakeToken E m tid fid
  | _ => disabled

def fireBufferRecv (c : ResourceId) : BackendResult Fired :=
  match token with
  | .recvWait tid fid =>
      match m.readArray (.channel c) with
      | some (v :: rest) =>
          if token ∉ m.marking (.channelRecv c) then disabled
          else do
            match ← deliver E ((m.setData (.channel c) (.array rest)).takeToken (.channelRecv c)
              token) fid v with
            | none => disabled
            | some m => wakeToken E m tid fid
      | _ => disabled
  | _ => disabled

/-- Fire on a wait token. -/
def fireWait (op : NetOp) : BackendResult Fired :=
  match op with
  | .lockWaitAcquire r => fireLockWait E m token r
  | .semGrant r => fireSemGrant E m token r
  | .bufferDeliver c => fireBufferDeliver E m token c
  | .bufferRecvWait c => fireBufferRecv E m token c
  | _ => .error (.panicked "control")

end Wake

section Successors

variable [FloatArith] (E : Engine) (m : NetState)

/-- Take the input token of a control binding and mark its statement as reached. -/
def takeControl (place : PlaceKey) (tid : ThreadId) (fid : FrameId) (fr : Frame) : NetState :=
  let m := m.takeToken place (.control tid fid)
  { m with store := { m.store with reached := m.store.reached.insert (fr.function, fr.pc) } }

def fire (tr : Transition) (bind : FireBind) : BackendResult Fired :=
  match bind, tr.binding with
  | .control tid fid wait, .control place
  | .control tid fid wait, .controlChooseWait place _ =>
      match m.store.frames[fid]? with
      | none => .error (.panicked "frame")
      | some fr => fireOp tr (takeControl m place tid fid fr) tid fid E fr wait
  | .wait token, .wait _ => fireWait E m token tr.op
  | _, _ => .error (.panicked "binding")

omit [FloatArith] in
def controls (place : PlaceKey) : List (ThreadId × FrameId) :=
  (m.marking place).filterMap fun
    | .control t f => some (t, f)
    | _ => none

omit [FloatArith] in
/-- The bindings of a transition. Every waiting token is an independent choice. -/
def bindings (tr : Transition) : List FireBind :=
  match tr.binding with
  | .control place => (controls m place).map fun c ↦ .control c.1 c.2 none
  | .wait place => (m.marking place).map .wait
  | .controlChooseWait place waits => (m.marking waits).flatMap fun w ↦
      (controls m place).map fun c ↦ .control c.1 c.2 (some w)

/-- The thread and activation a binding moves. -/
def FireBind.ids : FireBind → ThreadId × FrameId
  | .control tid fid _ => (tid, fid)
  | .wait token => token.binding.getD (0, 0)

def fireAll : List (Transition × FireBind) → BackendResult (Enabled NetState)
  | [] => .ok .empty
  | (tr, bind) :: rest => do
      let r ← fire E m tr bind
      let more ← fireAll rest
      let label := StepLabel.withBinding ⟨tr.origin, none, none⟩ bind.ids.1 bind.ids.2
      .ok (.append ⟨r.state.toList.map fun m' ↦ ⟨label, m'⟩, r.boundary⟩ more)

def successors : BackendResult (Enabled NetState) :=
  fireAll E m ((transitions E.program).flatMap fun tr ↦ (bindings m tr).map (tr, ·))

end Successors

section Initial

variable (E : Engine)

/-- The tokens of the resource places at the start. -/
def initialMarking (k : PlaceKey) : List NetToken :=
  if hasPlace E k then
    match k with
    | .var r | .atomic r => (E.program.resource r).init.toList.map .data
    | .mutex _ => [.mutex .free]
    | .semaphore r => [.data (.int (E.program.resource r).permits)]
    | .channel _ => [.data (.array [])]
    | _ => []
  else []

def initial : BackendResult NetState :=
  let entry := E.program.entry
  let m : NetState :=
    { marking := initialMarking E
      store :=
        { frames := ∅, threads := (∅ : BTreeMap _ _).insert 0 ⟨entry, [], ∅, none, none⟩
          scopes := ∅, finished := ∅, completedFunctions := ∅, completedScopes := ∅
          reached := ∅, alloc := ⟨1, 0, 0, 0⟩ } }
  if (E.function entry).isTransparentNobody then
    .ok (recordCompletion E
      { m with store := { m.store with finished := m.store.finished.insert 0 } } entry)
  else
    let fr : Frame := ⟨0, entry, 0, (E.function entry).defaultLocals, ∅, none⟩
    let m := { m with store := { m.store with
      alloc := { m.store.alloc with nextFrame := 1 }
      frames := m.store.frames.insert 0 fr
      threads := m.store.threads.modify 0 fun t ↦ { t with stack := [0] } } }
    if hasPlace E (.control entry 0) then .ok (placeControl m (.control entry 0) 0 0)
    else .error (.mkInvalid "E602" "entry function has no first statement")

end Initial

end Petri

end ConcIR
