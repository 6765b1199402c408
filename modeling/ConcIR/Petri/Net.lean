import ConcIR.Interp.Exec

/-!
# The coloured net of a program

Places, tokens and transitions, and their construction from the resolved program. A
transition names its places; the builder makes every place a transition names.
-/

namespace ConcIR

namespace Petri

/-- Static identity of a place. -/
inductive PlaceKey
  | control (function : FunctionId) (sid : ℕ)
  | var (r : ResourceId)
  | atomic (r : ResourceId)
  | mutex (r : ResourceId)
  | semaphore (r : ResourceId)
  | channel (r : ResourceId)
  | channelSend (r : ResourceId)
  | channelRecv (r : ResourceId)
  | condvar (r : ResourceId)
  | lockWait (r : ResourceId)
  | semWait (r : ResourceId)
  | joinWait (function : FunctionId) (sid : ℕ)
  | scopeWait (function : FunctionId) (sid : ℕ)
deriving DecidableEq

inductive NetToken
  | control (thread : ThreadId) (frame : FrameId)
  | data (v : Value)
  | mutex (m : MutexState)
  | lockWait (thread : ThreadId) (frame : FrameId)
  | condvarWait (thread : ThreadId) (frame : FrameId) (lock : ResourceId)
  | sendWait (thread : ThreadId) (frame : FrameId) (value : Value)
  | recvWait (thread : ThreadId) (frame : FrameId)
  | semWait (thread : ThreadId) (frame : FrameId) (count : ℤ)
  | joinWait (thread : ThreadId) (frame : FrameId)
  | scopeWait (thread : ThreadId) (frame : FrameId)
deriving DecidableEq

/-- The thread a control or wait token binds, with its activation. -/
def NetToken.binding : NetToken → Option (ThreadId × FrameId)
  | .control t f | .lockWait t f | .condvarWait t f _ | .sendWait t f _ | .recvWait t f
  | .semWait t f _ | .joinWait t f | .scopeWait t f => some (t, f)
  | .data _ | .mutex _ => none

/-- How a transition is bound to tokens. -/
inductive Binding
  | control (place : PlaceKey)
  | wait (place : PlaceKey)
  /-- A control token with any wait token of another place. -/
  | controlChooseWait (place waits : PlaceKey)

inductive NetOp
  | nop
  | assignLocal (target : SlotRef) (expr : LExpr)
  | readVar (resource : ResourceId) (dst : Option SlotRef)
  | writeVar (resource : ResourceId) (expr : LExpr)
  | atomicLoad (resource : ResourceId) (dst : SlotRef)
  | atomicStore (resource : ResourceId) (expr : LExpr)
  | atomicCas (resource : ResourceId) (expected desired : LExpr) (dst : SlotRef)
  | mutexLockGrant (resource : ResourceId)
  | mutexLockBlock (resource : ResourceId)
  | mutexUnlock (resource : ResourceId)
  | lockWaitAcquire (resource : ResourceId)
  | condvarWait (condvar lock : ResourceId)
  | condvarNotifyHit (condvar : ResourceId)
  | condvarNotifyMiss (condvar : ResourceId)
  | condvarNotifyAll (condvar : ResourceId)
  | semAcquire (resource : ResourceId) (count : ℤ)
  | semAcquireBlock (resource : ResourceId) (count : ℤ)
  | semRelease (resource : ResourceId) (count : ℤ)
  | semGrant (resource : ResourceId)
  | sendRegister (channel : ResourceId)
  | recvRegister (channel : ResourceId)
  | sendPair (channel : ResourceId)
  | recvPair (channel : ResourceId)
  | sendBuf (channel : ResourceId) (expr : LExpr)
  | sendBufBlock (channel : ResourceId) (expr : LExpr)
  | recvBuf (channel : ResourceId) (dst : SlotRef)
  | recvBufBlock (channel : ResourceId)
  | bufferDeliver (channel : ResourceId)
  | bufferRecvWait (channel : ResourceId)
  | goto
  | branchThen (cond : LExpr)
  | branchElse (cond : LExpr)
  | switchCase (var : LExpr) (label : String)
  | switchDefault (var : LExpr) (labels : List String)
  | call (func : FunctionId) (args : List LExpr) (dst : Option SlotRef)
  | spawn (func : FunctionId) (handle : String)
  | scope (funcs : List FunctionId)
  | joinReady (handle : String)
  | joinBlock (handle : String)
  | returnInner (value : Option LExpr)
  | returnFinal (value : Option LExpr)

structure Transition where
  op : NetOp
  binding : Binding
  /-- Successor place of a transition that moves a control token. -/
  next : Option PlaceKey
  origin : TransitionOrigin

section Build

variable (P : SemProgram)

def originOf (f : FunctionId) (sid : Option ℕ) : TransitionOrigin :=
  ⟨(P.function f).module, f, sid, .statement⟩

/-- The transitions of one statement. -/
def buildStmt (fid : FunctionId) (si : ℕ) (op : SemOp) : List Transition :=
  let input := PlaceKey.control fid si
  let fall := PlaceKey.control fid (si + 1)
  let add (op : NetOp) (next : PlaceKey) : Transition :=
    ⟨op, .control input, some next, originOf P fid (some si)⟩
  let choose (op : NetOp) (waits : PlaceKey) : Transition :=
    ⟨op, .controlChooseWait input waits, some fall, originOf P fid (some si)⟩
  match op with
  | .nop => [add .nop fall]
  | .assignLocal target expr => [add (.assignLocal target expr) fall]
  | .readShared r dst => [add (.readVar r dst) fall]
  | .writeShared r expr => [add (.writeVar r expr) fall]
  | .atomicLoad r dst => [add (.atomicLoad r dst) fall]
  | .atomicStore r value => [add (.atomicStore r value) fall]
  | .atomicCas r expected desired dst => [add (.atomicCas r expected desired dst) fall]
  | .mutexLock r => [add (.mutexLockGrant r) fall, add (.mutexLockBlock r) (.lockWait r)]
  | .mutexUnlock r => [add (.mutexUnlock r) fall]
  | .channelSend c value =>
      if (P.resource c).capacity = 0 then
        [add (.sendRegister c) (.channelSend c), choose (.sendPair c) (.channelRecv c)]
      else [add (.sendBuf c value) fall, add (.sendBufBlock c value) (.channelSend c)]
  | .channelRecv c dst =>
      if (P.resource c).capacity = 0 then
        [add (.recvRegister c) (.channelRecv c), choose (.recvPair c) (.channelSend c)]
      else [add (.recvBuf c dst) fall, add (.recvBufBlock c) (.channelRecv c)]
  | .condvarWait cv lock => [add (.condvarWait cv lock) (.condvar cv)]
  | .condvarNotify cv =>
      [choose (.condvarNotifyHit cv) (.condvar cv), add (.condvarNotifyMiss cv) fall]
  | .condvarNotifyAll cv => [add (.condvarNotifyAll cv) fall]
  | .semaphoreAcquire r count =>
      [add (.semAcquire r count) fall, add (.semAcquireBlock r count) (.semWait r)]
  | .semaphoreRelease r count => [add (.semRelease r count) fall]
  | .call func args dst => [add (.call func args dst) (.control func 0)]
  | .spawn func handle => [add (.spawn func handle) fall]
  | .scope funcs => [add (.scope funcs) fall]
  | .join handle => [add (.joinReady handle) fall, add (.joinBlock handle) (.joinWait fid si)]
  | .goto target => [add .goto (.control fid target)]
  | .branch cond thenTarget elseTarget =>
      [add (.branchThen cond) (.control fid thenTarget),
        add (.branchElse cond) (.control fid elseTarget)]
  | .switch var cases default =>
      cases.toList.map (fun p ↦ add (.switchCase var p.1) (.control fid p.2)) ++
        [add (.switchDefault var (cases.toList.map (·.1))) (.control fid default)]
  | .return value =>
      [⟨.returnInner value, .control input, none, originOf P fid (some si)⟩,
        ⟨.returnFinal value, .control input, none, originOf P fid (some si)⟩]
  | .unsupported _ => []

/-- The places a statement asks for, in order. -/
def stmtPlaces (fid : FunctionId) (si : ℕ) (op : SemOp) : List PlaceKey :=
  let own := [PlaceKey.control fid si, PlaceKey.control fid (si + 1)]
  match op with
  | .readShared r _ | .writeShared r _ => own ++ [.var r]
  | .atomicLoad r _ | .atomicStore r _ | .atomicCas r _ _ _ => own ++ [.atomic r]
  | .mutexLock r => own ++ [.mutex r, .lockWait r]
  | .mutexUnlock r => own ++ [.mutex r]
  | .channelSend c _ =>
      if (P.resource c).capacity = 0 then own ++ [.channel c, .channelSend c, .channelRecv c]
      else own ++ [.channel c, .channelSend c]
  | .channelRecv c _ =>
      if (P.resource c).capacity = 0 then own ++ [.channel c, .channelSend c, .channelRecv c]
      else own ++ [.channel c, .channelRecv c]
  | .condvarWait cv lock => own ++ [.condvar cv, .mutex lock]
  | .condvarNotify cv | .condvarNotifyAll cv => own ++ [.condvar cv]
  | .semaphoreAcquire r _ => own ++ [.semaphore r, .semWait r]
  | .semaphoreRelease r _ => own ++ [.semaphore r]
  | .call func _ _ | .spawn func _ => own ++ [.control func 0]
  | .scope funcs => own ++ .scopeWait fid si :: funcs.map (.control · 0)
  | .join _ => own ++ [.joinWait fid si]
  | .goto target => own ++ [.control fid target]
  | .branch _ t e => own ++ [.control fid t, .control fid e]
  | .switch _ cases default =>
      own ++ cases.toList.map (fun p ↦ .control fid p.2) ++ [.control fid default]
  | .nop | .assignLocal _ _ | .return _ | .unsupported _ => own

/-- The transitions of a function. Falling off the end of the body is a `return`. -/
def buildFunction (fid : FunctionId) (f : SemFunction) : List Transition :=
  let fallThrough := PlaceKey.control fid f.body.length
  (f.body.zipIdx.flatMap fun p ↦ buildStmt P fid p.2 p.1.op) ++
    [⟨.returnInner none, .control fallThrough, none, originOf P fid none⟩,
      ⟨.returnFinal none, .control fallThrough, none, originOf P fid none⟩]

def functionPlaces (fid : FunctionId) (f : SemFunction) : List PlaceKey :=
  (f.body.zipIdx.flatMap fun p ↦ stmtPlaces P fid p.2 p.1.op) ++
    [.control fid f.body.length]

/-- The transitions that belong to a resource: they move waiting threads on. -/
def buildResource (rid : ResourceId) (r : SemResource) : List Transition :=
  let add (op : NetOp) (place : PlaceKey) (phase : Phase) : Transition :=
    ⟨op, .wait place, none, ⟨r.module, P.entry, none, phase⟩⟩
  match r.kind with
  | .mutex => [add (.lockWaitAcquire rid) (.lockWait rid) .reacquire]
  | .semaphore => [add (.semGrant rid) (.semWait rid) .reacquire]
  | .channel =>
      if r.capacity = 0 then []
      else [add (.bufferDeliver rid) (.channelSend rid) .wake,
        add (.bufferRecvWait rid) (.channelRecv rid) .wake]
  | _ => []

def resourcePlaces (rid : ResourceId) (r : SemResource) : List PlaceKey :=
  match r.kind with
  | .var => [.var rid]
  | .atomic => [.atomic rid]
  | .mutex => [.lockWait rid, .mutex rid]
  | .semaphore => [.semWait rid, .semaphore rid]
  | .channel => [.channel rid, .channelSend rid, .channelRecv rid]
  | _ => []

def transitions : List Transition :=
  (P.functions.zipIdx.flatMap fun p ↦ buildFunction P p.2 p.1) ++
    P.resources.zipIdx.flatMap fun p ↦ buildResource P p.2 p.1

/-- Every place, in the order of its first use. -/
def places : List PlaceKey :=
  ((P.functions.zipIdx.flatMap fun p ↦ functionPlaces P p.2 p.1) ++
    P.resources.zipIdx.flatMap fun p ↦ resourcePlaces p.2 p.1).eraseDups

end Build

structure NetThread where
  entryFunction : FunctionId
  /-- The head is the running activation. -/
  stack : List FrameId
  handleChildren : BTreeMap HandleId ThreadId
  parentScope : Option ScopeId
  /-- The place the thread is waiting in, if any. -/
  blockedAt : Option PlaceKey

structure NetScope where
  id : ScopeId
  owner : ThreadId
  ownerFrame : FrameId
  ownerSid : ℕ
  remaining : BTreeSet ThreadId

/-- Activations are kept in the form the interpreter has them in. -/
structure NetStore where
  frames : BTreeMap FrameId Frame
  threads : BTreeMap ThreadId NetThread
  scopes : BTreeMap ScopeId NetScope
  finished : BTreeSet ThreadId
  completedFunctions : BTreeMap FunctionId ℕ
  completedScopes : StmtSet
  reached : StmtSet
  alloc : Alloc

/-- The tokens of every place; a place that holds none has the empty list. -/
abbrev Marking := PlaceKey → List NetToken

structure NetState where
  marking : Marking
  store : NetStore

namespace NetState

variable (m : NetState)

def put (k : PlaceKey) (t : NetToken) : NetState :=
  { m with marking := Function.update m.marking k (m.marking k ++ [t]) }

/-- The first occurrence of the token goes. -/
def takeToken (k : PlaceKey) (t : NetToken) : NetState :=
  { m with marking := Function.update m.marking k ((m.marking k).erase t) }

def setSingle (k : PlaceKey) (t : NetToken) : NetState :=
  { m with marking := Function.update m.marking k [t] }

def single (k : PlaceKey) : Option NetToken := (m.marking k).head?

def readData (k : PlaceKey) : Option Value :=
  match m.single k with
  | some (.data v) => some v
  | _ => none

def setData (k : PlaceKey) (v : Value) : NetState := m.setSingle k (.data v)

def readMutex (k : PlaceKey) : Option MutexState :=
  match m.single k with
  | some (.mutex s) => some s
  | _ => none

def setMutex (k : PlaceKey) (s : MutexState) : NetState := m.setSingle k (.mutex s)

/-- The buffered queue of a channel. -/
def readArray (k : PlaceKey) : Option (List Value) :=
  match m.readData k with
  | some (.array a) => some a
  | _ => none

def readInt (k : PlaceKey) : Option ℤ := (m.readData k).bind Value.asInt

def currentFrame (tid : ThreadId) : Option FrameId :=
  m.store.threads[tid]?.bind (·.stack.head?)

def modifyFrame (fid : FrameId) (f : Frame → Frame) : NetState :=
  { m with store := { m.store with frames := m.store.frames.modify fid f } }

def modifyThread (tid : ThreadId) (f : NetThread → NetThread) : NetState :=
  { m with store := { m.store with threads := m.store.threads.modify tid f } }

def setBlocked (tid : ThreadId) (k : PlaceKey) : NetState :=
  m.modifyThread tid fun t ↦ { t with blockedAt := some k }

def unblock (tid : ThreadId) : NetState :=
  m.modifyThread tid fun t ↦ { t with blockedAt := none }

end NetState

end Petri

end ConcIR
