import ConcIR.Sem.Program

/-!
# Machine state of the reference interpreter

The complete semantic state: shared store, activations with their handle names,
threads, wait data and durable completion facts. The allocation counters travel
with it. The head of a stack is the running activation.
-/

namespace ConcIR

inductive MutexState
  | free
  | held (t : ThreadId)
deriving DecidableEq

structure PendingSend where
  thread : ThreadId
  value : Value
deriving DecidableEq

structure ChannelState where
  buffer : List Value
  pendingSend : List PendingSend
  pendingRecv : List ThreadId
deriving DecidableEq

/-- Each waiter carries the mutex it must re-acquire. -/
structure CondvarState where
  waiters : List (ThreadId × ResourceId)
deriving DecidableEq

structure RetAddr where
  pcNext : ℕ
  dst : SlotRef
deriving DecidableEq

structure Frame where
  id : FrameId
  function : FunctionId
  pc : ℕ
  locals : BTreeMap ℕ Value
  handles : BTreeMap String HandleId
  ret : Option RetAddr
deriving DecidableEq

structure Store where
  vars : BTreeMap ResourceId Value
  atomics : BTreeMap ResourceId Value
  mutexes : BTreeMap ResourceId MutexState
  semaphores : BTreeMap ResourceId ℤ
  channels : BTreeMap ResourceId ChannelState
  condvars : BTreeMap ResourceId CondvarState
  frames : BTreeMap FrameId Frame
deriving DecidableEq

inductive BlockReason
  | lock (r : ResourceId)
  | channelSend (c : ResourceId)
  | channelRecv (c : ResourceId)
  | condvar (cv lock : ResourceId)
  | semaphore (r : ResourceId)
  | join (h : HandleId)
  | scope (s : ScopeId)
deriving DecidableEq

inductive ThreadStatus
  | runnable
  | blocked (reason : BlockReason)
  | finished
deriving DecidableEq

structure ThreadState where
  id : ThreadId
  status : ThreadStatus
  stack : List FrameId
  entryFunction : FunctionId
  handleChildren : BTreeMap HandleId ThreadId
  parentScope : Option ScopeId
deriving DecidableEq

structure ScopeState where
  id : ScopeId
  owner : ThreadId
  ownerFrame : FrameId
  remaining : BTreeSet ThreadId
deriving DecidableEq

structure Alloc where
  nextThread : ℕ
  nextFrame : ℕ
  nextScope : ℕ
  nextHandle : ℕ
deriving DecidableEq

structure MachineState where
  store : Store
  threads : BTreeMap ThreadId ThreadState
  semWaiters : BTreeMap ResourceId (List (ThreadId × ℤ))
  scopes : BTreeMap ScopeId ScopeState
  finished : BTreeSet ThreadId
  completedFunctions : BTreeMap FunctionId ℕ
  completedScopes : StmtSet
  reached : StmtSet
  alloc : Alloc

def ChannelState.empty : ChannelState := ⟨[], [], []⟩

namespace Store

def empty : Store := ⟨∅, ∅, ∅, ∅, ∅, ∅, ∅⟩

def readShared (s : Store) (r : ResourceId) : Option Value := s.vars[r]?.or s.atomics[r]?

def writeShared (s : Store) (r : ResourceId) (v : Value) : Store :=
  if s.vars.contains r then { s with vars := s.vars.insert r v }
  else { s with atomics := s.atomics.insert r v }

/-- A frame and the shared store, as expressions see them. -/
def view (s : Store) (fr : Frame) : ValueStore where
  getSlot slot := fr.locals[slot]?
  getShared r := s.readShared r

end Store

namespace MachineState

def initResource (store : Store) (id : ResourceId) (r : SemResource) : Store :=
  match r.kind with
  | .var => match r.init with
      | some v => { store with vars := store.vars.insert id v }
      | none => store
  | .atomic => match r.init with
      | some v => { store with atomics := store.atomics.insert id v }
      | none => store
  | .mutex => { store with mutexes := store.mutexes.insert id .free }
  | .condvar => { store with condvars := store.condvars.insert id ⟨[]⟩ }
  | .semaphore => { store with semaphores := store.semaphores.insert id r.permits }
  | .channel => { store with channels := store.channels.insert id .empty }
  | .rwLock => store

def initResources (P : SemProgram) : Store :=
  (List.range P.resources.length).foldl (fun s i ↦ initResource s i (P.resource i)) .empty

/-- A fresh activation of `func` under the next frame id. -/
def newFrame (σ : MachineState) (P : SemProgram) (func : FunctionId) : Frame where
  id := σ.alloc.nextFrame
  function := func
  pc := 0
  locals := (P.function func).defaultLocals
  handles := ∅
  ret := none

def writeFrame (σ : MachineState) (fid : FrameId) (fr : Frame) : MachineState :=
  { σ with store := { σ.store with frames := σ.store.frames.insert fid fr } }

/-- `frame_mut`: change a frame in place. -/
def modifyFrame (σ : MachineState) (fid : FrameId) (f : Frame → Frame) : MachineState :=
  { σ with store := { σ.store with frames := σ.store.frames.modify fid f } }

def modifyThread (σ : MachineState) (tid : ThreadId) (f : ThreadState → ThreadState) :
    MachineState :=
  { σ with threads := σ.threads.modify tid f }

/-- Build the initial state: one runnable thread executing the entry, or an entry
that has completed already. -/
def initial (P : SemProgram) : MachineState :=
  let σ : MachineState :=
    { store := initResources P, threads := ∅, semWaiters := ∅, scopes := ∅, finished := ∅
      completedFunctions := ∅, completedScopes := ∅, reached := ∅, alloc := ⟨1, 0, 0, 0⟩ }
  if (P.function P.entry).isTransparentNobody then
    { σ with
      threads := σ.threads.insert 0 ⟨0, .finished, [], P.entry, ∅, none⟩
      finished := σ.finished.insert 0
      completedFunctions := σ.completedFunctions.insert P.entry 1 }
  else
    let fr := σ.newFrame P P.entry
    let σ := { σ with alloc := { σ.alloc with nextFrame := σ.alloc.nextFrame + 1 } }
    let σ := σ.writeFrame fr.id fr
    { σ with threads := σ.threads.insert 0 ⟨0, .runnable, [fr.id], P.entry, ∅, none⟩ }

def currentFrameId (σ : MachineState) (tid : ThreadId) : Option FrameId :=
  σ.threads[tid]?.bind (·.stack.head?)

def currentFrame (σ : MachineState) (tid : ThreadId) : Option Frame :=
  (σ.currentFrameId tid).bind (σ.store.frames[·]?)

def setStatus (σ : MachineState) (tid : ThreadId) (st : ThreadStatus) : MachineState :=
  σ.modifyThread tid fun t ↦ { t with status := st }

def setRunnable (σ : MachineState) (tid : ThreadId) : MachineState := σ.setStatus tid .runnable

def block (σ : MachineState) (tid : ThreadId) (reason : BlockReason) : MachineState :=
  σ.setStatus tid (.blocked reason)

def setPc (σ : MachineState) (fid : FrameId) (pc : ℕ) : MachineState :=
  σ.modifyFrame fid fun fr ↦ { fr with pc := pc }

/-- Advance the current frame past its statement. -/
def advance (σ : MachineState) (tid : ThreadId) : MachineState :=
  match σ.currentFrameId tid with
  | some fid => σ.modifyFrame fid fun fr ↦ { fr with pc := fr.pc + 1 }
  | none => σ

def writeDst (σ : MachineState) (fid : FrameId) (dst : SlotRef) (v : Value) : MachineState :=
  match dst with
  | .discard => σ
  | .localSlot slot => σ.modifyFrame fid fun fr ↦ { fr with locals := fr.locals.insert slot v }
  | .shared r => { σ with store := σ.store.writeShared r v }

def setMutex (σ : MachineState) (r : ResourceId) (m : MutexState) : MachineState :=
  { σ with store := { σ.store with mutexes := σ.store.mutexes.insert r m } }

def setSemaphore (σ : MachineState) (r : ResourceId) (n : ℤ) : MachineState :=
  { σ with store := { σ.store with semaphores := σ.store.semaphores.insert r n } }

/-- `channels.get_mut(..).unwrap()`: change a channel in place. -/
def modifyChannel (σ : MachineState) (c : ResourceId) (f : ChannelState → ChannelState) :
    MachineState :=
  { σ with store := { σ.store with channels := σ.store.channels.modify c f } }

def pushSend (σ : MachineState) (c : ResourceId) (p : PendingSend) : MachineState :=
  σ.modifyChannel c fun ch ↦ { ch with pendingSend := ch.pendingSend ++ [p] }

def pushRecv (σ : MachineState) (c : ResourceId) (tid : ThreadId) : MachineState :=
  σ.modifyChannel c fun ch ↦ { ch with pendingRecv := ch.pendingRecv ++ [tid] }

/-- `retain`: every pending send of the thread goes. -/
def dropSend (σ : MachineState) (c : ResourceId) (tid : ThreadId) : MachineState :=
  σ.modifyChannel c fun ch ↦ { ch with pendingSend := ch.pendingSend.filter (·.thread ≠ tid) }

/-- `remove(pos)`: the first pending send of the thread goes. -/
def removeSend (σ : MachineState) (c : ResourceId) (tid : ThreadId) : MachineState :=
  σ.modifyChannel c fun ch ↦ { ch with pendingSend := ch.pendingSend.eraseP (·.thread = tid) }

def dropRecv (σ : MachineState) (c : ResourceId) (tid : ThreadId) : MachineState :=
  σ.modifyChannel c fun ch ↦ { ch with pendingRecv := ch.pendingRecv.filter (· ≠ tid) }

def pushBuffer (σ : MachineState) (c : ResourceId) (v : Value) : MachineState :=
  σ.modifyChannel c fun ch ↦ { ch with buffer := ch.buffer ++ [v] }

def popBuffer (σ : MachineState) (c : ResourceId) : MachineState :=
  σ.modifyChannel c fun ch ↦ { ch with buffer := ch.buffer.tail }

/-- `condvars.get_mut(..)`: change the wait set in place. -/
def modifyWaiters (σ : MachineState) (cv : ResourceId)
    (f : List (ThreadId × ResourceId) → List (ThreadId × ResourceId)) : MachineState :=
  { σ with
    store := { σ.store with condvars := σ.store.condvars.modify cv fun c ↦ ⟨f c.waiters⟩ } }

def pushSemWaiter (σ : MachineState) (r : ResourceId) (w : ThreadId × ℤ) : MachineState :=
  { σ with semWaiters := σ.semWaiters.insert r (σ.semWaiters[r]?.getD [] ++ [w]) }

def dropSemWaiter (σ : MachineState) (r : ResourceId) (tid : ThreadId) : MachineState :=
  { σ with semWaiters := σ.semWaiters.modify r fun q ↦ q.filter (·.1 ≠ tid) }

def setVar (σ : MachineState) (r : ResourceId) (v : Value) : MachineState :=
  { σ with store := { σ.store with vars := σ.store.vars.insert r v } }

def setAtomic (σ : MachineState) (r : ResourceId) (v : Value) : MachineState :=
  { σ with store := { σ.store with atomics := σ.store.atomics.insert r v } }

def markReached (σ : MachineState) (f : FunctionId) (pc : ℕ) : MachineState :=
  { σ with reached := σ.reached.insert (f, pc) }

end MachineState

end ConcIR
