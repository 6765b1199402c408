import ConcIR.Interp.Exec

/-!
# Observations of the interpreter

The predicates a contract may ask about a machine state, and the canonical
rendering that serves as its key. Dynamic identities are rendered by their rank.
-/

namespace ConcIR

section Rendering

/-- An identity by its position in `order`, or raw when it is not there. -/
def rankName (pre : String) (order : List ℕ) (x : ℕ) : String :=
  match order.idxOf? x with
  | some i => pre ++ toString i
  | none => pre ++ "?" ++ toString x

/-- `Vec<String>::sort`. -/
def sortStrings (xs : List String) : List String := xs.insertionSort (· ≤ ·)

def SlotRef.debug : SlotRef → String
  | .localSlot s => "Local(" ++ toString s ++ ")"
  | .shared r => "Shared(ResourceId(" ++ toString r ++ "))"
  | .discard => "Discard"

def debugCounts (m : BTreeMap FunctionId ℕ) : String :=
  "\x7b" ++ joinWith ", " (m.toList.map fun p ↦
    "FunctionId(" ++ toString p.1 ++ "): " ++ toString p.2) ++ "\x7d"

def debugStmts (s : StmtSet) : String :=
  "\x7b" ++ joinWith ", " (s.toList.map fun p ↦
    "(FunctionId(" ++ toString p.1 ++ "), " ++ toString p.2 ++ ")") ++ "\x7d"

/-- The tables that dynamic identities are ranked in. -/
structure Ranks where
  threads : List ThreadId
  frames : List FrameId
  scopes : List ScopeId
  handles : List HandleId

namespace Ranks

variable (k : Ranks)

def tname (t : ThreadId) : String := rankName "T" k.threads t
def fname (f : FrameId) : String := rankName "F" k.frames f
def sname (s : ScopeId) : String := rankName "S" k.scopes s
def hname (h : HandleId) : String := rankName "h" k.handles h

end Ranks

/-- Handle ids of frames and threads, sorted and without repetition. -/
def handleIds (frames : List (BTreeMap String HandleId))
    (children : List (BTreeMap HandleId ThreadId)) : List HandleId :=
  ((frames.flatMap (·.values) ++ children.flatMap (·.keys)).insertionSort (· ≤ ·)).dedup

def renderLocals (enc : Value → String) (locals : BTreeMap ℕ Value) : String :=
  joinWith "," (sortStrings (locals.toList.map fun p ↦ toString p.1 ++ "=" ++ enc p.2))

def renderHandles (k : Ranks) (handles : BTreeMap String HandleId) : String :=
  joinWith "," (sortStrings (handles.toList.map fun p ↦ p.1 ++ "->" ++ k.hname p.2))

def renderRet : Option RetAddr → String
  | some r => "ret(pc=" ++ toString r.pcNext ++ ",dst=" ++ r.dst.debug ++ ")"
  | none => "ret(none)"

def renderStack (k : Ranks) (stack : List FrameId) : String :=
  joinWith "," (stack.reverse.map k.fname)

def renderChildren (k : Ranks) (children : BTreeMap HandleId ThreadId) : String :=
  joinWith "," (sortStrings (children.toList.map fun p ↦ k.hname p.1 ++ "->" ++ k.tname p.2))

def renderScopeOf (k : Ranks) : Option ScopeId → String
  | some s => k.sname s
  | none => "-"

def renderRemaining (k : Ranks) (remaining : BTreeSet ThreadId) : String :=
  joinWith "," (sortStrings (remaining.toList.map k.tname))

end Rendering

namespace MachineState

def ranks (σ : MachineState) : Ranks where
  threads := σ.threads.keys
  frames := σ.store.frames.keys
  scopes := σ.scopes.keys
  handles := handleIds (σ.store.frames.values.map (·.handles))
    (σ.threads.values.map (·.handleChildren))

variable (k : Ranks) (enc : Value → String)

def renderMutex : MutexState → String
  | .free => "free"
  | .held t => "held(" ++ k.tname t ++ ")"

def renderPending (p : PendingSend) : String := k.tname p.thread ++ ":" ++ enc p.value

/-- The queued values are rendered by `canonical`, whatever the encoding. -/
def renderChannel (p : ResourceId × ChannelState) : String :=
  "  chan r" ++ toString p.1 ++ " buf=[" ++ joinWith "," (p.2.buffer.map Value.canonical) ++
    "] send=[" ++ joinWith "," (p.2.pendingSend.map (renderPending k enc)) ++ "] recv=[" ++
    joinWith "," (p.2.pendingRecv.map k.tname) ++ "]\n"

def renderWaiter (w : ThreadId × ResourceId) : String := k.tname w.1 ++ ":" ++ toString w.2

def renderFrame (p : FrameId × Frame) : String :=
  "  frame " ++ k.fname p.1 ++ " func=f" ++ toString p.2.function ++ " pc=" ++ toString p.2.pc ++
    " locals=\x7b" ++ renderLocals enc p.2.locals ++ "\x7d handles=\x7b" ++
    renderHandles k p.2.handles ++ "\x7d " ++ renderRet p.2.ret ++ "\n"

def blockReasonText : BlockReason → String
  | .lock r => "lock:" ++ toString r
  | .channelSend r => "send:" ++ toString r
  | .channelRecv r => "recv:" ++ toString r
  | .condvar cv lk => "condvar:" ++ toString cv ++ ":" ++ toString lk
  | .semaphore r => "sem:" ++ toString r
  | .join h => "join:" ++ k.hname h
  | .scope s => "scope:" ++ k.sname s

def renderStatus : ThreadStatus → String
  | .runnable => "run"
  | .finished => "done"
  | .blocked b => "blocked:" ++ blockReasonText k b

def renderThread (p : ThreadId × ThreadState) : String :=
  "  " ++ k.tname p.1 ++ " status=" ++ renderStatus k p.2.status ++ " stack=[" ++
    renderStack k p.2.stack ++ "] children=[" ++ renderChildren k p.2.handleChildren ++
    "] scope=" ++ renderScopeOf k p.2.parentScope ++ "\n"

def renderSemQueue (p : ResourceId × List (ThreadId × ℤ)) : String :=
  "  semq r" ++ toString p.1 ++ "=[" ++
    joinWith "," (p.2.map fun w ↦ k.tname w.1 ++ ":" ++ toString w.2) ++ "]\n"

def renderScope (sc : ScopeState) : String :=
  "  scope " ++ k.sname sc.id ++ " owner=" ++ k.tname sc.owner ++ " frame=" ++
    k.fname sc.ownerFrame ++ " remaining=[" ++ renderRemaining k sc.remaining ++ "]\n"

def concat (xs : List String) : String := xs.foldr (· ++ ·) ""

/-- The complete state as text, with the given names and value encoding. -/
def renderWith (σ : MachineState) : String :=
  "STORE\n" ++
  concat (σ.store.vars.toList.map fun p ↦
    "  var r" ++ toString p.1 ++ "=" ++ enc p.2 ++ "\n") ++
  concat (σ.store.atomics.toList.map fun p ↦
    "  atomic r" ++ toString p.1 ++ "=" ++ enc p.2 ++ "\n") ++
  concat (σ.store.mutexes.toList.map fun p ↦
    "  mutex r" ++ toString p.1 ++ "=" ++ renderMutex k p.2 ++ "\n") ++
  concat (σ.store.semaphores.toList.map fun p ↦
    "  sem r" ++ toString p.1 ++ "=" ++ toString p.2 ++ "\n") ++
  concat (σ.store.channels.toList.map (renderChannel k enc)) ++
  concat (σ.store.condvars.toList.map fun p ↦
    "  condvar r" ++ toString p.1 ++ " waiters=[" ++
      joinWith "," (p.2.waiters.map (renderWaiter k)) ++ "]\n") ++
  concat (σ.store.frames.toList.map (renderFrame k enc)) ++
  "THREADS\n" ++
  concat (σ.threads.toList.map (renderThread k)) ++
  concat (σ.semWaiters.toList.map (renderSemQueue k)) ++
  concat (σ.scopes.values.map (renderScope k)) ++
  "COMPLETED funcs=" ++ debugCounts σ.completedFunctions ++ " scopes=" ++
    debugStmts σ.completedScopes ++ "\n" ++
  "REACHED " ++ debugStmts σ.reached ++ "\n"

def renderState (σ : MachineState) (enc : Value → String) : String := renderWith σ.ranks enc σ

def stateKey (σ : MachineState) : String := renderState σ Value.key

end MachineState

namespace Engine

variable (E : Engine)

/-- A semaphore counts as held while permits are below their initial count. -/
def threadHolds (σ : MachineState) (tid : ThreadId) (r : ResourceId) : Bool :=
  match (E.program.resource r).kind with
  | .mutex => σ.store.mutexes[r]? = some (.held tid)
  | .semaphore => σ.store.semaphores[r]?.getD 0 < (E.program.resource r).permits
  | _ => false

/-- Some thread executes `func` and holds all the resources. -/
def someHoldsAll (σ : MachineState) (func : FunctionId) (rs : List ResourceId) : Bool :=
  σ.threads.toList.any fun p ↦
    (p.2.stack.any fun fid ↦ (σ.store.frames[fid]?).map (·.function) = some func) &&
      rs.all (E.threadHolds σ p.2.id)

variable [FloatArith]

mutual

def satisfied (σ : MachineState) : Predicate → Bool
  | .true => true
  | .false => false
  | .varEq r v => σ.store.readShared r = some v
  | .varCmp r op v => ((σ.store.readShared r).bind (compareValues op · v)).getD false
  | .functionCompleted f => 1 ≤ σ.completedFunctions[f]?.getD 0
  | .functionCompletedAtLeast f n => n ≤ σ.completedFunctions[f]?.getD 0
  | .scopeCompleted f sid => σ.completedScopes.contains (f, sid)
  | .statementReached f sid => σ.reached.contains (f, sid)
  | .mutexFree r => σ.store.mutexes[r]? = some .free
  | .mutexHeld r => match σ.store.mutexes[r]? with
      | some (.held _) => true
      | _ => false
  | .channelEmpty r => match σ.store.channels[r]? with
      | some c => c.buffer.isEmpty && c.pendingSend.isEmpty
      | none => true
  | .channelAtLeast r len => match σ.store.channels[r]? with
      | some c => len ≤ c.buffer.length
      | none => false
  | .holdsAll f rs => E.someHoldsAll σ f rs
  | .mutexExclusive r => match (E.program.resource r).kind with
      | .mutex => true
      | .semaphore => 0 ≤ σ.store.semaphores[r]?.getD 0
      | _ => false
  | .neverHoldsAll f rs => !E.someHoldsAll σ f rs
  | .not p => !satisfied σ p
  | .and ps => satisfiedAll σ ps
  | .or ps => satisfiedAny σ ps

def satisfiedAll (σ : MachineState) : List Predicate → Bool
  | [] => true
  | p :: ps => satisfied σ p && satisfiedAll σ ps

def satisfiedAny (σ : MachineState) : List Predicate → Bool
  | [] => false
  | p :: ps => satisfied σ p || satisfiedAny σ ps

end

/-- The interpreter as a transition system. -/
def interpreter : TransitionSystem MachineState where
  initial := E.initial
  successors := E.successors
  isFinished := isFinished
  satisfied := E.satisfied
  stateKey := MachineState.stateKey

end Engine

end ConcIR
