import ConcIR.Interp.Observe
import ConcIR.Petri.Exec

/-!
# Observations of the net

The predicates a contract may ask about a marking, and the rendering that serves as
its key.
-/

namespace ConcIR

namespace Petri

section Rendering

def PlaceKey.debug : PlaceKey → String
  | .control f sid => s!"Control \x7b function: FunctionId({f}), sid: {sid} \x7d"
  | .var r => s!"Var(ResourceId({r}))"
  | .atomic r => s!"Atomic(ResourceId({r}))"
  | .mutex r => s!"Mutex(ResourceId({r}))"
  | .semaphore r => s!"Semaphore(ResourceId({r}))"
  | .channel r => s!"Channel(ResourceId({r}))"
  | .channelSend r => s!"ChannelSend(ResourceId({r}))"
  | .channelRecv r => s!"ChannelRecv(ResourceId({r}))"
  | .condvar r => s!"Condvar(ResourceId({r}))"
  | .lockWait r => s!"LockWait(ResourceId({r}))"
  | .semWait r => s!"SemWait(ResourceId({r}))"
  | .joinWait f sid => s!"JoinWait \x7b function: FunctionId({f}), sid: {sid} \x7d"
  | .scopeWait f sid => s!"ScopeWait \x7b function: FunctionId({f}), sid: {sid} \x7d"

variable (k : Ranks) (enc : Value → String)

def renderToken : NetToken → String
  | .control t f => "C(" ++ k.tname t ++ "," ++ k.fname f ++ ")"
  | .data v => "D(" ++ enc v ++ ")"
  | .mutex .free => "M(free)"
  | .mutex (.held t) => "M(held:" ++ k.tname t ++ ")"
  | .lockWait t _ => "L(" ++ k.tname t ++ ")"
  | .condvarWait t _ lock => "CV(" ++ k.tname t ++ ",r" ++ toString lock ++ ")"
  | .sendWait t _ value => "S(" ++ k.tname t ++ "," ++ enc value ++ ")"
  | .recvWait t _ => "R(" ++ k.tname t ++ ")"
  | .semWait t _ count => "Q(" ++ k.tname t ++ "," ++ toString count ++ ")"
  | .joinWait t _ => "J(" ++ k.tname t ++ ")"
  | .scopeWait t _ => "W(" ++ k.tname t ++ ")"

/-- A place with its tokens; empty places are left out. -/
def renderPlace (m : NetState) (p : PlaceKey) : String :=
  if m.marking p = [] then ""
  else "P" ++ p.debug ++ "=[" ++ joinWith "," ((m.marking p).map (renderToken k enc)) ++ "]\n"

def renderFrame (p : FrameId × Frame) : String :=
  "frame " ++ k.fname p.1 ++ " fn=" ++ toString p.2.function ++ " pc=" ++ toString p.2.pc ++
    " locals=\x7b" ++ renderLocals enc p.2.locals ++ "\x7d handles=\x7b" ++
    renderHandles k p.2.handles ++ "\x7d " ++ renderRet p.2.ret ++ "\n"

def renderThread (m : NetState) (p : ThreadId × NetThread) : String :=
  "thread " ++ k.tname p.1 ++ " entry=f" ++ toString p.2.entryFunction ++ " stack=[" ++
    renderStack k p.2.stack ++ "] finished=" ++
    (if p.1 ∈ m.store.finished then "true" else "false") ++ " children=[" ++
    renderChildren k p.2.handleChildren ++ "] scope=" ++ renderScopeOf k p.2.parentScope ++ "\n"

def renderScope (sc : NetScope) : String :=
  "scope " ++ k.sname sc.id ++ " owner=" ++ k.tname sc.owner ++ " frame=" ++
    k.fname sc.ownerFrame ++ " sid=" ++ toString sc.ownerSid ++ " remaining=[" ++
    renderRemaining k sc.remaining ++ "]\n"

def ranks (m : NetState) : Ranks where
  threads := m.store.threads.keys
  frames := m.store.frames.keys
  scopes := m.store.scopes.keys
  handles := handleIds (m.store.frames.values.map (·.handles))
    (m.store.threads.values.map (·.handleChildren))

def renderWith (E : Engine) (m : NetState) : String :=
  MachineState.concat ((places E.program).map (renderPlace k enc m)) ++
  MachineState.concat (m.store.frames.toList.map (renderFrame k enc)) ++
  MachineState.concat (m.store.threads.toList.map (renderThread k m)) ++
  MachineState.concat (m.store.scopes.values.map (renderScope k)) ++
  "completed fn=" ++ debugCounts m.store.completedFunctions ++ " scopes=" ++
    debugStmts m.store.completedScopes ++ " reached=" ++ debugStmts m.store.reached ++ "\n"

def renderNet (E : Engine) (m : NetState) : String := renderWith (ranks m) enc E m

end Rendering

section Observe

variable (E : Engine)

/-- A semaphore counts as held while permits are below their initial count. -/
def netThreadHolds (m : NetState) (tid : ThreadId) (r : ResourceId) : Bool :=
  match (E.program.resource r).kind with
  | .mutex => hasPlace E (.mutex r) && .mutex (.held tid) ∈ m.marking (.mutex r)
  | .semaphore => hasPlace E (.semaphore r) && match m.readData (.semaphore r) with
      | some (.int n) => n < (E.program.resource r).permits
      | _ => false
  | _ => false

/-- Some thread executes `func` and holds all the resources. -/
def someHoldsAll (m : NetState) (func : FunctionId) (rs : List ResourceId) : Bool :=
  m.store.threads.toList.any fun p ↦
    (p.2.stack.any fun fid ↦ (m.store.frames[fid]?).map (·.function) = some func) &&
      rs.all (netThreadHolds E m p.1)

def readVar (m : NetState) (r : ResourceId) : Option Value :=
  if hasPlace E (.var r) then m.readData (.var r)
  else if hasPlace E (.atomic r) then m.readData (.atomic r)
  else none

def isFinished (m : NetState) : Bool := m.store.threads.toList.all fun p ↦ p.1 ∈ m.store.finished

variable [FloatArith]

mutual

def satisfied (m : NetState) : Predicate → Bool
  | .true => true
  | .false => false
  | .varEq r v => readVar E m r = some v
  | .varCmp r op v => ((readVar E m r).bind (compareValues op · v)).getD false
  | .functionCompleted f => 1 ≤ m.store.completedFunctions[f]?.getD 0
  | .functionCompletedAtLeast f n => n ≤ m.store.completedFunctions[f]?.getD 0
  | .scopeCompleted f sid => m.store.completedScopes.contains (f, sid)
  | .statementReached f sid => m.store.reached.contains (f, sid)
  | .mutexFree r => hasPlace E (.mutex r) && m.readMutex (.mutex r) = some .free
  | .mutexHeld r => hasPlace E (.mutex r) && match m.readMutex (.mutex r) with
      | some (.held _) => true
      | _ => false
  | .channelEmpty r =>
      if hasPlace E (.channel r) then
        match m.readData (.channel r) with
        | some v => v = .array []
        | none => true
      else true
  | .channelAtLeast r len => hasPlace E (.channel r) && match m.readData (.channel r) with
      | some (.array a) => len ≤ a.length
      | _ => false
  | .holdsAll f rs => someHoldsAll E m f rs
  | .mutexExclusive r => match (E.program.resource r).kind with
      | .mutex => true
      | .semaphore =>
          if hasPlace E (.semaphore r) then
            match m.readData (.semaphore r) with
            | some (.int n) => 0 ≤ n
            | some _ => false
            | none => true
          else true
      | _ => false
  | .neverHoldsAll f rs => !someHoldsAll E m f rs
  | .not p => !satisfied m p
  | .and ps => satisfiedAll m ps
  | .or ps => satisfiedAny m ps

def satisfiedAll (m : NetState) : List Predicate → Bool
  | [] => true
  | p :: ps => satisfied m p && satisfiedAll m ps

def satisfiedAny (m : NetState) : List Predicate → Bool
  | [] => false
  | p :: ps => satisfied m p || satisfiedAny m ps

end

end Observe

end Petri

/-- The net executor as a transition system. -/
def Engine.petri [FloatArith] (E : Engine) : TransitionSystem Petri.NetState where
  initial := Petri.initial E
  successors := Petri.successors E
  isFinished := Petri.isFinished
  satisfied := Petri.satisfied E
  stateKey := Petri.renderNet Value.key E

end ConcIR
