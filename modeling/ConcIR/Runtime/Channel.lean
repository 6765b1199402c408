import Mathlib.Data.List.Nodup
import Mathlib.Data.List.Count
import ConcIR.Interp.Exec

/-!
# The channel of the generated runtime

Each critical section, from taking the buffer lock to releasing it or waiting, is one
step. A thread inside a wait is in the wait set of the condition variable until it is
woken, and then continues with the test of the loop the wait stands in.
-/

namespace ConcIR

namespace Runtime

inductive ChannelOp (T : Type)
  | send (v : T)
  | recv
deriving DecidableEq

/-- Where a thread takes the buffer lock: on entry, or again after one of the waits. -/
inductive Point
  | entry
  | full
  | drain
  | empty
deriving DecidableEq

structure ChannelThread (T : Type) where
  ops : List (ChannelOp T)
  point : Point
deriving DecidableEq

structure Channel (T : Type) where
  buffer : List T
  sendCv : List ℕ
  recvCv : List ℕ
  threads : List (ChannelThread T)
deriving DecidableEq

inductive Event (T : Type)
  | wait
  | pushBack (v : T)
  | popFront (v : T)
  | ret
deriving DecidableEq

variable {T : Type}

namespace Channel

def new (programs : List (List (ChannelOp T))) : Channel T :=
  ⟨[], [], [], programs.map fun ops ↦ ⟨ops, .entry⟩⟩

/-- Wake one waiter; every one of them is a possible choice. -/
def notifyOne (ws : List ℕ) : List (List ℕ) :=
  if ws = [] then [[]] else ws.map fun w ↦ ws.erase w

def setThread (s : Channel T) (i : ℕ) (t : ChannelThread T) : Channel T :=
  { s with threads := s.threads.set i t }

/-- The operation returns. -/
def leave (s : Channel T) (i : ℕ) (t : ChannelThread T) : Channel T :=
  s.setThread i ⟨t.ops.tail, .entry⟩

def waitSend (s : Channel T) (i : ℕ) (t : ChannelThread T) (p : Point) : Channel T :=
  { s with sendCv := s.sendCv ++ [i] }.setThread i ⟨t.ops, p⟩

def waitRecv (s : Channel T) (i : ℕ) (t : ChannelThread T) : Channel T :=
  { s with recvCv := s.recvCv ++ [i] }.setThread i ⟨t.ops, .empty⟩

/-- The second loop of a send, which is only reached at capacity 0. -/
def drainLoop (s : Channel T) (i : ℕ) (t : ChannelThread T) : Event T × Channel T :=
  if s.buffer = [] then (.ret, s.leave i t) else (.wait, s.waitSend i t .drain)

def stepSend (cap : ℕ) (s : Channel T) (i : ℕ) (t : ChannelThread T) (v : T) :
    List (Event T × Channel T) :=
  if cap ≠ 0 ∧ cap ≤ s.buffer.length then [(.wait, s.waitSend i t .full)]
  else (notifyOne s.recvCv).map fun ws ↦
    let s := { s with buffer := s.buffer ++ [v], recvCv := ws }
    (.pushBack v, if cap = 0 then (s.drainLoop i t).2 else s.leave i t)

def stepRecv (s : Channel T) (i : ℕ) (t : ChannelThread T) : List (Event T × Channel T) :=
  match s.buffer with
  | [] => [(.wait, s.waitRecv i t)]
  | v :: rest => (notifyOne s.sendCv).map fun ws ↦
      (.popFront v, { s with buffer := rest, sendCv := ws }.leave i t)

/-- What a thread can do next, with the state after it. -/
def steps (cap : ℕ) (s : Channel T) (i : ℕ) : List (Event T × Channel T) :=
  if i ∈ s.sendCv ∨ i ∈ s.recvCv then []
  else
    match s.threads[i]? with
    | none => []
    | some t =>
        match t.ops with
        | [] => []
        | .send v :: _ => if t.point = .drain then [s.drainLoop i t] else s.stepSend cap i t v
        | .recv :: _ => s.stepRecv i t

def Quiescent (cap : ℕ) (s : Channel T) : Prop := ∀ i, s.steps cap i = []

end Channel

structure ChannelStep (T : Type) where
  before : Channel T
  thread : ℕ
  event : Event T

/-- A woken send at capacity 0 finds a value in the buffer and waits again. -/
def ChannelStep.WaitsAgain (e : ChannelStep T) : Prop :=
  (e.before.threads[e.thread]?).map (·.point) = some .drain ∧ e.before.buffer ≠ []

/-- The runs of the threads on a channel. -/
inductive ChannelRun (cap : ℕ) (programs : List (List (ChannelOp T))) :
    List (ChannelStep T) → Channel T → Prop
  | start : ChannelRun cap programs [] (.new programs)
  | step {es : List (ChannelStep T)} {s s' : Channel T} {i : ℕ} {ev : Event T} :
      ChannelRun cap programs es s → (ev, s') ∈ s.steps cap i →
      ChannelRun cap programs (es ++ [⟨s, i, ev⟩]) s'

section Histories

/-- The values put into the buffer, each with the thread that sent it. -/
def enqueued (es : List (ChannelStep T)) : List (ℕ × T) :=
  es.filterMap fun e ↦
    match e.event with
    | .pushBack v => some (e.thread, v)
    | _ => none

def received (es : List (ChannelStep T)) : List T :=
  es.filterMap fun e ↦
    match e.event with
    | .popFront v => some v
    | _ => none

/-- The value a thread last put into the buffer has been received. -/
def Delivered (es : List (ChannelStep T)) (i : ℕ) : Prop :=
  ∃ pre v post, enqueued es = pre ++ (i, v) :: post ∧ (∀ w, (i, w) ∉ post) ∧
    pre.length < (received es).length

/-- What was put into the buffer and not received. -/
def awaiting (es : List (ChannelStep T)) : List (ℕ × T) :=
  (enqueued es).drop (received es).length

end Histories

section Interpreter

/-- The value a thread sends. -/
def Channel.sending (s : Channel T) (i : ℕ) : Option T :=
  match s.threads[i]? with
  | some ⟨.send v :: _, _⟩ => some v
  | _ => none

/-- The interpreter's channel with the same values and the same threads waiting. At
capacity 0 a value that was not received is with its sender. -/
def Channel.model (cap : ℕ) (enc : T → Value) (es : List (ChannelStep T)) (s : Channel T) :
    ChannelState :=
  { buffer := if cap = 0 then [] else s.buffer.map enc
    pendingSend :=
      if cap = 0 then (awaiting es).map fun p ↦ ⟨p.1, enc p.2⟩
      else s.sendCv.filterMap fun i ↦ (s.sending i).map fun v ↦ ⟨i, enc v⟩
    pendingRecv := s.recvCv }

/-- An interpreter state in which a channel of this capacity is as in the runtime. -/
structure Mirrors (cap : ℕ) (enc : T → Value) (es : List (ChannelStep T)) (s : Channel T)
    (E : Engine) (c : ResourceId) (σ : MachineState) : Prop where
  capacity : (E.program.resource c).capacity = cap
  cell : σ.store.channels[c]? = some (s.model cap enc es)

end Interpreter

/-- What the runtime's channel has to satisfy after a run. -/
structure Agrees (cap : ℕ) (enc : T → Value) (es : List (ChannelStep T)) (s : Channel T) :
    Prop where
  /-- Values are received in the order they were enqueued. -/
  fifo : (enqueued es).map (·.2) = received es ++ s.buffer
  /-- A send at capacity 0 returns only after its own value was received. -/
  returns : ∀ es₁ e es₂, es = es₁ ++ e :: es₂ → e.event = .ret → Delivered es₁ e.thread
  delivered : s.Quiescent cap → cap = 0 → ∀ i ∈ s.sendCv, ¬ Delivered es i
  /-- The interpreter would not let a blocked operation complete either. -/
  sends : s.Quiescent cap → ∀ E c σ, Mirrors cap enc es s E c σ → ∀ i ∈ s.sendCv, ∀ f fr,
    E.resumeSend σ i f fr c = .ok .empty
  recvs : s.Quiescent cap → ∀ E c σ, Mirrors cap enc es s E c σ → ∀ i ∈ s.recvCv, ∀ f fr,
    E.resumeRecv σ i f fr c = .ok .empty

end Runtime

end ConcIR
