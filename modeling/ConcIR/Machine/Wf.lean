import ConcIR.Machine.Views

/-!
# Well-formed machine states

The facts about threads, activations, wait registrations, handles and scopes that
every step keeps, in groups that are preserved separately.
-/

namespace ConcIR

/-- The part of an activation that only calls and returns change. -/
def Frame.skel (fr : Frame) : Frame := { fr with pc := 0, locals := ∅, handles := ∅ }

/-- The part of a thread that blocking, waking and handle bindings leave alone. -/
def ThreadState.skel (t : ThreadState) : ThreadState :=
  { t with
    status := if t.status = .finished then .finished else .runnable
    handleChildren := ∅ }

/-- `fr` was called by the activation `caller`, which has code to go on with. -/
def Calls (P : SemProgram) (σ : MachineState) (fid caller : FrameId) : Prop :=
  ∃ fr fc ret, σ.HasFrame fid fr ∧ σ.HasFrame caller fc ∧
    fr.ret = some ret ∧ ret.pcNext ≤ (P.function fc.function).body.length ∧
      dstOk P.resources ret.dst = true

/-- Threads, stacks and activations fit together. -/
structure Stacks (P : SemProgram) (σ : MachineState) : Prop where
  thread_id : ∀ x t, σ.HasThread x t → t.id = x ∧ x < σ.alloc.nextThread
  frame_id : ∀ f fr, σ.HasFrame f fr → fr.id = f ∧ f < σ.alloc.nextFrame
  function_lt : ∀ f fr, σ.HasFrame f fr → fr.function < P.functions.length
  stack_frame : ∀ x t f, σ.HasThread x t → f ∈ t.stack → σ.store.frames.contains f = true
  frame_owner : ∀ f fr, σ.HasFrame f fr → ∃ x t, σ.HasThread x t ∧ f ∈ t.stack
  nodup : ∀ x t, σ.HasThread x t → t.stack.Nodup
  disjoint : ∀ x t y u f, σ.HasThread x t → σ.HasThread y u →
    f ∈ t.stack → f ∈ u.stack → x = y
  finished_stack : ∀ x t, σ.HasThread x t → (t.status = .finished ↔ t.stack = [])
  finished_set : ∀ x, x ∈ σ.finished ↔ σ.status x = some .finished
  bottom : ∀ x t f, σ.HasThread x t → t.stack.getLast? = some f →
    ∃ fr, σ.HasFrame f fr ∧ fr.function = t.entryFunction
  chain : ∀ x t, σ.HasThread x t → t.stack.IsChain (Calls P σ)

/-- Reasons that come with an entry in a table of waiting threads. -/
def BlockReason.tabled : BlockReason → Bool
  | .lock _ | .join _ => false
  | _ => true

/-- Thread `x` is entered in the table that belongs to a block reason. -/
def MachineState.registered (σ : MachineState) (x : ThreadId) : BlockReason → Prop
  | .channelSend c => ∃ p ∈ σ.sends c, p.thread = x
  | .channelRecv c => x ∈ σ.recvs c
  | .condvar cv lk => (x, lk) ∈ σ.waiters cv
  | .semaphore r => ∃ n, (x, n) ∈ σ.semQueue r
  | .scope s => ∃ sc, σ.HasScope s sc ∧ sc.owner = x
  | .lock _ | .join _ => False

/-- The tables name the blocked threads, each once. -/
structure Regs (σ : MachineState) : Prop where
  iff : ∀ x r, r.tabled = true → (σ.registered x r ↔ σ.status x = some (.blocked r))
  sends_nodup : ∀ c, ((σ.sends c).map (·.thread)).Nodup
  recvs_nodup : ∀ c, (σ.recvs c).Nodup
  waiters_nodup : ∀ cv, (σ.waiters cv).Nodup
  queue_nodup : ∀ r, ((σ.semQueue r).map Prod.fst).Nodup

/-- The statement a thread stands at is one that blocks for the reason. -/
def Waits (σ : MachineState) (x : ThreadId) (fr : Frame) : BlockReason → SemOp → Prop
  | .lock r, op => op = .mutexLock r ∨ ∃ cv, op = .condvarWait cv r
  | .channelSend c, op => ∃ e, op = .channelSend c e
  | .channelRecv c, op => ∃ dst, op = .channelRecv c dst
  | .condvar cv lk, op => op = .condvarWait cv lk
  | .semaphore r, op => ∃ n, op = .semaphoreAcquire r n ∧ (x, n) ∈ σ.semQueue r
  | .join h, op => ∃ name, op = .join name ∧ fr.HasHandle name h
  | .scope _, op => ∃ funcs, op = .scope funcs

/-- Program counters stay inside the code, and blocked threads stand at a statement
that blocks for their reason. -/
structure Code (P : SemProgram) (σ : MachineState) : Prop where
  pc_le : ∀ f fr, σ.HasFrame f fr → fr.pc ≤ (P.function fr.function).body.length
  blocked : ∀ x t r, σ.HasThread x t → t.status = .blocked r →
    ∃ f fr op, t.stack.head? = some f ∧ σ.HasFrame f fr ∧
      P.opAt fr.function fr.pc = some op ∧ Waits σ x fr r op

/-- Handle names lead to children, and no child is named twice. -/
structure Handles (σ : MachineState) : Prop where
  bound : ∀ x t f fr name h, σ.HasThread x t → f ∈ t.stack →
    σ.HasFrame f fr → fr.HasHandle name h →
      ∃ c, t.HasChild h c
  child : ∀ x t h c, σ.HasThread x t → t.HasChild h c →
    h < σ.alloc.nextHandle ∧ ∃ u, σ.HasThread c u ∧ u.parentScope = none
  child_inj : ∀ x t h y u k c, σ.HasThread x t → t.HasChild h c →
    σ.HasThread y u → u.HasChild k c → x = y ∧ h = k
  name_inj : ∀ f fr n g gr m h, σ.HasFrame f fr → fr.HasHandle n h →
    σ.HasFrame g gr → gr.HasHandle m h → f = g ∧ n = m
  fresh : ∀ f fr n h, σ.HasFrame f fr → fr.HasHandle n h →
    h < σ.alloc.nextHandle

/-- Scopes wait for exactly their unfinished members. -/
structure Scopes (σ : MachineState) : Prop where
  scope_id : ∀ s sc, σ.HasScope s sc → sc.id = s ∧ s < σ.alloc.nextScope
  parent_lt : ∀ x t s, σ.HasThread x t → t.parentScope = some s → s < σ.alloc.nextScope
  owner : ∀ s sc, σ.HasScope s sc → ∃ t, σ.HasThread sc.owner t ∧
    t.stack.head? = some sc.ownerFrame ∧ t.parentScope ≠ some s
  remaining : ∀ s sc x, σ.HasScope s sc → (x ∈ sc.remaining ↔
    ∃ t, σ.HasThread x t ∧ t.parentScope = some s ∧ t.status ≠ .finished)

/-- The store has a cell for each resource of its kind and no other, and channels
respect their capacity. -/
structure Stores (P : SemProgram) (σ : MachineState) : Prop where
  vars : ∀ r, σ.store.vars.contains r = hasKind P.resources r .var
  atomics : ∀ r, σ.store.atomics.contains r = hasKind P.resources r .atomic
  mutexes : ∀ r, σ.store.mutexes.contains r = hasKind P.resources r .mutex
  semaphores : ∀ r, σ.store.semaphores.contains r = hasKind P.resources r .semaphore
  channels : ∀ r, σ.store.channels.contains r = hasKind P.resources r .channel
  condvars : ∀ r, σ.store.condvars.contains r = hasKind P.resources r .condvar
  capacity : ∀ c, (σ.buffer c).length ≤ (P.resource c).capacity
  rendezvous : ∀ c, (P.resource c).capacity = 0 → σ.sends c = [] ∨ σ.recvs c = []
  payload : ∀ c p ty, p ∈ σ.sends c → (P.resource c).ty = some ty → withinType ty p.value = true

structure Wf (P : SemProgram) (σ : MachineState) : Prop where
  stack : Stacks P σ
  regs : Regs σ
  code : Code P σ
  handles : Handles σ
  scopes : Scopes σ
  stores : Stores P σ

/-- What also holds between the steps of a run: nobody waits for what is over, and
nobody runs for a scope that is. -/
structure Live (σ : MachineState) : Prop where
  scope : ∀ s sc, σ.HasScope s sc → sc.remaining ≠ ∅
  join : ∀ x t h c, σ.HasThread x t → t.status = .blocked (.join h) →
    t.HasChild h c → σ.status c ≠ some .finished
  parent : ∀ x t s, σ.HasThread x t → t.parentScope = some s → t.status ≠ .finished →
    ∃ sc, σ.HasScope s sc

end ConcIR
