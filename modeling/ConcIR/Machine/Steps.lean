import ConcIR.Interp.Exec
import ConcIR.Machine.Threads

/-!
# Elementary steps of a machine state

What a thread can do to the machine, as relations: the steps of both engines are
instances. A step of a runnable thread starts from the state that has its
statement marked as reached.
-/

namespace ConcIR

/-- A target that a `switch` may continue at: a case with a matching label, or the
default when there is none. -/
inductive SwitchTo (cases : BTreeMap String ℕ) (default : ℕ) (v : Value) : ℕ → Prop
  | case (label : String) (target : ℕ) (h : cases[label]? = some target)
      (hv : valueMatchesLabel v label = true) : SwitchTo cases default v target
  | default (h : ∀ label ∈ cases, valueMatchesLabel v label = false) :
      SwitchTo cases default v default

section Relations

variable [FloatArith] (E : Engine)

/-- Statements that only the executing thread takes part in, and that end. -/
inductive Local (σ : MachineState) (x : ThreadId) (f : FrameId) (fr : Frame) :
    SemOp → MachineState → Prop
  | nop : Local σ x f fr .nop (σ.advance x)
  | assign (target e v) (he : E.evalIn σ fr e = .ok v) (hok : E.assignOk fr target v = true) :
      Local σ x f fr (.assignLocal target e) ((σ.writeDst f target v).advance x)
  | read (r dst v σ₁) (hv : σ.store.readShared r = some v)
      (hw : E.tryWriteDst σ f (dst.getD .discard) v = some σ₁) :
      Local σ x f fr (.readShared r dst) (σ₁.advance x)
  | write (r e v) (he : E.evalIn σ fr e = .ok v) (hok : E.resourceTypeOk r v = true) :
      Local σ x f fr (.writeShared r e) ((σ.setVar r v).advance x)
  | load (r dst v σ₁) (hv : σ.store.atomics[r]? = some v)
      (hw : E.tryWriteDst σ f dst v = some σ₁) :
      Local σ x f fr (.atomicLoad r dst) (σ₁.advance x)
  | store (r e v) (he : E.evalIn σ fr e = .ok v) (hok : E.resourceTypeOk r v = true) :
      Local σ x f fr (.atomicStore r e) ((σ.setAtomic r v).advance x)
  | cas (r e d dst exp des old σ₁) (he : E.evalIn σ fr e = .ok exp)
      (hd : E.evalIn σ fr d = .ok des) (hok : E.resourceTypeOk r des = true)
      (hv : σ.store.atomics[r]? = some old) (hw : E.tryWriteDst σ f dst old = some σ₁) :
      Local σ x f fr (.atomicCas r e d dst)
        ((if old = exp then σ₁.setAtomic r des else σ₁).advance x)
  | lock (r) (hm : σ.store.mutexes[r]? = some .free) :
      Local σ x f fr (.mutexLock r) ((σ.setMutex r (.held x)).advance x)
  | unlock (r) (hm : σ.store.mutexes[r]? = some (.held x)) :
      Local σ x f fr (.mutexUnlock r) ((σ.setMutex r .free).advance x)
  | send (c e v) (he : E.evalIn σ fr e = .ok v) (hok : E.resourceTypeOk c v = true)
      (hcap : (E.program.resource c).capacity ≠ 0)
      (hlt : (σ.buffer c).length < (E.program.resource c).capacity) :
      Local σ x f fr (.channelSend c e) ((σ.pushBuffer c v).advance x)
  | recv (c dst v vs σ₁) (hcap : (E.program.resource c).capacity ≠ 0)
      (hb : σ.buffer c = v :: vs) (hw : E.tryWriteDst σ f dst v = some σ₁) :
      Local σ x f fr (.channelRecv c dst) ((σ₁.popBuffer c).advance x)
  | notifyMiss (cv) (hw : σ.waiters cv = []) :
      Local σ x f fr (.condvarNotify cv) (σ.advance x)
  | acquire (r n k) (hn : 0 < n) (hk : σ.store.semaphores[r]? = some k) (hle : n ≤ k) :
      Local σ x f fr (.semaphoreAcquire r n) ((σ.setSemaphore r (k - n)).advance x)
  | release (r n k m) (hn : 0 < n) (hk : σ.store.semaphores[r]? = some k)
      (hm : checkedI64 (k + n) = some m) :
      Local σ x f fr (.semaphoreRelease r n) ((σ.setSemaphore r m).advance x)
  | skipCall (g args dst) (hg : (E.function g).isTransparentNobody = true) :
      Local σ x f fr (.call g args dst) ((E.recordCompletion σ g).advance x)
  | goto (target) : Local σ x f fr (.goto target) (σ.setPc f target)
  | branch (c t e b) (hc : E.evalIn σ fr c = .ok (.bool b)) :
      Local σ x f fr (.branch c t e) (σ.setPc f (if b then t else e))
  | switch (e cases default v target) (he : E.evalIn σ fr e = .ok v)
      (ht : SwitchTo cases default v target) :
      Local σ x f fr (.switch e cases default) (σ.setPc f target)

/-- Statements that have to wait: the reason, and the state with the thread entered
in the table that belongs to it. -/
inductive Blocks (σ : MachineState) (x : ThreadId) (fr : Frame) :
    SemOp → BlockReason → MachineState → Prop
  | lock (r) (hm : σ.store.mutexes[r]? ≠ some .free) : Blocks σ x fr (.mutexLock r) (.lock r) σ
  | send (c e v) (he : E.evalIn σ fr e = .ok v) (hok : E.resourceTypeOk c v = true)
      (hr : (E.program.resource c).capacity = 0 → σ.recvs c = [])
      (hb : (E.program.resource c).capacity ≤ (σ.buffer c).length) :
      Blocks σ x fr (.channelSend c e) (.channelSend c) (σ.pushSend c ⟨x, v⟩)
  | recv (c dst) (hs : (E.program.resource c).capacity = 0 → σ.sends c = [])
      (hb : σ.buffer c = []) :
      Blocks σ x fr (.channelRecv c dst) (.channelRecv c) (σ.pushRecv c x)
  | wait (cv lk) (hm : σ.store.mutexes[lk]? = some (.held x)) :
      Blocks σ x fr (.condvarWait cv lk) (.condvar cv lk)
        ((σ.setMutex lk .free).modifyWaiters cv (· ++ [(x, lk)]))
  | acquire (r n k) (hn : 0 < n) (hk : σ.store.semaphores[r]? = some k) (hlt : k < n) :
      Blocks σ x fr (.semaphoreAcquire r n) (.semaphore r) (σ.pushSemWaiter r (x, n))
  | join (name h t c) (hh : fr.HasHandle name h) (ht : σ.HasThread x t) (hc : t.HasChild h c)
      (hf : c ∉ σ.finished) : Blocks σ x fr (.join name) (.join h) σ

/-- A blocked thread whose condition holds: the state with its entry removed and the
condition consumed. -/
inductive Resumes (σ : MachineState) (x : ThreadId) (f : FrameId) (fr : Frame) :
    BlockReason → MachineState → Prop
  | lock (r) (hm : σ.store.mutexes[r]? = some .free) :
      Resumes σ x f fr (.lock r) (σ.setMutex r (.held x))
  | semaphore (r n k) (hq : (x, n) ∈ σ.semQueue r) (hk : σ.store.semaphores[r]? = some k)
      (hle : n ≤ k) :
      Resumes σ x f fr (.semaphore r) ((σ.setSemaphore r (k - n)).dropSemWaiter r x)
  | send (c v) (hp : ⟨x, v⟩ ∈ σ.sends c)
      (hcap : (E.program.resource c).capacity ≠ 0)
      (hlt : (σ.buffer c).length < (E.program.resource c).capacity) :
      Resumes σ x f fr (.channelSend c) ((σ.dropSend c x).pushBuffer c v)
  | recv (c dst v vs σ₁) (hop : E.program.opAt fr.function fr.pc = some (.channelRecv c dst))
      (hcap : (E.program.resource c).capacity ≠ 0)
      (hb : σ.buffer c = v :: vs) (hw : E.tryWriteDst σ f dst v = some σ₁) :
      Resumes σ x f fr (.channelRecv c) ((σ₁.popBuffer c).dropRecv c x)

/-- Statements that complete together with a waiting thread `y`, whose destination
is in activation `g`. -/
inductive Pairs (σ : MachineState) (x : ThreadId) (f : FrameId) (fr : Frame) :
    SemOp → MachineState → Prop
  | send (c e v y u g gr dst σ₁) (he : E.evalIn σ fr e = .ok v)
      (hok : E.resourceTypeOk c v = true) (hcap : (E.program.resource c).capacity = 0)
      (hy : y ∈ σ.recvs c) (top : Top σ y u g gr)
      (hop : E.program.opAt gr.function gr.pc = some (.channelRecv c dst))
      (hw : E.tryWriteDst σ g dst v = some σ₁) :
      Pairs σ x f fr (.channelSend c e)
        ((Engine.complete (σ₁.dropRecv c y) y).advance x)
  | recv (c dst p σ₁) (hcap : (E.program.resource c).capacity = 0)
      (hp : p ∈ σ.sends c) (hw : E.tryWriteDst σ f dst p.value = some σ₁) :
      Pairs σ x f fr (.channelRecv c dst)
        ((Engine.complete (σ₁.dropSend c p.thread) p.thread).advance x)
  | notify (cv w) (hw : w ∈ σ.waiters cv) :
      Pairs σ x f fr (.condvarNotify cv)
        (((σ.modifyWaiters cv (·.filter (· ≠ w))).block w.1 (.lock w.2)).advance x)
  | notifyAll (cv) :
      Pairs σ x f fr (.condvarNotifyAll cv)
        (((σ.waiters cv).foldl (fun σ w ↦ σ.block w.1 (.lock w.2))
          (σ.modifyWaiters cv fun _ ↦ [])).advance x)

/-- Statements that create threads or activations, or reclaim threads. -/
inductive Creates (σ : MachineState) (x : ThreadId) (t : ThreadState) (f : FrameId)
    (fr : Frame) : SemOp → MachineState → Prop
  | call (g args dst values) (hd : t.stack.length < E.bounds.maxFramesPerThread)
      (ha : E.evalArgs σ fr args = .ok values)
      (hok : Engine.argsOk (E.function g) values = true) :
      Creates σ x t f fr (.call g args dst)
        (Engine.pushFrame σ x (E.callFrame σ fr g dst values))
  | spawn (g handle child σ₁) (hb : E.withinFunctionBound σ g = true)
      (hc : E.createThread σ g none = some (child, σ₁)) :
      Creates σ x t f fr (.spawn g handle) ((Engine.bindHandle σ₁ x f handle child).advance x)
  | scopeDone (gs σ₁) (hne : gs ≠ []) (hb : gs.all (E.withinFunctionBound σ) = true)
      (hc : E.createMembers σ.alloc.nextScope
        { σ with alloc := { σ.alloc with nextScope := σ.alloc.nextScope + 1 } } ∅ gs =
          some (σ₁, ∅)) :
      Creates σ x t f fr (.scope gs) <| ({ σ₁ with
        completedScopes := σ₁.completedScopes.insert (fr.function, fr.pc) }).advance x
  | scope (gs σ₁ remaining) (hne : gs ≠ []) (hb : gs.all (E.withinFunctionBound σ) = true)
      (hc : E.createMembers σ.alloc.nextScope
        { σ with alloc := { σ.alloc with nextScope := σ.alloc.nextScope + 1 } } ∅ gs =
          some (σ₁, remaining)) (hr : remaining ≠ ∅) :
      Creates σ x t f fr (.scope gs) <| ({ σ₁ with
        scopes := σ₁.scopes.insert σ.alloc.nextScope ⟨σ.alloc.nextScope, x, f, remaining⟩
        }).block x (.scope σ.alloc.nextScope)
  | join (name h c) (hh : fr.HasHandle name h) (hc : t.HasChild h c) (hf : c ∈ σ.finished) :
      Creates σ x t f fr (.join name) ((Engine.consumeJoin σ x f name h c).advance x)

/-- The value an explicit `return` hands back. -/
inductive Returned (σ : MachineState) (fr : Frame) : Option LExpr → Option Value → Prop
  | none : Returned σ fr none none
  | some (e v) (he : E.evalIn σ fr e = .ok v) : Returned σ fr (some e) (some v)

/-- A statement of a runnable thread, in the state that has it marked as reached. -/
inductive Executes (σ : MachineState) (x : ThreadId) (t : ThreadState) (f : FrameId)
    (fr : Frame) (op : SemOp) : MachineState → Prop
  | done {σ'} (h : Local E σ x f fr op σ') : Executes σ x t f fr op σ'
  | block {r σ'} (h : Blocks E σ x fr op r σ') : Executes σ x t f fr op (σ'.block x r)
  | pair {σ'} (h : Pairs E σ x f fr op σ') : Executes σ x t f fr op σ'
  | create {σ'} (h : Creates E σ x t f fr op σ') : Executes σ x t f fr op σ'
  | ret {e val σ'} (hop : op = .return e) (hv : Returned E σ fr e val)
      (h : E.applyReturn σ x f fr val = some σ') : Executes σ x t f fr op σ'

/-- A step of thread `x`. -/
inductive Fires (x : ThreadId) (σ : MachineState) : MachineState → Prop
  | exec {t f fr op σ'} (top : Top σ x t f fr) (hrun : t.status = .runnable)
      (hop : E.program.opAt fr.function fr.pc = some op)
      (h : Executes E (σ.markReached fr.function fr.pc) x t f fr op σ') : Fires x σ σ'
  | endOfBody {t f fr σ'} (top : Top σ x t f fr) (hrun : t.status = .runnable)
      (hop : E.program.opAt fr.function fr.pc = none)
      (h : E.applyReturn σ x f fr none = some σ') : Fires x σ σ'
  | resume {t f fr r σ'} (top : Top σ x t f fr) (hb : t.status = .blocked r)
      (h : Resumes E σ x f fr r σ') : Fires x σ (Engine.complete σ' x)

end Relations

end ConcIR
