import ConcIR.Control.Locks
import ConcIR.Machine.Runs
import ConcIR.Machine.Tables

/-!
# The control of the machine

What remains of a machine state without its data: the stacks, where the activations are, who
holds the mutexes and who waits for one. Every step of the machine is a sequence of control
steps.
-/

namespace ConcIR

open MachineState

/-- Where control can go from a statement. -/
def SemOp.Goes (pc : ℕ) : SemOp → ℕ → Prop
  | .goto target, n => n = target
  | .branch _ t e, n => n = t ∨ n = e
  | .switch _ cases default, n => n = default ∨ ∃ label : String, cases[label]? = some n
  | .return _, _ => False
  | .unsupported _, _ => False
  | _, n => n = pc + 1

/-- What a statement does to the control state; the end of a body is a return. -/
def SemOp.action : Option SemOp → Control.Action FunctionId ResourceId
  | none => .ret
  | some (.return _) => .ret
  | some (.mutexLock r) => .lock r
  | some (.mutexUnlock r) => .unlock r
  | some (.condvarWait _ lk) => .wait lk
  | some (.call g _ _) => .call g
  | some _ => .step

/-- The functions that a statement starts threads with. -/
def SemOp.Starts (fn : FunctionId) : SemOp → Prop
  | .spawn g _ => fn = g
  | .scope gs => fn ∈ gs
  | _ => False

/-- Threads start with the entry and with what is spawned. -/
def SemProgram.Starts (P : SemProgram) (fn : FunctionId) : Prop :=
  fn = P.entry ∨ ∃ g pc op, P.opAt g pc = some op ∧ op.Starts fn

def SemProgram.code (P : SemProgram) : Control.Code FunctionId ℕ ResourceId where
  entry _ := 0
  action fn pc := SemOp.action (P.opAt fn pc)
  next fn pc n := ∃ op, P.opAt fn pc = some op ∧ op.Goes pc n
  starts fn := P.Starts fn

def Frame.at (fr : Frame) : Control.Place FunctionId ℕ :=
  ⟨fr.function, fr.pc, fr.ret.map (·.pcNext)⟩

def MutexState.owner : MutexState → Option ThreadId
  | .free => none
  | .held x => some x

/-- The mutex that a waiting thread needs before it goes on. -/
def ThreadStatus.needs : ThreadStatus → Option ResourceId
  | .blocked (.lock r) => some r
  | .blocked (.condvar _ lk) => some lk
  | _ => none

/-- The control state of a machine state. -/
def control (σ : MachineState) : Control.State ThreadId FrameId FunctionId ℕ ResourceId where
  stack y := (σ.threads[y]?.map (·.stack)).getD []
  place g := σ.store.frames[g]?.map Frame.at
  owner r := σ.store.mutexes[r]?.bind MutexState.owner
  waiting y := (σ.status y).bind ThreadStatus.needs

variable {E : Engine} {P : SemProgram} {σ σ' σ₁ : MachineState} {x y : ThreadId}
  {t u : ThreadState} {f g : FrameId} {fr gr : Frame} {op : SemOp}

section Updates

theorem control_congr (ht : ∀ y : ThreadId, σ'.threads[y]?.map (fun t ↦ (t.stack, t.status.needs)) =
      σ.threads[y]?.map fun t ↦ (t.stack, t.status.needs))
    (hf : ∀ g : FrameId, σ'.store.frames[g]?.map Frame.at = σ.store.frames[g]?.map Frame.at)
    (hm : σ'.store.mutexes = σ.store.mutexes) : control σ' = control σ := by
  have hstack : ∀ y : ThreadId, σ'.threads[y]?.map (·.stack) = σ.threads[y]?.map (·.stack) :=
    fun y ↦ by
      have h := congrArg (Option.map Prod.fst) (ht y)
      rwa [Option.map_map, Option.map_map] at h
  have hneeds : ∀ y, (σ'.status y).bind ThreadStatus.needs = (σ.status y).bind ThreadStatus.needs := by
    intro y
    have h := congrArg (Option.bind · Prod.snd) (ht y)
    simpa [status, Option.bind_map, Function.comp_def] using h
  ext1
  · funext y
    simp only [control, hstack]
  · funext g
    exact hf g
  · funext r
    simp only [control, hm]
  · funext y
    exact hneeds y

theorem control_of_eq (ht : σ'.threads = σ.threads) (hf : σ'.store.frames = σ.store.frames)
    (hm : σ'.store.mutexes = σ.store.mutexes) : control σ' = control σ :=
  control_congr (fun y ↦ by rw [ht]) (fun g ↦ by rw [hf]) hm

/-- Changes of an activation other than of its program counter do not show. -/
theorem control_modifyFrame (k : FrameId) {F : Frame → Frame} (hF : ∀ fr, (F fr).at = fr.at) :
    control (σ.modifyFrame k F) = control σ := by
  refine control_congr (fun _ ↦ rfl) (fun g ↦ ?_) rfl
  rw [getElem?_modifyFrame]
  split_ifs with hg
  · rw [Option.map_map]
    exact congrArg (fun G ↦ Option.map G _) (funext hF)
  · rfl

theorem control_modifyThread (y : ThreadId) {F : ThreadState → ThreadState}
    (hF : ∀ t, (F t).stack = t.stack ∧ (F t).status = t.status) :
    control (σ.modifyThread y F) = control σ := by
  refine control_congr (fun z ↦ ?_) (fun _ ↦ rfl) rfl
  rw [getElem?_modifyThread]
  split_ifs with hz
  · rw [Option.map_map]
    refine congrArg (fun G ↦ Option.map G _) (funext fun t ↦ ?_)
    rw [Function.comp_apply, (hF t).1, (hF t).2]
  · rfl

theorem control_writeDst (k : FrameId) (dst : SlotRef) (v : Value) :
    control (σ.writeDst k dst v) = control σ := by
  cases dst with
  | localSlot slot => exact control_modifyFrame k fun _ ↦ rfl
  | shared r =>
      have hstore : (σ.writeDst k (.shared r) v).store.frames = σ.store.frames ∧
          (σ.writeDst k (.shared r) v).store.mutexes = σ.store.mutexes := by
        rw [writeDst, Store.writeShared]
        split_ifs <;> exact ⟨rfl, rfl⟩
      exact control_of_eq rfl hstore.1 hstore.2
  | discard => rfl

theorem control_tryWriteDst {k : FrameId} {dst : SlotRef} {v : Value}
    (h : E.tryWriteDst σ k dst v = some σ₁) : control σ₁ = control σ := by
  rw [tryWriteDst_eq h]
  exact control_writeDst k dst v

theorem control_recordCompletion (σ : MachineState) (fn : FunctionId) :
    control (E.recordCompletion σ fn) = control σ := by
  obtain ⟨m, hm⟩ := recordCompletion_eq (E := E) σ fn
  rw [hm]
  exact control_of_eq rfl rfl rfl

theorem control_setMutex (r : ResourceId) (m : MutexState) :
    control (σ.setMutex r m) = (control σ).own r m.owner := by
  ext1
  · rfl
  · rfl
  · funext q
    rw [Control.State.own_owner]
    change (σ.store.mutexes.insert r m)[q]?.bind MutexState.owner = _
    rw [Std.ExtTreeMap.getElem?_insert]
    by_cases hq : q = r
    · rw [if_pos (Nat.compare_eq_eq.mpr hq.symm), if_pos hq]
      rfl
    · rw [if_neg (fun heq ↦ hq (Nat.compare_eq_eq.mp heq).symm), if_neg hq]
      rfl
  · rfl

theorem control_setStatus (hx : σ.HasThread x t) (st : ThreadStatus) :
    control (σ.setStatus x st) = (control σ).wait x st.needs := by
  ext1
  · funext y
    change ((σ.setStatus x st).threads[y]?.map (·.stack)).getD [] = _
    rw [setStatus, getElem?_modifyThread]
    split_ifs with hy
    · rw [Option.map_map]
      rfl
    · rfl
  · rfl
  · rfl
  · funext y
    rw [Control.State.wait_waiting]
    change ((σ.setStatus x st).status y).bind ThreadStatus.needs = _
    rw [status_setStatus]
    split_ifs with hy
    · rw [hy, status, show σ.threads[x]? = some t from hx]
      rfl
    · rfl

/-- Where a thread waits for the same mutex as before, nothing shows. -/
theorem control_setStatus_self (hx : σ.HasThread x t) {st : ThreadStatus}
    (h : st.needs = t.status.needs) : control (σ.setStatus x st) = control σ := by
  rw [control_setStatus hx]
  ext1
  · rfl
  · rfl
  · rfl
  · funext y
    rw [Control.State.wait_waiting]
    split_ifs with hy
    · rw [hy, h]
      change _ = (σ.status x).bind ThreadStatus.needs
      rw [status, show σ.threads[x]? = some t from hx]
      rfl
    · rfl

end Updates

section Tops

theorem Top.control (top : Top σ x t f fr) : Control.Top (control σ) x f fr.at where
  head := by
    change ((σ.threads[x]?.map (·.stack)).getD []).head? = some f
    rw [show σ.threads[x]? = some t from top.thread]
    exact top.head
  place := by
    change σ.store.frames[f]?.map Frame.at = some fr.at
    rw [show σ.store.frames[f]? = some fr from top.frame]
    rfl

theorem currentFrameId_eq (σ : MachineState) (x : ThreadId) :
    σ.currentFrameId x = ((ConcIR.control σ).stack x).head? := by
  change (σ.threads[x]?.bind fun t ↦ t.stack.head?) = _
  change _ = ((σ.threads[x]?.map (·.stack)).getD []).head?
  cases σ.threads[x]? with
  | none => rfl
  | some t => rfl

/-- The running activation of a thread goes to the next statement. -/
theorem control_advance {p : Control.Place FunctionId ℕ} (top : Control.Top (control σ) x f p) :
    control (σ.advance x) = (control σ).put f (some { p with pc := p.pc + 1 }) := by
  rw [advance, currentFrameId_eq, top.head]
  ext1
  · rfl
  · funext g
    rw [Control.State.put_place]
    change (σ.modifyFrame f _).store.frames[g]?.map Frame.at = _
    rw [getElem?_modifyFrame]
    split_ifs with hg
    · have hplace : σ.store.frames[f]?.map Frame.at = some p := top.place
      obtain ⟨fr, hfr, rfl⟩ := Option.map_eq_some_iff.mp hplace
      rw [hg, hfr]
      rfl
    · rfl
  · rfl
  · rfl

theorem control_setPc (hf : σ.HasFrame f fr) (n : ℕ) :
    control (σ.setPc f n) = (control σ).put f (some { fr.at with pc := n }) := by
  ext1
  · rfl
  · funext g
    rw [Control.State.put_place]
    change (σ.modifyFrame f _).store.frames[g]?.map Frame.at = _
    rw [getElem?_modifyFrame]
    split_ifs with hg
    · rw [hg, show σ.store.frames[f]? = some fr from hf]
      rfl
    · rfl
  · rfl
  · rfl

end Tops

section Steps

/-- Control steps of a program. -/
abbrev SemProgram.Moves (P : SemProgram) :=
  Relation.ReflTransGen (Control.Step (T := ThreadId) (A := FrameId) P.code)

/-- A statement is passed, and nothing else shows. -/
theorem control_done (top : Top σ x t f fr) (hop : P.opAt fr.function fr.pc = some op)
    (hact : (SemOp.action (some op)).passes = true) (hgo : op.Goes fr.pc (fr.pc + 1))
    (h : control σ₁ = control σ) :
    Control.Step P.code (control σ) (control (σ₁.advance x)) := by
  have top₁ : Control.Top (control σ₁) x f fr.at := h ▸ top.control
  rw [control_advance top₁, h]
  refine .go top.control ?_ ⟨op, hop, hgo⟩
  change (SemOp.action (P.opAt fr.function fr.pc)).passes = true
  rw [hop]
  exact hact

/-- A thread with an activation gets a status that needs the same mutex. -/
theorem control_restatus (top : Top σ x t f fr) (h : control σ₁ = control σ) {st : ThreadStatus}
    (hst : st.needs = t.status.needs) : control (σ₁.setStatus x st) = control σ := by
  cases hx : σ₁.threads[x]? with
  | none =>
      have hhead := top.control.head
      rw [← h] at hhead
      change ((σ₁.threads[x]?.map (·.stack)).getD []).head? = some f at hhead
      rw [hx] at hhead
      cases hhead
  | some t₁ =>
      have hwait : (control σ₁).waiting x = (control σ).waiting x := by rw [h]
      change (σ₁.status x).bind ThreadStatus.needs = (σ.status x).bind ThreadStatus.needs at hwait
      rw [status, status, hx, show σ.threads[x]? = some t from top.thread] at hwait
      rw [control_setStatus_self hx (hst.trans hwait.symm), h]

/-- A waiting thread that needs no mutex passes its statement. -/
theorem control_complete (top : Top σ x t f fr) (hneeds : t.status.needs = none)
    (hop : P.opAt fr.function fr.pc = some op) (hact : (SemOp.action (some op)).passes = true)
    (hgo : op.Goes fr.pc (fr.pc + 1)) (h : control σ₁ = control σ) :
    Control.Step P.code (control σ) (control (Engine.complete σ₁ x)) :=
  control_done top hop hact hgo (control_restatus top h hneeds.symm)

theorem control_action (hop : P.opAt fr.function fr.pc = some op) :
    P.code.action fr.at.fn fr.at.pc = SemOp.action (some op) :=
  congrArg SemOp.action hop

variable [FloatArith]

theorem Local.moves (top : Top σ x t f fr) (hop : E.program.opAt fr.function fr.pc = some op)
    (hrun : t.status = .runnable) (h : Local E σ x f fr op σ') :
    Control.Step E.program.code (control σ) (control σ') := by
  cases h with
  | nop => exact control_done top hop rfl rfl rfl
  | assign target e v _ _ => exact control_done top hop rfl rfl (control_writeDst f target v)
  | read r dst v σ₁ _ hw | load r dst v σ₁ _ hw =>
      exact control_done top hop rfl rfl (control_tryWriteDst hw)
  | write r e v _ _ | store r e v _ _ =>
      exact control_done top hop rfl rfl (control_of_eq rfl rfl rfl)
  | cas r e d dst exp des old σ₁ _ _ _ _ hw =>
      refine control_done top hop rfl rfl ?_
      split_ifs
      · have heq : control (σ₁.setAtomic r des) = control σ₁ := control_of_eq rfl rfl rfl
        exact heq.trans (control_tryWriteDst hw)
      · exact control_tryWriteDst hw
  | lock r hm =>
      have hfree : (control σ).owner r = none := by
        change σ.store.mutexes[r]?.bind MutexState.owner = none
        rw [hm]
        rfl
      have top₁ : Control.Top (control (σ.setMutex r (.held x))) x f fr.at :=
        Top.control ⟨top.thread, top.head, top.frame⟩
      have hwait : (control σ).waiting x = none := by
        change (σ.status x).bind ThreadStatus.needs = none
        rw [top.status, hrun]
        rfl
      rw [control_advance top₁, control_setMutex]
      have hstep := Control.Step.lock top.control (control_action hop) hfree ⟨_, hop, rfl⟩
      convert hstep using 1
      ext1
      · rfl
      · rfl
      · rfl
      · funext y
        rw [Control.State.wait_waiting]
        split_ifs with hy
        · rw [hy]
          exact hwait
        · rfl
  | unlock r hm =>
      have hown : (control σ).owner r = some x := by
        change σ.store.mutexes[r]?.bind MutexState.owner = some x
        rw [hm]
        rfl
      have top₁ : Control.Top (control (σ.setMutex r .free)) x f fr.at :=
        Top.control ⟨top.thread, top.head, top.frame⟩
      rw [control_advance top₁, control_setMutex]
      exact .unlock top.control (control_action hop) hown ⟨_, hop, rfl⟩
  | send c e v _ _ _ _ => exact control_done top hop rfl rfl (control_of_eq rfl rfl rfl)
  | recv c dst v vs σ₁ _ _ hw =>
      have heq : control (σ₁.popBuffer c) = control σ₁ := control_of_eq rfl rfl rfl
      exact control_done top hop rfl rfl (heq.trans (control_tryWriteDst hw))
  | notifyMiss cv _ => exact control_done top hop rfl rfl rfl
  | acquire r n k _ _ _ | release r n k m _ _ _ =>
      exact control_done top hop rfl rfl (control_of_eq rfl rfl rfl)
  | skipCall g args dst _ => exact control_done top hop rfl rfl (control_recordCompletion σ g)
  | goto target =>
      rw [control_setPc top.frame]
      refine .go top.control ?_ ⟨_, hop, rfl⟩
      rw [control_action hop]
      rfl
  | branch c t' e' b _ =>
      rw [control_setPc top.frame]
      refine .go top.control ?_ ⟨_, hop, ?_⟩
      · rw [control_action hop]
        rfl
      · cases b
        · exact .inr rfl
        · exact .inl rfl
  | switch e cases default v target _ ht =>
      rw [control_setPc top.frame]
      refine .go top.control ?_ ⟨_, hop, ?_⟩
      · rw [control_action hop]
        rfl
      · cases ht with
        | case label _ hlabel _ => exact .inr ⟨label, hlabel⟩
        | default _ => exact .inl rfl

theorem Blocks.moves (top : Top σ x t f fr) (hop : E.program.opAt fr.function fr.pc = some op)
    (hrun : t.status = .runnable) {r : BlockReason} (h : Blocks E σ x fr op r σ') :
    E.program.Moves (control σ) (control (σ'.block x r)) := by
  have hstill : ∀ {σ₁ : MachineState} {r : BlockReason}, (ThreadStatus.blocked r).needs = none →
      control σ₁ = control σ → E.program.Moves (control σ) (control (σ₁.block x r)) := by
    intro σ₁ r hr h
    rw [block, control_restatus top h (by rw [hr, hrun]; rfl)]
  cases h with
  | lock r hm =>
      rw [block, control_setStatus top.thread]
      exact .single (.ask top.control (control_action hop))
  | wait cv lk hm =>
      have hown : (control σ).owner lk = some x := by
        change σ.store.mutexes[lk]?.bind MutexState.owner = some x
        rw [hm]
        rfl
      have hx : ((σ.setMutex lk .free).modifyWaiters cv (· ++ [(x, lk)])).HasThread x t := top.thread
      have heq : control ((σ.setMutex lk .free).modifyWaiters cv (· ++ [(x, lk)])) =
          control (σ.setMutex lk .free) := control_of_eq rfl rfl rfl
      rw [block, control_setStatus hx, heq, control_setMutex]
      exact .single (.suspend top.control (control_action hop) hown)
  | send c e v _ _ _ _ | recv c dst _ _ | acquire r n k _ _ _ | join name h t c _ _ _ _ =>
      exact hstill rfl (control_of_eq rfl rfl rfl)

omit [FloatArith] in
theorem Resumes.moves (hw : Wf E.program σ) (top : Top σ x t f fr) {r : BlockReason}
    (hb : t.status = .blocked r) (h : Resumes E σ x f fr r σ') :
    Control.Step E.program.code (control σ) (control (Engine.complete σ' x)) := by
  obtain ⟨f', fr', op, hhead, hfr', hop, hwaits⟩ := hw.code.blocked x t r top.thread hb
  obtain rfl : f = f' := Option.some.inj (top.head.symm.trans hhead)
  obtain rfl : fr = fr' := Option.some.inj (top.frame.symm.trans hfr')
  cases h with
  | lock r hm =>
      have hfree : (control σ).owner r = none := by
        change σ.store.mutexes[r]?.bind MutexState.owner = none
        rw [hm]
        rfl
      have hwait : (control σ).waiting x = some r := by
        change (σ.status x).bind ThreadStatus.needs = some r
        rw [top.status, hb]
        rfl
      have hx : (σ.setMutex r (.held x)).HasThread x t := top.thread
      have hset : control ((σ.setMutex r (.held x)).setRunnable x) =
          ((control σ).own r (some x)).wait x none := by
        rw [setRunnable, control_setStatus hx, control_setMutex]
        rfl
      have top₁ : Control.Top (control ((σ.setMutex r (.held x)).setRunnable x)) x f fr.at := by
        rw [hset]
        exact top.control.congr rfl rfl
      rw [Engine.complete, control_advance top₁, hset]
      rcases hwaits with rfl | ⟨cv, rfl⟩
      · exact .lock top.control (control_action hop) hfree ⟨_, hop, rfl⟩
      · exact .resume top.control (control_action hop) hwait hfree ⟨_, hop, rfl⟩
  | semaphore r n k _ _ _ =>
      obtain ⟨m, rfl, -⟩ := hwaits
      exact control_complete top (by rw [hb]; rfl) hop rfl rfl (control_of_eq rfl rfl rfl)
  | send c v _ _ _ =>
      obtain ⟨e, rfl⟩ := hwaits
      exact control_complete top (by rw [hb]; rfl) hop rfl rfl (control_of_eq rfl rfl rfl)
  | recv c dst v vs σ₁ _ _ _ hwrite =>
      obtain ⟨dst', rfl⟩ := hwaits
      have heq : control ((σ₁.popBuffer c).dropRecv c x) = control σ₁ := control_of_eq rfl rfl rfl
      exact control_complete top (by rw [hb]; rfl) hop rfl rfl (heq.trans (control_tryWriteDst hwrite))

omit [FloatArith] in
theorem control_requeue {ws : List (ThreadId × ResourceId)}
    (h : ∀ w ∈ ws, (control σ).waiting w.1 = some w.2) :
    control (ws.foldl (fun σ w ↦ σ.block w.1 (.lock w.2)) σ) = control σ := by
  induction ws generalizing σ with
  | nil => rfl
  | cons w ws ih =>
      have hw : (σ.status w.1).bind ThreadStatus.needs = some w.2 := h w List.mem_cons_self
      obtain ⟨st, hst, hneeds⟩ := Option.bind_eq_some_iff.mp hw
      obtain ⟨t, ht, rfl⟩ := Option.map_eq_some_iff.mp hst
      have hone : control (σ.block w.1 (.lock w.2)) = control σ :=
        control_setStatus_self ht hneeds.symm
      rw [List.foldl_cons, ih, hone]
      rw [hone]
      exact fun w hw ↦ h w (List.mem_cons_of_mem _ hw)

omit [FloatArith] in
theorem Wf.waiting_waiter (hw : Wf P σ) {cv : ResourceId} {w : ThreadId × ResourceId}
    (h : w ∈ σ.waiters cv) : (control σ).waiting w.1 = some w.2 := by
  change (σ.status w.1).bind ThreadStatus.needs = some w.2
  rw [hw.mem_waiters cv h]
  rfl

theorem Pairs.moves (hw : Wf E.program σ) (top : Top σ x t f fr) (hrun : t.status = .runnable)
    (hop : E.program.opAt fr.function fr.pc = some op) (h : Pairs E σ x f fr op σ') :
    E.program.Moves (control σ) (control σ') := by
  -- The partner passes first; the running activation is where it was.
  have hboth : ∀ {y : ThreadId} {u : ThreadState} {g : FrameId} {gr : Frame} {opy : SemOp}
      {r : BlockReason} {σ₁ : MachineState}, Top σ y u g gr → u.status = .blocked r →
        u.status.needs = none → E.program.opAt gr.function gr.pc = some opy →
          (SemOp.action (some opy)).passes = true → opy.Goes gr.pc (gr.pc + 1) →
            (SemOp.action (some op)).passes = true → op.Goes fr.pc (fr.pc + 1) →
              control σ₁ = control σ →
                E.program.Moves (control σ) (control ((Engine.complete σ₁ y).advance x)) := by
    intro y u g gr opy r σ₁ topy hb hneeds hopy hacty hgoy hact hgo heq
    have hne : f ≠ g := by
      have hby : σ.status y = some (.blocked r) := by rw [topy.status, hb]
      exact (hw.waiting_ne hrun top hby topy).symm
    have hfirst := control_complete topy hneeds hopy hacty hgoy heq
    have hcontrol : control (Engine.complete σ₁ y) =
        (control σ).put g (some { gr.at with pc := gr.pc + 1 }) := by
      have hset : control (σ₁.setRunnable y) = control σ := control_restatus topy heq hneeds.symm
      have topy₁ : Control.Top (control (σ₁.setRunnable y)) y g gr.at := hset ▸ topy.control
      rw [Engine.complete, control_advance topy₁, hset]
      rfl
    have top₁ : Control.Top (control (Engine.complete σ₁ y)) x f fr.at := by
      rw [hcontrol]
      refine top.control.congr rfl ?_
      rw [Control.State.put_place, if_neg hne]
    refine .tail (.single hfirst) ?_
    rw [control_advance top₁]
    refine .go top₁ ?_ ⟨op, hop, hgo⟩
    rw [control_action hop]
    exact hact
  cases h with
  | send c e v y u g gr dst σ₁ _ _ _ hy topy hopy hwrite =>
      have hb : u.status = .blocked (.channelRecv c) := by
        have hst := hw.mem_recvs c hy
        rw [topy.status] at hst
        exact Option.some.inj hst
      have heq : control (σ₁.dropRecv c y) = control σ₁ := control_of_eq rfl rfl rfl
      exact hboth topy hb (by rw [hb]; rfl) hopy rfl rfl rfl rfl (heq.trans (control_tryWriteDst hwrite))
  | recv c dst p σ₁ _ hp hwrite =>
      obtain ⟨u, g, gr, opy, topy, hb, hopy, e, rfl⟩ := hw.blocked_thread (hw.mem_sends c hp)
      have heq : control (σ₁.dropSend c p.thread) = control σ₁ := control_of_eq rfl rfl rfl
      exact hboth topy hb (by rw [hb]; rfl) hopy rfl rfl rfl rfl (heq.trans (control_tryWriteDst hwrite))
  | notify cv w hmem =>
      refine .single (control_done top hop rfl rfl ?_)
      have heq : control (σ.modifyWaiters cv (·.filter (· ≠ w))) = control σ := control_of_eq rfl rfl rfl
      have hreq : control ((σ.modifyWaiters cv (·.filter (· ≠ w))).block w.1 (.lock w.2)) =
          control (σ.modifyWaiters cv (·.filter (· ≠ w))) := by
        refine @control_requeue _ [w] fun w' hw' ↦ ?_
        rw [List.mem_singleton.mp hw', heq]
        exact hw.waiting_waiter hmem
      exact hreq.trans heq
  | notifyAll cv =>
      refine .single (control_done top hop rfl rfl ?_)
      have heq : control (σ.modifyWaiters cv fun _ ↦ []) = control σ := control_of_eq rfl rfl rfl
      refine (control_requeue fun w hmem ↦ ?_).trans heq
      rw [heq]
      exact hw.waiting_waiter hmem

end Steps

end ConcIR
