import ConcIR.Machine.Steps

/-!
# Steps keep a machine well-formed

One lemma for each kind of elementary step.
-/

namespace ConcIR

namespace SemProgram

variable {P : SemProgram} {f : FunctionId} {pc : ℕ} {op : SemOp}

theorem opAt_ok (h : P.opAt f pc = some op) :
    opOk P.functions P.resources (P.function f) op = true := by
  obtain ⟨s, hs, rfl⟩ := Option.map_eq_some_iff.mp h
  cases hf : P.functions[f]? with
  | none => simp [function, hf, noFunction] at hs
  | some fn =>
      have he : P.function f = fn := by simp [function, hf]
      rw [he] at hs ⊢
      exact (P.functions_ok fn (List.mem_of_getElem? hf)).2 s (List.mem_of_getElem? hs)

theorem opAt_lt (h : P.opAt f pc = some op) : pc < (P.function f).body.length := by
  obtain ⟨s, hs, -⟩ := Option.map_eq_some_iff.mp h
  exact (List.getElem?_eq_some_iff.mp hs).1

end SemProgram

variable {E : Engine} {σ σ' σ₁ : MachineState} {x y : ThreadId} {t : ThreadState}
  {f : FrameId} {fr : Frame} {op : SemOp}

/-- Thread `x` is runnable and has a statement to execute. -/
structure Ready (P : SemProgram) (σ : MachineState) (x : ThreadId) (f : FrameId) : Prop where
  thread : ∃ t, σ.HasThread x t ∧ t.status = .runnable ∧ t.stack.head? = some f
  frame : ∃ fr, σ.HasFrame f fr ∧ fr.pc < (P.function fr.function).body.length

namespace Ready

variable {P : SemProgram}

theorem of_top (top : Top σ x t f fr) (hrun : t.status = .runnable)
    (hpc : fr.pc < (P.function fr.function).body.length) : Ready P σ x f :=
  ⟨⟨t, top.thread, hrun, top.head⟩, fr, top.frame, hpc⟩

theorem congr (h : Ready P σ x f) (ht : σ'.threads = σ.threads)
    (hf : σ'.store.frames = σ.store.frames) : Ready P σ' x f := by
  obtain ⟨⟨t, htx, hrest⟩, fr, hfr, hpc⟩ := h
  exact ⟨⟨t, by rwa [MachineState.HasThread, ht], hrest⟩, fr,
    by rwa [MachineState.HasFrame, hf], hpc⟩

theorem modifyFrame (h : Ready P σ x f) (k : FrameId) {g : Frame → Frame}
    (hg : ∀ fr, (g fr).function = fr.function)
    (hpc : k = f → ∀ fr, (g fr).pc = fr.pc) : Ready P (σ.modifyFrame k g) x f := by
  obtain ⟨ht, fr, hfr, hlt⟩ := h
  refine ⟨ht, ?_⟩
  by_cases hk : f = k
  · refine ⟨g fr, ?_, ?_⟩
    · rw [MachineState.HasFrame, MachineState.getElem?_modifyFrame, if_pos hk, hfr]
      rfl
    · rwa [hg, hpc hk.symm]
  · exact ⟨fr, by rwa [MachineState.HasFrame, MachineState.getElem?_modifyFrame, if_neg hk], hlt⟩

theorem writeDst (h : Ready P σ x f) (k : FrameId) (dst : SlotRef) (v : Value) :
    Ready P (σ.writeDst k dst v) x f := by
  cases dst with
  | discard => exact h
  | localSlot slot => exact h.modifyFrame k (fun _ ↦ rfl) fun _ _ ↦ rfl
  | shared r =>
      refine h.congr rfl ?_
      rw [MachineState.writeDst, Store.writeShared]
      split_ifs <;> rfl

theorem setStatus (h : Ready P σ x f) (hxy : x ≠ y) (st : ThreadStatus) :
    Ready P (σ.setStatus y st) x f := by
  obtain ⟨⟨t, htx, hrest⟩, hf⟩ := h
  refine ⟨⟨t, ?_, hrest⟩, hf⟩
  rwa [MachineState.HasThread, MachineState.setStatus, MachineState.getElem?_modifyThread,
    if_neg hxy]

theorem advance_eq (h : Ready P σ x f) :
    σ.advance x = σ.modifyFrame f fun fr ↦ { fr with pc := fr.pc + 1 } := by
  obtain ⟨t, htx, -, hhead⟩ := h.thread
  simp only [MachineState.advance, MachineState.currentFrameId]
  rw [show σ.threads[x]? = some t from htx, Option.bind_some, hhead]

theorem quiet_advance (h : Ready P σ x f) : Quiet P σ (σ.advance x) := by
  rw [h.advance_eq]
  obtain ⟨⟨t, htx, hrun, hhead⟩, fr, hfr, hlt⟩ := h
  refine Quiet.of_frame (fun _ ↦ rfl) (fun _ ↦ rfl) fun fr' hfr' ↦ .inr ⟨?_, x, t, htx, hrun,
    hhead⟩
  obtain rfl : fr = fr' := Option.some.inj (hfr.symm.trans hfr')
  exact hlt

theorem quiet_setPc {target : ℕ}
    (h : ∃ t, σ.HasThread x t ∧ t.status = .runnable ∧ t.stack.head? = some f)
    (ht : ∀ fr, σ.HasFrame f fr → target ≤ (P.function fr.function).body.length) :
    Quiet P σ (σ.setPc f target) := by
  obtain ⟨t, htx, hrun, hhead⟩ := h
  exact Quiet.of_frame (fun _ ↦ rfl) (fun _ ↦ rfl) fun fr hfr ↦ .inr ⟨ht fr hfr, x, t, htx, hrun,
    hhead⟩

end Ready

section Writes

variable {P : SemProgram} (hw : Wf P σ)

include hw

theorem Wf.contains_of_dstOk {r : ResourceId} (hr : dstOk P.resources (.shared r) = true) :
    σ.store.vars.contains r = true ∨ σ.store.atomics.contains r = true := by
  rw [hw.stores.vars, hw.stores.atomics]
  simpa [dstOk] using hr

theorem Wf.quiet_writeDst {dst : SlotRef} (hd : dstOk P.resources dst = true) (k : FrameId)
    (v : Value) : Quiet P σ (σ.writeDst k dst v) := by
  cases dst with
  | discard => exact .refl σ
  | localSlot slot => exact .of_frame (fun _ ↦ rfl) (fun _ ↦ rfl) fun _ _ ↦ .inl rfl
  | shared r =>
      rw [MachineState.writeDst, Store.writeShared]
      split_ifs with hc
      · exact quiet_setVar hc v
      · exact quiet_setAtomic ((hw.contains_of_dstOk hd).resolve_left hc) v

theorem Wf.quiet_tryWriteDst {dst : SlotRef} (hd : dstOk P.resources dst = true) {k : FrameId}
    {v : Value} (h : E.tryWriteDst σ k dst v = some σ₁) : Quiet P σ σ₁ := by
  rw [Engine.tryWriteDst] at h
  split_ifs at h
  rw [← Option.some.inj h]
  exact hw.quiet_writeDst hd k v

end Writes

theorem Ready.tryWriteDst {P : SemProgram} (h : Ready P σ x f) {dst : SlotRef} {k : FrameId}
    {v : Value} (hd : E.tryWriteDst σ k dst v = some σ₁) : Ready P σ₁ x f := by
  rw [Engine.tryWriteDst] at hd
  split_ifs at hd
  rw [← Option.some.inj hd]
  exact h.writeDst k dst v

theorem recordCompletion_eq (σ : MachineState) (g : FunctionId) :
    ∃ m, E.recordCompletion σ g = { σ with completedFunctions := m } := by
  by_cases h : E.monitor.maxFor g = 0
  · exact ⟨σ.completedFunctions, if_pos h⟩
  · exact ⟨_, if_neg h⟩

theorem quiet_recordCompletion (σ : MachineState) (g : FunctionId) :
    Quiet E.program σ (E.recordCompletion σ g) := by
  obtain ⟨m, hm⟩ := recordCompletion_eq (E := E) σ g
  rw [hm]
  exact .of_store rfl rfl rfl rfl rfl rfl rfl (.refl _) (fun _ ↦ rfl) (fun _ ↦ rfl)
    (fun _ ↦ rfl) fun _ ↦ rfl

theorem Ready.recordCompletion {P : SemProgram} (h : Ready P σ x f) (g : FunctionId) :
    Ready P (E.recordCompletion σ g) x f := by
  obtain ⟨m, hm⟩ := recordCompletion_eq (E := E) σ g
  rw [hm]
  exact h.congr rfl rfl

/-- A change of the queued values that keeps to the capacity. -/
theorem quiet_modifyBuffer {P : SemProgram} {c : ResourceId} {g : ChannelState → ChannelState}
    (hs : ∀ ch, (g ch).pendingSend = ch.pendingSend)
    (hr : ∀ ch, (g ch).pendingRecv = ch.pendingRecv)
    (hb : ((σ.modifyChannel c g).buffer c).length ≤ (P.resource c).capacity) :
    Quiet P σ (σ.modifyChannel c g) where
  threads := rfl
  frames := fun _ ↦ rfl
  handles := fun f fr fr' hf hf' ↦ by rw [Option.some.inj (hf.symm.trans hf')]
  pcs := fun f fr' hf ↦ .inl ⟨fr', hf, rfl⟩
  scopes := rfl
  finished := rfl
  semWaiters := rfl
  condvars := rfl
  alloc := .refl _
  sends := fun d ↦ by
    rw [MachineState.sends_modifyChannel]
    split_ifs with hd
    · subst hd
      simp only [hs]
      rfl
    · rfl
  recvs := fun d ↦ by
    rw [MachineState.recvs_modifyChannel]
    split_ifs with hd
    · subst hd
      simp only [hr]
      rfl
    · rfl
  buffer := fun d ↦ by
    by_cases hd : d = c
    · exact .inr (hd ▸ hb)
    · exact .inl (by rw [MachineState.buffer_modifyChannel, if_neg hd])
  vars_dom := fun _ ↦ rfl
  atomics_dom := fun _ ↦ rfl
  mutexes_dom := fun _ ↦ rfl
  semaphores_dom := fun _ ↦ rfl
  channels_dom := fun d ↦ MachineState.contains_modifyChannel c d g

theorem Wf.quiet_pushBuffer {P : SemProgram} {c : ResourceId} {v : Value}
    (hc : σ.store.channels.contains c = true)
    (hlt : (σ.buffer c).length < (P.resource c).capacity) :
    Quiet P σ (σ.pushBuffer c v) := by
  refine quiet_modifyBuffer (fun _ ↦ rfl) (fun _ ↦ rfl) ?_
  rw [show σ.modifyChannel c _ = σ.pushBuffer c v from rfl, MachineState.buffer_pushBuffer hc,
    if_pos rfl, List.length_append, List.length_singleton]
  exact hlt

theorem Wf.quiet_popBuffer {P : SemProgram} (hw : Wf P σ) (c : ResourceId) :
    Quiet P σ (σ.popBuffer c) := by
  refine quiet_modifyBuffer (fun _ ↦ rfl) (fun _ ↦ rfl) ?_
  rw [show σ.modifyChannel c _ = σ.popBuffer c from rfl, MachineState.buffer_popBuffer,
    if_pos rfl, List.length_tail]
  exact (Nat.sub_le _ _).trans (hw.stores.capacity c)

/-- Updates of the store and the executing activation, and the program counter after. -/
theorem Wf.done {P : SemProgram} (hw : Wf P σ) (h : Quiet P σ σ₁) (hr : Ready P σ₁ x f) :
    Wf P (σ₁.advance x) :=
  (hw.quiet h).quiet hr.quiet_advance

section Waiting

variable {P : SemProgram} {r : BlockReason}

theorem Wf.block (hw : Wf P σ) (top : Top σ x t f fr) (hrun : t.status = .runnable)
    (hop : P.opAt fr.function fr.pc = some op)
    (h : Retabled P σ σ' x (.blocked r)) (hwt : Waits σ' x fr r op) : Wf P (σ'.block x r) := by
  refine hw.restatus h top.status (by simp [hrun]) (by simp) ?_
  rintro q ⟨⟩
  exact ⟨t, f, fr, op, top.thread, top.head, top.frame, hop, hwt⟩

theorem Wf.blocked_thread (hw : Wf P σ) (hb : σ.status x = some (.blocked r)) :
    ∃ t f fr op, Top σ x t f fr ∧ t.status = .blocked r ∧
      P.opAt fr.function fr.pc = some op ∧ Waits σ x fr r op := by
  obtain ⟨t, ht, hst⟩ := Option.map_eq_some_iff.mp hb
  obtain ⟨f, fr, op, hhead, hf, hop, hwt⟩ := hw.code.blocked x t r ht hst
  exact ⟨t, f, fr, op, ⟨ht, hhead, hf⟩, hst, hop, hwt⟩

/-- A blocked thread is let go: it is ready at the statement it waited at. -/
theorem Wf.wake (hw : Wf P σ) (h : Retabled P σ σ' x .runnable)
    (hb : σ.status x = some (.blocked r)) :
    Wf P (σ'.setRunnable x) ∧ ∃ f, Ready P (σ'.setRunnable x) x f := by
  refine ⟨hw.restatus h hb (by simp) (by simp) (by simp), ?_⟩
  obtain ⟨t, f, fr, op, top, -, hop, -⟩ := hw.blocked_thread hb
  refine ⟨f, ⟨{ t with status := .runnable }, ?_, rfl, top.head⟩, fr, ?_,
    SemProgram.opAt_lt hop⟩
  · rw [MachineState.HasThread, MachineState.setRunnable, MachineState.setStatus,
      MachineState.getElem?_modifyThread, if_pos rfl, h.threads,
      show σ.threads[x]? = some t from top.thread]
    rfl
  · exact (congrArg (·[f]?) h.frames).trans top.frame

theorem Wf.complete (hw : Wf P σ) (h : Retabled P σ σ' x .runnable)
    (hb : σ.status x = some (.blocked r)) : Wf P (Engine.complete σ' x) := by
  obtain ⟨hw', f, hr⟩ := hw.wake h hb
  exact hw'.quiet hr.quiet_advance

theorem Ready.ne_of_blocked (h : Ready P σ x f) (hb : σ.status y = some (.blocked r)) :
    x ≠ y := by
  rintro rfl
  obtain ⟨t, ht, hrun, -⟩ := h.thread
  rw [MachineState.status, show σ.threads[x]? = some t from ht, Option.map_some, hrun] at hb
  cases hb

/-- Another thread's wake-up leaves a ready thread alone. -/
theorem Ready.complete_other (h : Ready P σ x f) (hw : Wf P σ)
    (hre : Retabled P σ σ' y .runnable) (hb : σ.status y = some (.blocked r)) :
    Ready P (Engine.complete σ' y) x f := by
  obtain ⟨hw', g, hy⟩ := hw.wake hre hb
  have hxy := h.ne_of_blocked hb
  have hx : Ready P (σ'.setRunnable y) x f := (h.congr hre.threads hre.frames).setStatus hxy _
  rw [Engine.complete, hy.advance_eq]
  refine hx.modifyFrame g (fun _ ↦ rfl) fun hgf ↦ absurd ?_ hxy
  obtain ⟨t, ht, -, hth⟩ := hx.thread
  obtain ⟨u, hu, -, huh⟩ := hy.thread
  exact hw'.stack.disjoint x t y u f ht hu (List.mem_of_head? hth)
    (List.mem_of_head? (hgf ▸ huh))

theorem Wf.mem_recvs (hw : Wf P σ) (c : ResourceId) (hy : y ∈ σ.recvs c) :
    σ.status y = some (.blocked (.channelRecv c)) :=
  (hw.regs.iff y (.channelRecv c) rfl).mp hy

theorem Wf.mem_sends (hw : Wf P σ) (c : ResourceId) {p : PendingSend} (hp : p ∈ σ.sends c) :
    σ.status p.thread = some (.blocked (.channelSend c)) :=
  (hw.regs.iff p.thread (.channelSend c) rfl).mp ⟨p, hp, rfl⟩

theorem Wf.mem_waiters (hw : Wf P σ) (cv : ResourceId) {w : ThreadId × ResourceId}
    (h : w ∈ σ.waiters cv) : σ.status w.1 = some (.blocked (.condvar cv w.2)) :=
  (hw.regs.iff w.1 (.condvar cv w.2) rfl).mp h

end Waiting

theorem resourceTypeOk_iff {r : ResourceId} {v : Value} : E.resourceTypeOk r v = true ↔
    ∀ ty, (E.program.resource r).ty = some ty → withinType ty v = true := by
  rw [Engine.resourceTypeOk]
  cases (E.program.resource r).ty <;> simp

section Notify

/-- Waiter `w` of `cv` is notified: it waits for its mutex instead. -/
def notifyOne (cv : ResourceId) (σ : MachineState) (w : ThreadId × ResourceId) :
    MachineState :=
  (σ.modifyWaiters cv (·.filter (· ≠ w))).block w.1 (.lock w.2)

variable {P : SemProgram} {cv : ResourceId} {w : ThreadId × ResourceId}

theorem Wf.notifyOne (hw : Wf P σ) (hc : σ.store.condvars.contains cv = true)
    (hmem : w ∈ σ.waiters cv) : Wf P (notifyOne cv σ w) := by
  have hb := hw.mem_waiters cv hmem
  refine hw.restatus (.dropWaiter hw hc hb (BlockReason.ne_of_untabled rfl)) hb (by simp)
    (by simp) ?_
  rintro q ⟨⟩
  obtain ⟨t, f, fr, op, top, -, hop, hwt⟩ := hw.blocked_thread hb
  exact ⟨t, f, fr, op, top.thread, top.head, top.frame, hop, .inr ⟨cv, hwt⟩⟩

theorem Ready.notifyOne (h : Ready P σ x f) (hw : Wf P σ) (hmem : w ∈ σ.waiters cv) :
    Ready P (ConcIR.notifyOne cv σ w) x f := by
  have h' : Ready P (σ.modifyWaiters cv (·.filter (· ≠ w))) x f := h.congr rfl rfl
  exact h'.setStatus (h.ne_of_blocked (hw.mem_waiters cv hmem)) (.blocked (.lock w.2))

theorem modifyWaiters_self {g : List (ThreadId × ResourceId) → List (ThreadId × ResourceId)}
    (h : g (σ.waiters cv) = σ.waiters cv) : σ.modifyWaiters cv g = σ := by
  have hcv : σ.store.condvars.modify cv (fun c ↦ ⟨g c.waiters⟩) = σ.store.condvars := by
    ext1 d
    rw [Std.ExtTreeMap.getElem?_modify]
    split_ifs with hd
    · rw [Nat.compare_eq_eq.mp hd] at h
      rw [MachineState.waiters] at h
      cases hc : σ.store.condvars[d]? <;> simp_all
    · rfl
  simp only [MachineState.modifyWaiters, hcv]

theorem modifyWaiters_const {g : List (ThreadId × ResourceId) → List (ThreadId × ResourceId)}
    (l : List (ThreadId × ResourceId)) :
    (σ.modifyWaiters cv g).modifyWaiters cv (fun _ ↦ l) = σ.modifyWaiters cv fun _ ↦ l := by
  simp only [MachineState.modifyWaiters]
  congr 2
  ext1 d
  grind

theorem waiters_notifyOne (hc : σ.store.condvars.contains cv = true)
    {ws : List (ThreadId × ResourceId)} (hws : σ.waiters cv = w :: ws)
    (hnd : (w :: ws).Nodup) : (ConcIR.notifyOne cv σ w).waiters cv = ws := by
  rw [show (ConcIR.notifyOne cv σ w).waiters cv =
    (σ.modifyWaiters cv (·.filter (· ≠ w))).waiters cv from rfl,
    MachineState.waiters_modifyWaiters hc, if_pos rfl, hws]
  have hne : ∀ v ∈ ws, v ≠ w := fun v hv he ↦ (List.nodup_cons.mp hnd).1 (he ▸ hv)
  simpa using hne

/-- Notifying everybody is notifying one after the other. -/
theorem notifyAll_eq (ws : List (ThreadId × ResourceId)) (hc : σ.store.condvars.contains cv = true)
    (hws : σ.waiters cv = ws) (hnd : ws.Nodup) :
    ws.foldl (fun σ w ↦ σ.block w.1 (.lock w.2)) (σ.modifyWaiters cv fun _ ↦ []) =
      ws.foldl (ConcIR.notifyOne cv) σ := by
  induction ws generalizing σ with
  | nil => exact modifyWaiters_self (by rw [hws])
  | cons w ws ih =>
      have hc' : (ConcIR.notifyOne cv σ w).store.condvars.contains cv = true :=
        (MachineState.contains_modifyWaiters cv cv _).trans hc
      rw [List.foldl_cons, List.foldl_cons,
        ← ih hc' (waiters_notifyOne hc hws hnd) (List.nodup_cons.mp hnd).2]
      congr 1
      exact (congrArg (·.block w.1 (.lock w.2)) (modifyWaiters_const [])).symm

theorem Wf.notifyAll (ws : List (ThreadId × ResourceId)) (hw : Wf P σ) (h : Ready P σ x f)
    (hc : σ.store.condvars.contains cv = true) (hws : σ.waiters cv = ws) :
    Wf P (ws.foldl (ConcIR.notifyOne cv) σ) ∧
      Ready P (ws.foldl (ConcIR.notifyOne cv) σ) x f := by
  induction ws generalizing σ with
  | nil => exact ⟨hw, h⟩
  | cons w ws ih =>
      have hmem : w ∈ σ.waiters cv := by simp [hws]
      exact ih (hw.notifyOne hc hmem) (h.notifyOne hw hmem)
        ((MachineState.contains_modifyWaiters cv cv _).trans hc)
        (waiters_notifyOne hc hws (hws ▸ hw.regs.waiters_nodup cv))

end Notify

theorem Resumes.wf (hw : Wf E.program σ) (top : Top σ x t f fr) {r : BlockReason}
    (hb : t.status = .blocked r) (h : Resumes E σ x f fr r σ') : Wf E.program (Engine.complete σ' x) := by
  have hx : σ.status x = some (.blocked r) := by rw [top.status, hb]
  obtain ⟨u, g, gr, op, top', -, hop, hwt⟩ := hw.blocked_thread hx
  obtain rfl : t = u := Option.some.inj (top.thread.symm.trans top'.thread)
  obtain rfl : f = g := Option.some.inj (top.head.symm.trans top'.head)
  obtain rfl : fr = gr := Option.some.inj (top.frame.symm.trans top'.frame)
  have hok := SemProgram.opAt_ok hop
  cases h with
  | lock r _ =>
      have hm : hasKind E.program.resources r .mutex = true := by
        rcases hwt with rfl | ⟨cv, rfl⟩
        · exact hok
        · simp only [opOk, Bool.and_eq_true] at hok
          exact hok.2
      have hq : Quiet E.program σ (σ.setMutex r (.held x)) :=
        quiet_setMutex (by rw [hw.stores.mutexes]; exact hm) _
      exact (hw.quiet hq).complete (.same (hw.quiet hq) hx (BlockReason.ne_of_untabled rfl)
        (by simp)) hx
  | semaphore r n k _ _ _ =>
      obtain ⟨m, rfl, -⟩ := hwt
      have hq : Quiet E.program σ (σ.setSemaphore r (k - n)) :=
        quiet_setSemaphore (by rw [hw.stores.semaphores]; exact hok) _
      exact (hw.quiet hq).complete (.dropSemWaiter (hw.quiet hq) hx (by simp)) hx
  | send c v _ _ hlt =>
      obtain ⟨e, rfl⟩ := hwt
      -- The value is queued before the entry is dropped; the two updates commute.
      have hc : σ.store.channels.contains c = true := by
        rw [hw.stores.channels]
        exact hok
      have hq := Wf.quiet_pushBuffer (P := E.program) (v := v) hc hlt
      have hcomm : (σ.dropSend c x).pushBuffer c v = (σ.pushBuffer c v).dropSend c x := by
        simp only [MachineState.dropSend, MachineState.pushBuffer, MachineState.modifyChannel]
        congr 2
        ext1 d
        grind
      rw [hcomm]
      exact (hw.quiet hq).complete (.dropSend (hw.quiet hq) hx (by simp)) hx
  | recv c dst v vs σ₁ hop' _ _ hwr =>
      obtain ⟨dst', rfl⟩ := hwt
      obtain ⟨-, rfl⟩ : c = c ∧ dst' = dst := by simpa using hop.symm.trans hop'
      simp only [opOk, Bool.and_eq_true] at hok
      have hq := hw.quiet_tryWriteDst hok.2 hwr
      have hq' := hq.trans ((hw.quiet hq).quiet_popBuffer c)
      have hx' : (σ₁.popBuffer c).status x = some (.blocked (.channelRecv c)) := by
        rw [hq'.status, hx]
      exact (hw.quiet hq').complete (.dropRecv (hw.quiet hq') hx' (by simp)) hx'

variable [FloatArith]

theorem Local.wf (hw : Wf E.program σ) (hr : Ready E.program σ x f)
    (hfr : σ.HasFrame f fr) (hok : opOk E.program.functions E.program.resources
      (E.program.function fr.function) op = true)
    (h : Local E σ x f fr op σ') : Wf E.program σ' := by
  have hpc : ∀ {target}, target < (E.program.function fr.function).body.length →
      Wf E.program (σ.setPc f target) := by
    intro target ht
    refine hw.quiet (Ready.quiet_setPc hr.thread fun fr' hfr' ↦ ?_)
    rw [← Option.some.inj (hfr.symm.trans hfr')]
    exact ht.le
  cases h with
  | nop => exact hw.done (.refl σ) hr
  | assign target e v _ _ =>
      cases target with
      | localSlot slot => exact hw.done (hw.quiet_writeDst rfl f v) (hr.writeDst f _ v)
      | _ => simp [opOk] at hok
  | read r dst v _ _ hwr =>
      simp only [opOk, Bool.and_eq_true] at hok
      refine hw.done (hw.quiet_tryWriteDst ?_ hwr) (hr.tryWriteDst hwr)
      cases dst with
      | none => rfl
      | some d => exact hok.2
  | write r e v _ _ =>
      exact hw.done (quiet_setVar (by rw [hw.stores.vars]; exact hok) v) (hr.congr rfl rfl)
  | load r dst v _ _ hwr =>
      simp only [opOk, Bool.and_eq_true] at hok
      exact hw.done (hw.quiet_tryWriteDst hok.2 hwr) (hr.tryWriteDst hwr)
  | store r e v _ _ =>
      exact hw.done (quiet_setAtomic (by rw [hw.stores.atomics]; exact hok) v)
        (hr.congr rfl rfl)
  | cas r e d dst exp des old σ₁ _ _ _ _ hwr =>
      simp only [opOk, Bool.and_eq_true] at hok
      have hq := hw.quiet_tryWriteDst hok.2 hwr
      have hr₁ := hr.tryWriteDst hwr
      split_ifs
      · refine hw.done (hq.trans (quiet_setAtomic ?_ des)) (hr₁.congr rfl rfl)
        rw [(hw.quiet hq).stores.atomics]
        exact hok.1
      · exact hw.done hq hr₁
  | lock r _ =>
      exact hw.done (quiet_setMutex (by rw [hw.stores.mutexes]; exact hok) _) (hr.congr rfl rfl)
  | unlock r _ =>
      exact hw.done (quiet_setMutex (by rw [hw.stores.mutexes]; exact hok) _) (hr.congr rfl rfl)
  | send c e v _ _ _ hlt =>
      refine hw.done (Wf.quiet_pushBuffer ?_ hlt) (hr.congr rfl rfl)
      rw [hw.stores.channels]
      exact hok
  | recv c dst v vs σ₁ _ _ hwr =>
      simp only [opOk, Bool.and_eq_true] at hok
      have hq := hw.quiet_tryWriteDst hok.2 hwr
      exact hw.done (hq.trans ((hw.quiet hq).quiet_popBuffer c))
        ((hr.tryWriteDst hwr).congr rfl rfl)
  | notifyMiss cv _ => exact hw.done (.refl σ) hr
  | acquire r n k _ _ _ =>
      exact hw.done (quiet_setSemaphore (by rw [hw.stores.semaphores]; exact hok) _)
        (hr.congr rfl rfl)
  | release r n k m _ _ _ =>
      exact hw.done (quiet_setSemaphore (by rw [hw.stores.semaphores]; exact hok) _)
        (hr.congr rfl rfl)
  | skipCall g args dst _ =>
      exact hw.done (quiet_recordCompletion σ g) (hr.recordCompletion g)
  | goto target => exact hpc (by simpa [opOk] using hok)
  | branch c t e b _ =>
      simp only [opOk, Bool.and_eq_true, decide_eq_true_eq] at hok
      cases b
      · exact hpc hok.2
      · exact hpc hok.1
  | switch e cases default v target _ ht =>
      simp only [opOk, Bool.and_eq_true, List.all_eq_true, decide_eq_true_eq] at hok
      cases ht with
      | case label _ hl _ =>
          exact hpc (hok.1 (label, target) (Std.ExtTreeMap.mem_toList_iff_getElem?_eq_some.mpr hl))
      | default _ => exact hpc hok.2

theorem Blocks.wf (hw : Wf E.program σ) (top : Top σ x t f fr) (hrun : t.status = .runnable)
    (hop : E.program.opAt fr.function fr.pc = some op) {r : BlockReason}
    (h : Blocks E σ x fr op r σ') : Wf E.program (σ'.block x r) := by
  have hok := SemProgram.opAt_ok hop
  have hx : σ.status x = some .runnable := by rw [top.status, hrun]
  cases h with
  | lock r _ =>
      exact hw.block top hrun hop (.same hw hx (by simp) (BlockReason.ne_of_untabled rfl))
        (.inl rfl)
  | send c e v _ hv hr _ =>
      refine hw.block top hrun hop (.pushSend hw hx ?_ hr (resourceTypeOk_iff.mp hv)) ⟨e, rfl⟩
      rw [hw.stores.channels]
      exact hok
  | recv c dst hs _ =>
      refine hw.block top hrun hop (.pushRecv hw hx ?_ hs) ⟨dst, rfl⟩
      simp only [opOk, Bool.and_eq_true] at hok
      rw [hw.stores.channels]
      exact hok.1
  | wait cv lk _ =>
      simp only [opOk, Bool.and_eq_true] at hok
      have hq : Quiet E.program σ (σ.setMutex lk .free) :=
        quiet_setMutex (by rw [hw.stores.mutexes]; exact hok.2) _
      have top' : Top (σ.setMutex lk .free) x t f fr := ⟨top.thread, top.head, top.frame⟩
      refine (hw.quiet hq).block top' hrun hop (.pushWaiter (hw.quiet hq) hx ?_) rfl
      rw [(hw.quiet hq).stores.condvars]
      exact hok.1
  | acquire r n k _ _ _ =>
      refine hw.block top hrun hop (.pushSemWaiter hw hx) ⟨n, rfl, ?_⟩
      rw [MachineState.semQueue_pushSemWaiter, if_pos rfl]
      exact List.mem_append_right _ (List.mem_singleton_self _)
  | join name h u c hh _ _ _ =>
      exact hw.block top hrun hop (.same hw hx (by simp) (BlockReason.ne_of_untabled rfl))
        ⟨name, rfl, hh⟩

theorem Pairs.wf (hw : Wf E.program σ) (top : Top σ x t f fr) (hrun : t.status = .runnable)
    (hop : E.program.opAt fr.function fr.pc = some op) (h : Pairs E σ x f fr op σ') :
    Wf E.program σ' := by
  have hok := SemProgram.opAt_ok hop
  have hr := Ready.of_top top hrun (SemProgram.opAt_lt hop)
  cases h with
  | send c e v y u g gr dst σ₁ _ _ _ hy _ hop' hwr =>
      have hok' := SemProgram.opAt_ok hop'
      simp only [opOk, Bool.and_eq_true] at hok'
      have hq := hw.quiet_tryWriteDst hok'.2 hwr
      have hw₁ := hw.quiet hq
      have hb : σ₁.status y = some (.blocked (.channelRecv c)) := by
        rw [hq.status, hw.mem_recvs c hy]
      have hre : Retabled E.program σ₁ (σ₁.dropRecv c y) y .runnable :=
        .dropRecv hw₁ hb (by simp)
      exact (hw₁.complete hre hb).quiet
        ((hr.tryWriteDst hwr).complete_other hw₁ hre hb).quiet_advance
  | recv c dst p σ₁ _ hp hwr =>
      simp only [opOk, Bool.and_eq_true] at hok
      have hq := hw.quiet_tryWriteDst hok.2 hwr
      have hw₁ := hw.quiet hq
      have hb : σ₁.status p.thread = some (.blocked (.channelSend c)) := by
        rw [hq.status, hw.mem_sends c hp]
      have hre : Retabled E.program σ₁ (σ₁.dropSend c p.thread) p.thread .runnable :=
        .dropSend hw₁ hb (by simp)
      exact (hw₁.complete hre hb).quiet
        ((hr.tryWriteDst hwr).complete_other hw₁ hre hb).quiet_advance
  | notify cv w hmem =>
      have hc : σ.store.condvars.contains cv = true := by
        rw [hw.stores.condvars]
        exact hok
      exact (hw.notifyOne hc hmem).quiet (hr.notifyOne hw hmem).quiet_advance
  | notifyAll cv =>
      have hc : σ.store.condvars.contains cv = true := by
        rw [hw.stores.condvars]
        exact hok
      rw [notifyAll_eq _ hc rfl (hw.regs.waiters_nodup cv)]
      obtain ⟨hw', hr'⟩ := hw.notifyAll _ hr hc rfl
      exact hw'.quiet hr'.quiet_advance

end ConcIR
