import ConcIR.Machine.Wf

/-!
# Updates that leave the control structure alone

Threads keep everything but their status, activations everything but their
counter and locals. Such an update keeps the groups of facts that do not mention
what it changes.
-/

namespace ConcIR

variable {P : SemProgram} {σ σ' : MachineState}

theorem Frame.skel_eq_iff {a b : Frame} : a.skel = b.skel ↔
    a.id = b.id ∧ a.function = b.function ∧ a.ret = b.ret := by
  cases a
  cases b
  simp [Frame.skel]

theorem ThreadState.skel_eq_iff {a b : ThreadState} : a.skel = b.skel ↔
    a.id = b.id ∧ (a.status = .finished ↔ b.status = .finished) ∧ a.stack = b.stack ∧
      a.entryFunction = b.entryFunction ∧ a.parentScope = b.parentScope := by
  cases a
  cases b
  simp only [skel, mk.injEq, true_and]
  refine and_congr_right fun _ ↦ and_congr_left fun _ ↦ ?_
  split_ifs <;> simp_all

/-- The threads differ in how they are blocked and in their children, at most. -/
def SameThreads (σ σ' : MachineState) : Prop :=
  ∀ x : ThreadId, σ'.threads[x]?.map ThreadState.skel = σ.threads[x]?.map ThreadState.skel

/-- The activations differ in counters, locals and handles, at most. -/
def SameFrames (σ σ' : MachineState) : Prop :=
  ∀ f : FrameId, σ'.store.frames[f]?.map Frame.skel = σ.store.frames[f]?.map Frame.skel

/-- Handle names and children are the same. -/
structure SameHandles (σ σ' : MachineState) : Prop where
  threads : ∀ (x : ThreadId) (t t' : ThreadState), σ.HasThread x t → σ'.HasThread x t' →
    t'.handleChildren = t.handleChildren
  frames : ∀ (f : FrameId) (fr fr' : Frame), σ.HasFrame f fr → σ'.HasFrame f fr' →
    fr'.handles = fr.handles

structure AllocLe (a b : Alloc) : Prop where
  thread : a.nextThread ≤ b.nextThread
  frame : a.nextFrame ≤ b.nextFrame
  scope : a.nextScope ≤ b.nextScope
  handle : a.nextHandle ≤ b.nextHandle

theorem AllocLe.refl (a : Alloc) : AllocLe a a := ⟨le_rfl, le_rfl, le_rfl, le_rfl⟩

namespace SameThreads

theorem symm (h : SameThreads σ σ') : SameThreads σ' σ := fun x ↦ (h x).symm

theorem back (h : SameThreads σ σ') {x : ThreadId} {t' : ThreadState}
    (ht : σ'.HasThread x t') : ∃ t, σ.HasThread x t ∧ t.skel = t'.skel := by
  have hx := h x
  rw [show σ'.threads[x]? = some t' from ht, Option.map_some, eq_comm,
    Option.map_eq_some_iff] at hx
  exact hx

theorem finished_iff (h : SameThreads σ σ') (x : ThreadId) :
    σ'.status x = some .finished ↔ σ.status x = some .finished := by
  have hx := h x
  unfold MachineState.status
  cases hs : σ.threads[x]? <;> cases hs' : σ'.threads[x]? <;>
    simp_all [ThreadState.skel_eq_iff]

end SameThreads

namespace SameFrames

theorem symm (h : SameFrames σ σ') : SameFrames σ' σ := fun f ↦ (h f).symm

theorem back (h : SameFrames σ σ') {f : FrameId} {fr' : Frame} (hf : σ'.HasFrame f fr') :
    ∃ fr, σ.HasFrame f fr ∧ fr.skel = fr'.skel := by
  have hx := h f
  rw [show σ'.store.frames[f]? = some fr' from hf, Option.map_some, eq_comm,
    Option.map_eq_some_iff] at hx
  exact hx

theorem contains (h : SameFrames σ σ') (f : FrameId) :
    σ'.store.frames.contains f = σ.store.frames.contains f := by
  have hx := h f
  have hi := congrArg Option.isSome hx
  simpa using hi

theorem calls (h : SameFrames σ σ') {f c : FrameId} (hc : Calls P σ f c) : Calls P σ' f c := by
  obtain ⟨fr, fc, ret, hfr, hfc, hret, hle, hok⟩ := hc
  obtain ⟨fr', hfr', hs⟩ := h.symm.back hfr
  obtain ⟨fc', hfc', hs'⟩ := h.symm.back hfc
  obtain ⟨-, -, hr⟩ := Frame.skel_eq_iff.mp hs
  obtain ⟨-, hfun, -⟩ := Frame.skel_eq_iff.mp hs'
  exact ⟨fr', fc', ret, hfr', hfc', hr.trans hret, by rwa [hfun], hok⟩

end SameFrames

theorem Stacks.congr (hw : Stacks P σ) (ht : SameThreads σ σ') (hf : SameFrames σ σ')
    (hfin : σ'.finished = σ.finished) (ha : AllocLe σ.alloc σ'.alloc) : Stacks P σ' := by
  constructor
  · intro x t' h
    obtain ⟨t, h₁, hs⟩ := ht.back h
    obtain ⟨hid, -⟩ := ThreadState.skel_eq_iff.mp hs
    obtain ⟨h₂, h₃⟩ := hw.thread_id x t h₁
    exact ⟨hid ▸ h₂, h₃.trans_le ha.thread⟩
  · intro f fr' h
    obtain ⟨fr, h₁, hs⟩ := hf.back h
    obtain ⟨hid, -⟩ := Frame.skel_eq_iff.mp hs
    obtain ⟨h₂, h₃⟩ := hw.frame_id f fr h₁
    exact ⟨hid ▸ h₂, h₃.trans_le ha.frame⟩
  · intro f fr' h
    obtain ⟨fr, h₁, hs⟩ := hf.back h
    obtain ⟨-, hfun, -⟩ := Frame.skel_eq_iff.mp hs
    exact hfun ▸ hw.function_lt f fr h₁
  · intro x t' f h hmem
    obtain ⟨t, h₁, hs⟩ := ht.back h
    obtain ⟨-, -, hst, -⟩ := ThreadState.skel_eq_iff.mp hs
    rw [hf.contains]
    exact hw.stack_frame x t f h₁ (hst ▸ hmem)
  · intro f fr' h
    obtain ⟨fr, h₁, -⟩ := hf.back h
    obtain ⟨x, t, h₂, h₃⟩ := hw.frame_owner f fr h₁
    obtain ⟨t', h₄, hs⟩ := ht.symm.back h₂
    obtain ⟨-, -, hst, -⟩ := ThreadState.skel_eq_iff.mp hs
    exact ⟨x, t', h₄, hst ▸ h₃⟩
  · intro x t' h
    obtain ⟨t, h₁, hs⟩ := ht.back h
    obtain ⟨-, -, hst, -⟩ := ThreadState.skel_eq_iff.mp hs
    exact hst ▸ hw.nodup x t h₁
  · intro x t' y u' f h h' hm hm'
    obtain ⟨t, h₁, hs⟩ := ht.back h
    obtain ⟨u, h₂, hs'⟩ := ht.back h'
    obtain ⟨-, -, hst, -⟩ := ThreadState.skel_eq_iff.mp hs
    obtain ⟨-, -, hst', -⟩ := ThreadState.skel_eq_iff.mp hs'
    exact hw.disjoint x t y u f h₁ h₂ (hst ▸ hm) (hst' ▸ hm')
  · intro x t' h
    obtain ⟨t, h₁, hs⟩ := ht.back h
    obtain ⟨-, hfi, hst, -⟩ := ThreadState.skel_eq_iff.mp hs
    rw [← hfi, ← hst]
    exact hw.finished_stack x t h₁
  · intro x
    rw [hfin, ht.finished_iff]
    exact hw.finished_set x
  · intro x t' f h hl
    obtain ⟨t, h₁, hs⟩ := ht.back h
    obtain ⟨-, -, hst, hen, -⟩ := ThreadState.skel_eq_iff.mp hs
    obtain ⟨fr, h₂, h₃⟩ := hw.bottom x t f h₁ (hst ▸ hl)
    obtain ⟨fr', h₄, hs'⟩ := hf.symm.back h₂
    obtain ⟨-, hfun, -⟩ := Frame.skel_eq_iff.mp hs'
    exact ⟨fr', h₄, by rw [hfun, h₃, hen]⟩
  · intro x t' h
    obtain ⟨t, h₁, hs⟩ := ht.back h
    obtain ⟨-, -, hst, -⟩ := ThreadState.skel_eq_iff.mp hs
    rw [← hst]
    exact (hw.chain x t h₁).imp fun _ _ hc ↦ hf.calls hc

theorem Handles.congr (hw : Handles σ) (ht : SameThreads σ σ') (hf : SameFrames σ σ')
    (hh : SameHandles σ σ') (ha : AllocLe σ.alloc σ'.alloc) : Handles σ' := by
  have hchild : ∀ {x t t' h c}, σ.HasThread x t → σ'.HasThread x t' → t'.HasChild h c →
      t.HasChild h c := fun h₁ h₂ h₃ ↦ by
    rwa [ThreadState.HasChild, ← hh.threads _ _ _ h₁ h₂]
  have hname : ∀ {f fr fr' n h}, σ.HasFrame f fr → σ'.HasFrame f fr' → fr'.HasHandle n h →
      fr.HasHandle n h := fun h₁ h₂ h₃ ↦ by
    rwa [Frame.HasHandle, ← hh.frames _ _ _ h₁ h₂]
  constructor
  · intro x t' f fr' name h h₁ hm h₂ h₃
    obtain ⟨t, h₄, hs⟩ := ht.back h₁
    obtain ⟨fr, h₅, -⟩ := hf.back h₂
    obtain ⟨-, -, hst, -⟩ := ThreadState.skel_eq_iff.mp hs
    obtain ⟨c, hc⟩ := hw.bound x t f fr name h h₄ (hst ▸ hm) h₅ (hname h₅ h₂ h₃)
    exact ⟨c, by rwa [ThreadState.HasChild, hh.threads x t t' h₄ h₁]⟩
  · intro x t' h c h₁ h₂
    obtain ⟨t, h₄, -⟩ := ht.back h₁
    obtain ⟨hlt, u, hu, hp⟩ := hw.child x t h c h₄ (hchild h₄ h₁ h₂)
    obtain ⟨u', hu', hs'⟩ := ht.symm.back hu
    obtain ⟨-, -, -, -, hpar⟩ := ThreadState.skel_eq_iff.mp hs'
    exact ⟨hlt.trans_le ha.handle, u', hu', hpar.trans hp⟩
  · intro x t' h y u' k c h₁ h₂ h₃ h₄
    obtain ⟨t, h₅, -⟩ := ht.back h₁
    obtain ⟨u, h₆, -⟩ := ht.back h₃
    exact hw.child_inj x t h y u k c h₅ (hchild h₅ h₁ h₂) h₆ (hchild h₆ h₃ h₄)
  · intro f fr' n g gr' m h h₁ h₂ h₃ h₄
    obtain ⟨fr, h₅, -⟩ := hf.back h₁
    obtain ⟨gr, h₆, -⟩ := hf.back h₃
    exact hw.name_inj f fr n g gr m h h₅ (hname h₅ h₁ h₂) h₆ (hname h₆ h₃ h₄)
  · intro f fr' n h h₁ h₂
    obtain ⟨fr, h₃, -⟩ := hf.back h₁
    exact (hw.fresh f fr n h h₃ (hname h₃ h₁ h₂)).trans_le ha.handle

theorem Scopes.congr (hw : Scopes σ) (ht : SameThreads σ σ') (hs : σ'.scopes = σ.scopes)
    (ha : AllocLe σ.alloc σ'.alloc) : Scopes σ' := by
  constructor
  · intro s sc h
    rw [MachineState.HasScope, hs] at h
    obtain ⟨h₁, h₂⟩ := hw.scope_id s sc h
    exact ⟨h₁, h₂.trans_le ha.scope⟩
  · intro x t' s h hp
    obtain ⟨t, h₁, hsk⟩ := ht.back h
    obtain ⟨-, -, -, -, hpar⟩ := ThreadState.skel_eq_iff.mp hsk
    exact (hw.parent_lt x t s h₁ (hpar.trans hp)).trans_le ha.scope
  · intro s sc h
    rw [MachineState.HasScope, hs] at h
    obtain ⟨t, h₁, h₂, h₃⟩ := hw.owner s sc h
    obtain ⟨t', h₄, hsk⟩ := ht.symm.back h₁
    obtain ⟨-, -, hst, -, hpar⟩ := ThreadState.skel_eq_iff.mp hsk
    exact ⟨t', h₄, hst ▸ h₂, hpar ▸ h₃⟩
  · intro s sc x h
    rw [MachineState.HasScope, hs] at h
    rw [hw.remaining s sc x h]
    constructor
    · rintro ⟨t, h₁, h₂, h₃⟩
      obtain ⟨t', h₄, hsk⟩ := ht.symm.back h₁
      obtain ⟨-, hfi, -, -, hpar⟩ := ThreadState.skel_eq_iff.mp hsk
      exact ⟨t', h₄, hpar.trans h₂, fun hf ↦ h₃ (hfi.mp hf)⟩
    · rintro ⟨t', h₁, h₂, h₃⟩
      obtain ⟨t, h₄, hsk⟩ := ht.back h₁
      obtain ⟨-, hfi, -, -, hpar⟩ := ThreadState.skel_eq_iff.mp hsk
      exact ⟨t, h₄, hpar.trans h₂, fun hf ↦ h₃ (hfi.mp hf)⟩

/-- An update of values, counters and facts on record: no thread changes, and only
activations that a runnable thread is executing move. -/
structure Quiet (P : SemProgram) (σ σ' : MachineState) : Prop where
  threads : σ'.threads = σ.threads
  frames : SameFrames σ σ'
  handles : ∀ f fr fr', σ.HasFrame f fr → σ'.HasFrame f fr' → fr'.handles = fr.handles
  pcs : ∀ f fr', σ'.HasFrame f fr' → (∃ fr, σ.HasFrame f fr ∧ fr.pc = fr'.pc) ∨
    (fr'.pc ≤ (P.function fr'.function).body.length ∧
      ∃ x t, σ.HasThread x t ∧ t.status = .runnable ∧ t.stack.head? = some f)
  scopes : σ'.scopes = σ.scopes
  finished : σ'.finished = σ.finished
  semWaiters : σ'.semWaiters = σ.semWaiters
  condvars : σ'.store.condvars = σ.store.condvars
  alloc : AllocLe σ.alloc σ'.alloc
  sends : ∀ c, σ'.sends c = σ.sends c
  recvs : ∀ c, σ'.recvs c = σ.recvs c
  buffer : ∀ c, σ'.buffer c = σ.buffer c ∨ (σ'.buffer c).length ≤ (P.resource c).capacity
  vars_dom : ∀ r, σ'.store.vars.contains r = σ.store.vars.contains r
  atomics_dom : ∀ r, σ'.store.atomics.contains r = σ.store.atomics.contains r
  mutexes_dom : ∀ r, σ'.store.mutexes.contains r = σ.store.mutexes.contains r
  semaphores_dom : ∀ r, σ'.store.semaphores.contains r = σ.store.semaphores.contains r
  channels_dom : ∀ r, σ'.store.channels.contains r = σ.store.channels.contains r

theorem Quiet.trans {σ'' : MachineState} (h : Quiet P σ σ') (h' : Quiet P σ' σ'') :
    Quiet P σ σ'' where
  threads := h'.threads.trans h.threads
  frames := fun f ↦ (h'.frames f).trans (h.frames f)
  handles := by
    intro f fr fr'' hf hf''
    obtain ⟨fr', hf', -⟩ := h'.frames.back hf''
    exact (h'.handles f fr' fr'' hf' hf'').trans (h.handles f fr fr' hf hf')
  pcs := by
    intro f fr'' hf
    rcases h'.pcs f fr'' hf with ⟨fr', hf', hpc⟩ | ⟨hle, x, t, ht, hst⟩
    · obtain ⟨fr₀, hf₀, hs⟩ := h'.frames.back hf
      obtain rfl : fr' = fr₀ := Option.some.inj (hf'.symm.trans hf₀)
      obtain ⟨-, hfun, -⟩ := Frame.skel_eq_iff.mp hs
      rw [← hpc, ← hfun]
      exact h.pcs f fr' hf'
    · exact .inr ⟨hle, x, t, by rwa [MachineState.HasThread, ← h.threads], hst⟩
  scopes := h'.scopes.trans h.scopes
  finished := h'.finished.trans h.finished
  semWaiters := h'.semWaiters.trans h.semWaiters
  condvars := h'.condvars.trans h.condvars
  alloc := ⟨h.alloc.thread.trans h'.alloc.thread, h.alloc.frame.trans h'.alloc.frame,
    h.alloc.scope.trans h'.alloc.scope, h.alloc.handle.trans h'.alloc.handle⟩
  sends := fun c ↦ (h'.sends c).trans (h.sends c)
  recvs := fun c ↦ (h'.recvs c).trans (h.recvs c)
  buffer := fun c ↦ by
    rcases h'.buffer c with hb | hb
    · rw [hb]
      exact h.buffer c
    · exact .inr hb
  vars_dom := fun r ↦ (h'.vars_dom r).trans (h.vars_dom r)
  atomics_dom := fun r ↦ (h'.atomics_dom r).trans (h.atomics_dom r)
  mutexes_dom := fun r ↦ (h'.mutexes_dom r).trans (h.mutexes_dom r)
  semaphores_dom := fun r ↦ (h'.semaphores_dom r).trans (h.semaphores_dom r)
  channels_dom := fun r ↦ (h'.channels_dom r).trans (h.channels_dom r)

namespace Quiet

theorem sameThreads (h : Quiet P σ σ') : SameThreads σ σ' := fun x ↦ by rw [h.threads]

theorem sameHandles (h : Quiet P σ σ') : SameHandles σ σ' :=
  ⟨fun x t t' ht ht' ↦ by
    rw [MachineState.HasThread, h.threads] at ht'
    rw [Option.some.inj (ht.symm.trans ht')], h.handles⟩

theorem status (h : Quiet P σ σ') (x : ThreadId) : σ'.status x = σ.status x := by
  simp only [MachineState.status, h.threads]

theorem registered (h : Quiet P σ σ') (x : ThreadId) (r : BlockReason) :
    σ'.registered x r ↔ σ.registered x r := by
  cases r <;> simp [MachineState.registered, h.sends, h.recvs, MachineState.waiters, h.condvars,
    MachineState.semQueue, h.semWaiters, MachineState.HasScope, h.scopes]

theorem waits (h : Quiet P σ σ') {x : ThreadId} {fr fr' : Frame}
    (hha : fr'.handles = fr.handles) {r : BlockReason} {op : SemOp} (hw : Waits σ x fr r op) :
    Waits σ' x fr' r op := by
  cases r <;> simpa [Waits, MachineState.semQueue, h.semWaiters, Frame.HasHandle, hha] using hw

end Quiet

theorem Wf.quiet (hw : Wf P σ) (h : Quiet P σ σ') : Wf P σ' where
  stack := hw.stack.congr h.sameThreads h.frames h.finished h.alloc
  handles := hw.handles.congr h.sameThreads h.frames h.sameHandles h.alloc
  scopes := hw.scopes.congr h.sameThreads h.scopes h.alloc
  regs := {
    iff := fun x r hr ↦ by rw [h.registered, h.status]; exact hw.regs.iff x r hr
    sends_nodup := fun c ↦ by rw [h.sends]; exact hw.regs.sends_nodup c
    recvs_nodup := fun c ↦ by rw [h.recvs]; exact hw.regs.recvs_nodup c
    waiters_nodup := fun cv ↦ by
      simp only [MachineState.waiters, h.condvars]
      exact hw.regs.waiters_nodup cv
    queue_nodup := fun r ↦ by
      simp only [MachineState.semQueue, h.semWaiters]
      exact hw.regs.queue_nodup r }
  code := {
    pc_le := by
      intro f fr' hf
      rcases h.pcs f fr' hf with ⟨fr, hf', hpc⟩ | ⟨hle, -⟩
      · obtain ⟨fr₀, hf₀, hs⟩ := h.frames.back hf
        obtain rfl : fr = fr₀ := Option.some.inj (hf'.symm.trans hf₀)
        obtain ⟨-, hfun, -⟩ := Frame.skel_eq_iff.mp hs
        rw [← hpc, ← hfun]
        exact hw.code.pc_le f fr hf'
      · exact hle
    blocked := by
      intro x t r ht hb
      rw [MachineState.HasThread, h.threads] at ht
      obtain ⟨f, fr, op, hhead, hf, hop, hwait⟩ := hw.code.blocked x t r ht hb
      obtain ⟨fr', hf', hs⟩ := h.frames.symm.back hf
      refine ⟨f, fr', op, hhead, hf', ?_, h.waits (h.handles f fr fr' hf hf') hwait⟩
      obtain ⟨-, hfun, -⟩ := Frame.skel_eq_iff.mp hs
      rcases h.pcs f fr' hf' with ⟨fr₁, hf₁, hpc⟩ | ⟨-, y, u, hu, hrun, hhead'⟩
      · obtain rfl : fr = fr₁ := Option.some.inj (hf.symm.trans hf₁)
        rw [hfun, ← hpc, hop]
      · -- The activation that moved belongs to a runnable thread, hence not to `x`.
        have hxy := hw.stack.disjoint x t y u f ht hu (List.mem_of_head? hhead)
          (List.mem_of_head? hhead')
        subst hxy
        obtain rfl : t = u := Option.some.inj (ht.symm.trans hu)
        rw [hb] at hrun
        cases hrun }
  stores := {
    vars := fun r ↦ (h.vars_dom r).trans (hw.stores.vars r)
    atomics := fun r ↦ (h.atomics_dom r).trans (hw.stores.atomics r)
    mutexes := fun r ↦ (h.mutexes_dom r).trans (hw.stores.mutexes r)
    semaphores := fun r ↦ (h.semaphores_dom r).trans (hw.stores.semaphores r)
    channels := fun r ↦ (h.channels_dom r).trans (hw.stores.channels r)
    condvars := fun r ↦ by rw [h.condvars]; exact hw.stores.condvars r
    capacity := fun c ↦ by
      rcases h.buffer c with hb | hb
      · rw [hb]
        exact hw.stores.capacity c
      · exact hb
    rendezvous := fun c hc ↦ by
      rw [h.sends, h.recvs]
      exact hw.stores.rendezvous c hc
    payload := fun c ↦ by rw [h.sends]; exact hw.stores.payload c }

section Updates

/-- An update outside the frames and the tables of waiting threads. -/
theorem Quiet.of_store (hth : σ'.threads = σ.threads) (hfr : σ'.store.frames = σ.store.frames)
    (hsc : σ'.scopes = σ.scopes) (hfi : σ'.finished = σ.finished)
    (hse : σ'.semWaiters = σ.semWaiters) (hcv : σ'.store.condvars = σ.store.condvars)
    (hch : σ'.store.channels = σ.store.channels) (hal : AllocLe σ.alloc σ'.alloc)
    (hv : ∀ r, σ'.store.vars.contains r = σ.store.vars.contains r)
    (ha : ∀ r, σ'.store.atomics.contains r = σ.store.atomics.contains r)
    (hm : ∀ r, σ'.store.mutexes.contains r = σ.store.mutexes.contains r)
    (hs : ∀ r, σ'.store.semaphores.contains r = σ.store.semaphores.contains r) :
    Quiet P σ σ' where
  threads := hth
  frames := fun f ↦ by rw [hfr]
  handles := fun f fr fr' hf hf' ↦ by
    rw [MachineState.HasFrame, hfr] at hf'
    rw [Option.some.inj (hf.symm.trans hf')]
  pcs := fun f fr' hf ↦ .inl ⟨fr', by rwa [MachineState.HasFrame, ← hfr], rfl⟩
  scopes := hsc
  finished := hfi
  semWaiters := hse
  condvars := hcv
  alloc := hal
  sends := fun c ↦ by simp only [MachineState.sends, hch]
  recvs := fun c ↦ by simp only [MachineState.recvs, hch]
  buffer := fun c ↦ .inl (by simp only [MachineState.buffer, hch])
  vars_dom := hv
  atomics_dom := ha
  mutexes_dom := hm
  semaphores_dom := hs
  channels_dom := fun r ↦ by rw [hch]

theorem Quiet.refl (σ : MachineState) : Quiet P σ σ :=
  .of_store rfl rfl rfl rfl rfl rfl rfl (.refl _) (fun _ ↦ rfl) (fun _ ↦ rfl) (fun _ ↦ rfl)
    fun _ ↦ rfl

theorem quiet_markReached (f : FunctionId) (pc : ℕ) : Quiet P σ (σ.markReached f pc) :=
  .of_store rfl rfl rfl rfl rfl rfl rfl (.refl _) (fun _ ↦ rfl) (fun _ ↦ rfl) (fun _ ↦ rfl)
    fun _ ↦ rfl

theorem contains_insert_self {K V : Type} [Ord K] [Std.TransOrd K] [Std.LawfulEqOrd K]
    {m : BTreeMap K V} {k : K} (hk : m.contains k = true) (v : V) (r : K) :
    (m.insert k v).contains r = m.contains r := by
  grind

theorem quiet_setMutex {r : ResourceId} (hr : σ.store.mutexes.contains r = true)
    (m : MutexState) : Quiet P σ (σ.setMutex r m) :=
  .of_store rfl rfl rfl rfl rfl rfl rfl (.refl _) (fun _ ↦ rfl) (fun _ ↦ rfl)
    (contains_insert_self hr m) fun _ ↦ rfl

theorem quiet_setSemaphore {r : ResourceId} (hr : σ.store.semaphores.contains r = true)
    (n : ℤ) : Quiet P σ (σ.setSemaphore r n) :=
  .of_store rfl rfl rfl rfl rfl rfl rfl (.refl _) (fun _ ↦ rfl) (fun _ ↦ rfl) (fun _ ↦ rfl)
    (contains_insert_self hr n)

theorem quiet_setVar {r : ResourceId} (hr : σ.store.vars.contains r = true) (v : Value) :
    Quiet P σ (σ.setVar r v) :=
  .of_store rfl rfl rfl rfl rfl rfl rfl (.refl _) (contains_insert_self hr v) (fun _ ↦ rfl)
    (fun _ ↦ rfl) fun _ ↦ rfl

theorem quiet_setAtomic {r : ResourceId} (hr : σ.store.atomics.contains r = true) (v : Value) :
    Quiet P σ (σ.setAtomic r v) :=
  .of_store rfl rfl rfl rfl rfl rfl rfl (.refl _) (fun _ ↦ rfl) (contains_insert_self hr v)
    (fun _ ↦ rfl) fun _ ↦ rfl

/-- A change of one activation's locals, and of its counter if a runnable thread is
executing it. -/
theorem Quiet.of_frame {f : FrameId} {g : Frame → Frame} (hg : ∀ fr, (g fr).skel = fr.skel)
    (hgh : ∀ fr, (g fr).handles = fr.handles)
    (hpc : ∀ fr, σ.HasFrame f fr → (g fr).pc = fr.pc ∨
      ((g fr).pc ≤ (P.function fr.function).body.length ∧
        ∃ x t, σ.HasThread x t ∧ t.status = .runnable ∧ t.stack.head? = some f)) :
    Quiet P σ (σ.modifyFrame f g) where
  threads := rfl
  frames := fun h ↦ by
    simp only [MachineState.modifyFrame, Std.ExtTreeMap.getElem?_modify, Nat.compare_eq_eq]
    split_ifs with hfh
    · subst hfh
      cases σ.store.frames[f]? <;> simp [hg]
    · rfl
  handles := fun h fr fr' hf hf' ↦ by
    rw [MachineState.HasFrame, MachineState.getElem?_modifyFrame, hf] at hf'
    split_ifs at hf'
    · rw [← Option.some.inj hf', hgh]
    · rw [Option.some.inj hf']
  pcs := fun h fr' hf ↦ by
    simp only [MachineState.HasFrame, MachineState.modifyFrame, Std.ExtTreeMap.getElem?_modify,
      Nat.compare_eq_eq] at hf
    split_ifs at hf with hfh
    · subst hfh
      obtain ⟨fr, hfr, rfl⟩ := Option.map_eq_some_iff.mp hf
      obtain ⟨-, hfun, -⟩ := Frame.skel_eq_iff.mp (hg fr)
      rcases hpc fr hfr with h₁ | h₁
      · exact .inl ⟨fr, hfr, h₁.symm⟩
      · exact .inr (hfun ▸ h₁)
    · exact .inl ⟨fr', hf, rfl⟩
  scopes := rfl
  finished := rfl
  semWaiters := rfl
  condvars := rfl
  alloc := .refl _
  sends := fun _ ↦ rfl
  recvs := fun _ ↦ rfl
  buffer := fun _ ↦ .inl rfl
  vars_dom := fun _ ↦ rfl
  atomics_dom := fun _ ↦ rfl
  mutexes_dom := fun _ ↦ rfl
  semaphores_dom := fun _ ↦ rfl
  channels_dom := fun _ ↦ rfl

end Updates

end ConcIR
