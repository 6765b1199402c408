import ConcIR.Machine.Waiting

/-!
# Activations that end and begin

What dropping the running activation, pushing a new one and starting a thread do to
the facts about threads and activations.
-/

namespace ConcIR

variable {P : SemProgram} {σ σ' : MachineState} {x : ThreadId} {t : ThreadState} {f : FrameId}
  {fr : Frame} {st : ThreadStatus}

/-- The head activation of thread `x`. -/
structure Top (σ : MachineState) (x : ThreadId) (t : ThreadState) (f : FrameId) (fr : Frame) :
    Prop where
  thread : σ.HasThread x t
  head : t.stack.head? = some f
  frame : σ.HasFrame f fr

theorem Top.mem (top : Top σ x t f fr) : f ∈ t.stack := List.mem_of_head? top.head

theorem Top.status (top : Top σ x t f fr) : σ.status x = some t.status := by
  rw [MachineState.status, show σ.threads[x]? = some t from top.thread]
  rfl

/-- The tables of waiting threads and the cells of the store, activations apart. -/
structure SameTables (σ σ' : MachineState) : Prop where
  store : σ'.store = { σ.store with frames := σ'.store.frames }
  semWaiters : σ'.semWaiters = σ.semWaiters

namespace SameTables

variable (h : SameTables σ σ')

include h

theorem sends (c : ResourceId) : σ'.sends c = σ.sends c := by
  unfold MachineState.sends
  rw [h.store]

theorem recvs (c : ResourceId) : σ'.recvs c = σ.recvs c := by
  unfold MachineState.recvs
  rw [h.store]

theorem buffer (c : ResourceId) : σ'.buffer c = σ.buffer c := by
  unfold MachineState.buffer
  rw [h.store]

theorem waiters (cv : ResourceId) : σ'.waiters cv = σ.waiters cv := by
  unfold MachineState.waiters
  rw [h.store]

theorem semQueue (r : ResourceId) : σ'.semQueue r = σ.semQueue r := by
  unfold MachineState.semQueue
  rw [h.semWaiters]

theorem stores (hw : Stores P σ) : Stores P σ' where
  vars := fun r ↦ by rw [h.store]; exact hw.vars r
  atomics := fun r ↦ by rw [h.store]; exact hw.atomics r
  mutexes := fun r ↦ by rw [h.store]; exact hw.mutexes r
  semaphores := fun r ↦ by rw [h.store]; exact hw.semaphores r
  channels := fun r ↦ by rw [h.store]; exact hw.channels r
  condvars := fun r ↦ by rw [h.store]; exact hw.condvars r
  capacity := fun c ↦ by rw [h.buffer]; exact hw.capacity c
  rendezvous := fun c ↦ by rw [h.sends, h.recvs]; exact hw.rendezvous c
  payload := fun c ↦ by rw [h.sends]; exact hw.payload c

/-- The tables are right for the new statuses as well, if those of blocked threads and
the owners of the scopes are the old ones. -/
theorem regs (hw : Regs σ)
    (hst : ∀ x r, r.tabled = true →
      (σ'.status x = some (.blocked r) ↔ σ.status x = some (.blocked r)))
    (hsc : ∀ (s : ScopeId) (x : ThreadId),
      (∃ sc, σ'.HasScope s sc ∧ sc.owner = x) ↔ ∃ sc, σ.HasScope s sc ∧ sc.owner = x) :
    Regs σ' where
  iff := fun x r hr ↦ by
    rw [hst x r hr, ← hw.iff x r hr]
    cases r <;> simp only [MachineState.registered, h.sends, h.recvs, h.waiters, h.semQueue]
    exact hsc _ x
  sends_nodup := fun c ↦ by rw [h.sends]; exact hw.sends_nodup c
  recvs_nodup := fun c ↦ by rw [h.recvs]; exact hw.recvs_nodup c
  waiters_nodup := fun cv ↦ by rw [h.waiters]; exact hw.waiters_nodup cv
  queue_nodup := fun r ↦ by rw [h.semQueue]; exact hw.queue_nodup r

theorem waits {r : BlockReason} {op : SemOp} (hwt : Waits σ x fr r op) :
    Waits σ' x fr r op := by
  cases r <;> simpa [Waits, h.semQueue] using hwt

end SameTables

section Unwinding

/-- Thread `x` drops its head activation `f`; it is finished if there is no other, and
then it leaves its scope. -/
structure Unwound (σ σ' : MachineState) (x : ThreadId) (t : ThreadState) (f : FrameId)
    (rest : List FrameId) (st : ThreadStatus) : Prop where
  threads : ∀ y : ThreadId, σ'.threads[y]? =
    if y = x then some { t with stack := rest, status := st } else σ.threads[y]?
  frames : ∀ g : FrameId, σ'.store.frames[g]? = if g = f then none else σ.store.frames[g]?
  finished : ∀ y, y ∈ σ'.finished ↔ (y = x ∧ st = .finished) ∨ y ∈ σ.finished
  scopes : ∀ s : ScopeId, σ'.scopes[s]? = σ.scopes[s]?.map fun sc ↦
    if st = .finished ∧ t.parentScope = some s then
      { sc with remaining := sc.remaining.erase x } else sc
  alloc : σ'.alloc = σ.alloc
  tables : SameTables σ σ'

variable {rest : List FrameId}

namespace Unwound

variable (h : Unwound σ σ' x t f rest st)

include h

theorem hasThread {y : ThreadId} {u : ThreadState} : σ'.HasThread y u ↔
    (y = x ∧ u = { t with stack := rest, status := st }) ∨ (y ≠ x ∧ σ.HasThread y u) := by
  rw [MachineState.HasThread, h.threads]
  split_ifs with hy <;> simp [hy, eq_comm]

theorem hasFrame {g : FrameId} {gr : Frame} :
    σ'.HasFrame g gr ↔ g ≠ f ∧ σ.HasFrame g gr := by
  rw [MachineState.HasFrame, h.frames]
  split_ifs with hg <;> simp [hg]

theorem status (y : ThreadId) :
    σ'.status y = if y = x then some st else σ.status y := by
  rw [MachineState.status, h.threads]
  split_ifs <;> rfl

theorem hasScope {s : ScopeId} {sc' : ScopeState} : σ'.HasScope s sc' ↔
    ∃ sc, σ.HasScope s sc ∧ (if st = .finished ∧ t.parentScope = some s then
      { sc with remaining := sc.remaining.erase x } else sc) = sc' := by
  rw [MachineState.HasScope, h.scopes, Option.map_eq_some_iff]

end Unwound

variable (hw : Wf P σ) (top : Top σ x t f fr) (hrun : t.status = .runnable)
  (hst : t.stack = f :: rest) (hend : st = if rest = [] then .finished else .runnable)
  (h : Unwound σ σ' x t f rest st)

include hw top hrun hst hend h

theorem Stacks.unwind : Stacks P σ' := by
  have hx := top.thread
  have hws := hw.stack
  have hnd := hws.nodup x t hx
  rw [hst, List.nodup_cons] at hnd
  have hsub : ∀ g ∈ rest, g ∈ t.stack := fun g hg ↦ by simp [hst, hg]
  have hother : ∀ y u, σ.HasThread y u → y ≠ x → f ∉ u.stack := fun y u hu hy hf ↦
    hy (hws.disjoint y u x t f hu hx hf top.mem)
  constructor
  · intro y u hu
    rw [h.alloc]
    rcases h.hasThread.mp hu with ⟨rfl, rfl⟩ | ⟨-, hu⟩
    · exact hws.thread_id y t hx
    · exact hws.thread_id y u hu
  · intro g gr hg
    rw [h.alloc]
    exact hws.frame_id g gr (h.hasFrame.mp hg).2
  · intro g gr hg
    exact hws.function_lt g gr (h.hasFrame.mp hg).2
  · have hkeep : ∀ g, g ≠ f → σ.store.frames.contains g = true →
        σ'.store.frames.contains g = true := fun g hne hg ↦ by
      have := h.frames g
      grind
    intro y u g hu hg
    rcases h.hasThread.mp hu with ⟨rfl, rfl⟩ | ⟨hy, hu⟩
    · exact hkeep g (fun he ↦ hnd.1 (he ▸ hg)) (hws.stack_frame y t g hx (hsub g hg))
    · exact hkeep g (fun he ↦ hother y u hu hy (he ▸ hg)) (hws.stack_frame y u g hu hg)
  · intro g gr hg
    obtain ⟨hne, hg⟩ := h.hasFrame.mp hg
    obtain ⟨y, u, hu, hm⟩ := hws.frame_owner g gr hg
    by_cases hy : y = x
    · subst hy
      obtain rfl : u = t := Option.some.inj (hu.symm.trans hx)
      refine ⟨y, _, h.hasThread.mpr (.inl ⟨rfl, rfl⟩), ?_⟩
      rw [hst, List.mem_cons] at hm
      exact hm.resolve_left hne
    · exact ⟨y, u, h.hasThread.mpr (.inr ⟨hy, hu⟩), hm⟩
  · intro y u hu
    rcases h.hasThread.mp hu with ⟨rfl, rfl⟩ | ⟨-, hu⟩
    · exact hnd.2
    · exact hws.nodup y u hu
  · intro y u z w g hu hv hg hg'
    rcases h.hasThread.mp hu with ⟨rfl, rfl⟩ | ⟨-, hu⟩ <;>
      rcases h.hasThread.mp hv with ⟨rfl, rfl⟩ | ⟨-, hv⟩
    · rfl
    · exact hws.disjoint y t z w g hx hv (hsub g hg) hg'
    · exact hws.disjoint y u z t g hu hx hg (hsub g hg')
    · exact hws.disjoint y u z w g hu hv hg hg'
  · intro y u hu
    rcases h.hasThread.mp hu with ⟨rfl, rfl⟩ | ⟨-, hu⟩
    · rw [hend]
      split_ifs with hr <;> simp [hr]
    · exact hws.finished_stack y u hu
  · intro y
    rw [h.finished, h.status, hws.finished_set]
    split_ifs with hy
    · subst hy
      simp [top.status, hrun]
    · simp [hy]
  · intro y u g hu hl
    rcases h.hasThread.mp hu with ⟨rfl, rfl⟩ | ⟨hy, hu⟩
    · have hm : g ∈ rest := List.mem_of_getLast? hl
      obtain ⟨gr, hg, he⟩ := hws.bottom y t g hx (by
        rw [hst, List.getLast?_cons, show rest.getLast? = some g from hl]
        rfl)
      exact ⟨gr, h.hasFrame.mpr ⟨fun he ↦ hnd.1 (he ▸ hm), hg⟩, he⟩
    · obtain ⟨gr, hg, he⟩ := hws.bottom y u g hu hl
      exact ⟨gr, h.hasFrame.mpr
        ⟨fun he ↦ hother y u hu hy (he ▸ List.mem_of_getLast? hl), hg⟩, he⟩
  · -- A link of a stack that `f` is not on survives.
    have hlink : ∀ l : List FrameId, f ∉ l → l.IsChain (Calls P σ) → l.IsChain (Calls P σ') := by
      intro l hf hc
      refine hc.imp_of_mem_imp fun a b ha hb hcall ↦ ?_
      obtain ⟨ar, br, ret, har, hbr, hret⟩ := hcall
      exact ⟨ar, br, ret, h.hasFrame.mpr ⟨fun he ↦ hf (he ▸ ha), har⟩,
        h.hasFrame.mpr ⟨fun he ↦ hf (he ▸ hb), hbr⟩, hret⟩
    intro y u hu
    rcases h.hasThread.mp hu with ⟨rfl, rfl⟩ | ⟨hy, hu⟩
    · have hc := hws.chain y t hx
      rw [hst] at hc
      exact hlink rest hnd.1 hc.tail
    · exact hlink u.stack (hother y u hu hy) (hws.chain y u hu)

theorem Wf.unwind : Wf P σ' := by
  have hx := top.thread
  have hfree : ∀ r, t.status ≠ .blocked r := by simp [hrun]
  have hend' : ∀ r, st ≠ .blocked r := by
    intro r
    rw [hend]
    split_ifs <;> simp
  have hnoown : ∀ s sc, σ.HasScope s sc → sc.owner ≠ x := fun s sc hs ho ↦
    hw.not_registered top.status (fun r _ ↦ hfree r) (.scope s) ⟨sc, hs, ho⟩
  refine ⟨Stacks.unwind hw top hrun hst hend h, ?_, ?_, ?_, ?_, h.tables.stores hw.stores⟩
  · refine h.tables.regs hw.regs (fun y r _ ↦ ?_) fun s y ↦ ?_
    · rw [h.status]
      split_ifs with hy
      · subst hy
        rw [top.status]
        simp [hfree, hend']
      · rfl
    · simp only [h.hasScope]
      constructor
      · rintro ⟨_, ⟨sc, hs, rfl⟩, rfl⟩
        exact ⟨sc, hs, by split_ifs <;> rfl⟩
      · rintro ⟨sc, hs, rfl⟩
        exact ⟨_, ⟨sc, hs, rfl⟩, by split_ifs <;> rfl⟩
  · constructor
    · intro g gr hg
      exact hw.code.pc_le g gr (h.hasFrame.mp hg).2
    · intro y u r hu hb
      rcases h.hasThread.mp hu with ⟨rfl, rfl⟩ | ⟨hy, hu⟩
      · exact absurd hb (hend' r)
      · obtain ⟨g, gr, op, hhead, hg, hop, hwt⟩ := hw.code.blocked y u r hu hb
        have hne : g ≠ f := fun he ↦ hy (hw.stack.disjoint y u x t f hu hx
          (List.mem_of_head? (he ▸ hhead)) top.mem)
        exact ⟨g, gr, op, hhead, h.hasFrame.mpr ⟨hne, hg⟩, hop, h.tables.waits hwt⟩
  · have hsub : ∀ {y u}, σ'.HasThread y u → ∃ v, σ.HasThread y v ∧
        u.handleChildren = v.handleChildren ∧ ∀ g ∈ u.stack, g ∈ v.stack := by
      intro y u hu
      rcases h.hasThread.mp hu with ⟨rfl, rfl⟩ | ⟨-, hu⟩
      · exact ⟨t, hx, rfl, fun g hg ↦ by simp [hst, show g ∈ rest from hg]⟩
      · exact ⟨u, hu, rfl, fun _ ↦ id⟩
    have hwh := hw.handles
    constructor
    · intro y u g gr name k hu hg hgr hn
      obtain ⟨v, hv, hc, hs⟩ := hsub hu
      simp only [ThreadState.HasChild, hc]
      exact hwh.bound y v g gr name k hv (hs g hg) (h.hasFrame.mp hgr).2 hn
    · intro y u k c hu hk
      obtain ⟨v, hv, hc, -⟩ := hsub hu
      rw [ThreadState.HasChild, hc] at hk
      obtain ⟨hlt, w, hwc, hp⟩ := hwh.child y v k c hv hk
      rw [h.alloc]
      by_cases hcx : c = x
      · subst hcx
        obtain rfl : w = t := Option.some.inj (hwc.symm.trans hx)
        exact ⟨hlt, _, h.hasThread.mpr (.inl ⟨rfl, rfl⟩), hp⟩
      · exact ⟨hlt, w, h.hasThread.mpr (.inr ⟨hcx, hwc⟩), hp⟩
    · intro y u k z w l c hu hk hz hl
      obtain ⟨v, hv, hc, -⟩ := hsub hu
      obtain ⟨v', hv', hc', -⟩ := hsub hz
      rw [ThreadState.HasChild, hc] at hk
      rw [ThreadState.HasChild, hc'] at hl
      exact hwh.child_inj y v k z v' l c hv hk hv' hl
    · intro g gr n k kr m i hg hn hk hm
      exact hwh.name_inj g gr n k kr m i (h.hasFrame.mp hg).2 hn (h.hasFrame.mp hk).2 hm
    · intro g gr n k hg hn
      rw [h.alloc]
      exact hwh.fresh g gr n k (h.hasFrame.mp hg).2 hn
  · have hws := hw.scopes
    constructor
    · intro s sc' hs'
      obtain ⟨sc, hs, rfl⟩ := h.hasScope.mp hs'
      rw [h.alloc]
      split_ifs <;> exact hws.scope_id s sc hs
    · intro y u s hu hp
      rw [h.alloc]
      rcases h.hasThread.mp hu with ⟨rfl, rfl⟩ | ⟨-, hu⟩
      · exact hws.parent_lt y t s hx hp
      · exact hws.parent_lt y u s hu hp
    · intro s sc' hs'
      obtain ⟨sc, hs, rfl⟩ := h.hasScope.mp hs'
      obtain ⟨u, hu, hrest⟩ := hws.owner s sc hs
      have hu' := h.hasThread.mpr (.inr ⟨hnoown s sc hs, hu⟩)
      split_ifs <;> exact ⟨u, hu', hrest⟩
    · intro s sc' y hs'
      obtain ⟨sc, hs, rfl⟩ := h.hasScope.mp hs'
      have hiff := hws.remaining s sc y hs
      by_cases hy : y = x
      · subst hy
        have hmem : y ∈ sc.remaining ↔ t.parentScope = some s := by
          rw [hiff]
          constructor
          · rintro ⟨u, hu, hp, -⟩
            rwa [Option.some.inj (hx.symm.trans hu)]
          · intro hp
            exact ⟨t, hx, hp, by simp [hrun]⟩
        have hthr : (∃ u, σ'.HasThread y u ∧ u.parentScope = some s ∧ u.status ≠ .finished) ↔
            t.parentScope = some s ∧ st ≠ .finished := by
          simp [h.hasThread]
        rw [hthr]
        split_ifs with hc
        · simp [hc.1]
        · rw [hmem]
          tauto
      · have hthr : (∃ u, σ'.HasThread y u ∧ u.parentScope = some s ∧ u.status ≠ .finished) ↔
            ∃ u, σ.HasThread y u ∧ u.parentScope = some s ∧ u.status ≠ .finished := by
          simp [h.hasThread, hy]
        rw [hthr, ← hiff]
        split_ifs
        · simp [Ne.symm hy]
        · rfl

end Unwinding

section Calling

/-- Thread `x` starts the activation `new` on top of `f`, which goes on with the code
after its call. -/
structure Pushed (P : SemProgram) (σ σ' : MachineState) (x : ThreadId) (t : ThreadState)
    (fr new : Frame) : Prop where
  threads : ∀ y : ThreadId, σ'.threads[y]? =
    if y = x then some { t with stack := new.id :: t.stack } else σ.threads[y]?
  frames : ∀ g : FrameId, σ'.store.frames[g]? =
    if g = new.id then some new else σ.store.frames[g]?
  finished : σ'.finished = σ.finished
  scopes : σ'.scopes = σ.scopes
  alloc : AllocLe σ.alloc σ'.alloc
  fresh : new.id = σ.alloc.nextFrame ∧ new.id < σ'.alloc.nextFrame
  function_lt : new.function < P.functions.length
  pc : new.pc = 0
  handles : new.handles = ∅
  ret : ∃ ret, new.ret = some ret ∧ ret.pcNext ≤ (P.function fr.function).body.length ∧
    dstOk P.resources ret.dst = true
  tables : SameTables σ σ'

namespace Pushed

variable {new : Frame} (h : Pushed P σ σ' x t fr new)

include h

theorem hasThread {y : ThreadId} {u : ThreadState} : σ'.HasThread y u ↔
    (y = x ∧ u = { t with stack := new.id :: t.stack }) ∨ (y ≠ x ∧ σ.HasThread y u) := by
  rw [MachineState.HasThread, h.threads]
  split_ifs with hy <;> simp [hy, eq_comm]

theorem hasFrame {g : FrameId} {gr : Frame} : σ'.HasFrame g gr ↔
    (g = new.id ∧ gr = new) ∨ (g ≠ new.id ∧ σ.HasFrame g gr) := by
  rw [MachineState.HasFrame, h.frames]
  split_ifs with hg <;> simp [hg, eq_comm]

theorem status (hx : σ.HasThread x t) (y : ThreadId) : σ'.status y = σ.status y := by
  rw [MachineState.status, MachineState.status, h.threads]
  split_ifs with hy
  · rw [hy, show σ.threads[x]? = some t from hx]
    rfl
  · rfl

end Pushed

variable {new : Frame} (hw : Wf P σ) (top : Top σ x t f fr) (hrun : t.status = .runnable)
  (h : Pushed P σ σ' x t fr new)

include hw h

theorem Pushed.ne_new {g : FrameId} {gr : Frame} (hg : σ.HasFrame g gr) : g ≠ new.id := by
  have := (hw.stack.frame_id g gr hg).2
  rw [h.fresh.1]
  exact this.ne

theorem Pushed.ne_new_of_mem {y : ThreadId} {u : ThreadState} {g : FrameId}
    (hu : σ.HasThread y u) (hg : g ∈ u.stack) : g ≠ new.id := by
  have hc := hw.stack.stack_frame y u g hu hg
  rw [Std.ExtTreeMap.contains_eq_isSome_getElem?, Option.isSome_iff_exists] at hc
  obtain ⟨gr, hgr⟩ := hc
  exact h.ne_new hw hgr

include top hrun

theorem Stacks.push : Stacks P σ' := by
  have hx := top.thread
  have hws := hw.stack
  have hnew := h.hasFrame.mpr (.inl ⟨rfl, rfl⟩)
  have hold : ∀ {g gr}, σ.HasFrame g gr → σ'.HasFrame g gr := fun hg ↦
    h.hasFrame.mpr (.inr ⟨h.ne_new hw hg, hg⟩)
  constructor
  · intro y u hu
    rcases h.hasThread.mp hu with ⟨rfl, rfl⟩ | ⟨-, hu⟩
    · obtain ⟨h₁, h₂⟩ := hws.thread_id y t hx
      exact ⟨h₁, h₂.trans_le h.alloc.thread⟩
    · obtain ⟨h₁, h₂⟩ := hws.thread_id y u hu
      exact ⟨h₁, h₂.trans_le h.alloc.thread⟩
  · intro g gr hg
    rcases h.hasFrame.mp hg with ⟨rfl, rfl⟩ | ⟨-, hg⟩
    · exact ⟨rfl, h.fresh.2⟩
    · obtain ⟨h₁, h₂⟩ := hws.frame_id g gr hg
      exact ⟨h₁, h₂.trans_le h.alloc.frame⟩
  · intro g gr hg
    rcases h.hasFrame.mp hg with ⟨rfl, rfl⟩ | ⟨-, hg⟩
    · exact h.function_lt
    · exact hws.function_lt g gr hg
  · have hkeep : ∀ g, σ.store.frames.contains g = true →
        σ'.store.frames.contains g = true := fun g hg ↦ by
      have := h.frames g
      grind
    intro y u g hu hg
    rcases h.hasThread.mp hu with ⟨rfl, rfl⟩ | ⟨hy, hu⟩
    · rcases List.mem_cons.mp hg with rfl | hg
      · have := h.frames new.id
        grind
      · exact hkeep g (hws.stack_frame y t g hx hg)
    · exact hkeep g (hws.stack_frame y u g hu hg)
  · intro g gr hg
    rcases h.hasFrame.mp hg with ⟨rfl, rfl⟩ | ⟨-, hg⟩
    · exact ⟨x, _, h.hasThread.mpr (.inl ⟨rfl, rfl⟩), List.mem_cons_self⟩
    · obtain ⟨y, u, hu, hm⟩ := hws.frame_owner g gr hg
      by_cases hy : y = x
      · subst hy
        obtain rfl : u = t := Option.some.inj (hu.symm.trans hx)
        exact ⟨y, _, h.hasThread.mpr (.inl ⟨rfl, rfl⟩), List.mem_cons_of_mem _ hm⟩
      · exact ⟨y, u, h.hasThread.mpr (.inr ⟨hy, hu⟩), hm⟩
  · intro y u hu
    rcases h.hasThread.mp hu with ⟨rfl, rfl⟩ | ⟨-, hu⟩
    · exact List.nodup_cons.mpr
        ⟨fun hm ↦ h.ne_new_of_mem hw hx hm rfl, hws.nodup y t hx⟩
    · exact hws.nodup y u hu
  · intro y u z w g hu hv hg hg'
    rcases h.hasThread.mp hu with ⟨rfl, rfl⟩ | ⟨-, hu⟩ <;>
      rcases h.hasThread.mp hv with ⟨rfl, rfl⟩ | ⟨-, hv⟩
    · rfl
    · have hne := h.ne_new_of_mem hw hv hg'
      exact hws.disjoint y t z w g hx hv ((List.mem_cons.mp hg).resolve_left hne) hg'
    · have hne := h.ne_new_of_mem hw hu hg
      exact hws.disjoint y u z t g hu hx hg ((List.mem_cons.mp hg').resolve_left hne)
    · exact hws.disjoint y u z w g hu hv hg hg'
  · intro y u hu
    rcases h.hasThread.mp hu with ⟨rfl, rfl⟩ | ⟨-, hu⟩
    · simp [hrun]
    · exact hws.finished_stack y u hu
  · intro y
    rw [h.finished, h.status hx]
    exact hws.finished_set y
  · intro y u g hu hl
    rcases h.hasThread.mp hu with ⟨rfl, rfl⟩ | ⟨hy, hu⟩
    · have hne : t.stack ≠ [] := List.ne_nil_of_mem top.mem
      obtain ⟨gr, hg, he⟩ := hws.bottom y t g hx (by
        rwa [List.getLast?_cons_of_ne_nil hne] at hl)
      exact ⟨gr, hold hg, he⟩
    · obtain ⟨gr, hg, he⟩ := hws.bottom y u g hu hl
      exact ⟨gr, hold hg, he⟩
  · have hlink : ∀ l : List FrameId, l.IsChain (Calls P σ) → l.IsChain (Calls P σ') := by
      refine fun l hc ↦ hc.imp fun a b hcall ↦ ?_
      obtain ⟨ar, br, ret, har, hbr, hret⟩ := hcall
      exact ⟨ar, br, ret, hold har, hold hbr, hret⟩
    intro y u hu
    rcases h.hasThread.mp hu with ⟨rfl, rfl⟩ | ⟨hy, hu⟩
    · obtain ⟨rest, hrest⟩ := List.head?_eq_some_iff.mp top.head
      have hc := hlink _ (hws.chain y t hx)
      rw [hrest] at hc ⊢
      obtain ⟨ret, hret⟩ := h.ret
      exact hc.cons_cons ⟨new, fr, ret, hnew, hold top.frame, hret⟩
    · exact hlink u.stack (hws.chain y u hu)

theorem Wf.push : Wf P σ' := by
  have hx := top.thread
  have hold : ∀ {g gr}, σ.HasFrame g gr → σ'.HasFrame g gr := fun hg ↦
    h.hasFrame.mpr (.inr ⟨h.ne_new hw hg, hg⟩)
  have hsub : ∀ {y u}, σ'.HasThread y u → ∃ v, σ.HasThread y v ∧
      u.handleChildren = v.handleChildren ∧ u.parentScope = v.parentScope ∧
        u.status = v.status ∧ ∀ g ∈ u.stack, g ≠ new.id → g ∈ v.stack := by
    intro y u hu
    rcases h.hasThread.mp hu with ⟨rfl, rfl⟩ | ⟨-, hu⟩
    · exact ⟨t, hx, rfl, rfl, rfl, fun g hg hne ↦ (List.mem_cons.mp hg).resolve_left hne⟩
    · exact ⟨u, hu, rfl, rfl, rfl, fun _ hg _ ↦ hg⟩
  have hsup : ∀ {y v}, σ.HasThread y v → ∃ u, σ'.HasThread y u ∧
      u.parentScope = v.parentScope ∧ u.status = v.status := by
    intro y v hv
    by_cases hy : y = x
    · subst hy
      obtain rfl : v = t := Option.some.inj (hv.symm.trans hx)
      exact ⟨_, h.hasThread.mpr (.inl ⟨rfl, rfl⟩), rfl, rfl⟩
    · exact ⟨v, h.hasThread.mpr (.inr ⟨hy, hv⟩), rfl, rfl⟩
  refine ⟨Stacks.push hw top hrun h, ?_, ?_, ?_, ?_, h.tables.stores hw.stores⟩
  · refine h.tables.regs hw.regs (fun y r _ ↦ by rw [h.status hx]) fun s y ↦ ?_
    simp only [MachineState.HasScope, h.scopes]
  · constructor
    · intro g gr hg
      rcases h.hasFrame.mp hg with ⟨rfl, rfl⟩ | ⟨-, hg⟩
      · rw [h.pc]
        exact Nat.zero_le _
      · exact hw.code.pc_le g gr hg
    · intro y u r hu hb
      rcases h.hasThread.mp hu with ⟨rfl, rfl⟩ | ⟨hy, hu⟩
      · exact absurd hb (by simp [hrun])
      · obtain ⟨g, gr, op, hhead, hg, hop, hwt⟩ := hw.code.blocked y u r hu hb
        exact ⟨g, gr, op, hhead, hold hg, hop, h.tables.waits hwt⟩
  · have hwh := hw.handles
    have hframe : ∀ {g gr n k}, σ'.HasFrame g gr → gr.HasHandle n k →
        g ≠ new.id ∧ σ.HasFrame g gr := by
      intro g gr n k hg hn
      rcases h.hasFrame.mp hg with ⟨rfl, rfl⟩ | hg
      · rw [Frame.HasHandle, h.handles] at hn
        simp at hn
      · exact hg
    constructor
    · intro y u g gr name k hu hg hgr hn
      obtain ⟨v, hv, hc, -, -, hs⟩ := hsub hu
      obtain ⟨hne, hgr⟩ := hframe hgr hn
      simp only [ThreadState.HasChild, hc]
      exact hwh.bound y v g gr name k hv (hs g hg hne) hgr hn
    · intro y u k c hu hk
      obtain ⟨v, hv, hc, -⟩ := hsub hu
      rw [ThreadState.HasChild, hc] at hk
      obtain ⟨hlt, w, hwc, hp⟩ := hwh.child y v k c hv hk
      obtain ⟨w', hw', hp', -⟩ := hsup hwc
      exact ⟨hlt.trans_le h.alloc.handle, w', hw', hp'.trans hp⟩
    · intro y u k z w l c hu hk hz hl
      obtain ⟨v, hv, hc, -⟩ := hsub hu
      obtain ⟨v', hv', hc', -⟩ := hsub hz
      rw [ThreadState.HasChild, hc] at hk
      rw [ThreadState.HasChild, hc'] at hl
      exact hwh.child_inj y v k z v' l c hv hk hv' hl
    · intro g gr n k kr m i hg hn hk hm
      exact hwh.name_inj g gr n k kr m i (hframe hg hn).2 hn (hframe hk hm).2 hm
    · intro g gr n k hg hn
      exact (hwh.fresh g gr n k (hframe hg hn).2 hn).trans_le h.alloc.handle
  · have hws := hw.scopes
    constructor
    · intro s sc hs
      rw [MachineState.HasScope, h.scopes] at hs
      obtain ⟨h₁, h₂⟩ := hws.scope_id s sc hs
      exact ⟨h₁, h₂.trans_le h.alloc.scope⟩
    · intro y u s hu hp
      obtain ⟨v, hv, -, hp', -⟩ := hsub hu
      exact (hws.parent_lt y v s hv (hp' ▸ hp)).trans_le h.alloc.scope
    · intro s sc hs
      rw [MachineState.HasScope, h.scopes] at hs
      obtain ⟨u, hu, hrest⟩ := hws.owner s sc hs
      have hne : sc.owner ≠ x := fun ho ↦
        hw.not_registered top.status (by simp [hrun]) (.scope s) ⟨sc, hs, ho⟩
      exact ⟨u, h.hasThread.mpr (.inr ⟨hne, hu⟩), hrest⟩
    · intro s sc y hs
      rw [MachineState.HasScope, h.scopes] at hs
      rw [hws.remaining s sc y hs]
      constructor
      · rintro ⟨v, hv, hp, hf⟩
        obtain ⟨u, hu, hp', hst⟩ := hsup hv
        exact ⟨u, hu, hp'.trans hp, hst ▸ hf⟩
      · rintro ⟨u, hu, hp, hf⟩
        obtain ⟨v, hv, -, hp', hst, -⟩ := hsub hu
        exact ⟨v, hv, hp' ▸ hp, hst ▸ hf⟩

end Calling

end ConcIR
