import ConcIR.Machine.Activations

/-!
# Threads that start, are bound to handles, and are reclaimed

The updates that add or remove thread records, and those of the handle tables.
-/

namespace ConcIR

variable {P : SemProgram} {σ σ' : MachineState} {x : ThreadId} {t : ThreadState} {f : FrameId}
  {fr : Frame}

section Starting

/-- A new thread `u`, which runs the activation `new` or has finished without one. -/
structure Started (P : SemProgram) (σ σ' : MachineState) (u : ThreadState)
    (new : Option Frame) : Prop where
  threads : ∀ y : ThreadId, σ'.threads[y]? = if y = u.id then some u else σ.threads[y]?
  frames : ∀ g : FrameId, σ'.store.frames[g]? =
    if new.map (·.id) = some g then new else σ.store.frames[g]?
  finished : ∀ y, y ∈ σ'.finished ↔ (y = u.id ∧ new = none) ∨ y ∈ σ.finished
  scopes : σ'.scopes = σ.scopes
  alloc : AllocLe σ.alloc σ'.alloc
  fresh : u.id = σ.alloc.nextThread ∧ u.id < σ'.alloc.nextThread
  status : u.status = if new = none then .finished else .runnable
  stack : u.stack = (new.map (·.id)).toList
  children : u.handleChildren = ∅
  parent : ∀ s, u.parentScope = some s → s < σ.alloc.nextScope ∧ σ.scopes[s]? = none
  frame : ∀ fr ∈ new, (fr.id = σ.alloc.nextFrame ∧ fr.id < σ'.alloc.nextFrame) ∧
    fr.function = u.entryFunction ∧ fr.function < P.functions.length ∧ fr.pc = 0 ∧
      fr.handles = ∅
  tables : SameTables σ σ'

namespace Started

variable {u : ThreadState} {new : Option Frame} (h : Started P σ σ' u new)

include h

theorem hasThread {y : ThreadId} {v : ThreadState} : σ'.HasThread y v ↔
    (y = u.id ∧ v = u) ∨ (y ≠ u.id ∧ σ.HasThread y v) := by
  rw [MachineState.HasThread, h.threads]
  split_ifs with hy <;> simp [hy, eq_comm]

theorem hasFrame {g : FrameId} {gr : Frame} : σ'.HasFrame g gr ↔
    (new = some gr ∧ gr.id = g) ∨ (new.map (·.id) ≠ some g ∧ σ.HasFrame g gr) := by
  rw [MachineState.HasFrame, h.frames]
  split_ifs with hg
  · grind
  · grind

theorem mem_stack {g : FrameId} : g ∈ u.stack ↔ ∃ gr, new = some gr ∧ gr.id = g := by
  rw [h.stack]
  cases new <;> simp [eq_comm]

theorem status_old {y : ThreadId} (hy : y ≠ u.id) : σ'.status y = σ.status y := by
  rw [MachineState.status, MachineState.status, h.threads, if_neg hy]

theorem status_new : σ'.status u.id = some u.status := by
  rw [MachineState.status, h.threads, if_pos rfl]
  rfl

variable (hw : Wf P σ)

include hw

theorem not_old {v : ThreadState} : ¬ σ.HasThread u.id v := fun hv ↦ by
  have := (hw.stack.thread_id _ v hv).2
  rw [h.fresh.1] at this
  exact this.false

theorem old {y : ThreadId} {v : ThreadState} (hv : σ.HasThread y v) : σ'.HasThread y v :=
  h.hasThread.mpr (.inr ⟨fun he ↦ h.not_old hw (he ▸ hv), hv⟩)

theorem frame_ne {g : FrameId} {gr : Frame} (hg : σ.HasFrame g gr) :
    new.map (·.id) ≠ some g := by
  intro he
  obtain ⟨fr, hn, rfl⟩ := Option.map_eq_some_iff.mp he
  have h₁ := (h.frame fr hn).1.1
  have h₂ := (hw.stack.frame_id _ gr hg).2
  rw [h₁] at h₂
  exact h₂.false

theorem oldFrame {g : FrameId} {gr : Frame} (hg : σ.HasFrame g gr) : σ'.HasFrame g gr :=
  h.hasFrame.mpr (.inr ⟨h.frame_ne hw hg, hg⟩)

theorem not_mem_old {y : ThreadId} {v : ThreadState} {gr : Frame} (hv : σ.HasThread y v)
    (hn : new = some gr) : gr.id ∉ v.stack := by
  intro hm
  have hc := hw.stack.stack_frame y v _ hv hm
  rw [Std.ExtTreeMap.contains_eq_isSome_getElem?, Option.isSome_iff_exists] at hc
  obtain ⟨gr', hgr⟩ := hc
  exact h.frame_ne hw hgr (by simp [hn])

theorem status_none : σ.status u.id = none := by
  rw [MachineState.status, Option.map_eq_none_iff]
  cases hc : σ.threads[u.id]? with
  | none => rfl
  | some v => exact absurd hc (h.not_old hw)

end Started

variable {u : ThreadState} {new : Option Frame} (hw : Wf P σ) (h : Started P σ σ' u new)

include hw h

theorem Stacks.start : Stacks P σ' := by
  have hws := hw.stack
  constructor
  · intro y v hv
    rcases h.hasThread.mp hv with ⟨rfl, rfl⟩ | ⟨-, hv⟩
    · exact ⟨rfl, h.fresh.2⟩
    · obtain ⟨h₁, h₂⟩ := hws.thread_id y v hv
      exact ⟨h₁, h₂.trans_le h.alloc.thread⟩
  · intro g gr hg
    rcases h.hasFrame.mp hg with ⟨hn, rfl⟩ | ⟨-, hg⟩
    · exact ⟨rfl, (h.frame gr hn).1.2⟩
    · obtain ⟨h₁, h₂⟩ := hws.frame_id g gr hg
      exact ⟨h₁, h₂.trans_le h.alloc.frame⟩
  · intro g gr hg
    rcases h.hasFrame.mp hg with ⟨hn, rfl⟩ | ⟨-, hg⟩
    · exact (h.frame gr hn).2.2.1
    · exact hws.function_lt g gr hg
  · intro y v g hv hg
    rw [Std.ExtTreeMap.contains_eq_isSome_getElem?, Option.isSome_iff_exists]
    rcases h.hasThread.mp hv with ⟨rfl, rfl⟩ | ⟨-, hv⟩
    · obtain ⟨gr, hn, rfl⟩ := h.mem_stack.mp hg
      exact ⟨gr, h.hasFrame.mpr (.inl ⟨hn, rfl⟩)⟩
    · have hc := hws.stack_frame y v g hv hg
      rw [Std.ExtTreeMap.contains_eq_isSome_getElem?, Option.isSome_iff_exists] at hc
      obtain ⟨gr, hgr⟩ := hc
      exact ⟨gr, h.oldFrame hw hgr⟩
  · intro g gr hg
    rcases h.hasFrame.mp hg with ⟨hn, rfl⟩ | ⟨-, hg⟩
    · exact ⟨u.id, u, h.hasThread.mpr (.inl ⟨rfl, rfl⟩), h.mem_stack.mpr ⟨gr, hn, rfl⟩⟩
    · obtain ⟨y, v, hv, hm⟩ := hws.frame_owner g gr hg
      exact ⟨y, v, h.old hw hv, hm⟩
  · intro y v hv
    rcases h.hasThread.mp hv with ⟨rfl, rfl⟩ | ⟨-, hv⟩
    · rw [h.stack]
      cases new <;> simp
    · exact hws.nodup y v hv
  · intro y v z w g hv hz hg hg'
    rcases h.hasThread.mp hv with ⟨rfl, rfl⟩ | ⟨-, hv⟩ <;>
      rcases h.hasThread.mp hz with ⟨rfl, rfl⟩ | ⟨-, hz⟩
    · rfl
    · obtain ⟨gr, hn, rfl⟩ := h.mem_stack.mp hg
      exact absurd hg' (h.not_mem_old hw hz hn)
    · obtain ⟨gr, hn, rfl⟩ := h.mem_stack.mp hg'
      exact absurd hg (h.not_mem_old hw hv hn)
    · exact hws.disjoint y v z w g hv hz hg hg'
  · intro y v hv
    rcases h.hasThread.mp hv with ⟨rfl, rfl⟩ | ⟨-, hv⟩
    · rw [h.status, h.stack]
      cases new <;> simp
    · exact hws.finished_stack y v hv
  · intro y
    by_cases hy : y = u.id
    · subst hy
      have hno := h.status_none hw
      have hnf : u.id ∉ σ.finished := by
        rw [hws.finished_set, hno]
        simp
      rw [h.finished, h.status_new, h.status]
      cases new <;> simp [hnf]
    · rw [h.finished, h.status_old hy, hws.finished_set]
      simp [hy]
  · intro y v g hv hl
    rcases h.hasThread.mp hv with ⟨rfl, rfl⟩ | ⟨-, hv⟩
    · obtain ⟨gr, hn, rfl⟩ := h.mem_stack.mp (List.mem_of_getLast? hl)
      exact ⟨gr, h.hasFrame.mpr (.inl ⟨hn, rfl⟩), (h.frame gr hn).2.1⟩
    · obtain ⟨gr, hg, he⟩ := hws.bottom y v g hv hl
      exact ⟨gr, h.oldFrame hw hg, he⟩
  · intro y v hv
    rcases h.hasThread.mp hv with ⟨rfl, rfl⟩ | ⟨-, hv⟩
    · rw [h.stack]
      cases new <;> simp
    · refine (hws.chain y v hv).imp fun a b hcall ↦ ?_
      obtain ⟨ar, br, ret, har, hbr, hret⟩ := hcall
      exact ⟨ar, br, ret, h.oldFrame hw har, h.oldFrame hw hbr, hret⟩

theorem Wf.start : Wf P σ' := by
  have hfree : ∀ r, u.status ≠ .blocked r := by
    intro r
    rw [h.status]
    split_ifs <;> simp
  refine ⟨Stacks.start hw h, ?_, ?_, ?_, ?_, h.tables.stores hw.stores⟩
  · refine h.tables.regs hw.regs (fun y r _ ↦ ?_) fun s y ↦ ?_
    · by_cases hy : y = u.id
      · subst hy
        rw [h.status_new, h.status_none hw]
        simp [hfree]
      · rw [h.status_old hy]
    · simp only [MachineState.HasScope, h.scopes]
  · constructor
    · intro g gr hg
      rcases h.hasFrame.mp hg with ⟨hn, rfl⟩ | ⟨-, hg⟩
      · rw [(h.frame gr hn).2.2.2.1]
        exact Nat.zero_le _
      · exact hw.code.pc_le g gr hg
    · intro y v r hv hb
      rcases h.hasThread.mp hv with ⟨rfl, rfl⟩ | ⟨-, hv⟩
      · exact absurd hb (hfree r)
      · obtain ⟨g, gr, op, hhead, hg, hop, hwt⟩ := hw.code.blocked y v r hv hb
        exact ⟨g, gr, op, hhead, h.oldFrame hw hg, hop, h.tables.waits hwt⟩
  · have hwh := hw.handles
    have hframe : ∀ {g gr n k}, σ'.HasFrame g gr → gr.HasHandle n k → σ.HasFrame g gr := by
      intro g gr n k hg hn
      rcases h.hasFrame.mp hg with ⟨hnew, rfl⟩ | ⟨-, hg⟩
      · rw [Frame.HasHandle, (h.frame gr hnew).2.2.2.2] at hn
        simp at hn
      · exact hg
    have hchild : ∀ {y v k c}, σ'.HasThread y v → v.HasChild k c → σ.HasThread y v := by
      intro y v k c hv hk
      rcases h.hasThread.mp hv with ⟨rfl, rfl⟩ | ⟨-, hv⟩
      · rw [ThreadState.HasChild, h.children] at hk
        simp at hk
      · exact hv
    constructor
    · intro y v g gr name k hv hg hgr hn
      have hgr := hframe hgr hn
      rcases h.hasThread.mp hv with ⟨rfl, rfl⟩ | ⟨-, hv⟩
      · obtain ⟨gr', hnew, rfl⟩ := h.mem_stack.mp hg
        exact absurd (by simp [hnew]) (h.frame_ne hw hgr)
      · exact hwh.bound y v g gr name k hv hg hgr hn
    · intro y v k c hv hk
      obtain ⟨hlt, w, hwc, hp⟩ := hwh.child y v k c (hchild hv hk) hk
      exact ⟨hlt.trans_le h.alloc.handle, w, h.old hw hwc, hp⟩
    · intro y v k z w l c hv hk hz hl
      exact hwh.child_inj y v k z w l c (hchild hv hk) hk (hchild hz hl) hl
    · intro g gr n k kr m i hg hn hk hm
      exact hwh.name_inj g gr n k kr m i (hframe hg hn) hn (hframe hk hm) hm
    · intro g gr n k hg hn
      exact (hwh.fresh g gr n k (hframe hg hn) hn).trans_le h.alloc.handle
  · have hws := hw.scopes
    constructor
    · intro s sc hs
      rw [MachineState.HasScope, h.scopes] at hs
      obtain ⟨h₁, h₂⟩ := hws.scope_id s sc hs
      exact ⟨h₁, h₂.trans_le h.alloc.scope⟩
    · intro y v s hv hp
      rcases h.hasThread.mp hv with ⟨rfl, rfl⟩ | ⟨-, hv⟩
      · exact (h.parent s hp).1.trans_le h.alloc.scope
      · exact (hws.parent_lt y v s hv hp).trans_le h.alloc.scope
    · intro s sc hs
      rw [MachineState.HasScope, h.scopes] at hs
      obtain ⟨v, hv, hrest⟩ := hws.owner s sc hs
      exact ⟨v, h.old hw hv, hrest⟩
    · intro s sc y hs
      rw [MachineState.HasScope, h.scopes] at hs
      rw [hws.remaining s sc y hs]
      constructor
      · rintro ⟨v, hv, hrest⟩
        exact ⟨v, h.old hw hv, hrest⟩
      · rintro ⟨v, hv, hp, hf⟩
        rcases h.hasThread.mp hv with ⟨rfl, rfl⟩ | ⟨-, hv⟩
        · have := (h.parent s hp).2
          rw [show σ.scopes[s]? = some sc from hs] at this
          cases this
        · exact ⟨v, hv, hp, hf⟩

end Starting

section Binding

/-- The handles of the head activation `f` of thread `x` and the children of the thread
change. -/
structure Rebound (σ σ' : MachineState) (x : ThreadId) (t : ThreadState) (f : FrameId)
    (fr : Frame) (hs : BTreeMap String HandleId) (cs : BTreeMap HandleId ThreadId) : Prop where
  threads : ∀ y : ThreadId, σ'.threads[y]? =
    if y = x then some { t with handleChildren := cs } else σ.threads[y]?
  frames : ∀ g : FrameId, σ'.store.frames[g]? =
    if g = f then some { fr with handles := hs } else σ.store.frames[g]?
  finished : σ'.finished = σ.finished
  scopes : σ'.scopes = σ.scopes
  alloc : AllocLe σ.alloc σ'.alloc
  tables : SameTables σ σ'

variable {hs : BTreeMap String HandleId} {cs : BTreeMap HandleId ThreadId}

namespace Rebound

variable (h : Rebound σ σ' x t f fr hs cs) (top : Top σ x t f fr)

include h

theorem hasThread {y : ThreadId} {u : ThreadState} : σ'.HasThread y u ↔
    (y = x ∧ u = { t with handleChildren := cs }) ∨ (y ≠ x ∧ σ.HasThread y u) := by
  rw [MachineState.HasThread, h.threads]
  split_ifs with hy <;> simp [hy, eq_comm]

theorem hasFrame {g : FrameId} {gr : Frame} : σ'.HasFrame g gr ↔
    (g = f ∧ gr = { fr with handles := hs }) ∨ (g ≠ f ∧ σ.HasFrame g gr) := by
  rw [MachineState.HasFrame, h.frames]
  split_ifs with hg <;> simp [hg, eq_comm]

include top

theorem sameThreads : SameThreads σ σ' := by
  intro y
  rw [h.threads]
  split_ifs with hy
  · rw [hy, show σ.threads[x]? = some t from top.thread]
    rfl
  · rfl

theorem sameFrames : SameFrames σ σ' := by
  intro g
  rw [h.frames]
  split_ifs with hg
  · rw [hg, show σ.store.frames[f]? = some fr from top.frame]
    rfl
  · rfl

theorem status (y : ThreadId) : σ'.status y = σ.status y := by
  rw [MachineState.status, MachineState.status, h.threads]
  split_ifs with hy
  · rw [hy, show σ.threads[x]? = some t from top.thread]
    rfl
  · rfl

end Rebound

theorem Wf.rebind (hw : Wf P σ) (top : Top σ x t f fr) (hrun : t.status = .runnable)
    (h : Rebound σ σ' x t f fr hs cs) (hh : Handles σ') : Wf P σ' := by
  have hth := h.sameThreads top
  have hfr := h.sameFrames top
  refine ⟨hw.stack.congr hth hfr h.finished h.alloc, ?_, ?_, hh,
    hw.scopes.congr hth h.scopes h.alloc, h.tables.stores hw.stores⟩
  · refine h.tables.regs hw.regs (fun y r _ ↦ by rw [h.status top]) fun s y ↦ ?_
    simp only [MachineState.HasScope, h.scopes]
  · constructor
    · intro g gr hg
      rcases h.hasFrame.mp hg with ⟨rfl, rfl⟩ | ⟨-, hg⟩
      · exact hw.code.pc_le g fr top.frame
      · exact hw.code.pc_le g gr hg
    · intro y u r hu hb
      rcases h.hasThread.mp hu with ⟨rfl, rfl⟩ | ⟨hy, hu⟩
      · exact absurd hb (by simp [hrun])
      · obtain ⟨g, gr, op, hhead, hg, hop, hwt⟩ := hw.code.blocked y u r hu hb
        have hne : g ≠ f := fun he ↦ hy (hw.stack.disjoint y u x t f hu top.thread
          (List.mem_of_head? (he ▸ hhead)) top.mem)
        exact ⟨g, gr, op, hhead, h.hasFrame.mpr (.inr ⟨hne, hg⟩), hop, h.tables.waits hwt⟩

/-- Bind a fresh handle to a child that no handle leads to. -/
theorem Wf.bind (hw : Wf P σ) (top : Top σ x t f fr) (hrun : t.status = .runnable)
    {name : String} {k : HandleId} {c : ThreadId} {u : ThreadState}
    (h : Rebound σ σ' x t f fr (fr.handles.insert name k) (t.handleChildren.insert k c))
    (hk : k = σ.alloc.nextHandle ∧ k < σ'.alloc.nextHandle) (hc : σ.HasThread c u)
    (hp : u.parentScope = none)
    (hfree : ∀ y v l, σ.HasThread y v → ¬ v.HasChild l c) : Wf P σ' := by
  refine hw.rebind top hrun h ?_
  have hwh := hw.handles
  have hlt : ∀ {y v l d}, σ.HasThread y v → v.HasChild l d → l ≠ k := by
    intro y v l d hv hl he
    have := (hwh.child y v l d hv hl).1
    rw [he, hk.1] at this
    exact this.false
  have hfl : ∀ {g gr n l}, σ.HasFrame g gr → gr.HasHandle n l → l ≠ k := by
    intro g gr n l hg hn he
    have := hwh.fresh g gr n l hg hn
    rw [he, hk.1] at this
    exact this.false
  -- Children and names of the new state are old ones or the new pair.
  have hchild : ∀ {y v l d}, σ'.HasThread y v → v.HasChild l d →
      (y = x ∧ l = k ∧ d = c) ∨ ∃ w, σ.HasThread y w ∧ w.HasChild l d := by
    intro y v l d hv hl
    rcases h.hasThread.mp hv with ⟨rfl, rfl⟩ | ⟨-, hv⟩
    · rw [ThreadState.HasChild, Std.ExtTreeMap.getElem?_insert] at hl
      split_ifs at hl with he
      · exact .inl ⟨rfl, (Nat.compare_eq_eq.mp he).symm, (Option.some.inj hl).symm⟩
      · exact .inr ⟨t, top.thread, hl⟩
    · exact .inr ⟨v, hv, hl⟩
  have hname : ∀ {g gr n l}, σ'.HasFrame g gr → gr.HasHandle n l →
      (g = f ∧ n = name ∧ l = k) ∨ ∃ w, σ.HasFrame g w ∧ w.HasHandle n l := by
    intro g gr n l hg hn
    rcases h.hasFrame.mp hg with ⟨rfl, rfl⟩ | ⟨-, hg⟩
    · rw [Frame.HasHandle, Std.ExtTreeMap.getElem?_insert] at hn
      split_ifs at hn with he
      · exact .inl ⟨rfl, (Std.compare_eq_iff_eq.mp he).symm, (Option.some.inj hn).symm⟩
      · exact .inr ⟨fr, top.frame, hn⟩
    · exact .inr ⟨gr, hg, hn⟩
  have hkeep : ∀ {y v}, σ.HasThread y v → ∃ w, σ'.HasThread y w ∧
      w.parentScope = v.parentScope := by
    intro y v hv
    by_cases hy : y = x
    · subst hy
      obtain rfl : v = t := Option.some.inj (hv.symm.trans top.thread)
      exact ⟨_, h.hasThread.mpr (.inl ⟨rfl, rfl⟩), rfl⟩
    · exact ⟨v, h.hasThread.mpr (.inr ⟨hy, hv⟩), rfl⟩
  constructor
  · intro y v g gr n l hv hg hgr hn
    have hchildren : ∀ {w d}, σ.HasThread y w → w.HasChild l d → l ≠ k →
        ∃ d, v.HasChild l d := by
      intro w d hwt hd hne
      rcases h.hasThread.mp hv with ⟨rfl, rfl⟩ | ⟨-, hv'⟩
      · obtain rfl : w = t := Option.some.inj (hwt.symm.trans top.thread)
        refine ⟨d, ?_⟩
        rw [ThreadState.HasChild, Std.ExtTreeMap.getElem?_insert, if_neg]
        · exact hd
        · simpa using hne.symm
      · obtain rfl : w = v := Option.some.inj (hwt.symm.trans hv')
        exact ⟨d, hd⟩
    rcases hname hgr hn with ⟨rfl, rfl, rfl⟩ | ⟨gr', hgr', hn'⟩
    · have hyx : y = x := by
        rcases h.hasThread.mp hv with ⟨rfl, -⟩ | ⟨-, hv⟩
        · rfl
        · exact hw.stack.disjoint y v x t g hv top.thread hg top.mem
      subst hyx
      rcases h.hasThread.mp hv with ⟨-, rfl⟩ | ⟨hne, -⟩
      · exact ⟨c, by simp [ThreadState.HasChild]⟩
      · exact absurd rfl hne
    · rcases h.hasThread.mp hv with ⟨rfl, hvt⟩ | ⟨-, hv'⟩
      · obtain ⟨d, hd⟩ := hwh.bound y t g gr' n l top.thread (by rwa [hvt] at hg) hgr' hn'
        exact hchildren top.thread hd (hlt top.thread hd)
      · obtain ⟨d, hd⟩ := hwh.bound y v g gr' n l hv' hg hgr' hn'
        exact ⟨d, hd⟩
  · intro y v l d hv hl
    rcases hchild hv hl with ⟨rfl, rfl, rfl⟩ | ⟨w, hwt, hl'⟩
    · obtain ⟨w, hwc, hwp⟩ := hkeep hc
      exact ⟨hk.2, w, hwc, hwp.trans hp⟩
    · obtain ⟨h₁, w', hwc, hwp⟩ := hwh.child y w l d hwt hl'
      obtain ⟨w'', hwc', hwp'⟩ := hkeep hwc
      exact ⟨h₁.trans_le h.alloc.handle, w'', hwc', hwp'.trans hwp⟩
  · intro y v l z w m d hv hl hz hm
    rcases hchild hv hl with ⟨rfl, rfl, rfl⟩ | ⟨w₁, hwt₁, hl₁⟩ <;>
      rcases hchild hz hm with ⟨rfl, rfl, hd⟩ | ⟨w₂, hwt₂, hl₂⟩
    · exact ⟨rfl, rfl⟩
    · exact absurd hl₂ (hfree z w₂ m hwt₂)
    · exact absurd (hd ▸ hl₁) (hfree y w₁ l hwt₁)
    · exact hwh.child_inj y w₁ l z w₂ m d hwt₁ hl₁ hwt₂ hl₂
  · intro g gr n g' gr' m l hg hn hg' hm
    rcases hname hg hn with ⟨rfl, rfl, rfl⟩ | ⟨w₁, hw₁, hn₁⟩ <;>
      rcases hname hg' hm with ⟨rfl, rfl, hl⟩ | ⟨w₂, hw₂, hn₂⟩
    · exact ⟨rfl, rfl⟩
    · exact absurd rfl (hfl hw₂ hn₂)
    · exact absurd hl (hfl hw₁ hn₁)
    · exact hwh.name_inj g w₁ n g' w₂ m l hw₁ hn₁ hw₂ hn₂
  · intro g gr n l hg hn
    rcases hname hg hn with ⟨rfl, rfl, rfl⟩ | ⟨w, hwf, hn'⟩
    · exact hk.2
    · exact (hwh.fresh g w n l hwf hn').trans_le h.alloc.handle

/-- Drop a handle and its child. -/
theorem Wf.unbind (hw : Wf P σ) (top : Top σ x t f fr) (hrun : t.status = .runnable)
    {name : String} {k : HandleId}
    (h : Rebound σ σ' x t f fr (fr.handles.erase name) (t.handleChildren.erase k))
    (hk : fr.HasHandle name k) : Wf P σ' := by
  refine hw.rebind top hrun h ?_
  have hwh := hw.handles
  have hchild : ∀ {y v l d}, σ'.HasThread y v → v.HasChild l d →
      ∃ w, σ.HasThread y w ∧ w.HasChild l d := by
    intro y v l d hv hl
    rcases h.hasThread.mp hv with ⟨rfl, rfl⟩ | ⟨-, hv⟩
    · rw [ThreadState.HasChild, Std.ExtTreeMap.getElem?_erase] at hl
      split_ifs at hl with he
      exact ⟨t, top.thread, hl⟩
    · exact ⟨v, hv, hl⟩
  have hname : ∀ {g gr n l}, σ'.HasFrame g gr → gr.HasHandle n l →
      (g = f → n ≠ name) ∧ ∃ w, σ.HasFrame g w ∧ w.HasHandle n l := by
    intro g gr n l hg hn
    rcases h.hasFrame.mp hg with ⟨rfl, rfl⟩ | ⟨hne, hg⟩
    · rw [Frame.HasHandle, Std.ExtTreeMap.getElem?_erase] at hn
      split_ifs at hn with he
      refine ⟨fun _ hnn ↦ he (by simp [hnn]), fr, top.frame, hn⟩
    · exact ⟨fun hgf ↦ absurd hgf hne, gr, hg, hn⟩
  have hkeep : ∀ {y v}, σ.HasThread y v → ∃ w, σ'.HasThread y w ∧
      w.parentScope = v.parentScope := by
    intro y v hv
    by_cases hy : y = x
    · subst hy
      obtain rfl : v = t := Option.some.inj (hv.symm.trans top.thread)
      exact ⟨_, h.hasThread.mpr (.inl ⟨rfl, rfl⟩), rfl⟩
    · exact ⟨v, h.hasThread.mpr (.inr ⟨hy, hv⟩), rfl⟩
  constructor
  · intro y v g gr n l hv hg hgr hn
    obtain ⟨hnn, gr', hgr', hn'⟩ := hname hgr hn
    -- No other name leads to the handle that is dropped.
    have hlk : l ≠ k := by
      rintro rfl
      obtain ⟨hgf, hne⟩ := hwh.name_inj g gr' n f fr name l hgr' hn' top.frame hk
      exact hnn hgf hne
    rcases h.hasThread.mp hv with ⟨rfl, rfl⟩ | ⟨-, hv'⟩
    · obtain ⟨d, hd⟩ := hwh.bound y t g gr' n l top.thread hg hgr' hn'
      refine ⟨d, ?_⟩
      rw [ThreadState.HasChild, Std.ExtTreeMap.getElem?_erase, if_neg]
      · exact hd
      · simpa using hlk.symm
    · exact hwh.bound y v g gr' n l hv' hg hgr' hn'
  · intro y v l d hv hl
    obtain ⟨w, hwt, hl'⟩ := hchild hv hl
    obtain ⟨h₁, w', hwc, hwp⟩ := hwh.child y w l d hwt hl'
    obtain ⟨w'', hwc', hwp'⟩ := hkeep hwc
    exact ⟨h₁.trans_le h.alloc.handle, w'', hwc', hwp'.trans hwp⟩
  · intro y v l z w m d hv hl hz hm
    obtain ⟨w₁, hwt₁, hl₁⟩ := hchild hv hl
    obtain ⟨w₂, hwt₂, hl₂⟩ := hchild hz hm
    exact hwh.child_inj y w₁ l z w₂ m d hwt₁ hl₁ hwt₂ hl₂
  · intro g gr n g' gr' m l hg hn hg' hm
    obtain ⟨-, w₁, hw₁, hn₁⟩ := hname hg hn
    obtain ⟨-, w₂, hw₂, hn₂⟩ := hname hg' hm
    exact hwh.name_inj g w₁ n g' w₂ m l hw₁ hn₁ hw₂ hn₂
  · intro g gr n l hg hn
    obtain ⟨-, w, hwf, hn'⟩ := hname hg hn
    exact (hwh.fresh g w n l hwf hn').trans_le h.alloc.handle

end Binding

section Removing

/-- The records of the threads in `gone` are reclaimed. -/
structure Removed (σ σ' : MachineState) (gone : ThreadId → Prop) : Prop where
  kept : ∀ y : ThreadId, ¬ gone y → σ'.threads[y]? = σ.threads[y]?
  gone_none : ∀ y : ThreadId, gone y → σ'.threads[y]? = none
  finished : ∀ y, y ∈ σ'.finished ↔ y ∈ σ.finished ∧ ¬ gone y
  frames : σ'.store.frames = σ.store.frames
  scopes : σ'.scopes = σ.scopes
  alloc : σ'.alloc = σ.alloc
  tables : SameTables σ σ'

theorem Removed.hasThread {gone : ThreadId → Prop} (h : Removed σ σ' gone) {y : ThreadId}
    {u : ThreadState} : σ'.HasThread y u ↔ ¬ gone y ∧ σ.HasThread y u := by
  by_cases hy : gone y
  · simp [MachineState.HasThread, h.gone_none y hy, hy]
  · simp [MachineState.HasThread, h.kept y hy, hy]

/-- Finished threads that no handle leads to can be reclaimed. -/
theorem Wf.remove (hw : Wf P σ) {gone : ThreadId → Prop} (h : Removed σ σ' gone)
    (hfin : ∀ y u, gone y → σ.HasThread y u → u.status = .finished)
    (hchild : ∀ y u k c, σ.HasThread y u → u.HasChild k c → ¬ gone c) : Wf P σ' := by
  have hfrm : ∀ {g gr}, σ'.HasFrame g gr ↔ σ.HasFrame g gr := by
    intro g gr
    rw [MachineState.HasFrame, h.frames]
  have hkeep : ∀ {y u}, σ.HasThread y u → u.status ≠ .finished → ¬ gone y :=
    fun hu hne hg ↦ hne (hfin _ _ hg hu)
  have hstat : ∀ y s, s ≠ .finished → (σ'.status y = some s ↔ σ.status y = some s) := by
    intro y s hs
    simp only [MachineState.status, Option.map_eq_some_iff]
    constructor
    · rintro ⟨u, hu, rfl⟩
      exact ⟨u, (h.hasThread.mp hu).2, rfl⟩
    · rintro ⟨u, hu, rfl⟩
      exact ⟨u, h.hasThread.mpr ⟨hkeep hu hs, hu⟩, rfl⟩
  have hws := hw.stack
  refine ⟨?_, ?_, ?_, ?_, ?_, h.tables.stores hw.stores⟩
  · constructor
    · intro y u hu
      rw [h.alloc]
      exact hws.thread_id y u (h.hasThread.mp hu).2
    · intro g gr hg
      rw [h.alloc]
      exact hws.frame_id g gr (hfrm.mp hg)
    · intro g gr hg
      exact hws.function_lt g gr (hfrm.mp hg)
    · intro y u g hu hg
      rw [h.frames]
      exact hws.stack_frame y u g (h.hasThread.mp hu).2 hg
    · intro g gr hg
      obtain ⟨y, u, hu, hm⟩ := hws.frame_owner g gr (hfrm.mp hg)
      refine ⟨y, u, h.hasThread.mpr ⟨hkeep hu fun hf ↦ ?_, hu⟩, hm⟩
      rw [(hws.finished_stack y u hu).mp hf] at hm
      cases hm
    · intro y u hu
      exact hws.nodup y u (h.hasThread.mp hu).2
    · intro y u z w g hu hv hg hg'
      exact hws.disjoint y u z w g (h.hasThread.mp hu).2 (h.hasThread.mp hv).2 hg hg'
    · intro y u hu
      exact hws.finished_stack y u (h.hasThread.mp hu).2
    · intro y
      rw [h.finished, hws.finished_set]
      by_cases hy : gone y
      · simp [MachineState.status, h.gone_none y hy, hy]
      · simp [MachineState.status, h.kept y hy, hy]
    · intro y u g hu hl
      obtain ⟨gr, hg, he⟩ := hws.bottom y u g (h.hasThread.mp hu).2 hl
      exact ⟨gr, hfrm.mpr hg, he⟩
    · intro y u hu
      refine (hws.chain y u (h.hasThread.mp hu).2).imp fun a b hcall ↦ ?_
      obtain ⟨ar, br, ret, har, hbr, hret⟩ := hcall
      exact ⟨ar, br, ret, hfrm.mpr har, hfrm.mpr hbr, hret⟩
  · refine h.tables.regs hw.regs (fun y r _ ↦ hstat y _ (by simp)) fun s y ↦ ?_
    simp only [MachineState.HasScope, h.scopes]
  · constructor
    · intro g gr hg
      exact hw.code.pc_le g gr (hfrm.mp hg)
    · intro y u r hu hb
      obtain ⟨g, gr, op, hhead, hg, hop, hwt⟩ :=
        hw.code.blocked y u r (h.hasThread.mp hu).2 hb
      exact ⟨g, gr, op, hhead, hfrm.mpr hg, hop, h.tables.waits hwt⟩
  · have hwh := hw.handles
    constructor
    · intro y u g gr n k hu hg hgr hn
      exact hwh.bound y u g gr n k (h.hasThread.mp hu).2 hg (hfrm.mp hgr) hn
    · intro y u k c hu hk
      have hu' := (h.hasThread.mp hu).2
      obtain ⟨hlt, w, hwc, hp⟩ := hwh.child y u k c hu' hk
      rw [h.alloc]
      exact ⟨hlt, w, h.hasThread.mpr ⟨hchild y u k c hu' hk, hwc⟩, hp⟩
    · intro y u k z w l c hu hk hz hl
      exact hwh.child_inj y u k z w l c (h.hasThread.mp hu).2 hk (h.hasThread.mp hz).2 hl
    · intro g gr n k kr m i hg hn hk hm
      exact hwh.name_inj g gr n k kr m i (hfrm.mp hg) hn (hfrm.mp hk) hm
    · intro g gr n k hg hn
      rw [h.alloc]
      exact hwh.fresh g gr n k (hfrm.mp hg) hn
  · have hwsc := hw.scopes
    constructor
    · intro s sc hs
      rw [MachineState.HasScope, h.scopes] at hs
      rw [h.alloc]
      exact hwsc.scope_id s sc hs
    · intro y u s hu hp
      rw [h.alloc]
      exact hwsc.parent_lt y u s (h.hasThread.mp hu).2 hp
    · intro s sc hs
      rw [MachineState.HasScope, h.scopes] at hs
      obtain ⟨u, hu, hhead, hp⟩ := hwsc.owner s sc hs
      refine ⟨u, h.hasThread.mpr ⟨hkeep hu fun hf ↦ ?_, hu⟩, hhead, hp⟩
      rw [(hws.finished_stack _ u hu).mp hf] at hhead
      cases hhead
    · intro s sc y hs
      rw [MachineState.HasScope, h.scopes] at hs
      rw [hwsc.remaining s sc y hs]
      constructor
      · rintro ⟨u, hu, hp, hf⟩
        exact ⟨u, h.hasThread.mpr ⟨hkeep hu hf, hu⟩, hp, hf⟩
      · rintro ⟨u, hu, hp, hf⟩
        exact ⟨u, (h.hasThread.mp hu).2, hp, hf⟩

end Removing

section ScopeRecords

/-- The tables with the scope record `sc` entered under `s`. -/
def openScope (σ : MachineState) (s : ScopeId) (sc : ScopeState) : MachineState :=
  { σ with scopes := σ.scopes.insert s sc }

def closeScope (σ : MachineState) (s : ScopeId) : MachineState :=
  { σ with scopes := σ.scopes.erase s }

theorem hasScope_openScope {s s' : ScopeId} {sc sc' : ScopeState} :
    (openScope σ s sc).HasScope s' sc' ↔
      (s' = s ∧ sc' = sc) ∨ (s' ≠ s ∧ σ.HasScope s' sc') := by
  grind [openScope]

theorem hasScope_closeScope {s s' : ScopeId} {sc' : ScopeState} :
    (closeScope σ s).HasScope s' sc' ↔ s' ≠ s ∧ σ.HasScope s' sc' := by
  grind [closeScope]

variable (hw : Wf P σ) {s : ScopeId} {sc : ScopeState}

include hw

theorem Retabled.openScope {remaining : BTreeSet ThreadId} (top : Top σ x t f fr)
    (hrun : t.status = .runnable) (hs : s < σ.alloc.nextScope) (hno : σ.scopes[s]? = none)
    (hp : t.parentScope ≠ some s)
    (hr : ∀ y, y ∈ remaining ↔
      ∃ u, σ.HasThread y u ∧ u.parentScope = some s ∧ u.status ≠ .finished) :
    Retabled P σ (openScope σ s ⟨s, x, f, remaining⟩) x (.blocked (.scope s)) := by
  have hnot := hw.not_registered (x := x) (s := .runnable) (by rw [top.status, hrun]) (by simp)
  have hold : ∀ {s' sc'}, σ.HasScope s' sc' → s' ≠ s := fun h he ↦ by
    rw [he, MachineState.HasScope, hno] at h
    cases h
  have hreg : ∀ y r, (ConcIR.openScope σ s ⟨s, x, f, remaining⟩).registered y r ↔
      σ.registered y r ∨ (y = x ∧ r = .scope s) := by
    intro y r
    cases r with
    | scope s' =>
        simp only [MachineState.registered, hasScope_openScope]
        constructor
        · rintro ⟨sc', ⟨rfl, rfl⟩ | ⟨-, h⟩, hy⟩
          · exact .inr ⟨hy.symm, rfl⟩
          · exact .inl ⟨sc', h, hy⟩
        · rintro (⟨sc', h, hy⟩ | ⟨rfl, he⟩)
          · exact ⟨sc', .inr ⟨hold h, h⟩, hy⟩
          · exact ⟨_, .inl ⟨by simpa using he, rfl⟩, rfl⟩
    | _ => exact (or_iff_left (by simp)).symm
  refine ⟨rfl, rfl, rfl, .refl _, ?_, ?_, fun _ _ _ _ h ↦ h, hw.regs.sends_nodup,
    hw.regs.recvs_nodup, hw.regs.waiters_nodup, hw.regs.queue_nodup, ?_, { hw.stores with }⟩
  · intro y hy r
    simp [hreg, hy]
  · intro r
    simp only [hreg, hnot, false_or, true_and, ThreadStatus.blocked.injEq]
    grind [BlockReason.tabled]
  · have hws := hw.scopes
    constructor
    · intro s' sc' h
      rcases hasScope_openScope.mp h with ⟨rfl, rfl⟩ | ⟨-, h⟩
      · exact ⟨rfl, hs⟩
      · exact hws.scope_id s' sc' h
    · exact hws.parent_lt
    · intro s' sc' h
      rcases hasScope_openScope.mp h with ⟨rfl, rfl⟩ | ⟨-, h⟩
      · exact ⟨t, top.thread, top.head, hp⟩
      · exact hws.owner s' sc' h
    · intro s' sc' y h
      rcases hasScope_openScope.mp h with ⟨rfl, rfl⟩ | ⟨-, h⟩
      · exact hr y
      · exact hws.remaining s' sc' y h

theorem Retabled.closeScope (hs : σ.HasScope s sc) :
    Retabled P σ (closeScope σ s) sc.owner .runnable := by
  have hb : σ.status sc.owner = some (.blocked (.scope s)) :=
    (hw.regs.iff sc.owner (.scope s) rfl).mp ⟨sc, hs, rfl⟩
  have hiff := hw.registered_iff hb
  have hreg : ∀ y r, (ConcIR.closeScope σ s).registered y r ↔
      σ.registered y r ∧ ¬ (y = sc.owner ∧ r = .scope s) := by
    intro y r
    cases r with
    | scope s' =>
        simp only [MachineState.registered, hasScope_closeScope]
        constructor
        · rintro ⟨sc', ⟨hne, h⟩, hy⟩
          exact ⟨⟨sc', h, hy⟩, by simpa using fun _ ↦ hne⟩
        · rintro ⟨⟨sc', h, hy⟩, hn⟩
          refine ⟨sc', ⟨fun he ↦ hn ?_, h⟩, hy⟩
          subst he
          rw [Option.some.inj (hs.symm.trans h)]
          exact ⟨hy.symm, rfl⟩
    | _ => exact (and_iff_left (by simp)).symm
  refine ⟨rfl, rfl, rfl, .refl _, ?_, ?_, fun _ _ _ _ h ↦ h, hw.regs.sends_nodup,
    hw.regs.recvs_nodup, hw.regs.waiters_nodup, hw.regs.queue_nodup, ?_, { hw.stores with }⟩
  · intro y hy r
    simp [hreg, hy]
  · intro r
    rw [hreg, hiff]
    simp only [reduceCtorEq, and_false, iff_false]
    tauto
  · have hws := hw.scopes
    exact ⟨fun s' sc' h ↦ hws.scope_id s' sc' (hasScope_closeScope.mp h).2, hws.parent_lt,
      fun s' sc' h ↦ hws.owner s' sc' (hasScope_closeScope.mp h).2,
      fun s' sc' y h ↦ hws.remaining s' sc' y (hasScope_closeScope.mp h).2⟩

end ScopeRecords

end ConcIR
