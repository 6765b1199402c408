import ConcIR.Machine.Runs

/-!
# What a step does to the activations

A step works on the activation its thread executes. Elsewhere it stores a received
value, drops the handle of a join, or moves a counter past a statement that it
completes for the thread waiting there.
-/

namespace ConcIR

open MachineState

variable {E : Engine} {P : SemProgram} {σ σ' σ₁ : MachineState} {x y : ThreadId}
  {t u : ThreadState} {f g : FrameId} {fr gr : Frame} {op : SemOp}

/-- An activation with a value stored in one of its slots. -/
def Frame.put (fr : Frame) (dst : SlotRef) (v : Value) : Frame :=
  match dst with
  | .localSlot slot => { fr with locals := fr.locals.insert slot v }
  | _ => fr

/-- An activation past its statement. -/
def Frame.next (fr : Frame) : Frame := { fr with pc := fr.pc + 1 }

/-- The statement the thread stands at. -/
def Engine.statement (E : Engine) (σ : MachineState) (x : ThreadId) : Option SemOp :=
  (σ.currentFrame x).bind fun fr ↦ E.program.opAt fr.function fr.pc

section Lookups

theorem Top.currentFrameId (top : Top σ x t f fr) : σ.currentFrameId x = some f := by
  rw [MachineState.currentFrameId, show σ.threads[x]? = some t from top.thread]
  exact top.head

theorem Top.currentFrame (top : Top σ x t f fr) : σ.currentFrame x = some fr := by
  rw [MachineState.currentFrame, top.currentFrameId]
  exact top.frame

theorem Top.statement (top : Top σ x t f fr) :
    E.statement σ x = E.program.opAt fr.function fr.pc := by
  rw [Engine.statement, top.currentFrame, Option.bind_some]

theorem frames_advance (σ : MachineState) (x : ThreadId) (g : FrameId) :
    (σ.advance x).store.frames[g]? = if σ.currentFrameId x = some g
      then σ.store.frames[g]?.map Frame.next else σ.store.frames[g]? := by
  rw [MachineState.advance]
  cases σ.currentFrameId x with
  | none => simp
  | some k =>
      simp only [getElem?_modifyFrame, Option.some.injEq, eq_comm (a := k)]
      rfl

theorem frames_writeDst (σ : MachineState) (k : FrameId) (dst : SlotRef) (v : Value)
    (g : FrameId) : (σ.writeDst k dst v).store.frames[g]? = if g = k
      then σ.store.frames[g]?.map (·.put dst v) else σ.store.frames[g]? := by
  cases dst with
  | localSlot slot => exact getElem?_modifyFrame σ k g _
  | shared r =>
      simp only [writeDst, Store.writeShared, Frame.put]
      split_ifs <;> simp
  | discard => simp [writeDst, Frame.put]

theorem currentFrameId_setStatus (y : ThreadId) (st : ThreadStatus) (x : ThreadId) :
    (σ.setStatus y st).currentFrameId x = σ.currentFrameId x := by
  simp only [MachineState.currentFrameId, setStatus, getElem?_modifyThread]
  split_ifs with hxy
  · cases σ.threads[x]? <;> rfl
  · rfl

theorem currentFrameId_congr (h : σ'.threads = σ.threads) (x : ThreadId) :
    σ'.currentFrameId x = σ.currentFrameId x := by
  rw [MachineState.currentFrameId, h]
  rfl

theorem frames_complete (σ : MachineState) (y : ThreadId) (g : FrameId) :
    (Engine.complete σ y).store.frames[g]? = if σ.currentFrameId y = some g
      then σ.store.frames[g]?.map Frame.next else σ.store.frames[g]? := by
  rw [Engine.complete, frames_advance, setRunnable, currentFrameId_setStatus]
  rfl

theorem currentFrameId_complete (y x : ThreadId) :
    (Engine.complete σ y).currentFrameId x = σ.currentFrameId x := by
  rw [Engine.complete, currentFrameId_congr (advance_records _ y).1, setRunnable,
    currentFrameId_setStatus]

theorem tryWriteDst_eq {k : FrameId} {dst : SlotRef} {v : Value}
    (h : E.tryWriteDst σ k dst v = some σ₁) : σ₁ = σ.writeDst k dst v := by
  rw [Engine.tryWriteDst] at h
  split_ifs at h
  exact (Option.some.inj h).symm

/-- The activations of different threads are different. -/
theorem Wf.top_ne (hw : Wf P σ) (top : Top σ x t f fr) (hy : σ.HasThread y u) (hxy : y ≠ x)
    (hg : g ∈ u.stack) : g ≠ f := by
  rintro rfl
  exact hxy (hw.stack.disjoint y u x t g hy top.thread hg top.mem)

theorem status_advance (σ : MachineState) (x y : ThreadId) :
    (σ.advance x).status y = σ.status y := by
  rw [status, status, (advance_records σ x).1]

theorem status_complete (σ : MachineState) (x y : ThreadId) :
    (Engine.complete σ x).status y =
      if y = x then (σ.status y).map (fun _ ↦ .runnable) else σ.status y := by
  rw [Engine.complete, status_advance, setRunnable, status_setStatus]

/-- Thread `y` is let go past its statement, then `x` past its own. -/
theorem frames_handshake (hx : σ.currentFrameId x = some f) (hy : σ.currentFrameId y = some g)
    (hne : f ≠ g) (k : FrameId) :
    ((Engine.complete σ y).advance x).store.frames[k]? = if k = f ∨ k = g
      then σ.store.frames[k]?.map Frame.next else σ.store.frames[k]? := by
  rw [frames_advance, currentFrameId_complete, hx, frames_complete, hy]
  simp only [Option.some.injEq]
  by_cases hf : f = k
  · have hg : g ≠ k := fun hg ↦ hne (hf.trans hg.symm)
    simp [hf, hg]
  · simp [hf, Ne.symm hf, eq_comm (a := k)]

theorem status_handshake (σ : MachineState) (x y z : ThreadId) :
    ((Engine.complete σ y).advance x).status z =
      if z = y then (σ.status z).map (fun _ ↦ .runnable) else σ.status z := by
  rw [status_advance, status_complete]

/-- The activation a blocked thread stands in is not the running one. -/
theorem Wf.waiting_ne (hw : Wf P σ) (hrun : t.status = .runnable) (top : Top σ x t f fr)
    {r : BlockReason} (hb : σ.status y = some (.blocked r)) (topy : Top σ y u g gr) : g ≠ f := by
  refine hw.top_ne top topy.thread (fun hyx ↦ ?_) topy.mem
  rw [hyx, top.status, hrun] at hb
  cases hb

end Lookups

/-- What a step of thread `x` has made of an activation of another thread. -/
inductive Touched [FloatArith] (E : Engine) (σ : MachineState) (x : ThreadId)
    (σ' : MachineState) (g : FrameId) (gr : Frame) : Frame → Prop
  | same : Touched E σ x σ' g gr gr
  /-- The partner of a rendezvous receives. -/
  | received {y : ThreadId} {u : ThreadState} {c : ResourceId} {e : LExpr} {v : Value}
      {f : FrameId} {fr : Frame} {t : ThreadState} {dst : SlotRef} (top : Top σ x t f fr)
      (hop : E.program.opAt fr.function fr.pc = some (.channelSend c e))
      (hcap : (E.program.resource c).capacity = 0) (hv : E.evalIn σ fr e = .ok v)
      (topy : Top σ y u g gr) (hy : u.status = .blocked (.channelRecv c))
      (hopy : E.program.opAt gr.function gr.pc = some (.channelRecv c dst))
      (hrun : σ'.status y = some .runnable) : Touched E σ x σ' g gr (gr.put dst v).next
  /-- The partner of a rendezvous has sent. -/
  | sent {y : ThreadId} {u : ThreadState} {c : ResourceId} {dst : SlotRef} {e : LExpr}
      {f : FrameId} {fr : Frame} {t : ThreadState} (top : Top σ x t f fr)
      (hop : E.program.opAt fr.function fr.pc = some (.channelRecv c dst))
      (hcap : (E.program.resource c).capacity = 0)
      (topy : Top σ y u g gr) (hy : u.status = .blocked (.channelSend c))
      (hopy : E.program.opAt gr.function gr.pc = some (.channelSend c e))
      (hrun : σ'.status y = some .runnable) : Touched E σ x σ' g gr gr.next
  /-- The joiner of the thread, which has finished and is reclaimed. -/
  | joined {y : ThreadId} {u : ThreadState} {name : String} {k : HandleId}
      (hj : Joiner E.program σ x y u g gr name k) (hgone : σ'.threads[x]? = none)
      (hrun : σ'.status y = some .runnable) :
      Touched E σ x σ' g gr { gr.next with handles := gr.handles.erase name }
  /-- The owner of the scope whose last member has finished. -/
  | scope {y : ThreadId} {u t : ThreadState} {s : ScopeId} {gs : List FunctionId}
      (hx : σ.HasThread x t) (hp : t.parentScope = some s) (topy : Top σ y u g gr)
      (hy : u.status = .blocked (.scope s))
      (hopy : E.program.opAt gr.function gr.pc = some (.scope gs))
      (hgone : σ'.scopes[s]? = none) (hrun : σ'.status y = some .runnable) :
      Touched E σ x σ' g gr gr.next

section Steps

theorem recordCompletion_frames (σ : MachineState) (fn : FunctionId) :
    (E.recordCompletion σ fn).store.frames = σ.store.frames := by
  obtain ⟨m, hm⟩ := recordCompletion_eq (E := E) σ fn
  rw [hm]

theorem advance_of_current (hx : σ.currentFrameId x = some f) (hg : g ≠ f) :
    (σ.advance x).store.frames[g]? = σ.store.frames[g]? := by
  rw [frames_advance, hx, if_neg fun h ↦ hg (Option.some.inj h).symm]

theorem advance_elsewhere (top : Top σ x t f fr) (ht : σ₁.threads = σ.threads) (hg : g ≠ f) :
    (σ₁.advance x).store.frames[g]? = σ₁.store.frames[g]? :=
  advance_of_current ((currentFrameId_congr ht x).trans top.currentFrameId) hg

theorem writeDst_elsewhere (hg : g ≠ f) (dst : SlotRef) (v : Value) :
    (σ.writeDst f dst v).store.frames[g]? = σ.store.frames[g]? := by
  rw [frames_writeDst, if_neg hg]

theorem setPc_elsewhere (hg : g ≠ f) (pc : ℕ) :
    (σ.setPc f pc).store.frames[g]? = σ.store.frames[g]? := by
  rw [setPc, getElem?_modifyFrame, if_neg hg]

variable [FloatArith]

theorem Local.threads (h : Local E σ x f fr op σ') : σ'.threads = σ.threads := by
  cases h with
  | read r dst v σ₁ _ hw | load r dst v σ₁ _ hw | recv c dst v vs σ₁ _ _ hw =>
      exact (advance_records _ x).1.trans (tryWriteDst_records hw).1
  | cas r e d dst exp des old σ₁ _ _ _ _ hw =>
      refine (advance_records _ x).1.trans ?_
      split_ifs
      · exact (tryWriteDst_records hw).1
      · exact (tryWriteDst_records hw).1
  | assign target e v => exact (advance_records _ x).1.trans (writeDst_records σ f target v).1
  | skipCall g args dst _ => exact (advance_records _ x).1.trans (recordCompletion_records σ g).1
  | goto | branch | switch => rfl
  | _ => exact (advance_records _ x).1

theorem Local.elsewhere (h : Local E σ x f fr op σ') (top : Top σ x t f fr) (hg : g ≠ f) :
    σ'.store.frames[g]? = σ.store.frames[g]? := by
  cases h with
  | read r dst v σ₁ _ hw | load r dst v σ₁ _ hw =>
      rw [advance_elsewhere top (tryWriteDst_records hw).1 hg, tryWriteDst_eq hw,
        writeDst_elsewhere hg]
  | recv c dst v vs σ₁ _ _ hw =>
      have hth : (σ₁.popBuffer c).threads = σ.threads := (tryWriteDst_records hw).1
      rw [advance_elsewhere top hth hg]
      rw [tryWriteDst_eq hw]
      exact writeDst_elsewhere hg dst v
  | cas r e d dst exp des old σ₁ _ _ _ _ hw =>
      split_ifs
      · have hth : (σ₁.setAtomic r des).threads = σ.threads := (tryWriteDst_records hw).1
        rw [advance_elsewhere top hth hg]
        rw [tryWriteDst_eq hw]
        exact writeDst_elsewhere hg dst old
      · rw [advance_elsewhere top (tryWriteDst_records hw).1 hg, tryWriteDst_eq hw,
          writeDst_elsewhere hg]
  | assign target e v =>
      rw [advance_elsewhere top (writeDst_records σ f target v).1 hg, writeDst_elsewhere hg]
  | skipCall k args dst _ =>
      rw [advance_elsewhere top (recordCompletion_records σ k).1 hg, recordCompletion_frames]
  | goto target | branch c t e b _ | switch e cs d v target _ _ => exact setPc_elsewhere hg _
  | nop | notifyMiss => exact advance_elsewhere top rfl hg
  | write r e v | store r e v | lock r | unlock r | send c e v | acquire r n k
  | release r n k m => exact advance_elsewhere top rfl hg

theorem Blocks.frames {r : BlockReason} (h : Blocks E σ x fr op r σ') :
    σ'.store.frames = σ.store.frames := by
  cases h <;> rfl

theorem Blocks.threads {r : BlockReason} (h : Blocks E σ x fr op r σ') :
    σ'.threads = σ.threads := by
  cases h <;> rfl

omit [FloatArith] in
theorem Resumes.threads {r : BlockReason} (h : Resumes E σ x f fr r σ') :
    σ'.threads = σ.threads := by
  cases h with
  | recv c dst v vs σ₁ _ _ _ hw => exact (tryWriteDst_records hw).1
  | _ => rfl

omit [FloatArith] in
theorem Resumes.elsewhere {r : BlockReason} (h : Resumes E σ x f fr r σ')
    (top : Top σ x t f fr) (hg : g ≠ f) :
    (Engine.complete σ' x).store.frames[g]? = σ.store.frames[g]? := by
  rw [frames_complete, currentFrameId_congr h.threads, top.currentFrameId,
    if_neg fun he ↦ hg (Option.some.inj he).symm]
  cases h with
  | recv c dst v vs σ₁ _ _ _ hw =>
      rw [tryWriteDst_eq hw]
      exact writeDst_elsewhere hg dst v
  | _ => rfl

end Steps

section Touching

variable [FloatArith]

/-- An untouched activation. -/
theorem touched_same (hgr : σ.HasFrame g gr)
    (h : σ'.store.frames[g]? = σ.store.frames[g]?) :
    ∃ gr', σ'.HasFrame g gr' ∧ Touched E σ x σ' g gr gr' :=
  ⟨gr, h.trans hgr, .same⟩

omit [FloatArith] in
theorem Top.of_marked {fn : FunctionId} {pc : ℕ} (top : Top (σ.markReached fn pc) x t f fr) :
    Top σ x t f fr :=
  ⟨top.thread, top.head, top.frame⟩

theorem Touched.of_marked {gr' : Frame} {fn : FunctionId} {pc : ℕ}
    (h : Touched E (σ.markReached fn pc) x σ' g gr gr') : Touched E σ x σ' g gr gr' := by
  cases h with
  | same => exact .same
  | received top hop hcap hv topy hy hopy hrun =>
      exact .received top.of_marked hop hcap hv topy.of_marked hy hopy hrun
  | sent top hop hcap topy hy hopy hrun =>
      exact .sent top.of_marked hop hcap topy.of_marked hy hopy hrun
  | joined hj hgone hrun =>
      exact .joined ⟨hj.top.of_marked, hj.status, hj.op, hj.handle, hj.child⟩ hgone hrun
  | scope hx hp topy hy hopy hgone hrun =>
      exact .scope hx hp topy.of_marked hy hopy hgone hrun

omit [FloatArith] in
theorem notifyAll_frames (ws : List (ThreadId × ResourceId)) (σ : MachineState) :
    (ws.foldl (fun σ w ↦ σ.block w.1 (.lock w.2)) σ).store = σ.store := by
  induction ws generalizing σ with
  | nil => rfl
  | cons w ws ih => exact ih _

omit [FloatArith] in
theorem currentFrameId_notifyAll (ws : List (ThreadId × ResourceId)) (σ : MachineState)
    (x : ThreadId) : (ws.foldl (fun σ w ↦ σ.block w.1 (.lock w.2)) σ).currentFrameId x =
      σ.currentFrameId x := by
  induction ws generalizing σ with
  | nil => rfl
  | cons w ws ih => exact (ih _).trans (currentFrameId_setStatus _ _ _)

theorem Pairs.touched (hw : Wf E.program σ) (top : Top σ x t f fr)
    (hrun : t.status = .runnable) (hop : E.program.opAt fr.function fr.pc = some op) (h : Pairs E σ x f fr op σ')
    (hgf : g ≠ f) (hgr : σ.HasFrame g gr) :
    ∃ gr', σ'.HasFrame g gr' ∧ Touched E σ x σ' g gr gr' := by
  have hcur := top.currentFrameId
  cases h with
  | send c e v z uz k kr dst σ₁ hv _ hcap hz topz hopz hwr =>
      have hb := hw.mem_recvs c hz
      have hth : (σ₁.dropRecv c z).threads = σ.threads := (tryWriteDst_records hwr).1
      have hcx := (currentFrameId_congr hth x).trans hcur
      have hcz := (currentFrameId_congr hth z).trans topz.currentFrameId
      have hne : f ≠ k := (hw.waiting_ne hrun top hb topz).symm
      by_cases hk : g = k
      · subst hk
        obtain rfl : gr = kr := Option.some.inj (hgr.symm.trans topz.frame)
        refine ⟨(gr.put dst v).next, ?_, .received top hop hcap hv topz ?_ hopz ?_⟩
        · rw [HasFrame, frames_handshake hcx hcz hne, if_pos (.inr rfl)]
          change (σ₁.store.frames[g]?).map Frame.next = _
          rw [tryWriteDst_eq hwr, frames_writeDst, if_pos rfl, hgr]
          rfl
        · rw [topz.status] at hb
          exact Option.some.inj hb
        · rw [status_handshake, if_pos rfl, status, hth,
            show σ.threads[z]? = some uz from topz.thread]
          rfl
      · refine touched_same hgr ?_
        rw [frames_handshake hcx hcz hne, if_neg (not_or.mpr ⟨hgf, hk⟩)]
        change σ₁.store.frames[g]? = _
        rw [tryWriteDst_eq hwr, writeDst_elsewhere hk]
  | recv c dst p σ₁ hcap hp hwr =>
      have hb := hw.mem_sends c hp
      obtain ⟨uz, k, kr, opz, topz, hst, hopz, e, rfl⟩ := hw.blocked_thread hb
      have hth : (σ₁.dropSend c p.thread).threads = σ.threads := (tryWriteDst_records hwr).1
      have hcx := (currentFrameId_congr hth x).trans hcur
      have hcz := (currentFrameId_congr hth p.thread).trans topz.currentFrameId
      have hne : f ≠ k := (hw.waiting_ne hrun top hb topz).symm
      have hfr : (σ₁.dropSend c p.thread).store.frames[g]? = some gr := by
        change σ₁.store.frames[g]? = _
        rw [tryWriteDst_eq hwr, writeDst_elsewhere hgf]
        exact hgr
      by_cases hk : g = k
      · subst hk
        obtain rfl : gr = kr := Option.some.inj (hgr.symm.trans topz.frame)
        refine ⟨gr.next, ?_, .sent top hop hcap topz hst hopz ?_⟩
        · rw [HasFrame, frames_handshake hcx hcz hne, if_pos (.inr rfl), hfr]
          rfl
        · rw [status_handshake, if_pos rfl, status, hth,
            show σ.threads[p.thread]? = some uz from topz.thread]
          rfl
      · refine touched_same hgr ?_
        rw [frames_handshake hcx hcz hne, if_neg (not_or.mpr ⟨hgf, hk⟩), hfr]
        exact hgr.symm
  | notify cv w _ =>
      exact touched_same hgr
        (advance_of_current ((currentFrameId_setStatus _ _ _).trans hcur) hgf)
  | notifyAll cv =>
      refine touched_same hgr ((advance_of_current (f := f) ?_ hgf).trans ?_)
      · exact (currentFrameId_notifyAll _ _ _).trans hcur
      · rw [notifyAll_frames]
        rfl

/-- Only activations of threads that wait are touched. -/
theorem Touched.eq_of_own {gr' : Frame} (hw : Wf P σ) (hx : σ.HasThread x t)
    (hrun : t.status = .runnable) (hg : g ∈ t.stack) (h : Touched E σ x σ' g gr gr') :
    gr' = gr := by
  have hno : ∀ {y u r}, Top σ y u g gr → u.status ≠ .blocked r := by
    intro y u r topy hb
    obtain rfl := hw.stack.disjoint y u x t g topy.thread hx topy.mem hg
    rw [Option.some.inj (topy.thread.symm.trans hx), hrun] at hb
    cases hb
  cases h with
  | same => rfl
  | received _ _ _ _ topy hy => exact absurd hy (hno topy)
  | sent _ _ _ topy hy => exact absurd hy (hno topy)
  | joined hj => exact absurd hj.status (hno hj.top)
  | scope _ _ topy hy => exact absurd hy (hno topy)

theorem Creates.kept (hw : Wf E.program σ) (top : Top σ x t f fr)
    (hrun : t.status = .runnable) (hop : E.program.opAt fr.function fr.pc = some op)
    (h : Creates E σ x t f fr op σ') (hg : g ≠ f) (hgr : σ.HasFrame g gr) :
    σ'.HasFrame g gr := by
  have hok := SemProgram.opAt_ok hop
  cases h with
  | call k args dst values _ _ _ =>
      have hne : g ≠ σ.alloc.nextFrame := (hw.stack.frame_id g gr hgr).2.ne
      change (σ.store.frames.insert σ.alloc.nextFrame _)[g]? = some gr
      rwa [Std.ExtTreeMap.getElem?_insert, if_neg fun he ↦ hne (Nat.compare_eq_eq.mp he).symm]
  | spawn k handle child σ₁ _ hc =>
      have hlt : k < E.program.functions.length := of_decide_eq_true hok
      obtain ⟨v, new, hst, rfl, -, -, -⟩ := createThread_started hlt (by simp) hc
      have top₁ := top.started hw hst
      have hre := rebound_bindHandle top₁ handle v.id
      have hr := hre.ready top₁ hrun (SemProgram.opAt_lt hop)
      rw [HasFrame, hr.advance_eq, getElem?_modifyFrame, if_neg hg]
      exact hre.hasFrame.mpr (.inr ⟨hg, hst.oldFrame hw hgr⟩)
  | scopeDone gs σ₁ _ _ hc =>
      have hm := hw.members hok hc
      have top₁ : Top σ₁ x t f fr :=
        ⟨hm.old x t top.thread, top.head, hm.oldFrame f fr top.frame⟩
      refine (advance_of_current (f := f) ?_ hg).trans (hm.oldFrame g gr hgr)
      exact (currentFrameId_congr rfl x).trans top₁.currentFrameId
  | scope gs σ₁ remaining _ _ hc _ =>
      exact (hw.members hok hc).oldFrame g gr hgr
  | join name k c _ _ hf =>
      have hre := rebound_drop top name k
      have hne : x ≠ c := by
        rintro rfl
        have hfin := (hw.stack.finished_set x).mp hf
        rw [top.status, hrun] at hfin
        cases hfin
      have hx : (Engine.consumeJoin σ x f name k c).HasThread x
          { t with handleChildren := t.handleChildren.erase k } :=
        (removed_reclaim c).hasThread.mpr ⟨hne, hre.hasThread.mpr (.inl ⟨rfl, rfl⟩)⟩
      have hcur : (Engine.consumeJoin σ x f name k c).currentFrameId x = some f := by
        rw [MachineState.currentFrameId, hx]
        exact top.head
      exact (advance_of_current hcur hg).trans (hre.hasFrame.mpr (.inr ⟨hg, hgr⟩))

end Touching

section Returning

/-- A return to a calling activation: the callee's activation goes, the caller goes on
behind its call, and only the destination of that call is written. -/
structure ReturnedTo (σ σ' : MachineState) (x : ThreadId) (t : ThreadState) (f : FrameId)
    (fr : Frame) (caller : FrameId) (fc : Frame) (ret : RetAddr) (val : Option Value) :
    Prop where
  address : fr.ret = some ret
  below : σ.HasFrame caller fc
  ne : caller ≠ f
  threads : ∀ y : ThreadId, σ'.threads[y]? =
    if y = x then some { t with stack := t.stack.tail } else σ.threads[y]?
  frames : ∀ g : FrameId, σ'.store.frames[g]? =
    if g = f then none
    else if g = caller then
      some { (val.map (fc.put ret.dst)).getD fc with pc := ret.pcNext }
    else σ.store.frames[g]?
  shared : ∀ r : ResourceId, (val.isNone ∨ ret.dst ≠ .shared r) →
    σ'.store.vars[r]? = σ.store.vars[r]? ∧ σ'.store.atomics[r]? = σ.store.atomics[r]?
  tables : σ'.store.mutexes = σ.store.mutexes ∧ σ'.store.semaphores = σ.store.semaphores ∧
    σ'.store.channels = σ.store.channels ∧ σ'.store.condvars = σ.store.condvars ∧
      σ'.semWaiters = σ.semWaiters ∧ σ'.scopes = σ.scopes

theorem shared_writeDst {k : FrameId} {dst : SlotRef} {v : Value} {r : ResourceId}
    (h : dst ≠ .shared r) : (σ.writeDst k dst v).store.vars[r]? = σ.store.vars[r]? ∧
      (σ.writeDst k dst v).store.atomics[r]? = σ.store.atomics[r]? := by
  cases dst with
  | shared q =>
      have hq : q ≠ r := fun he ↦ h (he ▸ rfl)
      simp only [writeDst, Store.writeShared]
      split_ifs
      · simp [Std.ExtTreeMap.getElem?_insert, hq]
      · simp [Std.ExtTreeMap.getElem?_insert, hq]
  | _ => exact ⟨rfl, rfl⟩

theorem Wf.returnedTo (hw : Wf E.program σ) (top : Top σ x t f fr)
    (hrun : t.status = .runnable) {caller : FrameId} {rest : List FrameId}
    (hst : t.stack = f :: caller :: rest) (val : Option Value) :
    ∃ fc ret, ReturnedTo σ (E.returnTo σ x f caller fr val) x t f fr caller fc ret val := by
  have hu := unwound_popFrame top hrun hst
  have hchain := hw.stack.chain x t top.thread
  rw [hst, List.isChain_cons_cons] at hchain
  obtain ⟨fr', fc, ret, hfr', hfc, hret, -, -⟩ := hchain.1
  obtain rfl : fr = fr' := Option.some.inj (top.frame.symm.trans hfr')
  have hne : caller ≠ f := fun he ↦ by
    have := hw.stack.nodup x t top.thread
    simp [hst, he] at this
  refine ⟨fc, ret, ?_⟩
  have hcf : (Engine.popFrame σ x f).store.frames[caller]? = some fc :=
    hu.hasFrame.mpr ⟨hne, hfc⟩
  have htail : t.stack.tail = caller :: rest := by rw [hst]; rfl
  obtain ⟨m, hm⟩ : ∃ m, E.returnTo σ x f caller fr val =
      { ((val.map ((Engine.popFrame σ x f).writeDst caller ret.dst)).getD
          (Engine.popFrame σ x f)).setPc caller ret.pcNext with completedFunctions := m } := by
    simp only [Engine.returnTo, hret]
    cases val <;> exact recordCompletion_eq _ _
  have hpop : ∀ g : FrameId, (Engine.popFrame σ x f).store.frames[g]? =
      if g = f then none else σ.store.frames[g]? := hu.frames
  have hthr : ∀ y : ThreadId, (Engine.popFrame σ x f).threads[y]? =
      if y = x then some { t with stack := t.stack.tail } else σ.threads[y]? := by
    intro y
    rw [hu.threads, htail, ← hrun]
  rw [hm]
  clear hm hu
  cases val with
  | none =>
      refine ⟨hret, hfc, hne, hthr, fun g ↦ ?_, fun r _ ↦ ⟨rfl, rfl⟩,
        ⟨rfl, rfl, rfl, rfl, rfl, rfl⟩⟩
      change ((Engine.popFrame σ x f).setPc caller ret.pcNext).store.frames[g]? = _
      rw [setPc, getElem?_modifyFrame]
      split_ifs with hg₁ hg₂ hg₂
      · exact absurd (hg₁.symm.trans hg₂) hne
      · rw [hg₁, hcf]
        rfl
      · rw [hpop, if_pos hg₂]
      · rw [hpop, if_neg hg₂]
  | some v =>
      have hrec := writeDst_records (Engine.popFrame σ x f) caller ret.dst v
      refine ⟨hret, hfc, hne, fun y ↦ ?_, fun g ↦ ?_, fun r hr ↦ ?_, ?_⟩
      · change (((Engine.popFrame σ x f).writeDst caller ret.dst v).setPc caller
          ret.pcNext).threads[y]? = _
        rw [← hthr, ← hrec.1]
        rfl
      · change (((Engine.popFrame σ x f).writeDst caller ret.dst v).setPc caller
          ret.pcNext).store.frames[g]? = _
        rw [setPc, getElem?_modifyFrame, frames_writeDst]
        split_ifs with hg₁ hg₂ hg₂
        · exact absurd (hg₁.symm.trans hg₂) hne
        · rw [hg₁, hcf]
          rfl
        · rw [hpop, if_pos hg₂]
        · rw [hpop, if_neg hg₂]
      · have hdst : ret.dst ≠ .shared r := by simpa using hr
        exact shared_writeDst (σ := Engine.popFrame σ x f) hdst
      · have hst' : ∀ σ : MachineState, (σ.writeDst caller ret.dst v).store.mutexes =
            σ.store.mutexes ∧ (σ.writeDst caller ret.dst v).store.semaphores =
            σ.store.semaphores ∧ (σ.writeDst caller ret.dst v).store.channels =
            σ.store.channels ∧ (σ.writeDst caller ret.dst v).store.condvars =
            σ.store.condvars ∧ (σ.writeDst caller ret.dst v).semWaiters = σ.semWaiters ∧
            (σ.writeDst caller ret.dst v).scopes = σ.scopes := by
          intro σ
          cases ret.dst with
          | shared r =>
              simp only [writeDst, Store.writeShared]
              split_ifs <;> simp
          | _ => exact ⟨rfl, rfl, rfl, rfl, rfl, rfl⟩
        exact hst' (Engine.popFrame σ x f)

/-- The owner of a scope waits for it. -/
theorem Wf.owner (hw : Wf P σ) {s : ScopeId} {sc : ScopeState} (hs : σ.HasScope s sc) :
    ∃ u gr gs, Top σ sc.owner u sc.ownerFrame gr ∧ u.status = .blocked (.scope s) ∧
      P.opAt gr.function gr.pc = some (.scope gs) := by
  obtain ⟨t, ht, hhead, -⟩ := hw.scopes.owner s sc hs
  have hb := (hw.regs.iff sc.owner (.scope s) rfl).mp ⟨sc, hs, rfl⟩
  obtain ⟨u, f, fr, op, top, hst, hop, gs, rfl⟩ := hw.blocked_thread hb
  obtain rfl : t = u := Option.some.inj (ht.symm.trans top.thread)
  obtain rfl : f = sc.ownerFrame := Option.some.inj (top.head.symm.trans hhead)
  exact ⟨t, fr, gs, top, hst, hop⟩

/-- What the end of a thread makes of an activation, as far as its scope goes. -/
theorem Settled.frame (hw : Wf P σ) {parent : Option ScopeId} (h : Settled σ parent σ')
    (hgr : σ.HasFrame g gr) : σ'.HasFrame g gr ∨
      ∃ s sc, parent = some s ∧ σ.HasScope s sc ∧ sc.ownerFrame = g ∧ σ'.HasFrame g gr.next ∧
        σ'.scopes[s]? = none ∧ σ'.status sc.owner = some .runnable := by
  cases h with
  | stay _ => exact .inl hgr
  | @scope s sc hp hs hrem =>
      obtain ⟨-, k, hr⟩ := hw.wakeOwner hs
      obtain ⟨u, kr, gs, top, hst, -⟩ := hw.owner hs
      have hrm := removed_completeScope hr
      have hcur : ((closeScope σ s).setRunnable sc.owner).currentFrameId sc.owner =
          some sc.ownerFrame :=
        (currentFrameId_setStatus _ _ _).trans top.currentFrameId
      have hfr : (Engine.completeScope σ s sc).store.frames[g]? = if sc.ownerFrame = g
          then some gr.next else some gr := by
        rw [hrm.frames, ConcIR.wakeOwner, frames_advance, hcur]
        simp only [Option.some.injEq]
        rw [show ((closeScope σ s).setRunnable sc.owner).store.frames[g]? = some gr from hgr]
        rfl
      by_cases hg : sc.ownerFrame = g
      · refine .inr ⟨s, sc, hp, hs, hg, by rw [HasFrame, hfr, if_pos hg], ?_, ?_⟩
        · rw [hrm.scopes, ConcIR.wakeOwner, (advance_records _ _).2.1]
          simp [closeScope, setRunnable, setStatus, modifyThread]
        · obtain ⟨t, ht, -, hne⟩ := hw.scopes.owner s sc hs
          have hx : (Engine.completeScope σ s sc).HasThread sc.owner
              { t with status := .runnable } :=
            (hasThread_completeScope hw hs).mpr ⟨hne, .inl ⟨rfl, t, ht, rfl⟩⟩
          rw [status, hx]
          rfl
      · exact .inl (by rw [HasFrame, hfr, if_neg hg])

theorem Settled.waiting (hw : Wf P σ) {parent : Option ScopeId} (h : Settled σ parent σ')
    (hx : σ'.HasThread x t) (hne : t.status ≠ .runnable) : σ.HasThread x t := by
  cases h with
  | stay _ => exact hx
  | scope _ hs _ =>
      rcases ((hasThread_completeScope hw hs).mp hx).2 with ⟨-, v, -, rfl⟩ | ⟨-, hx⟩
      · exact absurd rfl hne
      · exact hx

/-- What the end of thread `x` makes of an activation, as far as its joiner goes. -/
theorem Woken.frame (hx : ∀ u, σ.HasThread x u → u.status = .finished)
    (h : Woken P σ x σ') (hgr : σ.HasFrame g gr) :
    (σ'.HasFrame g gr ∨ ∃ j t name k, Joiner P σ x j t g gr name k ∧
      σ'.HasFrame g { gr.next with handles := gr.handles.erase name } ∧
        σ'.threads[x]? = none ∧ σ'.status j = some .runnable) ∧
      σ'.scopes = σ.scopes ∧
        ∀ y, σ.status y = some .runnable → σ'.status y = some .runnable := by
  cases h with
  | nobody _ => exact ⟨.inl hgr, rfl, fun _ ↦ id⟩
  | @joiner j t f fr name k hj =>
      have hrm := removed_reclaim (σ := (unjoin σ j f name k).advance j) x
      have hne : j ≠ x := by
        rintro rfl
        have := hx t hj.top.thread
        simp [hj.status] at this
      have hst : ∀ y, y ≠ x → (Engine.reclaim ((unjoin σ j f name k).advance j) x).status y =
          if y = j then some .runnable else σ.status y := by
        intro y hy
        rw [status, hrm.kept y hy, ← status, status_advance, hj.rebound.status hj.top_runnable,
          setRunnable, status_setStatus]
        split_ifs with hyj
        · rw [hyj, hj.top.status]
          rfl
        · rfl
      refine ⟨?_, ?_, fun y hy ↦ ?_⟩
      · by_cases hg : g = f
        · subst hg
          obtain rfl : gr = fr := Option.some.inj (hgr.symm.trans hj.top.frame)
          refine .inr ⟨j, t, name, k, hj, ?_, hrm.gone_none x rfl, ?_⟩
          · rw [HasFrame, hrm.frames, hj.ready.advance_eq, getElem?_modifyFrame, if_pos rfl,
              hj.rebound.hasFrame.mpr (.inl ⟨rfl, rfl⟩)]
            rfl
          · rw [hst j hne, if_pos rfl]
        · left
          rw [HasFrame, hrm.frames, hj.ready.advance_eq, getElem?_modifyFrame, if_neg hg]
          exact hj.rebound.hasFrame.mpr (.inr ⟨hg, hgr⟩)
      · rw [hrm.scopes, (advance_records _ j).2.1]
        rfl
      · have hyx : y ≠ x := by
          rintro rfl
          obtain ⟨u, hu, hr⟩ := Option.map_eq_some_iff.mp hy
          rw [hx u hu] at hr
          cases hr
        rw [hst y hyx]
        split_ifs
        · rfl
        · exact hy

variable [FloatArith]

/-- Elsewhere, the end of a thread completes a scope or a join, at most. -/
theorem Wf.touched_finish (hw : Wf E.program σ) (top : Top σ x t f fr)
    (hrun : t.status = .runnable) (hst : t.stack = [f]) (fn : FunctionId)
    (hy : σ.HasThread y u) (hxy : y ≠ x) (hg : g ∈ u.stack) (hgr : σ.HasFrame g gr) :
    ∃ gr', (E.finishThread (Engine.popFrame σ x f) x fn).HasFrame g gr' ∧
      Touched E σ x (E.finishThread (Engine.popFrame σ x f) x fn) g gr gr' := by
  have hgf := hw.top_ne top hy hxy hg
  have hu := unwound_leave (E := E) top hst fn
  have hw₁ := hw.unwind top hrun hst (by simp) hu
  obtain ⟨σ₁, hse, heq⟩ := finishThread_settled (E := E) top fn
  obtain ⟨hw₂, hx₂⟩ := hse.wf hw₁ fun u ↦ finished_unwound hu
  have hwk := hw₂.woken x
  rw [heq]
  generalize leave (retire E σ x f fn) x t.parentScope = τ at hu hw₁ hse
  generalize E.wakeJoiners σ₁ x = σ₂ at hwk
  have hgτ : τ.HasFrame g gr := hu.hasFrame.mpr ⟨hgf, hgr⟩
  have hback : ∀ {z v}, τ.HasThread z v → v.status ≠ .finished → σ.HasThread z v := by
    intro z v hz hne
    rcases hu.hasThread.mp hz with ⟨rfl, rfl⟩ | ⟨-, hz⟩
    · exact absurd rfl hne
    · exact hz
  rcases hse.frame hw₁ hgτ with hg₁ | ⟨s, sc, hp, hs, rfl, hg₁, hgone, hown⟩
  · rcases (hwk.frame hx₂ hg₁).1 with hg₂ | ⟨j, v, name, k, hj, hg₂, hgone, hjrun⟩
    · exact ⟨gr, hg₂, .same⟩
    · have hjτ := hse.waiting hw₁ hj.top.thread (by simp [hj.status])
      have hjσ := hback hjτ (by simp [hj.status])
      exact ⟨_, hg₂, .joined ⟨⟨hjσ, hj.top.head, hgr⟩, hj.status, hj.op, hj.handle, hj.child⟩
        hgone hjrun⟩
  · obtain ⟨v, kr, gs, topo, hsto, hopo⟩ := hw₁.owner hs
    obtain rfl : gr = kr := Option.some.inj (hgτ.symm.trans topo.frame)
    obtain ⟨hfr₂, hsc₂, hrun₂⟩ := hwk.frame hx₂ hg₁
    rcases hfr₂ with hg₂ | ⟨j, w, name, k, hj, -⟩
    · have hoσ := hback topo.thread (by simp [hsto])
      exact ⟨_, hg₂, .scope top.thread hp ⟨hoσ, topo.head, hgr⟩ hsto hopo
        (by rw [hsc₂, hgone]) (hrun₂ _ hown)⟩
    · -- The owner of the scope is no joiner.
      have hjτ := hse.waiting hw₁ hj.top.thread (by simp [hj.status])
      obtain rfl := hw₁.stack.disjoint j w sc.owner v sc.ownerFrame hjτ topo.thread hj.top.mem
        topo.mem
      have hsj := hj.status
      rw [Option.some.inj (hjτ.symm.trans topo.thread), hsto] at hsj
      cases hsj

omit [FloatArith] in
theorem Settled.contains (hw : Wf P σ) {parent : Option ScopeId} (h : Settled σ parent σ')
    (g : FrameId) : σ'.store.frames.contains g = σ.store.frames.contains g := by
  cases h with
  | stay _ => rfl
  | @scope s sc hp hs hrem =>
      obtain ⟨-, k, hr⟩ := hw.wakeOwner hs
      rw [(removed_completeScope hr).frames, ConcIR.wakeOwner, hr.quiet_advance.frames.contains]
      rfl

omit [FloatArith] in
theorem Woken.contains (h : Woken P σ x σ') (g : FrameId) :
    σ'.store.frames.contains g = σ.store.frames.contains g := by
  cases h with
  | nobody _ => rfl
  | @joiner j t f fr name k hj =>
      rw [(removed_reclaim x).frames, hj.ready.quiet_advance.frames.contains,
        (hj.rebound.sameFrames hj.top_runnable).contains]
      rfl

omit [FloatArith] in
theorem Wf.contains_finish (hw : Wf E.program σ) (top : Top σ x t f fr)
    (hrun : t.status = .runnable) (hst : t.stack = [f]) (fn : FunctionId) (g : FrameId) :
    (E.finishThread (Engine.popFrame σ x f) x fn).store.frames.contains g =
      (decide (g ≠ f) && σ.store.frames.contains g) := by
  have hu := unwound_leave (E := E) top hst fn
  have hw₁ := hw.unwind top hrun hst (by simp) hu
  obtain ⟨σ₁, hse, heq⟩ := finishThread_settled (E := E) top fn
  obtain ⟨hw₂, -⟩ := hse.wf hw₁ fun u ↦ finished_unwound hu
  rw [heq, (hw₂.woken x).contains, hse.contains hw₁,
    Std.ExtTreeMap.contains_eq_isSome_getElem?, hu.frames,
    Std.ExtTreeMap.contains_eq_isSome_getElem?]
  split_ifs with hg <;> simp [hg]

omit [FloatArith] in
theorem ReturnedTo.contains {caller : FrameId} {fc : Frame} {ret : RetAddr}
    {val : Option Value} (h : ReturnedTo σ σ' x t f fr caller fc ret val) (g : FrameId) :
    σ'.store.frames.contains g = (decide (g ≠ f) && σ.store.frames.contains g) := by
  have hc : σ.store.frames[caller]? = some fc := h.below
  rw [Std.ExtTreeMap.contains_eq_isSome_getElem?, h.frames,
    Std.ExtTreeMap.contains_eq_isSome_getElem?]
  split_ifs with hg hg'
  · simp [hg]
  · simp [hg', hc, h.ne]
  · simp [hg]

end Returning

section Stepping

variable [FloatArith]

/-- The thread is about to return from its running activation. -/
def Engine.Returning (E : Engine) (σ : MachineState) (x : ThreadId) : Prop :=
  σ.status x = some .runnable ∧ (E.statement σ x = none ∨ ∃ e, E.statement σ x = some (.return e))

/-- What a step of thread `x` does to the activations of a machine. -/
structure ActivationStep (E : Engine) (σ : MachineState) (x : ThreadId) (σ' : MachineState) :
    Prop where
  /-- Activations of other threads. -/
  foreign : ∀ y u g gr, σ.HasThread y u → y ≠ x → g ∈ u.stack → σ.HasFrame g gr →
    ∃ gr', σ'.HasFrame g gr' ∧ Touched E σ x σ' g gr gr'
  /-- Activations below the running one. -/
  below : ∀ t f fr g gr, Top σ x t f fr → g ∈ t.stack → g ≠ f → σ.HasFrame g gr →
    σ'.HasFrame g gr ∨ (E.Returning σ x ∧ t.stack[1]? = some g)
  /-- A return drops the running activation and no other, and writes only what the
  call it returns from names as its destination. -/
  returns : ∀ t f fr, Top σ x t f fr → E.Returning σ x →
    (∀ g, σ'.store.frames.contains g = (decide (g ≠ f) && σ.store.frames.contains g)) ∧
      ∀ caller, t.stack[1]? = some caller →
        ∃ fc ret val, ReturnedTo σ σ' x t f fr caller fc ret val

theorem ActivationStep.of_marked {fn : FunctionId} {pc : ℕ}
    (h : ActivationStep E (σ.markReached fn pc) x σ') : ActivationStep E σ x σ' where
  foreign y u g gr hy hxy hg hgr := by
    obtain ⟨gr', hgr', ht⟩ := h.foreign y u g gr hy hxy hg hgr
    exact ⟨gr', hgr', ht.of_marked⟩
  below t f fr g gr top := h.below t f fr g gr ⟨top.thread, top.head, top.frame⟩
  returns t f fr top hret := by
    obtain ⟨hc, hto⟩ := h.returns t f fr ⟨top.thread, top.head, top.frame⟩ hret
    refine ⟨hc, fun caller hcaller ↦ ?_⟩
    obtain ⟨fc, ret, val, hr⟩ := hto caller hcaller
    exact ⟨fc, ret, val, hr.address, hr.below, hr.ne, hr.threads, hr.frames, hr.shared, hr.tables⟩

theorem activationStep_applyReturn (hw : Wf E.program σ) (top : Top σ x t f fr)
    (hrun : t.status = .runnable) {val : Option Value}
    (hret : E.Returning σ x) (h : E.applyReturn σ x f fr val = some σ') :
    ActivationStep E σ x σ' := by
  have htop : ∀ {t' f' fr'}, Top σ x t' f' fr' → t' = t ∧ f' = f ∧ fr' = fr := by
    intro t' f' fr' top'
    obtain rfl : t = t' := Option.some.inj (top.thread.symm.trans top'.thread)
    obtain rfl : f = f' := Option.some.inj (top.head.symm.trans top'.head)
    exact ⟨rfl, rfl, Option.some.inj (top'.frame.symm.trans top.frame)⟩
  have hstk : (σ.threads[x]?.map (·.stack)).bind (·[1]?) = t.stack[1]? := by
    rw [show σ.threads[x]? = some t from top.thread]
    rfl
  obtain ⟨rest, hrest⟩ := List.head?_eq_some_iff.mp top.head
  rw [Engine.applyReturn, hstk] at h
  split_ifs at h
  cases rest with
  | nil =>
      rw [hrest] at h
      obtain rfl := Option.some.inj h
      refine ⟨fun y u g gr ↦ hw.touched_finish top hrun hrest fr.function, ?_, ?_⟩
      · intro t' f' fr' g gr top' hg hne _
        obtain ⟨rfl, rfl, rfl⟩ := htop top'
        rw [hrest] at hg
        exact absurd (List.mem_singleton.mp hg) hne
      · intro t' f' fr' top' _
        obtain ⟨rfl, rfl, rfl⟩ := htop top'
        exact ⟨hw.contains_finish top hrun hrest _, by simp [hrest]⟩
  | cons caller rest =>
      rw [hrest] at h
      obtain rfl := Option.some.inj h
      obtain ⟨fc, ret, hr⟩ := hw.returnedTo top hrun hrest val
      have hcmem : caller ∈ t.stack := by simp [hrest]
      refine ⟨fun y u g gr hy hxy hg hgr ↦ ?_, ?_, ?_⟩
      · have hgc : g ≠ caller := by
          rintro rfl
          exact hxy (hw.stack.disjoint y u x t g hy top.thread hg hcmem)
        refine touched_same hgr ?_
        rw [hr.frames, if_neg (hw.top_ne top hy hxy hg), if_neg hgc]
      · intro t' f' fr' g gr top' _ hne hgr
        obtain ⟨rfl, rfl, rfl⟩ := htop top'
        by_cases hgc : g = caller
        · exact .inr ⟨hret, by simp [hrest, hgc]⟩
        · exact .inl (by rw [HasFrame, hr.frames, if_neg hne, if_neg hgc, hgr])
      · intro t' f' fr' top' _
        obtain ⟨rfl, rfl, rfl⟩ := htop top'
        refine ⟨hr.contains, fun caller' hc ↦ ?_⟩
        obtain rfl : caller = caller' := by simpa [hrest] using hc
        exact ⟨fc, ret, val, hr⟩

/-- A step that leaves all activations alone but the running one. -/
theorem ActivationStep.of_elsewhere (hw : Wf E.program σ) (top : Top σ x t f fr)
    (hret : ¬E.Returning σ x)
    (h : ∀ g gr, g ≠ f → σ.HasFrame g gr → σ'.HasFrame g gr) : ActivationStep E σ x σ' where
  foreign y u g gr hy hxy hg hgr := ⟨gr, h g gr (hw.top_ne top hy hxy hg) hgr, .same⟩
  below t' f' fr' g gr top' _ hne hgr := by
    obtain rfl : t = t' := Option.some.inj (top.thread.symm.trans top'.thread)
    obtain rfl : f = f' := Option.some.inj (top.head.symm.trans top'.head)
    exact .inl (h g gr hne hgr)
  returns t' f' fr' _ hr := absurd hr hret

theorem Executes.activationStep (hw : Wf E.program σ) (top : Top σ x t f fr)
    (hrun : t.status = .runnable) (hop : E.program.opAt fr.function fr.pc = some op)
    (h : Executes E σ x t f fr op σ') : ActivationStep E σ x σ' := by
  have hst : E.statement σ x = some op := top.statement.trans hop
  have hret : (∀ e, op ≠ .return e) → ¬E.Returning σ x := by
    rintro hne ⟨-, hs | ⟨e, hs⟩⟩
    · rw [hst] at hs
      cases hs
    · exact hne e (Option.some.inj (hst.symm.trans hs))
  cases h with
  | done h =>
      refine .of_elsewhere hw top (hret fun e he ↦ ?_) fun g gr hg hgr ↦
        (h.elsewhere top hg).trans hgr
      subst he
      cases h
  | block h =>
      refine .of_elsewhere hw top (hret fun e he ↦ ?_) fun g gr _ hgr ↦
        (congrArg (·[g]?) h.frames).trans hgr
      subst he
      cases h
  | pair h =>
      have hnr := hret fun e he ↦ by
        subst he
        cases h
      refine ⟨fun y u g gr hy hxy hg hgr ↦ h.touched hw top hrun hop
        (hw.top_ne top hy hxy hg) hgr, fun t' f' fr' g gr top' hg hne hgr ↦ ?_,
        fun _ _ _ _ hr ↦ absurd hr hnr⟩
      obtain rfl : t = t' := Option.some.inj (top.thread.symm.trans top'.thread)
      obtain rfl : f = f' := Option.some.inj (top.head.symm.trans top'.head)
      obtain ⟨gr', hgr', ht⟩ := h.touched hw top hrun hop hne hgr
      rw [ht.eq_of_own hw top.thread hrun hg] at hgr'
      exact .inl hgr'
  | create h =>
      refine .of_elsewhere hw top (hret fun e he ↦ ?_) fun g gr hg hgr ↦
        h.kept hw top hrun hop hg hgr
      subst he
      cases h
  | @ret e _ _ he _ h =>
      refine activationStep_applyReturn hw top hrun ⟨?_, .inr ⟨e, ?_⟩⟩ h
      · rw [top.status, hrun]
      · rw [hst, he]

theorem Fires.activationStep (hw : Wf E.program σ) (h : Fires E x σ σ') :
    ActivationStep E σ x σ' := by
  cases h with
  | @exec t f fr op _ top hrun hop h =>
      have hw₁ : Wf E.program (σ.markReached fr.function fr.pc) :=
        hw.quiet (quiet_markReached _ _)
      have top₁ : Top (σ.markReached fr.function fr.pc) x t f fr :=
        ⟨top.thread, top.head, top.frame⟩
      exact (h.activationStep hw₁ top₁ hrun hop).of_marked
  | endOfBody top hrun hop h =>
      exact activationStep_applyReturn hw top hrun
        ⟨by rw [top.status, hrun], .inl (top.statement.trans hop)⟩ h
  | resume top hb h =>
      refine .of_elsewhere hw top (fun hr ↦ ?_) fun g gr hg hgr ↦ (h.elsewhere top hg).trans hgr
      have := hr.1
      rw [top.status, hb] at this
      cases this

end Stepping

end ConcIR
