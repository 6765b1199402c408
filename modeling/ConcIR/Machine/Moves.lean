import ConcIR.Machine.Slice

/-!
# Control through calls, starts and returns

The steps of the machine that create activations or leave them, as control steps, and with
them every step.
-/

namespace ConcIR

open MachineState

variable {E : Engine} {P : SemProgram} {σ σ' σ₁ : MachineState} {x y : ThreadId}
  {t u : ThreadState} {f g : FrameId} {fr gr : Frame} {op : SemOp}

theorem control_stack (h : σ.HasThread x t) : (control σ).stack x = t.stack := by
  change (σ.threads[x]?.map (·.stack)).getD [] = t.stack
  rw [show σ.threads[x]? = some t from h]
  rfl

theorem control_waiting (h : σ.HasThread x t) : (control σ).waiting x = t.status.needs := by
  change (σ.threads[x]?.map (·.status)).bind ThreadStatus.needs = t.status.needs
  rw [show σ.threads[x]? = some t from h]
  rfl

theorem control_absent (h : σ.threads[x]? = none) :
    (control σ).stack x = [] ∧ (control σ).waiting x = none := by
  constructor
  · change (σ.threads[x]?.map (·.stack)).getD [] = []
    rw [h]
    rfl
  · change (σ.threads[x]?.map (·.status)).bind ThreadStatus.needs = none
    rw [h]
    rfl

section Starting

/-- The next activation is not in use. -/
theorem Wf.fresh_frame (hw : Wf P σ) : Control.Fresh (control σ) σ.alloc.nextFrame where
  place := by
    change σ.store.frames[σ.alloc.nextFrame]?.map Frame.at = none
    cases hf : σ.store.frames[σ.alloc.nextFrame]? with
    | none => rfl
    | some fr => exact absurd (hw.stack.frame_id _ fr hf).2 (Nat.lt_irrefl _)
  stack y hmem := by
    cases hy : σ.threads[y]? with
    | none =>
        rw [(control_absent hy).1] at hmem
        cases hmem
    | some u =>
        rw [control_stack hy] at hmem
        have hin := hw.stack.stack_frame y u _ hy hmem
        obtain ⟨fr, hfr⟩ := Option.isSome_iff_exists.mp
          (Std.ExtTreeMap.isSome_getElem?_eq_contains.trans hin)
        exact absurd (hw.stack.frame_id _ fr hfr).2 (Nat.lt_irrefl _)

theorem Wf.no_next_thread (hw : Wf P σ) : σ.threads[σ.alloc.nextThread]? = none := by
  cases hx : σ.threads[σ.alloc.nextThread]? with
  | none => rfl
  | some t => exact absurd (hw.stack.thread_id _ t hx).2 (Nat.lt_irrefl _)

/-- One thread has another stack, and activations are at other places. -/
theorem control_update {s : Control.State ThreadId FrameId FunctionId ℕ ResourceId}
    (ht : ∀ y : ThreadId, σ'.threads[y]? = if y = x then some u else σ.threads[y]?)
    (hneeds : u.status.needs = (control σ).waiting x)
    (hm : σ'.store.mutexes = σ.store.mutexes)
    (hf : ∀ g : FrameId, σ'.store.frames[g]?.map Frame.at = s.place g)
    (hs : s = { (control σ).stackOf x u.stack with place := s.place }) : control σ' = s := by
  rw [hs]
  ext1
  · funext y
    change (σ'.threads[y]?.map (·.stack)).getD [] = ((control σ).stackOf x u.stack).stack y
    rw [ht, Control.State.stackOf_stack]
    split_ifs <;> rfl
  · exact funext hf
  · change (fun r : ResourceId ↦ σ'.store.mutexes[r]?.bind MutexState.owner) = _
    rw [hm]
    rfl
  · funext y
    change (σ'.threads[y]?.map (·.status)).bind ThreadStatus.needs = (control σ).waiting y
    rw [ht]
    split_ifs with hy
    · rw [hy]
      exact hneeds
    · rfl

/-- A thread gets a new activation. -/
theorem control_push {new : Frame}
    (ht : ∀ y : ThreadId, σ'.threads[y]? = if y = x then some u else σ.threads[y]?)
    (hf : ∀ g : FrameId, σ'.store.frames[g]? = if g = new.id then some new else σ.store.frames[g]?)
    (hm : σ'.store.mutexes = σ.store.mutexes) (hst : u.stack = new.id :: (control σ).stack x)
    (hneeds : u.status.needs = (control σ).waiting x) :
    control σ' = ((control σ).put new.id (some new.at)).stackOf x
      (new.id :: (control σ).stack x) := by
  refine control_update ht hneeds hm (fun g ↦ ?_) ?_
  · rw [Control.State.stackOf_place, Control.State.put_place, hf]
    split_ifs <;> rfl
  · rw [hst]
    rfl

theorem createThread_ret {callee : FunctionId} {parent : Option ScopeId} {c : ThreadId}
    (h : E.createThread σ callee parent = some (c, σ₁)) (hgr : σ₁.HasFrame g gr) :
    σ.HasFrame g gr ∨ gr.ret = none := by
  rw [Engine.createThread] at h
  split_ifs at h
  · obtain ⟨-, rfl⟩ := Prod.mk.inj (Option.some.inj h)
    obtain ⟨m, hm⟩ := recordCompletion_eq (E := E)
      { σ with
        alloc := { σ.alloc with nextThread := σ.alloc.nextThread + 1 }
        threads := σ.threads.insert σ.alloc.nextThread
          ⟨σ.alloc.nextThread, .finished, [], callee, ∅, parent⟩
        finished := σ.finished.insert σ.alloc.nextThread } callee
    rw [HasFrame, hm] at hgr
    exact .inl hgr
  · obtain ⟨-, rfl⟩ := Prod.mk.inj (Option.some.inj h)
    change (σ.store.frames.insert _ _)[g]? = some gr at hgr
    rw [Std.ExtTreeMap.getElem?_insert] at hgr
    split_ifs at hgr
    · obtain rfl := Option.some.inj hgr
      exact .inr rfl
    · exact .inl hgr

/-- A new thread is started, or has ended at once. -/
theorem Started.moves (hw : Wf P σ) {new : Option Frame} (h : Started P σ σ' u new)
    (hret : ∀ fr ∈ new, fr.ret = none) (hstarts : P.Starts u.entryFunction) :
    P.Moves (control σ) (control σ') := by
  have hnone : σ.threads[u.id]? = none := by
    rw [h.fresh.1]
    exact hw.no_next_thread
  obtain ⟨hstack, hwait⟩ := control_absent hnone
  have hm : σ'.store.mutexes = σ.store.mutexes := by rw [h.tables.store]
  cases new with
  | none =>
      have hst : u.stack = [] := h.stack
      have hneeds : u.status.needs = (control σ).waiting u.id := by
        rw [h.status, if_pos rfl, hwait]
        rfl
      have heq : control σ' = control σ := by
        refine control_update h.threads hneeds hm (fun g ↦ ?_) ?_
        · rw [h.frames, if_neg (by simp)]
          rfl
        · ext1
          · funext y
            change _ = ((control σ).stackOf u.id u.stack).stack y
            rw [Control.State.stackOf_stack]
            split_ifs with hy
            · rw [hy, hst, hstack]
            · rfl
          · rfl
          · rfl
          · rfl
      rw [heq]
  | some fr =>
      obtain ⟨⟨hid, -⟩, hfn, -, hpc, -⟩ := h.frame fr rfl
      have hst : u.stack = fr.id :: (control σ).stack u.id := by
        rw [h.stack, hstack]
        rfl
      have hneeds : u.status.needs = (control σ).waiting u.id := by
        rw [h.status, if_neg (by simp), hwait]
        rfl
      have hat : fr.at = ⟨fr.function, 0, none⟩ := by
        rw [Frame.at, hpc, hret fr rfl]
        rfl
      have hpush := control_push h.threads (fun g ↦ by
        rw [h.frames]
        simp only [Option.map_some, Option.some.injEq, eq_comm]) hm hst hneeds
      rw [hpush, hat, hstack]
      refine .single (.start (hfn ▸ hstarts) hstack ?_ hwait)
      rw [hid]
      exact hw.fresh_frame

theorem createThread_moves (hw : Wf E.program σ) {callee : FunctionId}
    (hlt : callee < E.program.functions.length) {parent : Option ScopeId} {c : ThreadId}
    (hp : ∀ s, parent = some s → s < σ.alloc.nextScope ∧ σ.scopes[s]? = none)
    (hstarts : E.program.Starts callee) (h : E.createThread σ callee parent = some (c, σ₁)) :
    ∃ u new, Started E.program σ σ₁ u new ∧ E.program.Moves (control σ) (control σ₁) := by
  obtain ⟨u, new, hst, -, hfn, -⟩ := createThread_started hlt hp h
  refine ⟨u, new, hst, hst.moves hw (fun fr hfr ↦ ?_) (hfn ▸ hstarts)⟩
  have hin : σ₁.HasFrame fr.id fr := hst.hasFrame.mpr (.inl ⟨hfr, rfl⟩)
  rcases createThread_ret h hin with hold | hret
  · have hlt := (hw.stack.frame_id _ fr hold).2
    rw [(hst.frame fr hfr).1.1] at hlt
    exact absurd hlt (Nat.lt_irrefl _)
  · exact hret

theorem createMembers_moves {gs : List FunctionId} {s : ScopeId} {r r' : BTreeSet ThreadId}
    (hw : Wf E.program σ) (hgs : gs.all (· < E.program.functions.length) = true)
    (hs : s < σ.alloc.nextScope ∧ σ.scopes[s]? = none)
    (hstarts : ∀ g ∈ gs, E.program.Starts g) (h : E.createMembers s σ r gs = some (σ', r')) :
    E.program.Moves (control σ) (control σ') := by
  induction gs generalizing σ r with
  | nil =>
      obtain ⟨rfl, -⟩ := Prod.mk.inj (Option.some.inj h)
      exact .refl
  | cons callee gs ih =>
      simp only [List.all_cons, Bool.and_eq_true, decide_eq_true_eq] at hgs
      rw [Engine.createMembers] at h
      cases hc : E.createThread σ callee (some s) with
      | none =>
          rw [hc] at h
          cases h
      | some p =>
          obtain ⟨c, σ₁⟩ := p
          rw [hc] at h
          have hpar : ∀ s', some s = some s' → s' < σ.alloc.nextScope ∧ σ.scopes[s']? = none := by
            rintro _ ⟨⟩
            exact hs
          obtain ⟨hcallee, hgs'⟩ := List.forall_mem_cons.mp hstarts
          obtain ⟨u, new, hst, hmoves⟩ := createThread_moves hw hgs.1 hpar hcallee hc
          exact hmoves.trans (ih (hw.start hst) hgs.2
            ⟨hs.1.trans_le hst.alloc.scope, by rw [hst.scopes]; exact hs.2⟩ hgs' h)

end Starting

section Creating

/-- Threads without activations that wait for nothing can go. -/
theorem Removed.control {gone : ThreadId → Prop} (h : Removed σ σ' gone)
    (hgone : ∀ y, gone y → (control σ).stack y = [] ∧ (control σ).waiting y = none) :
    control σ' = control σ := by
  ext1
  · funext y
    by_cases hy : gone y
    · rw [(control_absent (h.gone_none y hy)).1, (hgone y hy).1]
    · change (σ'.threads[y]?.map (·.stack)).getD [] = _
      rw [h.kept y hy]
      rfl
  · change (fun g : FrameId ↦ σ'.store.frames[g]?.map Frame.at) = _
    rw [h.frames]
    rfl
  · change (fun r : ResourceId ↦ σ'.store.mutexes[r]?.bind MutexState.owner) = _
    rw [h.tables.store]
    rfl
  · funext y
    by_cases hy : gone y
    · rw [(control_absent (h.gone_none y hy)).2, (hgone y hy).2]
    · change (σ'.threads[y]?.map (·.status)).bind ThreadStatus.needs = _
      rw [h.kept y hy]
      rfl

/-- A finished thread has no activation and waits for nothing. -/
theorem Wf.control_finished (hw : Wf P σ) (h : σ.HasThread x t) (hfin : t.status = .finished) :
    (control σ).stack x = [] ∧ (control σ).waiting x = none := by
  rw [control_stack h, control_waiting h, (hw.stack.finished_stack x t h).mp hfin, hfin]
  exact ⟨rfl, rfl⟩

theorem control_reclaim {c : ThreadId}
    (hc : (control σ).stack c = [] ∧ (control σ).waiting c = none) :
    control (Engine.reclaim σ c) = control σ :=
  (removed_reclaim c).control fun y hy ↦ by rw [hy]; exact hc

theorem Wf.control_consumeJoin (hw : Wf P σ) {name : String} {k : HandleId} {c : ThreadId}
    (hf : c ∈ σ.finished) : control (Engine.consumeJoin σ x f name k c) = control σ := by
  have hframe : control (σ.modifyFrame f fun fr ↦ { fr with handles := fr.handles.erase name }) =
      control σ := control_modifyFrame f fun _ ↦ rfl
  have hthread : control ((σ.modifyFrame f fun fr ↦
      { fr with handles := fr.handles.erase name }).modifyThread x fun t ↦
        { t with handleChildren := t.handleChildren.erase k }) = control σ := by
    refine (control_modifyThread x ?_).trans hframe
    exact fun _ ↦ ⟨rfl, rfl⟩
  obtain ⟨t, ht, hst⟩ := Option.map_eq_some_iff.mp ((hw.stack.finished_set c).mp hf)
  rw [Engine.consumeJoin, control_reclaim, hthread]
  rw [hthread]
  exact hw.control_finished ht hst

variable [FloatArith]

theorem Creates.moves (hw : Wf E.program σ) (top : Top σ x t f fr) (hrun : t.status = .runnable)
    (hop : E.program.opAt fr.function fr.pc = some op) (h : Creates E σ x t f fr op σ') :
    E.program.Moves (control σ) (control σ') := by
  have hok := SemProgram.opAt_ok hop
  have hpc := SemProgram.opAt_lt hop
  cases h with
  | call g args dst values _ _ _ =>
      simp only [opOk, Bool.and_eq_true, decide_eq_true_eq] at hok
      have hp := pushed_pushFrame top hok.1 values hpc hok.2
      have hstack := control_stack top.thread
      have hm : (Engine.pushFrame σ x (E.callFrame σ fr g dst values)).store.mutexes =
          σ.store.mutexes := by rw [hp.tables.store]
      have hpush := control_push hp.threads hp.frames hm (by rw [hstack])
        (control_waiting top.thread).symm
      rw [hpush]
      refine .single (.call top.control (control_action hop) ⟨_, hop, rfl⟩ ?_)
      rw [hp.fresh.1]
      exact hw.fresh_frame
  | spawn g handle child σ₁ _ hc =>
      obtain ⟨u, new, hst, hmoves⟩ := createThread_moves hw (of_decide_eq_true hok)
        (fun s hs ↦ by cases hs) (.inr ⟨_, _, _, hop, rfl⟩) hc
      have top₁ := top.started hw hst
      have hbind : control (Engine.bindHandle σ₁ x f handle child) = control σ₁ := by
        refine (control_modifyThread x ?_).trans (control_modifyFrame f ?_)
        · exact fun _ ↦ ⟨rfl, rfl⟩
        · exact fun _ ↦ rfl
      exact hmoves.tail (control_done top₁ hop rfl rfl hbind)
  | scopeDone gs σ₁ _ _ hc =>
      have hm := hw.members hok hc
      have hmoves := createMembers_moves hw.reserveScope hok
        ⟨Nat.lt_succ_self _, hw.fresh_scope⟩ (fun g hg ↦ .inr ⟨_, _, _, hop, hg⟩) hc
      have top₁ : Top σ₁ x t f fr :=
        ⟨hm.old x t top.thread, top.head, hm.oldFrame f fr top.frame⟩
      exact hmoves.tail (control_done top₁ hop rfl rfl (control_of_eq rfl rfl rfl))
  | scope gs σ₁ remaining _ _ hc hr =>
      have hm := hw.members hok hc
      have hmoves := createMembers_moves hw.reserveScope hok
        ⟨Nat.lt_succ_self _, hw.fresh_scope⟩ (fun g hg ↦ .inr ⟨_, _, _, hop, hg⟩) hc
      have top₁ : Top σ₁ x t f fr :=
        ⟨hm.old x t top.thread, top.head, hm.oldFrame f fr top.frame⟩
      have hrest : ∀ τ : MachineState, control τ = control σ₁ →
          E.program.Moves (control σ) (control (τ.block x (.scope σ.alloc.nextScope))) := by
        intro τ hτ
        rw [block, control_restatus top₁ hτ (by rw [hrun]; rfl)]
        exact hmoves
      exact hrest _ (control_of_eq rfl rfl rfl)
  | join name k c _ _ hf =>
      exact .single (control_done top hop rfl rfl (hw.control_consumeJoin hf))

end Creating

section Returning

/-- The body ends here. -/
def AtReturn (P : SemProgram) (fr : Frame) : Prop :=
  SemOp.action (P.opAt fr.function fr.pc) = .ret

theorem ReturnedTo.control {caller : FrameId} {fc : Frame} {ret : RetAddr} {val : Option Value}
    {rest : List FrameId} (h : ReturnedTo σ σ' x t f fr caller fc ret val)
    (top : Top σ x t f fr) (hst : t.stack = f :: caller :: rest) :
    control σ' = (((control σ).put f none).put caller (some { fc.at with pc := ret.pcNext })).stackOf x
      (caller :: rest) := by
  have hne := h.ne
  refine control_update h.threads (control_waiting top.thread).symm h.tables.1 (fun g ↦ ?_) ?_
  · rw [h.frames, Control.State.stackOf_place, Control.State.put_place, Control.State.put_place]
    by_cases hgc : g = caller
    · rw [if_neg (by rw [hgc]; exact hne), if_pos hgc, if_pos hgc]
      cases val with
      | none => rfl
      | some v =>
          change some (Frame.at { fc.put ret.dst v with pc := ret.pcNext }) = _
          obtain ⟨pcNext, dst⟩ := ret
          cases dst <;> rfl
    · rw [if_neg hgc, if_neg hgc]
      split_ifs <;> rfl
  · rw [hst]
    rfl

theorem Unwound.control {rest : List FrameId} {st : ThreadStatus}
    (h : Unwound σ σ' x t f rest st) (hneeds : st.needs = (ConcIR.control σ).waiting x) :
    control σ' = ((control σ).put f none).stackOf x rest := by
  refine control_update h.threads hneeds (by rw [h.tables.store]) (fun g ↦ ?_) rfl
  rw [h.frames, Control.State.stackOf_place, Control.State.put_place]
  split_ifs <;> rfl

/-- The last member of a scope has ended, and its owner goes on. -/
theorem Settled.moves (hw : Wf P σ) {parent : Option ScopeId} (h : Settled σ parent σ') :
    P.Moves (control σ) (control σ') := by
  cases h with
  | stay => exact .refl
  | @scope s sc hp hs hrem =>
      obtain ⟨u, gr, gs, top, hb, hop⟩ := hw.owner hs
      obtain ⟨hww, g, hr⟩ := hw.wakeOwner hs
      have hstep : Control.Step P.code (control σ) (control (wakeOwner σ s sc)) :=
        control_complete top (by rw [hb]; rfl) hop rfl rfl (control_of_eq rfl rfl rfl)
      have hremoved := removed_completeScope hr
      rw [hremoved.control]
      · exact .single hstep
      · rintro y ⟨v, hv, hpar⟩
        refine hww.control_finished hv ?_
        rcases (hasThread_wakeOwner hw hs).mp hv with ⟨rfl, w, hw', rfl⟩ | ⟨-, hv'⟩
        · obtain ⟨w', hw'', -, hno⟩ := hw.scopes.owner s sc hs
          obtain rfl : w = w' := Option.some.inj (hw'.symm.trans hw'')
          exact absurd hpar hno
        · by_contra hlive
          have hmem := (hw.scopes.remaining s sc y hs).mpr ⟨v, hv', hpar, hlive⟩
          rw [hrem] at hmem
          exact absurd hmem Std.ExtTreeSet.not_mem_empty

/-- The joiner of a thread that has ended goes on. -/
theorem Woken.moves (hw : Wf P σ) (hfin : ∀ u, σ.HasThread x u → u.status = .finished)
    (h : Woken P σ x σ') : P.Moves (control σ) (control σ') := by
  cases h with
  | nobody => exact .refl
  | @joiner j t f fr name k h =>
      have hunjoin : control (unjoin σ j f name k) = control σ := by
        refine (control_modifyThread j ?_).trans ((control_modifyFrame f ?_).trans ?_)
        · exact fun _ ↦ ⟨rfl, rfl⟩
        · exact fun _ ↦ rfl
        exact control_restatus h.top rfl (by rw [h.status]; rfl)
      have hx : (control σ).stack x = [] ∧ (control σ).waiting x = none := by
        cases hx : σ.threads[x]? with
        | none => exact control_absent hx
        | some u => exact hw.control_finished hx (hfin u hx)
      have top₁ : Control.Top (control (unjoin σ j f name k)) j f fr.at := hunjoin ▸ h.top.control
      rw [control_reclaim]
      · exact .single (control_done h.top h.op rfl rfl hunjoin)
      · rw [control_advance top₁, hunjoin]
        exact hx

theorem applyReturn_moves (hw : Wf E.program σ) (top : Top σ x t f fr)
    (hrun : t.status = .runnable) (hret : AtReturn E.program fr) {val : Option Value}
    (h : E.applyReturn σ x f fr val = some σ') : E.program.Moves (control σ) (control σ') := by
  have hstk : (σ.threads[x]?.map (·.stack)).bind (·[1]?) = t.stack[1]? := by
    rw [show σ.threads[x]? = some t from top.thread]
    rfl
  obtain ⟨rest, hrest⟩ := List.head?_eq_some_iff.mp top.head
  have hstack := control_stack top.thread
  rw [hrest] at hstack
  rw [Engine.applyReturn, hstk] at h
  split_ifs at h
  cases rest with
  | nil =>
      rw [hrest] at h
      obtain rfl := Option.some.inj h
      have hu := unwound_leave (E := E) top hrest fr.function
      have hwu : Wf E.program (leave (retire E σ x f fr.function) x t.parentScope) :=
        hw.unwind top hrun hrest (by simp) hu
      have hfirst : Control.Step E.program.code (control σ)
          (control (leave (retire E σ x f fr.function) x t.parentScope)) := by
        rw [hu.control (by rw [control_waiting top.thread, hrun]; rfl)]
        exact .finish top.control hret hstack
      obtain ⟨σ₁, hse, heq⟩ := finishThread_settled (E := E) top fr.function
      obtain ⟨hw₁, hx₁⟩ := hse.wf hwu fun u ↦ finished_unwound hu
      rw [heq]
      exact ((Relation.ReflTransGen.single hfirst).trans (hse.moves hwu)).trans
        ((hw₁.woken x).moves hw₁ hx₁)
  | cons caller rest =>
      rw [hrest] at h
      obtain rfl := Option.some.inj h
      obtain ⟨fc, ret, hr⟩ := hw.returnedTo top hrun hrest val
      have hback : fr.at.back = some ret.pcNext := by
        rw [Frame.at, hr.address]
        rfl
      have hcaller : (control σ).place caller = some fc.at := by
        change σ.store.frames[caller]?.map Frame.at = some fc.at
        rw [show σ.store.frames[caller]? = some fc from hr.below]
        rfl
      rw [hr.control top hrest]
      exact .single (.ret top.control hret hstack hcaller hback)

end Returning

section Stepping

variable [FloatArith]

theorem Executes.moves (hw : Wf E.program σ) (top : Top σ x t f fr) (hrun : t.status = .runnable)
    (hop : E.program.opAt fr.function fr.pc = some op) (h : Executes E σ x t f fr op σ') :
    E.program.Moves (control σ) (control σ') := by
  cases h with
  | done h => exact .single (h.moves top hop hrun)
  | block h => exact h.moves top hop hrun
  | pair h => exact h.moves hw top hrun hop
  | create h => exact h.moves hw top hrun hop
  | ret hret hv h =>
      refine applyReturn_moves hw top hrun ?_ h
      rw [AtReturn, hop, hret]
      rfl

/-- Every step of the machine is a sequence of control steps. -/
theorem Fires.moves (hw : Wf E.program σ) (h : Fires E x σ σ') :
    E.program.Moves (control σ) (control σ') := by
  cases h with
  | @exec t f fr op _ top hrun hop h =>
      have hw₁ : Wf E.program (σ.markReached fr.function fr.pc) := hw.quiet (quiet_markReached _ _)
      have top₁ : Top (σ.markReached fr.function fr.pc) x t f fr :=
        ⟨top.thread, top.head, top.frame⟩
      have hmoves := h.moves hw₁ top₁ hrun hop
      exact hmoves
  | endOfBody top hrun hop h =>
      refine applyReturn_moves hw top hrun ?_ h
      rw [AtReturn, hop]
      rfl
  | resume top hb h => exact .single (h.moves hw top hb)

end Stepping

end ConcIR
