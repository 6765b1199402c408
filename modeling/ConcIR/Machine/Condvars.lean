import ConcIR.Machine.Observed

/-!
# Condition variables

What a step may do to the threads that wait on a condition variable: they register in a
wait statement, giving their lock back, and leave by a notification only.
-/

namespace ConcIR

open MachineState

section Steps

variable {S : Type} (P : SemProgram) (V : EngineView S)

/-- The ways the threads that wait on a condition variable change in a step. -/
inductive WaitSetStep (cv : ResourceId) (s : S) (x : ThreadId) (s' : S) : Prop
  | keep (hwait : ∀ lk, ¬ V.Runs P s x (.condvarWait cv lk))
      (hone : V.Runs P s x (.condvarNotify cv) → V.waits s cv = ∅)
      (hall : ¬ V.Runs P s x (.condvarNotifyAll cv)) (h : V.waits s' cv = V.waits s cv)
  /-- The thread gives its lock back and is registered. -/
  | register (lk : ResourceId) (hop : V.Runs P s x (.condvarWait cv lk))
      (hnew : ∀ lk', (x, lk') ∉ V.waits s cv) (hheld : V.mutex s lk = some (.held x))
      (hfree : V.mutex s' lk = some .free) (h : V.waits s' cv = insert (x, lk) (V.waits s cv))
  | notify (w : ThreadId × ResourceId) (hop : V.Runs P s x (.condvarNotify cv))
      (hw : w ∈ V.waits s cv) (h : V.waits s' cv = V.waits s cv \ {w})
  | notifyAll (hop : V.Runs P s x (.condvarNotifyAll cv)) (h : V.waits s' cv = ∅)

structure CondvarStep (s : S) (x : ThreadId) (s' : S) : Prop where
  waits : ∀ cv, WaitSetStep P V cv s x s'
  /-- A wait statement ends when its thread has the lock back. -/
  complete : ∀ y cv lk, V.passes s s' y = true →
    V.statement P s y = some (.condvarWait cv lk) → V.mutex s' lk = some (.held y)

/-- The transition in which a waiter of the state reached was registered; it has waited
since. -/
def RegisteredIn (es : List (Transition S)) (cv : ResourceId) (w : ThreadId × ResourceId) :
    Prop :=
  ∃ es₁ e es₂, es = es₁ ++ e :: es₂ ∧ e.thread = w.1 ∧
    V.Runs P e.before w.1 (.condvarWait cv w.2) ∧ w ∉ V.waits e.before cv ∧
      w ∈ V.waits e.after cv ∧ ∀ e' ∈ es₂, w ∈ V.waits e'.before cv ∧ w ∈ V.waits e'.after cv

variable {P V} {T : TransitionSystem S} {cv : ResourceId}

/-- Whoever waits was registered. -/
theorem registeredIn_of_run (hinit : ∀ s cv, T.initial = .ok s → V.waits s cv = ∅)
    (hstep : ∀ s x s', T.Reachable s → T.Takes s x s' → CondvarStep P V s x s')
    {es : List (Transition S)} {s : S} (h : T.Run es s) {w : ThreadId × ResourceId}
    (hw : w ∈ V.waits s cv) : RegisteredIn P V es cv w := by
  induction h with
  | start hs =>
      rw [hinit _ cv hs] at hw
      exact absurd hw (Set.notMem_empty w)
  | @step es s s' x hrun hs ih =>
      have hlater : w ∈ V.waits s cv → RegisteredIn P V (es ++ [⟨s, x, s'⟩]) cv w := by
        intro hbefore
        obtain ⟨es₁, e, es₂, rfl, he, hop, hno, hin, hall⟩ := ih hbefore
        refine ⟨es₁, e, es₂ ++ [⟨s, x, s'⟩], by simp, he, hop, hno, hin, fun e' he' ↦ ?_⟩
        rcases List.mem_append.mp he' with he' | he'
        · exact hall e' he'
        · obtain rfl := List.mem_singleton.mp he'
          exact ⟨hbefore, hw⟩
      cases (hstep s x s' hrun.reachable hs).waits cv with
      | keep _ _ _ h => exact hlater (h ▸ hw)
      | register lk hop hnew hheld hfree h =>
          rcases Set.mem_insert_iff.mp (h ▸ hw) with rfl | hbefore
          · exact ⟨es, ⟨s, x, s'⟩, [], rfl, rfl, hop, hnew lk, hw, by simp⟩
          · exact hlater hbefore
      | notify w' _ _ h => exact hlater (Set.mem_of_mem_sdiff (h ▸ hw))
      | notifyAll _ h => exact absurd (h ▸ hw) (Set.notMem_empty w)

end Steps

variable {E : Engine} {P : SemProgram} {σ σ' : MachineState} {x y : ThreadId}
  {t u : ThreadState} {f g : FrameId} {fr gr : Frame} {op : SemOp} {cv lk : ResourceId}

section Tables

theorem waiters_modifyWaiters_of_ne {d : ResourceId} (hd : cv ≠ d)
    (F : List (ThreadId × ResourceId) → List (ThreadId × ResourceId)) :
    (σ.modifyWaiters d F).waiters cv = σ.waiters cv := by
  have hcell : (σ.modifyWaiters d F).store.condvars[cv]? = σ.store.condvars[cv]? := by
    rw [modifyWaiters, Std.ExtTreeMap.getElem?_modify,
      if_neg fun he ↦ hd (Nat.compare_eq_eq.mp he).symm]
  rw [MachineState.waiters, hcell, ← MachineState.waiters]

theorem waiters_of_condvars (cv : ResourceId) (h : σ'.store.condvars = σ.store.condvars) :
    σ'.waiters cv = σ.waiters cv := by
  rw [MachineState.waiters, h, ← MachineState.waiters]

theorem Resumes.condvars {r : BlockReason} (h : Resumes E σ x f fr r σ') :
    (Engine.complete σ' x).store.condvars = σ.store.condvars := by
  rw [(SameCells.complete σ' x).condvars]
  cases h with
  | recv c dst v vs σ₁ _ _ _ hw => exact (SameCells.tryWriteDst hw).condvars
  | _ => rfl

variable [FloatArith]

theorem Local.condvars (h : Local E σ x f fr op σ') : σ'.store.condvars = σ.store.condvars := by
  cases hl : op.isLocking with
  | false => exact (h.sameCells hl).condvars
  | true =>
      cases h with
      | lock | unlock | acquire | release => exact (SameCells.advance _ x).condvars
      | _ => cases hl

theorem Pairs.condvars (h : Pairs E σ x f fr op σ') (hone : ∀ cv, op ≠ .condvarNotify cv)
    (hall : ∀ cv, op ≠ .condvarNotifyAll cv) : σ'.store.condvars = σ.store.condvars := by
  cases h with
  | send c e v y u g gr dst σ₁ _ _ _ _ _ _ hw =>
      rw [(SameCells.advance _ x).condvars, (SameCells.complete _ y).condvars,
        ← (SameCells.tryWriteDst hw).condvars]
      rfl
  | recv c dst p σ₁ _ _ hw =>
      rw [(SameCells.advance _ x).condvars, (SameCells.complete _ p.thread).condvars,
        ← (SameCells.tryWriteDst hw).condvars]
      rfl
  | notify cv w _ => exact absurd rfl (hone cv)
  | notifyAll cv => exact absurd rfl (hall cv)

end Tables

section Waits

theorem mem_waits {w : ThreadId × ResourceId} :
    w ∈ machineView.waits σ cv ↔ w ∈ σ.waiters cv := Iff.rfl

theorem waits_eq_empty : machineView.waits σ cv = ∅ ↔ σ.waiters cv = [] := by
  rw [Set.eq_empty_iff_forall_notMem, List.eq_nil_iff_forall_not_mem]
  rfl

/-- The waiters of a condition variable that the statement does not use stay. -/
theorem WaitSetStep.of_condvars (hst : machineView.statement P σ x = some op)
    (hwait : ∀ lk, op ≠ .condvarWait cv lk) (hone : op = .condvarNotify cv → σ.waiters cv = [])
    (hall : op ≠ .condvarNotifyAll cv) (h : σ'.waiters cv = σ.waiters cv) :
    WaitSetStep P machineView cv σ x σ' := by
  have hop : ∀ {op'}, machineView.Runs P σ x op' → op = op' := fun hr ↦
    Option.some.inj (hst.symm.trans hr.2)
  refine .keep (fun lk hr ↦ hwait lk (hop hr)) (fun hr ↦ ?_) (fun hr ↦ hall (hop hr)) ?_
  · exact waits_eq_empty.mpr (hone (hop hr))
  · simp only [machineView, h]

theorem WaitSetStep.of_marked {fn : FunctionId} {pc : ℕ}
    (h : WaitSetStep P machineView cv (σ.markReached fn pc) x σ') :
    WaitSetStep P machineView cv σ x σ' := by
  cases h with
  | keep hwait hone hall h => exact .keep hwait hone hall h
  | register lk hop hnew hheld hfree h => exact .register lk hop hnew hheld hfree h
  | notify w hop hw h => exact .notify w hop hw h
  | notifyAll hop h => exact .notifyAll hop h

variable [FloatArith]

theorem Blocks.waitSetStep (hw : Wf E.program σ) (top : Top σ x t f fr)
    (hrun : t.status = .runnable) (hop : E.program.opAt fr.function fr.pc = some op)
    {r : BlockReason} (h : Blocks E σ x fr op r σ') :
    WaitSetStep E.program machineView cv σ x (σ'.block x r) := by
  have hst := top.machineView_statement.trans hop
  cases h with
  | wait d lk hm =>
      by_cases hd : cv = d
      · subst hd
        have hc : σ.store.condvars.contains cv = true := by
          rw [hw.stores.condvars]
          have hok := SemProgram.opAt_ok hop
          simp only [opOk, Bool.and_eq_true] at hok
          exact hok.1
        refine .register lk ((runs_iff top).mpr ⟨hrun, hop⟩) (fun lk' hmem ↦ ?_) hm ?_ ?_
        · have hb := hw.mem_waiters cv (w := (x, lk')) hmem
          rw [top.status, hrun] at hb
          cases hb
        · exact Std.ExtTreeMap.getElem?_insert_self
        · have hset : (((σ.setMutex lk .free).modifyWaiters cv (· ++ [(x, lk)])).block x
              (.condvar cv lk)).waiters cv = σ.waiters cv ++ [(x, lk)] :=
            (waiters_modifyWaiters (σ := σ.setMutex lk .free) hc (· ++ [(x, lk)]) cv).trans (if_pos rfl)
          refine Set.ext fun w ↦ ?_
          rw [mem_waits, hset, List.mem_append, List.mem_singleton, Set.mem_insert_iff, or_comm,
            mem_waits]
      · refine .of_condvars hst (fun lk' he ↦ ?_) (by simp) (by simp) ?_
        · exact hd (SemOp.condvarWait.inj he).1.symm
        · exact waiters_modifyWaiters_of_ne (σ := σ.setMutex lk .free) hd (· ++ [(x, lk)])
  | _ => exact .of_condvars hst (by simp) (by simp) (by simp) rfl

omit [FloatArith] in
theorem waits_diff (hc : σ.store.condvars.contains cv = true) (w : ThreadId × ResourceId) :
    {v | v ∈ (σ.modifyWaiters cv (·.filter (· ≠ w))).waiters cv} =
      machineView.waits σ cv \ {w} := by
  refine Set.ext fun v ↦ ?_
  rw [Set.mem_ofPred_eq, waiters_modifyWaiters hc, if_pos rfl, List.mem_filter, Set.mem_sdiff,
    Set.mem_singleton_iff, mem_waits, decide_eq_true_eq]

omit [FloatArith] in
theorem contains_of_condvar (hw : Wf P σ) (hop : P.opAt fr.function fr.pc = some op)
    (hcv : op = .condvarNotify cv ∨ op = .condvarNotifyAll cv) :
    σ.store.condvars.contains cv = true := by
  rw [hw.stores.condvars]
  have hok := SemProgram.opAt_ok hop
  rcases hcv with rfl | rfl <;> exact hok

theorem Pairs.waitSetStep (hw : Wf E.program σ) (top : Top σ x t f fr)
    (hrun : t.status = .runnable) (hop : E.program.opAt fr.function fr.pc = some op)
    (h : Pairs E σ x f fr op σ') : WaitSetStep E.program machineView cv σ x σ' := by
  have hst := top.machineView_statement.trans hop
  have hother : (∀ cv, op ≠ .condvarNotify cv) → (∀ cv, op ≠ .condvarNotifyAll cv) →
      WaitSetStep E.program machineView cv σ x σ' := fun hone hall ↦
    .of_condvars hst (by cases h <;> simp) (fun he ↦ absurd he (hone cv)) (hall cv)
      (waiters_of_condvars _ (h.condvars hone hall))
  cases h with
  | notify d w hmem =>
      have hadv := waiters_of_condvars cv (SameCells.advance
        ((σ.modifyWaiters d (·.filter (· ≠ w))).block w.1 (.lock w.2)) x).condvars
      by_cases hd : cv = d
      · subst hd
        refine .notify w ((runs_iff top).mpr ⟨hrun, hop⟩) hmem ?_
        rw [← waits_diff (contains_of_condvar hw hop (.inl rfl)) w]
        exact congrArg (fun l ↦ {v | v ∈ l}) hadv
      · refine .of_condvars hst (by simp) (fun he ↦ ?_) (by simp) ?_
        · exact absurd (SemOp.condvarNotify.inj he).symm hd
        · exact hadv.trans (waiters_modifyWaiters_of_ne hd _)
  | notifyAll d =>
      have hadv := waiters_of_condvars cv (SameCells.advance ((σ.waiters d).foldl
        (fun σ w ↦ σ.block w.1 (.lock w.2)) (σ.modifyWaiters d fun _ ↦ [])) x).condvars
      have hfold : ((σ.waiters d).foldl (fun σ w ↦ σ.block w.1 (.lock w.2))
          (σ.modifyWaiters d fun _ ↦ [])).waiters cv = (σ.modifyWaiters d fun _ ↦ []).waiters cv :=
        waiters_of_condvars cv (congrArg (·.condvars) (notifyAll_frames _ _))
      by_cases hd : cv = d
      · subst hd
        refine .notifyAll ((runs_iff top).mpr ⟨hrun, hop⟩) (waits_eq_empty.mpr ?_)
        rw [hadv, hfold, waiters_modifyWaiters (contains_of_condvar hw hop (.inr rfl)), if_pos rfl]
      · refine .of_condvars hst (by simp) (by simp) (fun he ↦ ?_) ?_
        · exact hd (SemOp.condvarNotifyAll.inj he).symm
        · exact hadv.trans (hfold.trans (waiters_modifyWaiters_of_ne hd _))
  | send | recv => exact hother (by simp) (by simp)

theorem Executes.waitSetStep (hw : Wf E.program σ) (top : Top σ x t f fr)
    (hrun : t.status = .runnable) (hop : E.program.opAt fr.function fr.pc = some op)
    (h : Executes E σ x t f fr op σ') : WaitSetStep E.program machineView cv σ x σ' := by
  have hst := top.machineView_statement.trans hop
  cases h with
  | done h =>
      have hwait : ∀ lk, op ≠ .condvarWait cv lk := by
        cases h <;> simp
      have hall : op ≠ .condvarNotifyAll cv := by
        cases h <;> simp
      refine .of_condvars hst hwait (fun he ↦ ?_) hall (waiters_of_condvars _ h.condvars)
      cases h with
      | notifyMiss d hmiss => rwa [← SemOp.condvarNotify.inj he]
      | _ => cases he
  | block h => exact h.waitSetStep hw top hrun hop
  | pair h => exact h.waitSetStep hw top hrun hop
  | create h =>
      refine .of_condvars hst ?_ ?_ ?_ (waiters_of_condvars _ (SameCells.of_tables (h.tables hop)).condvars)
      all_goals cases h <;> simp
  | ret he _ h =>
      refine .of_condvars hst ?_ ?_ ?_ (waiters_of_condvars _ (hw.cells_applyReturn top hrun h).2.2.2.1)
      all_goals simp [he]

omit [FloatArith] in
/-- A thread that does not stand at a statement on the condition variable leaves its
waiters alone. -/
theorem WaitSetStep.of_idle (hno : ∀ op, ¬ machineView.Runs P σ x op)
    (h : σ'.waiters cv = σ.waiters cv) : WaitSetStep P machineView cv σ x σ' := by
  refine .keep (fun _ ↦ hno _) (fun hr ↦ absurd hr (hno _)) (hno _) ?_
  simp only [machineView, h]

theorem Fires.condvarStep (hw : Wf E.program σ) (hl : Live σ) (h : Fires E x σ σ') :
    CondvarStep E.program machineView σ x σ' := by
  have hw' := (h.wf hw hl).1
  have hact := h.activationStep hw
  constructor
  · intro cv
    cases h with
    | @exec t f fr op _ top hrun hop h =>
        have hw₁ : Wf E.program (σ.markReached fr.function fr.pc) :=
          hw.quiet (quiet_markReached _ _)
        have hm : WaitSetStep E.program machineView cv (σ.markReached fr.function fr.pc) x σ' :=
          h.waitSetStep hw₁ ⟨top.thread, top.head, top.frame⟩ hrun hop
        exact hm.of_marked
    | endOfBody top hrun hop h =>
        refine .of_idle (fun op hr ↦ ?_) (waiters_of_condvars _ (hw.cells_applyReturn top hrun h).2.2.2.1)
        cases hop.symm.trans ((runs_iff top).mp hr).2
    | resume top hb h =>
        refine .of_idle (fun op hr ↦ ?_) (waiters_of_condvars _ h.condvars)
        cases hb.symm.trans ((runs_iff top).mp hr).1
  · intro y cv lk hp hst
    obtain rfl : y = x := by
      by_contra hne
      rw [hact.not_passes hw hw' hne hst rfl] at hp
      cases hp
    cases h with
    | @exec t f fr op _ top hrun hop h =>
        obtain rfl := Option.some.inj (hop.symm.trans (top.machineView_statement.symm.trans hst))
        have hw₁ : Wf E.program (σ.markReached fr.function fr.pc) :=
          hw.quiet (quiet_markReached _ _)
        cases h with
        | block h =>
            rw [not_passes_of_frame hw hw' top (congrArg (·[f]?) h.frames)] at hp
            cases hp
        | done h | pair h | create h => cases h
        | ret he _ _ => cases he
    | endOfBody top _ hop _ => cases hop.symm.trans (top.machineView_statement.symm.trans hst)
    | @resume t f fr r _ top hb h =>
        obtain ⟨g, gr, op, hhead, hgr, hop, hwt⟩ := hw.code.blocked y t r top.thread hb
        obtain rfl : f = g := Option.some.inj (top.head.symm.trans hhead)
        obtain rfl : fr = gr := Option.some.inj (top.frame.symm.trans hgr)
        obtain rfl := Option.some.inj (hop.symm.trans (top.machineView_statement.symm.trans hst))
        cases h with
        | lock r hm =>
            obtain rfl : lk = r := by simpa [Waits] using hwt
            refine (congrArg (·[lk]?) (SameCells.complete _ y).mutexes).trans ?_
            exact Std.ExtTreeMap.getElem?_insert_self
        | semaphore | send | recv => simp [Waits] at hwt

/-- A notification that nobody waits for does nothing but pass over its statement. -/
theorem Fires.idle (top : Top σ x t f fr) (h : Fires E x σ σ')
    (hop : machineView.Runs E.program σ x (.condvarNotify cv) ∨
      machineView.Runs E.program σ x (.condvarNotifyAll cv))
    (hnone : machineView.waits σ cv = ∅) :
    σ' = (σ.markReached fr.function fr.pc).advance x := by
  have hnil := waits_eq_empty.mp hnone
  obtain ⟨op, hr, hcv⟩ : ∃ op, machineView.Runs E.program σ x op ∧
      (op = .condvarNotify cv ∨ op = .condvarNotifyAll cv) := by
    rcases hop with hr | hr
    · exact ⟨_, hr, .inl rfl⟩
    · exact ⟨_, hr, .inr rfl⟩
  have hop' := ((runs_iff top).mp hr).2
  cases h with
  | @exec t' f' fr' op' _ top' hrun hop'' h =>
      obtain rfl : t = t' := Option.some.inj (top.thread.symm.trans top'.thread)
      obtain rfl : f = f' := Option.some.inj (top.head.symm.trans top'.head)
      obtain rfl : fr = fr' := Option.some.inj (top.frame.symm.trans top'.frame)
      obtain rfl := Option.some.inj (hop'.symm.trans hop'')
      cases h with
      | done h =>
          rcases hcv with rfl | rfl
          · cases h with
            | notifyMiss d _ => rfl
          · cases h
      | pair h =>
          rcases hcv with rfl | rfl
          · cases h with
            | notify d w hmem => exact absurd (hnil ▸ hmem) List.not_mem_nil
          · cases h with
            | notifyAll d =>
                have hm : (σ.markReached fr.function fr.pc).waiters cv = [] := hnil
                rw [hm, List.foldl_nil, modifyWaiters_self hm.symm]
      | block h | create h => rcases hcv with rfl | rfl <;> cases h
      | ret he _ _ => rcases hcv with rfl | rfl <;> cases he
  | endOfBody top' _ hop'' _ =>
      obtain rfl : f = _ := Option.some.inj (top.head.symm.trans
        ((Option.some.inj (top.thread.symm.trans top'.thread)) ▸ top'.head))
      obtain rfl := Option.some.inj (top.frame.symm.trans top'.frame)
      cases hop'.symm.trans hop''
  | resume top' hb _ =>
      obtain rfl := Option.some.inj (top.thread.symm.trans top'.thread)
      cases hb.symm.trans ((runs_iff top).mp hr).1

end Waits

end ConcIR
