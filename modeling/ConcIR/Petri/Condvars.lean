import ConcIR.Petri.Semaphores

/-!
# Condition variables in both engines

No wake-up is lost and none is invented: a waiter registers in its wait statement, leaves
by a notification that comes later, and ends its statement with the lock it gave back.
-/

namespace ConcIR

open MachineState

/-- Condition variables along the runs of an engine; `skip` passes a thread over its
statement and does nothing else. -/
structure CondvarsKept {S : Type} (P : SemProgram) (T : TransitionSystem S) (V : EngineView S)
    (skip : S → ThreadId → S) : Prop where
  step : ∀ s x s', T.Reachable s → T.Takes s x s' → CondvarStep P V s x s'
  registered : ∀ es s cv w, T.Run es s → w ∈ V.waits s cv → RegisteredIn P V es cv w
  /-- Every waiter can be the one that is notified. -/
  choices : ∀ s en x cv w, T.Reachable s → T.successors s = .ok en →
    V.Runs P s x (.condvarNotify cv) → w ∈ V.waits s cv →
      ∃ s', T.Takes s x s' ∧ V.waits s' cv = V.waits s cv \ {w}
  /-- A notification that nobody waits for has no effect. -/
  idle : ∀ s x s' cv, T.Reachable s → T.Takes s x s' →
    (V.Runs P s x (.condvarNotify cv) ∨ V.Runs P s x (.condvarNotifyAll cv)) →
      V.waits s cv = ∅ → s' = skip s x

/-- The machine with a thread past its statement, which is marked as reached. -/
def MachineState.skip (σ : MachineState) (x : ThreadId) : MachineState :=
  match σ.currentFrame x with
  | some fr => (σ.markReached fr.function fr.pc).advance x
  | none => σ

variable {E : Engine} {σ σ' : MachineState} {x y : ThreadId} {t : ThreadState}
  {f : FrameId} {fr : Frame} {cv : ResourceId} {w : ThreadId × ResourceId}

theorem exists_top_of_runs {op : SemOp} (h : machineView.Runs E.program σ x op) :
    ∃ t f fr, Top σ x t f fr ∧ t.status = .runnable ∧
      E.program.opAt fr.function fr.pc = some op := by
  obtain ⟨t, f, fr, top, hop⟩ := exists_top_of_statement h.2
  exact ⟨t, f, fr, top, ((runs_iff top).mp h).1, hop⟩

variable [FloatArith]

section Interpreter

/-- Where no thread fails, the steps of a thread are steps of the interpreter. -/
theorem takes_of_offers {en : Enabled MachineState} (hs : E.interpreter.successors σ = .ok en)
    (hx : σ.HasThread x t) (h : Offers (E.threadSteps σ x t) σ') :
    E.interpreter.Takes σ x σ' := by
  obtain ⟨en', hen', st, hst, rfl⟩ := h
  have hall : ∀ {ts en}, E.allSteps σ ts = .ok en → (x, t) ∈ ts → st ∈ en.steps := by
    intro ts
    induction ts with
    | nil => exact fun _ hp ↦ absurd hp List.not_mem_nil
    | cons q ts ih =>
        intro en hen hp
        obtain ⟨en₁, h₁, hen⟩ := bind_eq_ok.mp hen
        obtain ⟨en₂, h₂, hen⟩ := bind_eq_ok.mp hen
        obtain rfl := Except.ok.inj hen
        rcases List.mem_cons.mp hp with rfl | hp
        · obtain rfl := Except.ok.inj (hen'.symm.trans h₁)
          exact List.mem_append_left _ hst
        · exact List.mem_append_right _ (ih h₂ hp)
  refine ⟨en, hs, st, hall hs (Std.ExtTreeMap.mem_toList_iff_getElem?_eq_some.mpr hx), ?_, rfl⟩
  obtain ⟨f, fr, -, hl⟩ := threadSteps_label hen' hst
  rw [hl]
  rfl

/-- A runnable thread at a notification offers to wake any of the waiters. -/
theorem offers_notify (hw : Wf E.program σ) (top : Top σ x t f fr) (hrun : t.status = .runnable)
    (hop : E.program.opAt fr.function fr.pc = some (.condvarNotify cv))
    (hmem : w ∈ machineView.waits σ cv) :
    ∃ σ', Offers (E.threadSteps σ x t) σ' ∧
      machineView.waits σ' cv = machineView.waits σ cv \ {w} := by
  have hne : (σ.markReached fr.function fr.pc).waiters cv ≠ [] :=
    List.ne_nil_of_mem (mem_waits.mp hmem)
  have hsteps : E.threadSteps σ x t =
      E.many x f fr (((σ.markReached fr.function fr.pc).waiters cv).map fun w ↦
        (((σ.markReached fr.function fr.pc).modifyWaiters cv (·.filter (· ≠ w))).block w.1
          (.lock w.2)).advance x) := by
    simp only [Engine.threadSteps, hrun, Engine.stepThread, Petri.running_of_top top, bind,
      Except.bind, hop, Engine.stepOp, Engine.stepNotify]
    exact if_neg hne
  refine ⟨(((σ.markReached fr.function fr.pc).modifyWaiters cv (·.filter (· ≠ w))).block w.1
    (.lock w.2)).advance x, ?_, ?_⟩
  · rw [hsteps, Engine.offers_many]
    exact List.mem_map.mpr ⟨w, hmem, rfl⟩
  · rw [← waits_diff (contains_of_condvar hw hop (.inl rfl)) w]
    refine congrArg (fun l ↦ {v | v ∈ l}) (waiters_of_condvars _ (SameCells.advance _ x).condvars)

theorem interpreter_condvarsKept :
    CondvarsKept E.program E.interpreter machineView MachineState.skip := by
  have hstep : ∀ σ x σ', E.interpreter.Reachable σ → E.interpreter.Takes σ x σ' →
      CondvarStep E.program machineView σ x σ' := by
    intro σ x σ' hr hs
    obtain ⟨hw, hl⟩ := wf_of_reachable hr
    exact (fires_of_takes hw hs).condvarStep hw hl
  refine ⟨hstep, fun es σ cv w hrun hw ↦ ?_, fun σ en x cv w hr hs hop hmem ↦ ?_,
    fun σ x σ' cv hr hs hop hnone ↦ ?_⟩
  · refine registeredIn_of_run (fun σ cv hs ↦ ?_) hstep hrun hw
    exact waits_eq_empty.mpr ((queues_initial hs).2.2.2 cv)
  · obtain ⟨t, f, fr, top, hrun, hop⟩ := exists_top_of_runs hop
    obtain ⟨σ', ho, hwaits⟩ := offers_notify (wf_of_reachable hr).1 top hrun hop hmem
    exact ⟨σ', takes_of_offers hs top.thread ho, hwaits⟩
  · obtain ⟨t, f, fr, top⟩ : ∃ t f fr, Top σ x t f fr := by
      rcases hop with hop | hop
      · obtain ⟨t, f, fr, top, -⟩ := exists_top_of_runs hop
        exact ⟨t, f, fr, top⟩
      · obtain ⟨t, f, fr, top, -⟩ := exists_top_of_runs hop
        exact ⟨t, f, fr, top⟩
    rw [MachineState.skip, top.currentFrame]
    exact (fires_of_takes (wf_of_reachable hr).1 hs).idle top hop hnone

end Interpreter

namespace Petri

variable {m m' : NetState}

/-- The marking with a control token moved behind its statement, which is marked as
reached. -/
def NetState.skip (m : NetState) (x : ThreadId) : NetState :=
  match m.store.threads[x]?.bind (·.stack.head?) with
  | some f =>
      match m.store.frames[f]? with
      | some fr =>
          placeControl (takeControl m (.control fr.function fr.pc) x f fr)
            (.control fr.function (fr.pc + 1)) x f
      | none => m
  | none => m

omit [FloatArith] in
theorem skip_eq (h : Corr E.program ∅ σ m) (top : Top σ x t f fr) : NetState.skip m x =
    placeControl (takeControl m (.control fr.function fr.pc) x f fr)
      (.control fr.function (fr.pc + 1)) x f := by
  have hhead : m.store.threads[x]?.bind (·.stack.head?) = some f := by
    rw [h.records.thread, show σ.threads[x]? = some t from top.thread]
    exact top.head
  have hframe : m.store.frames[f]? = some fr := by
    rw [h.records.frames]
    exact top.frame
  simp only [NetState.skip, hhead, hframe]

/-- Where nothing fails, the firings of a thread are steps of the net. -/
theorem takes_of_tokenSteps {en : Enabled NetState} (hs : E.petri.successors m = .ok en)
    (h : Offers (tokenSteps E m x) m') : E.petri.Takes m x m' := by
  have hno : ¬ Fails (tokenSteps E m x) := by
    obtain ⟨en', hen', -⟩ := h
    rw [hen']
    exact not_fails_ok en'
  obtain ⟨bs, tr, htr, bind, hb, hx, hf⟩ := (tokenSteps_offers hno).mp h
  have hmem : ∀ {l : List (Transition × FireBind)} {en}, fireAll E m l = .ok en →
      (tr, bind) ∈ l → ∃ st ∈ en.steps, st.label.thread = some x ∧ st.state = m' := by
    intro l
    induction l with
    | nil => exact fun _ hp ↦ absurd hp List.not_mem_nil
    | cons p l ih =>
        intro en hen hp
        obtain ⟨r, hr, hen⟩ := bind_eq_ok.mp hen
        obtain ⟨more, hmore, hen⟩ := bind_eq_ok.mp hen
        obtain rfl := Except.ok.inj hen
        rcases List.mem_cons.mp hp with rfl | hp
        · obtain rfl := Except.ok.inj (hf.symm.trans hr)
          refine ⟨_, List.mem_append_left _ List.mem_cons_self, ?_, rfl⟩
          rw [← hx]
          rfl
        · obtain ⟨st, hst, hl⟩ := ih hmore hp
          exact ⟨st, List.mem_append_right _ hst, hl⟩
  obtain ⟨st, hst, hl⟩ := hmem hs (mem_firings.mpr ⟨htr, hb⟩)
  exact ⟨en, hs, st, hst, hl⟩

theorem firing_of_takes (h : E.petri.Takes m x m') :
    ∃ bs, Firing E m x (.ok ⟨some m', bs⟩) := by
  obtain ⟨en, hen, st, hst, hx, rfl⟩ := h
  obtain ⟨-, hsteps⟩ := fires_of_fireAll hen
  obtain ⟨⟨tr, bind⟩, hp, bs, hfire, hthread⟩ := hsteps st hst
  obtain ⟨htr, hb⟩ := mem_firings.mp hp
  exact ⟨bs, tr, htr, bind, hb, Option.some.inj (hthread.symm.trans hx), hfire⟩

/-- A notification that nobody waits for moves its token only. -/
theorem eq_skip_of_takes (h : Corr E.program ∅ σ m) (hw : Wf E.program σ)
    (top : Top σ x t f fr) (hs : E.petri.Takes m x m')
    (hop : machineView.Runs E.program σ x (.condvarNotify cv) ∨
      machineView.Runs E.program σ x (.condvarNotifyAll cv))
    (hnone : machineView.waits σ cv = ∅) : m' = NetState.skip m x := by
  have hmark : m.marking (.condvar cv) = [] := by
    refine List.eq_nil_iff_forall_not_mem.mpr fun tok htok ↦ ?_
    obtain ⟨y, -, hseat⟩ := ((h.seats (.condvar cv) rfl).2 tok).mp htok
    generalize hk : PlaceKey.condvar cv = k at hseat
    cases hseat with
    | control top hrun => cases hk
    | @wait u g gr r _ topy hb hwt =>
        cases hwt with
        | condvar d lk =>
            obtain rfl := PlaceKey.condvar.inj hk
            have hmem : (y, lk) ∈ machineView.waits σ cv :=
              (hw.regs.iff y (.condvar cv lk) rfl).mpr (topy.status.trans (congrArg some hb))
            rw [hnone] at hmem
            exact absurd hmem (Set.notMem_empty _)
        | _ => cases hk
  have htaken : (takeControl m (.control fr.function fr.pc) x f fr).marking (.condvar cv) = [] := by
    rw [← hmark]
    rfl
  rw [skip_eq h top]
  obtain ⟨bs, hfire⟩ := firing_of_takes hs
  obtain ⟨op, hr, hcv⟩ : ∃ op, machineView.Runs E.program σ x op ∧
      (op = .condvarNotify cv ∨ op = .condvarNotifyAll cv) := by
    rcases hop with hr | hr
    · exact ⟨_, hr, .inl rfl⟩
    · exact ⟨_, hr, .inr rfl⟩
  obtain ⟨hrun, hop'⟩ := (runs_iff top).mp hr
  cases firedAt_of_firing h hfire with
  | @statement t' f' fr' op' top' hrun' hop'' hq =>
      obtain ⟨rfl, rfl, rfl⟩ := top_unique top top'
      obtain rfl := Option.some.inj (hop'.symm.trans hop'')
      rcases hcv with rfl | rfl
      · simp only [outcomes, buildStmt, List.flatMap_cons, List.flatMap_nil, List.append_nil,
          htaken, List.map_nil, List.nil_append, fireOp, List.all_nil, if_true] at hq
        exact Option.some.inj (Fired.mk.inj (Except.ok.inj (List.mem_singleton.mp hq))).1
      · simp only [outcomes, buildStmt, List.flatMap_cons, List.flatMap_nil, List.append_nil,
          htaken, List.filter_nil, List.foldl_nil, fireOp] at hq
        exact Option.some.inj (Fired.mk.inj (Except.ok.inj (List.mem_singleton.mp hq))).1
  | endOfBody top' hrun' hop'' hq =>
      obtain ⟨rfl, rfl, rfl⟩ := top_unique top top'
      cases hop'.symm.trans hop''
  | wake top' hb hwt ho hq =>
      obtain ⟨rfl, rfl, rfl⟩ := top_unique top top'
      cases hrun.symm.trans hb

theorem petri_condvarsKept : CondvarsKept E.program E.petri netView NetState.skip := by
  have hstep : ∀ m x m', E.petri.Reachable m → E.petri.Takes m x m' →
      CondvarStep E.program netView m x m' := by
    intro m x m' hr hs
    obtain ⟨σ, hc, hw, hl⟩ := corr_of_reachable hr
    obtain ⟨σ', hf, hc'⟩ := fires_of_takes hc hw hs
    exact (hc.sameView hw).condvarStep (hc'.sameView (hf.wf hw hl).1) (hf.condvarStep hw hl)
  refine ⟨hstep, fun es m cv w hrun hw ↦ ?_, fun m en x cv w hr hs hop hmem ↦ ?_,
    fun m x m' cv hr hs hop hnone ↦ ?_⟩
  · refine registeredIn_of_run (fun m cv hm ↦ ?_) hstep hrun hw
    obtain ⟨m', hm', hc⟩ := corr_initial (E := E) rfl
    obtain rfl : m' = m := Except.ok.inj (hm'.symm.trans hm)
    obtain ⟨hw, -⟩ := wf_initial (E := E) rfl
    exact ((hc.sameView hw).waits cv).trans (waits_eq_empty.mpr ((queues_initial rfl).2.2.2 cv))
  · obtain ⟨σ, hc, hw, hl⟩ := corr_of_reachable hr
    have hv := hc.sameView hw
    obtain ⟨t, f, fr, top, hrun, hop⟩ := exists_top_of_runs (hv.runs.mp hop)
    rw [hv.waits] at hmem ⊢
    obtain ⟨σ', ho, hwaits⟩ := offers_notify hw top hrun hop hmem
    have hagree := stepsAgree_runnable hc hw top hrun fun op hop' ↦ by
      obtain rfl := Option.some.inj (hop.symm.trans hop')
      rfl
    obtain ⟨m', ho', hc'⟩ := hagree.offered σ' ho
    have hw' := ((fires_of_threadSteps hw top.thread ho).wf hw hl).1
    exact ⟨m', takes_of_tokenSteps hs ho', ((hc'.sameView hw').waits cv).trans hwaits⟩
  · obtain ⟨σ, hc, hw, -⟩ := corr_of_reachable hr
    have hv := hc.sameView hw
    have hop' : machineView.Runs E.program σ x (.condvarNotify cv) ∨
        machineView.Runs E.program σ x (.condvarNotifyAll cv) :=
      hop.imp hv.runs.mp hv.runs.mp
    obtain ⟨t, f, fr, top⟩ : ∃ t f fr, Top σ x t f fr := by
      rcases hop' with hop | hop
      · obtain ⟨t, f, fr, top, -⟩ := exists_top_of_runs hop
        exact ⟨t, f, fr, top⟩
      · obtain ⟨t, f, fr, top, -⟩ := exists_top_of_runs hop
        exact ⟨t, f, fr, top⟩
    exact eq_skip_of_takes hc hw top hs hop' ((hv.waits cv).symm.trans hnone)

end Petri

/-- Neither engine loses or invents a wake-up. -/
theorem condvars_kept : CondvarsKept E.program E.interpreter machineView MachineState.skip ∧
    CondvarsKept E.program E.petri Petri.netView Petri.NetState.skip :=
  ⟨interpreter_condvarsKept, Petri.petri_condvarsKept⟩

end ConcIR
