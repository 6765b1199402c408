import ConcIR.Petri.Conserve

/-!
# The engines take the same steps

In corresponding states a thread has the same steps in the interpreter and in the net, for
programs built from synchronization and plain control flow.
-/

namespace ConcIR

open MachineState

namespace Petri

section Token

variable [FloatArith]

/-- The steps of the net on the token of one thread. -/
def tokenSteps (E : Engine) (m : NetState) (x : ThreadId) : BackendResult (Enabled NetState) :=
  fireAll E m (((transitions E.program).flatMap fun tr ↦ (bindings m tr).map (tr, ·)).filter
    (·.2.ids.1 = x))

/-- A thread has the same steps on both sides, up to corresponding states. -/
structure StepsAgree (E : Engine) (σ : MachineState) (m : NetState) (x : ThreadId)
    (t : ThreadState) : Prop where
  fails : Fails (E.threadSteps σ x t) ↔ Fails (tokenSteps E m x)
  offered : ∀ σ', Offers (E.threadSteps σ x t) σ' →
    ∃ m', Offers (tokenSteps E m x) m' ∧ Corr E.program ∅ σ' m'
  taken : ∀ m', Offers (tokenSteps E m x) m' →
    ∃ σ', Offers (E.threadSteps σ x t) σ' ∧ Corr E.program ∅ σ' m'

end Token

/-- Statements of mutexes, semaphores, channels, condition variables, threads and scopes,
with `return` and `goto`. -/
def SemOp.isSync : SemOp → Bool
  | .mutexLock _ | .mutexUnlock _ | .semaphoreAcquire _ _ | .semaphoreRelease _ _
  | .channelSend _ _ | .channelRecv _ _ | .condvarWait _ _ | .condvarNotify _
  | .condvarNotifyAll _ | .spawn _ _ | .join _ | .scope _ | .return _ | .goto _ => true
  | _ => false

variable {E : Engine} {P : SemProgram} {σ σ' : MachineState} {m m' : NetState} {x : ThreadId}
  {t : ThreadState} {f : FrameId} {fr : Frame} {op : SemOp} {q : BackendResult Fired}

section Firings

variable [FloatArith]

theorem fireAll_fails {l : List (Transition × FireBind)} :
    Fails (fireAll E m l) ↔ ∃ p ∈ l, Fails (fire E m p.1 p.2) := by
  induction l with
  | nil => exact ⟨fun h ↦ absurd h (not_fails_ok _), fun ⟨p, hp, _⟩ ↦ (by cases hp)⟩
  | cons p l ih =>
      rw [fireAll, List.exists_mem_cons_iff, ← ih]
      cases fire E m p.1 p.2 with
      | error e => exact ⟨fun _ ↦ .inl (fails_error e), fun _ ↦ fails_error e⟩
      | ok r =>
          rw [or_iff_right (not_fails_ok r)]
          cases fireAll E m l with
          | error e => exact ⟨fun _ ↦ fails_error e, fun _ ↦ fails_error e⟩
          | ok more =>
              exact ⟨fun h ↦ absurd h (not_fails_ok _), fun h ↦ absurd h (not_fails_ok _)⟩

theorem fireAll_offers {l : List (Transition × FireBind)} (hno : ¬ Fails (fireAll E m l)) :
    Offers (fireAll E m l) m' ↔ ∃ p ∈ l, ∃ bs, fire E m p.1 p.2 = .ok ⟨some m', bs⟩ := by
  induction l with
  | nil =>
      constructor
      · rintro ⟨_, ⟨⟩, st, hst, -⟩
        cases hst
      · rintro ⟨p, hp, -⟩
        cases hp
  | cons p l ih =>
      rw [fireAll_fails, List.exists_mem_cons_iff, not_or, ← fireAll_fails] at hno
      rw [List.exists_mem_cons_iff, ← ih hno.2, fireAll]
      cases hr : fire E m p.1 p.2 with
      | error e => exact absurd ⟨e, hr⟩ hno.1
      | ok r =>
          cases hmore : fireAll E m l with
          | error e => exact absurd ⟨e, hmore⟩ hno.2
          | ok more =>
              constructor
              · rintro ⟨_, ⟨⟩, st, hst, rfl⟩
                rcases List.mem_append.mp hst with hst | hst
                · obtain ⟨m₁, hm₁, rfl⟩ := List.mem_map.mp hst
                  exact .inl ⟨r.boundary, by rw [← Option.mem_toList.mp hm₁]⟩
                · exact .inr ⟨more, rfl, st, hst, rfl⟩
              · rintro (⟨bs, hbs⟩ | ⟨_, ⟨⟩, st, hst, rfl⟩)
                · obtain rfl := Except.ok.inj hbs
                  exact ⟨_, rfl, _, List.mem_append_left _ List.mem_cons_self, rfl⟩
                · exact ⟨_, rfl, st, List.mem_append_right _ hst, rfl⟩

/-- The steps on the token of a thread are its firings. -/
theorem tokenSteps_fails : Fails (tokenSteps E m x) ↔ ∃ q, Firing E m x q ∧ Fails q := by
  rw [tokenSteps, fireAll_fails]
  constructor
  · rintro ⟨p, hp, hf⟩
    obtain ⟨hp, hx⟩ := List.mem_filter.mp hp
    obtain ⟨htr, hb⟩ := mem_firings.mp hp
    exact ⟨_, ⟨p.1, htr, p.2, hb, of_decide_eq_true hx, rfl⟩, hf⟩
  · rintro ⟨q, ⟨tr, htr, bind, hb, hx, rfl⟩, hf⟩
    exact ⟨(tr, bind), List.mem_filter.mpr ⟨mem_firings.mpr ⟨htr, hb⟩, decide_eq_true hx⟩, hf⟩

theorem tokenSteps_offers (hno : ¬ Fails (tokenSteps E m x)) :
    Offers (tokenSteps E m x) m' ↔ ∃ bs, Firing E m x (.ok ⟨some m', bs⟩) := by
  rw [tokenSteps, fireAll_offers hno]
  constructor
  · rintro ⟨p, hp, bs, hf⟩
    obtain ⟨hp, hx⟩ := List.mem_filter.mp hp
    obtain ⟨htr, hb⟩ := mem_firings.mp hp
    exact ⟨bs, p.1, htr, p.2, hb, of_decide_eq_true hx, hf⟩
  · rintro ⟨bs, tr, htr, bind, hb, hx, hf⟩
    exact ⟨(tr, bind), List.mem_filter.mpr ⟨mem_firings.mpr ⟨htr, hb⟩, decide_eq_true hx⟩, bs, hf⟩

/-- Outcomes that agree with what the interpreter offers are the steps of the token. -/
theorem Agrees.stepsAgree {qs : List (BackendResult Fired)}
    (h : Agrees E.program (E.threadSteps σ x t) qs) (hqs : ∀ q, q ∈ qs ↔ Firing E m x q) :
    StepsAgree E σ m x t := by
  have hfails : Fails (E.threadSteps σ x t) ↔ Fails (tokenSteps E m x) := by
    rw [h.fails, tokenSteps_fails]
    simp only [hqs]
  have hok : ∀ {A : Type} {r : BackendResult (Enabled A)} {a : A}, Offers r a → ¬ Fails r := by
    rintro A r a ⟨en, rfl, -⟩
    exact not_fails_ok en
  refine ⟨hfails, fun σ' ho ↦ ?_, fun m' ho ↦ ?_⟩
  · obtain ⟨m', bs, hm, hc⟩ := h.offered σ' ho
    refine ⟨m', (tokenSteps_offers fun hf ↦ hok ho (hfails.mpr hf)).mpr ⟨bs, (hqs _).mp hm⟩, hc⟩
  · obtain ⟨bs, hfire⟩ := (tokenSteps_offers (hok ho)).mp ho
    exact h.taken (fun hf ↦ hok ho (hfails.mp hf)) m' bs ((hqs _).mpr hfire)

end Firings

section Threads

theorem running_of_top (top : Top σ x t f fr) : Engine.running σ x = .ok (f, fr) := by
  rw [Engine.running, top.currentFrameId]
  simp only [show σ.store.frames[f]? = some fr from top.frame]

/-- A thread that is not finished has a running activation. -/
theorem exists_top (hw : Wf P σ) (hx : σ.HasThread x t) (hlive : t.status ≠ .finished) :
    ∃ f fr, Top σ x t f fr := by
  obtain ⟨k, tok, hs⟩ := exists_seat hw hx hlive
  obtain ⟨u, f, fr, top, -⟩ := hs.binding
  obtain rfl : t = u := Option.some.inj (hx.symm.trans top.thread)
  exact ⟨f, fr, top⟩

variable [FloatArith] (h : Corr E.program ∅ σ m) (hw : Wf E.program σ)

include h hw

theorem stepsAgree_runnable (top : Top σ x t f fr) (hrun : t.status = .runnable)
    (hc : ∀ op, E.program.opAt fr.function fr.pc = some op → isCommon E op = true) :
    StepsAgree E σ m x t := by
  cases hop : E.program.opAt fr.function fr.pc with
  | some op =>
      have hw₁ : Wf E.program (σ.markReached fr.function fr.pc) := hw.quiet (quiet_markReached _ _)
      have top₁ : Top (σ.markReached fr.function fr.pc) x t f fr :=
        ⟨top.thread, top.head, top.frame⟩
      have ha := agrees_op (h.takeControl hw top hrun) hw₁ top₁ hrun hop (hc op hop)
      have hstep : E.threadSteps σ x t = E.stepOp (σ.markReached fr.function fr.pc) x f fr op := by
        simp only [Engine.threadSteps, hrun, Engine.stepThread, running_of_top top, bind,
          Except.bind, hop]
      rw [← hstep] at ha
      refine ha.stepsAgree fun q ↦ ⟨fun hq ↦ firing_of_outcome h top hrun hop hq, fun hq ↦ ?_⟩
      cases firedAt_of_firing h hq with
      | statement top' hrun' hop' hq =>
          obtain ⟨rfl, rfl, rfl⟩ := top_unique top top'
          obtain rfl := Option.some.inj (hop.symm.trans hop')
          exact hq
      | endOfBody top' hrun' hop' hq =>
          obtain ⟨rfl, rfl, rfl⟩ := top_unique top top'
          cases hop.symm.trans hop'
      | wake top' hb hwt ho hq =>
          obtain ⟨rfl, rfl, rfl⟩ := top_unique top top'
          cases hrun.symm.trans hb
  | none =>
      have hpc : fr.pc = (E.program.function fr.function).body.length :=
        le_antisymm (hw.code.pc_le f fr top.frame) (pc_of_opAt_none hop)
      have ha := agrees_applyReturn (h.takeEnd hw top hrun hpc) hw top hrun none
      have hstep : E.threadSteps σ x t = E.oneOf x f fr (E.applyReturn σ x f fr none) := by
        simp only [Engine.threadSteps, hrun, Engine.stepThread, running_of_top top, bind,
          Except.bind, hop]
      change Agrees _ (E.oneOf x f fr (E.applyReturn σ x f fr none)) _ at ha
      rw [← hstep] at ha
      refine ha.stepsAgree fun q ↦
        ⟨fun hq ↦ firing_of_firedAt h hw (.endOfBody top hrun hop hq), fun hq ↦ ?_⟩
      cases firedAt_of_firing h hq with
      | statement top' hrun' hop' hq =>
          obtain ⟨rfl, rfl, rfl⟩ := top_unique top top'
          cases hop.symm.trans hop'
      | endOfBody top' hrun' hop' hq =>
          obtain ⟨rfl, rfl, rfl⟩ := top_unique top top'
          exact hq
      | wake top' hb hwt ho hq =>
          obtain ⟨rfl, rfl, rfl⟩ := top_unique top top'
          cases hrun.symm.trans hb

theorem stepsAgree_blocked (top : Top σ x t f fr) {r : BlockReason} (hb : t.status = .blocked r) :
    StepsAgree E σ m x t := by
  have hsteps : E.threadSteps σ x t = E.resumeOp σ x f fr r := by
    simp only [Engine.threadSteps, hb, Engine.resumeThread, running_of_top top]
    rfl
  obtain ⟨k, tok, hs⟩ := exists_seat hw top.thread (by rw [hb]; simp)
  cases hs with
  | control top' hrun =>
      obtain ⟨rfl, rfl, rfl⟩ := top_unique top top'
      cases hb.symm.trans hrun
  | @wait _ _ _ r' _ top' hb' hwt =>
      obtain ⟨rfl, rfl, rfl⟩ := top_unique top top'
      obtain rfl : r = r' := ThreadStatus.blocked.inj (hb.symm.trans hb')
      have ha := agrees_resume h hw top hb hwt
      rw [← hsteps] at ha
      refine ha.stepsAgree fun q ↦ ⟨fun hq ↦ ?_, fun hq ↦ ?_⟩
      · obtain ⟨o, ho, rfl⟩ := List.mem_map.mp hq
        exact firing_of_firedAt h hw (.wake top hb hwt ho rfl)
      · cases firedAt_of_firing h hq with
        | statement top' hrun' hop' hq =>
            obtain ⟨rfl, rfl, rfl⟩ := top_unique top top'
            cases hb.symm.trans hrun'
        | endOfBody top' hrun' hop' hq =>
            obtain ⟨rfl, rfl, rfl⟩ := top_unique top top'
            cases hb.symm.trans hrun'
        | wake top' hb'' hwt' ho hq =>
            obtain ⟨rfl, rfl, rfl⟩ := top_unique top top'
            obtain rfl := ThreadStatus.blocked.inj (hb.symm.trans hb'')
            obtain rfl := hwt.unique hw.regs.sends_nodup hw.regs.queue_nodup hwt'
            exact List.mem_map.mpr ⟨_, ho, hq.symm⟩

theorem stepsAgree_finished (hx : σ.HasThread x t) (hf : t.status = .finished) :
    StepsAgree E σ m x t := by
  have hsteps : E.threadSteps σ x t = .ok .empty := by simp only [Engine.threadSteps, hf]
  have ha : Agrees E.program (E.threadSteps σ x t) [] := by
    rw [hsteps]
    exact .stay (by simp)
  refine ha.stepsAgree fun q ↦ ⟨fun hq ↦ (by cases hq), fun hq ↦ ?_⟩
  have hnil := (hw.stack.finished_stack x t hx).mp hf
  have hno : ∀ {u : ThreadState} {f fr}, ¬ Top σ x u f fr := fun top ↦ by
    obtain rfl := Option.some.inj (hx.symm.trans top.thread)
    have hhead := top.head
    rw [hnil] at hhead
    cases hhead
  cases firedAt_of_firing h hq with
  | statement top _ _ _ => exact absurd top hno
  | endOfBody top _ _ _ => exact absurd top hno
  | wake top _ _ _ _ => exact absurd top hno

/-- A thread has the same steps in corresponding states. -/
theorem stepsAgree (hx : σ.HasThread x t)
    (hc : ∀ fn pc op, E.program.opAt fn pc = some op → isCommon E op = true) :
    StepsAgree E σ m x t := by
  cases hst : t.status with
  | finished => exact stepsAgree_finished h hw hx hst
  | runnable =>
      obtain ⟨f, fr, top⟩ := exists_top hw hx (by rw [hst]; simp)
      exact stepsAgree_runnable h hw top hst fun op hop ↦ hc _ _ op hop
  | blocked r =>
      obtain ⟨f, fr, top⟩ := exists_top hw hx (by rw [hst]; simp)
      exact stepsAgree_blocked h hw top hst

end Threads

theorem isCommon_of_isSync (h : SemOp.isSync op = true) : isCommon E op = true := by
  cases op <;> first | rfl | cases h

/-- Functions with a body synchronize and move on, and do nothing else. -/
def SyncOnly (P : SemProgram) : Prop :=
  ∀ fn ∈ P.functions, ∀ s ∈ fn.body, SemOp.isSync s.op = true

theorem SyncOnly.opAt (hs : SyncOnly P) {fn : FunctionId} {pc : ℕ} (hop : P.opAt fn pc = some op) :
    SemOp.isSync op = true := by
  have hlt := P.lt_of_opAt hop
  obtain ⟨s, hmem, rfl⟩ := Option.map_eq_some_iff.mp hop
  rw [P.function_of_getElem? (List.getElem?_eq_getElem hlt)] at hmem
  exact hs _ (List.getElem_mem hlt) s (List.mem_of_getElem? hmem)

/-- Both engines start in corresponding states, and in every pair of corresponding
reachable states every thread has the same steps on both sides. -/
theorem step_simulation [FloatArith] (hs : SyncOnly E.program) :
    (∃ σ m, E.interpreter.initial = .ok σ ∧ E.petri.initial = .ok m ∧ Corr E.program ∅ σ m) ∧
      ∀ σ m, E.interpreter.Reachable σ → E.petri.Reachable m → Corr E.program ∅ σ m →
        ∀ x t, σ.HasThread x t → StepsAgree E σ m x t := by
  constructor
  · obtain ⟨m, hm, hc⟩ := corr_initial (E := E) rfl
    exact ⟨_, m, rfl, hm, hc⟩
  · intro σ m hσ _ hc x t hx
    obtain ⟨hw, -⟩ := wf_of_reachable hσ
    exact stepsAgree hc hw hx fun fn pc op hop ↦ isCommon_of_isSync (hs.opAt hop)

/-- Both engines take the same steps on the pipeline. -/
theorem step_simulation_pipeline : SyncOnly pipeline ∧
    (∃ σ m, pipelineSystem.initial = .ok σ ∧ pipelineNet.initial = .ok m ∧ Corr pipeline ∅ σ m) ∧
      ∀ σ m, pipelineSystem.Reachable σ → pipelineNet.Reachable m → Corr pipeline ∅ σ m →
        ∀ x t, σ.HasThread x t → @StepsAgree .unused pipelineEngine σ m x t := by
  have hs : SyncOnly pipeline := by
    unfold SyncOnly
    decide
  exact ⟨hs, @step_simulation pipelineEngine .unused hs⟩

end Petri

end ConcIR
