import ConcIR.Petri.Shown

/-!
# Semaphore accounting in both engines

The permits of a semaphore are the declared ones, with those released and without those
acquired along the run, and an overflow is reported instead of taken.
-/

namespace ConcIR

open MachineState

/-- The report of a release that would exceed the integer range. -/
def overflowError (E : Engine) (fr : Frame) (r : ResourceId) : BackendError :=
  (BackendError.mkInvalid "E905" s!"semaphore '{r}' permit count overflows i64").atLoc (E.loc fr)

/-- The permits of the semaphores along the runs of an engine; `stepsOf` is what it makes
of one thread. -/
structure SemaphoresAccounted {S : Type} (E : Engine) (T : TransitionSystem S) (V : EngineView S)
    (stepsOf : S → ThreadId → BackendResult (Enabled S)) : Prop where
  balance : ∀ es s r, T.Run es s → hasKind E.program.resources r .semaphore = true →
    ∃ k, V.available s r = some k ∧ k = (E.program.resource r).permits +
      V.released E.program r es - V.acquired E.program r es ∧ 0 ≤ k
  /-- Then the engine offers no step and reports the error of one of its threads. -/
  overflow : ∀ s x fr r n k, T.Reachable s → V.current s x = some fr →
    E.program.opAt fr.function fr.pc = some (.semaphoreRelease r n) → 0 < n →
    V.available s r = some k → 2 ^ 63 ≤ k + n →
      stepsOf s x = .error (overflowError E fr r) ∧
        ∃ y e, stepsOf s y = .error e ∧ T.successors s = .error e
  /-- Completed at once or after waiting, an acquire finds its permits there. -/
  enough : ∀ s x s' r n, T.Reachable s → T.Takes s x s' →
    .semaphoreAcquire r n ∈ V.completed E.program s s' →
      ∃ k, V.available s r = some k ∧ n ≤ k

/-- The steps of one thread of the machine. -/
def Engine.stepsOf [FloatArith] (E : Engine) (σ : MachineState) (x : ThreadId) :
    BackendResult (Enabled MachineState) :=
  match σ.threads[x]? with
  | some t => E.threadSteps σ x t
  | none => .ok .empty

variable {E : Engine} {σ σ' : MachineState} {x y : ThreadId} {t : ThreadState}
  {f : FrameId} {fr : Frame} {r : ResourceId} {n k : ℤ}

theorem checkedI64_eq_none (hk : 2 ^ 63 ≤ k) : checkedI64 k = none := by
  rw [checkedI64, if_neg]
  omega

theorem top_of_current (h : machineView.current σ x = some fr) : ∃ t f, Top σ x t f fr := by
  obtain ⟨f, hid, hfr⟩ := Option.bind_eq_some_iff.mp h
  obtain ⟨t, ht, hhead⟩ := Option.bind_eq_some_iff.mp hid
  exact ⟨t, f, ht, hhead, hfr⟩

/-- A thread does not wait at a release. -/
theorem Wf.runnable_release (hw : Wf E.program σ) (top : Top σ x t f fr)
    (hop : E.program.opAt fr.function fr.pc = some (.semaphoreRelease r n)) :
    t.status = .runnable := by
  cases hst : t.status with
  | runnable => rfl
  | finished =>
      have hhead := top.head
      rw [(hw.stack.finished_stack x t top.thread).mp hst] at hhead
      cases hhead
  | blocked q =>
      obtain ⟨g, gr, op, hhead, hgr, hop', hwt⟩ := hw.code.blocked x t q top.thread hst
      obtain rfl : f = g := Option.some.inj (top.head.symm.trans hhead)
      obtain rfl : fr = gr := Option.some.inj (top.frame.symm.trans hgr)
      obtain rfl := Option.some.inj (hop.symm.trans hop')
      cases q with
      | _ => simp [Waits] at hwt

variable [FloatArith]

section Interpreter

/-- An error of a whole step is the error of a thread. -/
theorem allSteps_error {ts : List (ThreadId × ThreadState)} {e : BackendError}
    (h : E.allSteps σ ts = .error e) : ∃ p ∈ ts, E.threadSteps σ p.1 p.2 = .error e := by
  induction ts with
  | nil => cases h
  | cons p ts ih =>
      rw [Engine.allSteps] at h
      cases hp : E.threadSteps σ p.1 p.2 with
      | error e' =>
          rw [hp] at h
          obtain rfl := Except.error.inj h
          exact ⟨p, List.mem_cons_self, hp⟩
      | ok en =>
          cases hrest : E.allSteps σ ts with
          | error e' =>
              rw [hp, hrest] at h
              obtain rfl := Except.error.inj h
              obtain ⟨q, hq, hqe⟩ := ih hrest
              exact ⟨q, List.mem_cons_of_mem p hq, hqe⟩
          | ok more =>
              rw [hp, hrest] at h
              cases h

theorem successors_error {e : BackendError} (h : E.stepsOf σ x = .error e) :
    ∃ y e, E.stepsOf σ y = .error e ∧ E.interpreter.successors σ = .error e := by
  cases hs : E.successors σ with
  | error e' =>
      obtain ⟨p, hp, hpe⟩ := allSteps_error hs
      refine ⟨p.1, e', ?_, hs⟩
      rw [Engine.stepsOf, Std.ExtTreeMap.mem_toList_iff_getElem?_eq_some.mp hp]
      exact hpe
  | ok en =>
      have hall : ∀ {ts en}, E.allSteps σ ts = .ok en → ∀ p ∈ ts,
          ∃ en', E.threadSteps σ p.1 p.2 = .ok en' := by
        intro ts
        induction ts with
        | nil => exact fun _ p hp ↦ absurd hp List.not_mem_nil
        | cons q ts ih =>
            intro en hen p hp
            obtain ⟨en₁, h₁, hen⟩ := bind_eq_ok.mp hen
            obtain ⟨en₂, h₂, -⟩ := bind_eq_ok.mp hen
            rcases List.mem_cons.mp hp with rfl | hp
            · exact ⟨en₁, h₁⟩
            · exact ih h₂ p hp
      rw [Engine.stepsOf] at h
      split at h
      case _ t ht =>
        obtain ⟨en', hen'⟩ :=
          hall hs (x, t) (Std.ExtTreeMap.mem_toList_iff_getElem?_eq_some.mpr ht)
        cases h.symm.trans hen'
      case _ => cases h

theorem stepsOf_overflow (hw : Wf E.program σ) (hcur : machineView.current σ x = some fr)
    (hop : E.program.opAt fr.function fr.pc = some (.semaphoreRelease r n)) (hn : 0 < n)
    (hk : machineView.available σ r = some k) (hover : 2 ^ 63 ≤ k + n) :
    E.stepsOf σ x = .error (overflowError E fr r) := by
  obtain ⟨t, f, top⟩ := top_of_current hcur
  have hrun := hw.runnable_release top hop
  have hk' : (σ.markReached fr.function fr.pc).store.semaphores[r]? = some k := hk
  rw [Engine.stepsOf, show σ.threads[x]? = some t from top.thread]
  simp only [Engine.threadSteps, hrun, Engine.stepThread, Petri.running_of_top top, bind,
    Except.bind, hop, Engine.stepOp, if_neg (not_le.mpr hn), hk', Option.getD_some,
    checkedI64_eq_none hover]
  rfl

/-- The interpreter accounts for its semaphores. -/
theorem interpreter_semaphoresAccounted
    (hpos : ∀ r, hasKind E.program.resources r .semaphore = true →
      0 ≤ (E.program.resource r).permits) :
    SemaphoresAccounted E E.interpreter machineView E.stepsOf := by
  have hstep : ∀ σ x σ', E.interpreter.Reachable σ → E.interpreter.Takes σ x σ' →
      SemaphoreStep E.program machineView σ σ' := by
    intro σ x σ' hr hs
    obtain ⟨hw, hl⟩ := wf_of_reachable hr
    exact (fires_of_takes hw hs).semaphoreStep hw hl
  refine ⟨fun es σ r hrun hr ↦ ?_, ?_, fun σ x σ' r n hr hs ↦ (hstep σ x σ' hr hs).enough r n⟩
  · obtain ⟨hav, hnn⟩ := accounts_of_run (fun s r hs hr ↦ semaphores_initial hs hr) hstep hpos hrun hr
    exact ⟨_, hav, rfl, hnn⟩
  · intro σ x fr r n k hr hcur hop hn hk hover
    have he := stepsOf_overflow (wf_of_reachable hr).1 hcur hop hn hk hover
    exact ⟨he, successors_error he⟩

end Interpreter

namespace Petri

variable {m m' : NetState}

/-- An error of a whole step is the error of a token. -/
theorem fireAll_error {l : List (Transition × FireBind)} {e : BackendError}
    (h : fireAll E m l = .error e) :
    ∃ p ∈ l, fireAll E m (l.filter (·.2.ids.1 = p.2.ids.1)) = .error e := by
  induction l with
  | nil => cases h
  | cons p l ih =>
      rw [fireAll] at h
      cases hp : fire E m p.1 p.2 with
      | error e' =>
          rw [hp] at h
          obtain rfl := Except.error.inj h
          refine ⟨p, List.mem_cons_self, ?_⟩
          rw [List.filter_cons, if_pos (decide_eq_true rfl), fireAll, hp]
          rfl
      | ok o =>
          cases hrest : fireAll E m l with
          | ok more =>
              rw [hp, hrest] at h
              cases h
          | error e' =>
              rw [hp, hrest] at h
              obtain rfl := Except.error.inj h
              obtain ⟨q, hq, hqe⟩ := ih hrest
              refine ⟨q, List.mem_cons_of_mem p hq, ?_⟩
              by_cases hpq : p.2.ids.1 = q.2.ids.1
              · rw [List.filter_cons, if_pos (decide_eq_true hpq), fireAll, hp, hqe]
                rfl
              · rw [List.filter_cons, if_neg (by simpa using hpq)]
                exact hqe

/-- Where every firing of a thread fails in one way, its steps do. -/
theorem tokenSteps_error {e : BackendError} (hsome : ∃ q, Firing E m x q)
    (hall : ∀ q, Firing E m x q → q = .error e) : tokenSteps E m x = .error e := by
  obtain ⟨_, tr, htr, bind, hb, hx, -⟩ := hsome
  have hmem : ∀ p ∈ ((transitions E.program).flatMap fun tr ↦
      (bindings m tr).map (tr, ·)).filter (·.2.ids.1 = x), fire E m p.1 p.2 = .error e := by
    intro p hp
    obtain ⟨hp, hx⟩ := List.mem_filter.mp hp
    obtain ⟨htr, hb⟩ := mem_firings.mp hp
    exact hall _ ⟨p.1, htr, p.2, hb, of_decide_eq_true hx, rfl⟩
  have hne : (tr, bind) ∈ ((transitions E.program).flatMap fun tr ↦
      (bindings m tr).map (tr, ·)).filter (·.2.ids.1 = x) :=
    List.mem_filter.mpr ⟨mem_firings.mpr ⟨htr, hb⟩, decide_eq_true hx⟩
  rw [tokenSteps]
  generalize ((transitions E.program).flatMap fun tr ↦
    (bindings m tr).map (tr, ·)).filter (·.2.ids.1 = x) = l at hmem hne
  cases l with
  | nil => exact absurd hne List.not_mem_nil
  | cons p l =>
      rw [fireAll, hmem p List.mem_cons_self]
      rfl

theorem successors_error (h : Fails (tokenSteps E m x)) :
    ∃ y e, tokenSteps E m y = .error e ∧ E.petri.successors m = .error e := by
  obtain ⟨q, ⟨tr, htr, bind, hb, -, rfl⟩, hf⟩ := tokenSteps_fails.mp h
  have hfails : Fails (Petri.successors E m) :=
    fireAll_fails.mpr ⟨(tr, bind), mem_firings.mpr ⟨htr, hb⟩, hf⟩
  obtain ⟨e, he⟩ := hfails
  obtain ⟨p, -, hp⟩ := fireAll_error he
  exact ⟨p.2.ids.1, e, hp, he⟩

theorem tokenSteps_overflow (h : Corr E.program ∅ σ m) (hw : Wf E.program σ)
    (hcur : netView.current m x = some fr)
    (hop : E.program.opAt fr.function fr.pc = some (.semaphoreRelease r n)) (hn : 0 < n)
    (hk : netView.available m r = some k) (hover : 2 ^ 63 ≤ k + n) :
    tokenSteps E m x = .error (overflowError E fr r) := by
  obtain ⟨t, f, top⟩ := top_of_current (((h.sameView hw).current x).symm.trans hcur)
  have hrun := hw.runnable_release top hop
  have hk' : (Petri.takeControl m (.control fr.function fr.pc) x f fr).readInt (.semaphore r) =
      some k :=
    (Cells.readInt (h.takeControl hw top hrun).cells r).trans
      (((h.sameView hw).available r).symm.trans hk)
  have hout : outcomes E (Petri.takeControl m (.control fr.function fr.pc) x f fr) x f fr
      (.semaphoreRelease r n) = [.error (overflowError E fr r)] := by
    simp only [outcomes, buildStmt, fireOp, fireRelease, List.flatMap_cons, List.flatMap_nil,
      List.append_nil, if_neg (not_le.mpr hn), hk', Option.getD_some, checkedI64_eq_none hover]
    rfl
  refine tokenSteps_error ⟨_, firing_of_outcome h top hrun hop (by
    rw [hout]
    exact List.mem_cons_self)⟩ fun q hq ↦ ?_
  cases firedAt_of_firing h hq with
  | statement top' hrun' hop' hq =>
      obtain ⟨rfl, rfl, rfl⟩ := top_unique top top'
      obtain rfl := Option.some.inj (hop.symm.trans hop')
      rw [hout] at hq
      exact List.mem_singleton.mp hq
  | endOfBody top' hrun' hop' hq =>
      obtain ⟨rfl, rfl, rfl⟩ := top_unique top top'
      cases hop.symm.trans hop'
  | wake top' hb hwt ho hq =>
      obtain ⟨rfl, rfl, rfl⟩ := top_unique top top'
      cases hrun.symm.trans hb

/-- The net accounts for its semaphores. -/
theorem petri_semaphoresAccounted
    (hpos : ∀ r, hasKind E.program.resources r .semaphore = true →
      0 ≤ (E.program.resource r).permits) :
    SemaphoresAccounted E E.petri netView (tokenSteps E) := by
  have hinit : ∀ m r, E.petri.initial = .ok m →
      hasKind E.program.resources r .semaphore = true →
      netView.available m r = some (E.program.resource r).permits := by
    intro m r hm hr
    obtain ⟨m', hm', hc⟩ := corr_initial (E := E) rfl
    obtain rfl : m' = m := Except.ok.inj (hm'.symm.trans hm)
    obtain ⟨hw, -⟩ := wf_initial (E := E) rfl
    exact ((hc.sameView hw).available r).trans (semaphores_initial rfl hr)
  have hstep : ∀ m x m', E.petri.Reachable m → E.petri.Takes m x m' →
      SemaphoreStep E.program netView m m' := by
    intro m x m' hr hs
    obtain ⟨σ, hc, hw, hl⟩ := corr_of_reachable hr
    obtain ⟨σ', hf, hc'⟩ := fires_of_takes hc hw hs
    exact (hc.sameView hw).semaphoreStep (hc'.sameView (hf.wf hw hl).1) (hf.semaphoreStep hw hl)
  refine ⟨fun es m r hrun hr ↦ ?_, ?_, fun m x m' r n hr hs ↦ (hstep m x m' hr hs).enough r n⟩
  · obtain ⟨hav, hnn⟩ := accounts_of_run hinit hstep hpos hrun hr
    exact ⟨_, hav, rfl, hnn⟩
  · intro m x fr r n k hr hcur hop hn hk hover
    obtain ⟨σ, hc, hw, -⟩ := corr_of_reachable hr
    have he := tokenSteps_overflow hc hw hcur hop hn hk hover
    exact ⟨he, successors_error ⟨_, he⟩⟩

end Petri

/-- Both engines account for their semaphores. -/
theorem semaphores_accounted
    (hpos : ∀ r, hasKind E.program.resources r .semaphore = true →
      0 ≤ (E.program.resource r).permits) :
    SemaphoresAccounted E E.interpreter machineView E.stepsOf ∧
      SemaphoresAccounted E E.petri Petri.netView (Petri.tokenSteps E) :=
  ⟨interpreter_semaphoresAccounted hpos, Petri.petri_semaphoresAccounted hpos⟩

section Turnstile

/-- Two permits are asked for, one is there, and the other is released by a child. -/
def turnstile : SemProgram where
  moduleNames := ["m"]
  functions :=
    [⟨0, "main", false, true, none, none, [],
      [⟨"s0", .spawn 1 "c"⟩, ⟨"s1", .semaphoreAcquire 0 2⟩, ⟨"s2", .join "c"⟩], none⟩,
    ⟨0, "child", false, true, none, none, [], [⟨"s0", .semaphoreRelease 0 1⟩], none⟩]
  resources := [⟨0, "permits", .semaphore, none, 0, 1, none⟩]
  entry := 0
  unsupported := []
  entry_lt := by decide
  functions_ok := by decide
  resources_ok := by decide

def turnstileEngine : Engine := ⟨turnstile, ⟨4, 4, 100, 100, 100⟩, .unbounded⟩

def turnstileSystem : TransitionSystem MachineState :=
  @Engine.interpreter turnstileEngine .unused

omit [FloatArith] in
/-- The parent waits for the second permit, and takes both when it is there. -/
theorem semaphores_accounted_turnstile :
    (∃ es σ, turnstileSystem.trace [0, 0, 0, 0] = some (es, σ) ∧
      machineView.acquired turnstile 0 es = 2 ∧ machineView.released turnstile 0 es = 1 ∧
      machineView.available σ 0 = some 0) ∧
      SemaphoresAccounted turnstileEngine turnstileSystem machineView
        (@Engine.stepsOf .unused turnstileEngine) ∧
      SemaphoresAccounted turnstileEngine (@Engine.petri .unused turnstileEngine) Petri.netView
        (@Petri.tokenSteps .unused turnstileEngine) := by
  refine ⟨?_, @semaphores_accounted turnstileEngine .unused fun r hr ↦ ?_⟩
  · have h : ((turnstileSystem.trace [0, 0, 0, 0]).map fun p ↦
        (machineView.acquired turnstile 0 p.1, machineView.released turnstile 0 p.1,
          machineView.available p.2 0)) = some (2, 1, some 0) := by decide +kernel
    obtain ⟨⟨es, σ⟩, ht, he⟩ := Option.map_eq_some_iff.mp h
    obtain ⟨ha, hr⟩ := Prod.mk.inj he
    obtain ⟨hr, hk⟩ := Prod.mk.inj hr
    exact ⟨es, σ, ht, ha, hr, hk⟩
  · have hlt : r < 1 := hasKind_lt hr
    obtain rfl : r = 0 := Nat.lt_one_iff.mp hlt
    decide

end Turnstile

end ConcIR
