import ConcIR.Petri.Waking
import ConcIR.Petri.Start

/-!
# Runs of the net are runs of the machine

Every firing in a marking that shows a well-formed machine state is an elementary step of
the machine, and the marking it leads to shows the state after the step.
-/

namespace ConcIR

open MachineState

namespace Petri

variable {E : Engine} {P : SemProgram} {σ σ' : MachineState} {m m' : NetState} {x : ThreadId}
  {t : ThreadState} {f : FrameId} {fr : Frame} {op : SemOp} {q : BackendResult Fired}

section Statements

/-- Statements that both engines take in the same steps. -/
def isCommon (E : Engine) : SemOp → Bool
  | .call func _ _ => !(E.function func).isTransparentNobody
  | .switch _ _ _ | .unsupported _ => false
  | _ => true

variable [FloatArith] (h : Corr E.program (insert x ∅) σ m) (hw : Wf E.program σ)
  (top : Top σ x t f fr) (hrun : t.status = .runnable)
  (hop : E.program.opAt fr.function fr.pc = some op)

include h hw top hrun hop

theorem agrees_op (hc : isCommon E op = true) :
    Agrees E.program (E.stepOp σ x f fr op) (outcomes E m x f fr op) := by
  have hok := SemProgram.opAt_ok hop
  cases op with
  | nop => exact agrees_nop h top hrun
  | assignLocal target e => exact agrees_assign h top hrun hw.stores hok
  | readShared r dst =>
      simp only [opOk, Bool.and_eq_true] at hok
      exact agrees_read h top hrun hw.stores hok.1 hok.2
  | writeShared r e => exact agrees_writeShared h top hrun hw.stores
  | atomicLoad r dst =>
      simp only [opOk, Bool.and_eq_true] at hok
      exact agrees_load h top hrun hw.stores hok.1 hok.2
  | atomicStore r e => exact agrees_store h top hrun hw.stores
  | atomicCas r e d dst =>
      simp only [opOk, Bool.and_eq_true] at hok
      exact agrees_cas h top hrun hw.stores hok.1 hok.2
  | mutexLock r => exact agrees_lock h hw top hrun hok
  | mutexUnlock r => exact agrees_unlock h top hrun
  | channelSend c e =>
      by_cases hcap : (E.program.resource c).capacity = 0
      · exact agrees_send_unbuffered h hw top hrun hcap hop
      · exact agrees_send_buffered h hw top hrun hcap hop
  | channelRecv c dst =>
      by_cases hcap : (E.program.resource c).capacity = 0
      · exact agrees_recv_unbuffered h hw top hrun hcap hop
      · exact agrees_recv_buffered h hw top hrun hcap hop
  | condvarWait cv lk =>
      simp only [opOk, Bool.and_eq_true] at hok
      exact agrees_condvarWait h hw top hrun hok.1
  | condvarNotify cv => exact agrees_notify h hw top hrun
  | condvarNotifyAll cv => exact agrees_notifyAll h hw top hrun hok
  | semaphoreAcquire r n => exact agrees_acquire h hw top hrun hok
  | semaphoreRelease r n => exact agrees_release h top hrun
  | call g args dst => exact agrees_call h hw top hrun hop (by simpa [isCommon] using hc)
  | spawn g name =>
      simp only [opOk, decide_eq_true_eq] at hok
      exact agrees_spawn h hw top hrun hok
  | scope gs => exact agrees_scope h hw top hrun hok
  | join name => exact agrees_join h hw top hrun
  | goto target => exact agrees_goto h top hrun target
  | branch e th el => exact agrees_branch h top hrun hw.stores
  | «return» value => exact agrees_return h hw top hrun value
  | switch e cases default => cases hc
  | unsupported c => cases hc

omit hop hrun h hw in
theorem executes_enterCall {func : FunctionId} {args : List LExpr} {dst : Option SlotRef}
    (ho : Offers (enterCall E σ x f fr func args dst) σ') :
    Executes E σ x t f fr (.call func args dst) σ' := by
  rw [enterCall, show σ.threads[x]? = some t from top.thread] at ho
  split_ifs at ho with hlim
  · simp at ho
  · obtain ⟨values, hv, ho⟩ := offers_bind.mp ho
    split_ifs at ho with hok
    · obtain rfl := Engine.offers_one.mp ho
      exact .create (.call func args dst values (Nat.lt_of_not_le hlim) hv hok)
    · simp at ho

theorem executes_of_outcome {bs : List BoundaryEvent} (hall : ∀ q ∈ outcomes E m x f fr op, ¬ Fails q)
    (hmem : .ok ⟨some m', bs⟩ ∈ outcomes E m x f fr op) :
    ∃ σ', Executes E σ x t f fr op σ' ∧ Corr E.program ∅ σ' m' := by
  have htaken : ∀ {r}, Agrees E.program r (outcomes E m x f fr op) →
      ∃ σ', Offers r σ' ∧ Corr E.program ∅ σ' m' := by
    intro r ha
    refine ha.taken (fun hf ↦ ?_) m' bs hmem
    obtain ⟨q, hq, hfail⟩ := ha.fails.mp hf
    exact hall q hq hfail
  by_cases hc : isCommon E op = true
  · obtain ⟨σ', ho, hcorr⟩ := htaken (agrees_op h hw top hrun hop hc)
    exact ⟨σ', executes_of_offers hw top hop ho, hcorr⟩
  · cases op with
    | call g args dst =>
        obtain ⟨σ', ho, hcorr⟩ := htaken (agrees_enterCall h hw top hrun hop)
        exact ⟨σ', executes_enterCall top ho, hcorr⟩
    | switch e cases default =>
        obtain ⟨tr, htr, hq⟩ := List.mem_flatMap.mp hmem
        simp only [buildStmt, List.mem_append, List.mem_map, List.mem_singleton] at htr
        have hgo : ∀ target, Corr E.program ∅ (σ.setPc f target)
            (placeControl m (.control fr.function target) x f) := fun target ↦
          h.placeControl (Set.notMem_empty x) top hrun target
        rcases htr with ⟨p, hp, rfl⟩ | rfl
        · have hq := (List.mem_singleton.mp hq).symm
          obtain ⟨v, hv, hq⟩ := bind_eq_ok.mp hq
          rw [evalIn_eq h hw.stores] at hv
          split_ifs at hq with hlabel
          · cases hq
            refine ⟨_, .done (.switch e cases default v p.2 hv (.case p.1 p.2 ?_ hlabel)), hgo p.2⟩
            exact Std.ExtTreeMap.mem_toList_iff_getElem?_eq_some.mp hp
          · cases hq
        · have hq := (List.mem_singleton.mp hq).symm
          obtain ⟨v, hv, hq⟩ := bind_eq_ok.mp hq
          rw [evalIn_eq h hw.stores] at hv
          split_ifs at hq with hlabel
          · cases hq
          · cases hq
            refine ⟨_, .done (.switch e cases default v default hv (.default fun l hl ↦ ?_)),
              hgo default⟩
            rw [Bool.eq_false_iff]
            intro hmatch
            refine hlabel (List.any_eq_true.mpr ⟨l, ?_, hmatch⟩)
            rw [Std.ExtTreeMap.mem_iff_isSome_getElem?, Option.isSome_iff_exists] at hl
            obtain ⟨target, hl⟩ := hl
            exact List.mem_map.mpr
              ⟨(l, target), Std.ExtTreeMap.mem_toList_iff_getElem?_eq_some.mpr hl, rfl⟩
    | unsupported c => cases hmem
    | _ => exact absurd rfl hc

end Statements

section Threads

variable [FloatArith]

/-- A firing on the token of a thread is a step of that thread. -/
theorem fires_of_firing {bs : List BoundaryEvent} (h : Corr E.program ∅ σ m)
    (hw : Wf E.program σ) (hall : ∀ q, Firing E m x q → ¬ Fails q)
    (hq : Firing E m x (.ok ⟨some m', bs⟩)) :
    ∃ σ', Fires E x σ σ' ∧ Corr E.program ∅ σ' m' := by
  cases firedAt_of_firing h hq with
  | @statement t f fr op top hrun hop hmem =>
      have h₁ := h.takeControl hw top hrun
      have hw₁ : Wf E.program (σ.markReached fr.function fr.pc) := hw.quiet (quiet_markReached _ _)
      have top₁ : Top (σ.markReached fr.function fr.pc) x t f fr :=
        ⟨top.thread, top.head, top.frame⟩
      obtain ⟨σ', hx, hc⟩ := executes_of_outcome h₁ hw₁ top₁ hrun hop (fun q hq ↦
        hall q (firing_of_firedAt h hw (.statement top hrun hop hq))) hmem
      exact ⟨σ', .exec top hrun hop hx, hc⟩
  | @endOfBody t f fr top hrun hop hmem =>
      have hpc : fr.pc = (E.program.function fr.function).body.length :=
        le_antisymm (hw.code.pc_le f fr top.frame) (pc_of_opAt_none hop)
      have ha := agrees_applyReturn (h.takeEnd hw top hrun hpc) hw top hrun none
      obtain ⟨σ', ho, hc⟩ := ha.taken (fun hf ↦ by
        obtain ⟨q, hq, hfail⟩ := ha.fails.mp hf
        exact hall q (firing_of_firedAt h hw (.endOfBody top hrun hop hq)) hfail) m' bs hmem
      exact ⟨σ', .endOfBody top hrun hop (Engine.offers_oneOf.mp ho), hc⟩
  | @wake t f fr r tok o top hb hwt ho hmem =>
      have ha := agrees_resume h hw top hb hwt
      obtain ⟨σ', hoff, hc⟩ := ha.taken (fun hf ↦ by
        obtain ⟨q, hq, hfail⟩ := ha.fails.mp hf
        obtain ⟨o, ho, rfl⟩ := List.mem_map.mp hq
        exact hall _ (firing_of_firedAt h hw (.wake top hb hwt ho rfl)) hfail) m' bs
          (List.mem_map.mpr ⟨o, ho, hmem.symm⟩)
      obtain ⟨σ₁, hre, rfl⟩ := fires_resume hw top hb hoff
      exact ⟨_, .resume top hb hre, hc⟩

/-- What is offered is what the firings yield, and none of them fails. -/
theorem fires_of_fireAll {l : List (Transition × FireBind)} {en : Enabled NetState}
    (h : fireAll E m l = .ok en) : (∀ p ∈ l, ¬ Fails (fire E m p.1 p.2)) ∧
      ∀ st : Step NetState, st ∈ en.steps → ∃ p ∈ l, ∃ bs,
        fire E m p.1 p.2 = .ok ⟨some st.state, bs⟩ ∧ st.label.thread = some p.2.ids.1 := by
  induction l generalizing en with
  | nil =>
      obtain rfl := Except.ok.inj h
      exact ⟨fun p hp ↦ (by cases hp), fun st hst ↦ (by cases hst)⟩
  | cons p l ih =>
      obtain ⟨r, hr, h⟩ := bind_eq_ok.mp h
      obtain ⟨more, hmore, h⟩ := bind_eq_ok.mp h
      obtain rfl := Except.ok.inj h
      obtain ⟨hno, hst⟩ := ih hmore
      refine ⟨fun p' hp' ↦ ?_, fun st hmem ↦ ?_⟩
      · rcases List.mem_cons.mp hp' with rfl | hp'
        · rw [hr]
          exact not_fails_ok r
        · exact hno p' hp'
      · rcases List.mem_append.mp hmem with hmem | hmem
        · obtain ⟨m₁, hm₁, rfl⟩ := List.mem_map.mp hmem
          refine ⟨p, List.mem_cons_self, r.boundary, ?_, rfl⟩
          rw [hr, ← Option.mem_toList.mp hm₁]
        · obtain ⟨p', hp', hfire⟩ := hst st hmem
          exact ⟨p', List.mem_cons_of_mem p hp', hfire⟩

omit [FloatArith] in
theorem mem_firings {p : Transition × FireBind} :
    p ∈ ((transitions E.program).flatMap fun tr ↦ (bindings m tr).map (tr, ·)) ↔
      p.1 ∈ transitions E.program ∧ p.2 ∈ bindings m p.1 := by
  rw [List.mem_flatMap]
  constructor
  · rintro ⟨tr, htr, hp⟩
    obtain ⟨bind, hb, rfl⟩ := List.mem_map.mp hp
    exact ⟨htr, hb⟩
  · rintro ⟨htr, hb⟩
    exact ⟨p.1, htr, List.mem_map.mpr ⟨p.2, hb, rfl⟩⟩

/-- A step of the net is a step of the machine. -/
theorem fires_of_takes (h : Corr E.program ∅ σ m) (hw : Wf E.program σ)
    (hs : E.petri.Takes m x m') : ∃ σ', Fires E x σ σ' ∧ Corr E.program ∅ σ' m' := by
  obtain ⟨en, hen, st, hst, hx, rfl⟩ := hs
  obtain ⟨hno, hsteps⟩ := fires_of_fireAll hen
  obtain ⟨⟨tr, bind⟩, hp, bs, hfire, hthread⟩ := hsteps st hst
  obtain ⟨htr, hb⟩ := mem_firings.mp hp
  have hid : bind.ids.1 = x := Option.some.inj (hthread.symm.trans hx)
  have hfiring : Firing E m x (.ok ⟨some st.state, bs⟩) := ⟨tr, htr, bind, hb, hid, hfire⟩
  refine fires_of_firing h hw ?_ hfiring
  rintro _ ⟨tr', htr', bind', hb', -, rfl⟩
  exact hno (tr', bind') (mem_firings.mpr ⟨htr', hb'⟩)

theorem takes_of_next (hs : E.petri.Next m m') : ∃ x, E.petri.Takes m x m' := by
  obtain ⟨en, hen, st, hst, rfl⟩ := hs
  obtain ⟨-, hsteps⟩ := fires_of_fireAll hen
  obtain ⟨p, -, bs, -, hthread⟩ := hsteps st hst
  exact ⟨p.2.ids.1, en, hen, st, hst, hthread, rfl⟩

end Threads

section Runs

variable [FloatArith]

/-- Every reachable marking shows a well-formed machine state. -/
theorem corr_of_reachable (h : E.petri.Reachable m) :
    ∃ σ, Corr E.program ∅ σ m ∧ Wf E.program σ ∧ Live σ := by
  refine h.invariant (P := fun m ↦ ∃ σ, Corr E.program ∅ σ m ∧ Wf E.program σ ∧ Live σ)
    (fun m hm ↦ ?_) ?_
  · obtain ⟨m', hm', hc⟩ := corr_initial (E := E) rfl
    obtain rfl : m' = m := Except.ok.inj (hm'.symm.trans hm)
    obtain ⟨hw, hl⟩ := wf_initial (E := E) rfl
    exact ⟨_, hc, hw, hl⟩
  · rintro m m' ⟨σ, hc, hw, hl⟩ hn
    obtain ⟨x, ht⟩ := takes_of_next hn
    obtain ⟨σ', hf, hc'⟩ := fires_of_takes hc hw ht
    obtain ⟨hw', hl'⟩ := hf.wf hw hl
    exact ⟨σ', hc', hw', hl'⟩

end Runs

end Petri

end ConcIR
