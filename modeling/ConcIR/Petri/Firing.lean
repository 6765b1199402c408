import ConcIR.Petri.Creation

/-!
# The firings of a thread

Which transitions can be fired on the token of a thread: those of the statement it stands
at, or those of the resource it waits for.
-/

namespace ConcIR

open MachineState

namespace Petri

/-- An outcome of firing a transition on the token of a thread. -/
def Firing [FloatArith] (E : Engine) (m : NetState) (x : ThreadId) (q : BackendResult Fired) :
    Prop :=
  ∃ tr ∈ transitions E.program, ∃ bind ∈ bindings m tr, bind.ids.1 = x ∧ fire E m tr bind = q

variable {E : Engine} {P : SemProgram} {out : Set ThreadId} {σ σ' σ₁ : MachineState}
  {m m' m₁ : NetState} {x y : ThreadId} {t u : ThreadState} {f g : FrameId} {fr gr : Frame}
  {r c : ResourceId} {v : Value} {op : SemOp} {tok : NetToken} {k : PlaceKey}

section Tokens

theorem mem_controls : (x, f) ∈ controls m k ↔ .control x f ∈ m.marking k := by
  rw [controls, List.mem_filterMap]
  constructor
  · rintro ⟨tok, hmem, hf⟩
    cases tok <;> simp only [Option.some.injEq, Prod.mk.injEq, reduceCtorEq] at hf
    obtain ⟨rfl, rfl⟩ := hf
    exact hmem
  · exact fun h ↦ ⟨_, h, rfl⟩

/-- A control token stands in the place of the statement that its thread stands at. -/
theorem Corr.control (h : Corr P ∅ σ m) (hk : k.cell = none)
    (hmem : .control x f ∈ m.marking k) : ∃ t fr, Top σ x t f fr ∧ t.status = .runnable ∧
      k = .control fr.function fr.pc := by
  obtain ⟨y, -, hs⟩ := ((h.seats k hk).2 _).mp hmem
  generalize htok : NetToken.control x f = tok at hs
  cases hs with
  | @control t g fr top hrun =>
      cases htok
      exact ⟨t, fr, top, hrun, rfl⟩
  | wait top hb hwt => cases hwt <;> cases htok

theorem Corr.control_mem (h : Corr P ∅ σ m) (top : Top σ x t f fr) (hrun : t.status = .runnable) :
    .control x f ∈ m.marking (.control fr.function fr.pc) :=
  ((h.seats _ rfl).2 _).mpr ⟨x, Set.notMem_empty x, .control top hrun⟩

/-- The control token of a thread that takes a step is taken. -/
theorem Corr.takeControl (h : Corr P ∅ σ m) (hw : Wf P σ) (top : Top σ x t f fr)
    (hrun : t.status = .runnable) : Corr P (insert x ∅) (σ.markReached fr.function fr.pc)
      (takeControl m (.control fr.function fr.pc) x f fr) := by
  have hs : Seat σ x (.control fr.function fr.pc) (.control x f) := .control top hrun
  exact (h.take (Set.notMem_empty x) hs (fun k' tok' hs' ↦ hs.unique hw.regs hs')
    (Wf.free hw top.thread fun s ↦ by simp [hrun])).markReached fr.function fr.pc

/-- The same at the end of a body, which only the net records. -/
theorem Corr.takeEnd (h : Corr P ∅ σ m) (hw : Wf P σ) (top : Top σ x t f fr)
    (hrun : t.status = .runnable) (hpc : fr.pc = (P.function fr.function).body.length) :
    Corr P (insert x ∅) σ (Petri.takeControl m (.control fr.function fr.pc) x f fr) := by
  have hs : Seat σ x (.control fr.function fr.pc) (.control x f) := .control top hrun
  have := (h.take (Set.notMem_empty x) hs (fun k' tok' hs' ↦ hs.unique hw.regs hs')
    (Wf.free hw top.thread fun s ↦ by simp [hrun])).markEnd fr.function
  rwa [← hpc] at this

end Tokens

section Statements

/-- The transitions of a statement take a control token of its place, and possibly a token
of the threads that wait for a resource. -/
theorem binding_of_buildStmt {fn : FunctionId} {pc : ℕ} {tr : Transition}
    (h : tr ∈ buildStmt P fn pc op) : tr.binding = .control (.control fn pc) ∨
      ∃ waits, (waits.cell = none ∧ ∀ fn' pc', waits ≠ .control fn' pc') ∧
        tr.binding = .controlChooseWait (.control fn pc) waits := by
  cases op with
  | channelSend c e =>
      simp only [buildStmt] at h
      split_ifs at h <;> simp only [List.mem_cons, List.not_mem_nil, or_false] at h <;>
        rcases h with rfl | rfl
      · exact .inl rfl
      · exact .inr ⟨.channelRecv c, ⟨rfl, by simp⟩, rfl⟩
      · exact .inl rfl
      · exact .inl rfl
  | channelRecv c dst =>
      simp only [buildStmt] at h
      split_ifs at h <;> simp only [List.mem_cons, List.not_mem_nil, or_false] at h <;>
        rcases h with rfl | rfl
      · exact .inl rfl
      · exact .inr ⟨.channelSend c, ⟨rfl, by simp⟩, rfl⟩
      · exact .inl rfl
      · exact .inl rfl
  | condvarNotify cv =>
      simp only [buildStmt, List.mem_cons, List.not_mem_nil, or_false] at h
      rcases h with rfl | rfl
      · exact .inr ⟨.condvar cv, ⟨rfl, by simp⟩, rfl⟩
      · exact .inl rfl
  | switch e cases default =>
      simp only [buildStmt, List.mem_append, List.mem_map, List.mem_singleton] at h
      rcases h with ⟨p, -, rfl⟩ | rfl
      · exact .inl rfl
      · exact .inl rfl
  | unsupported construct => cases h
  | _ =>
      simp only [buildStmt, List.mem_cons, List.not_mem_nil, or_false] at h
      rcases h with rfl | rfl <;> exact .inl rfl

variable [FloatArith] {q : BackendResult Fired}

omit [FloatArith] in
/-- A wait token belongs to a thread that is blocked. -/
theorem Corr.waiting (h : Corr P ∅ σ m) (hk : k.cell = none) (hctl : ∀ fn pc, k ≠ .control fn pc)
    (hmem : tok ∈ m.marking k) : ∃ y t f fr r, Top σ y t f fr ∧ t.status = .blocked r ∧
      k = waitPlace fr.function fr.pc r ∧ WaitToken σ y f r tok := by
  obtain ⟨y, -, hs⟩ := ((h.seats k hk).2 tok).mp hmem
  cases hs with
  | control top hrun => exact absurd rfl (hctl _ _)
  | wait top hb hwt => exact ⟨y, _, _, _, _, top, hb, rfl, hwt⟩

theorem firing_of_outcome (h : Corr E.program ∅ σ m) (top : Top σ x t f fr)
    (hrun : t.status = .runnable) (hop : E.program.opAt fr.function fr.pc = some op)
    (hq : q ∈ outcomes E (Petri.takeControl m (.control fr.function fr.pc) x f fr) x f fr op) :
    Firing E m x q := by
  have hmf : m.store.frames[f]? = some fr := by
    rw [h.records.frames]
    exact top.frame
  have hctl : (x, f) ∈ controls m (.control fr.function fr.pc) :=
    mem_controls.mpr (h.control_mem top hrun)
  obtain ⟨tr, htr, hq⟩ := List.mem_flatMap.mp hq
  refine ⟨tr, mem_transitions.mpr (.statement _ _ op hop htr), ?_⟩
  rcases binding_of_buildStmt htr with hb | ⟨waits, ⟨-, hne⟩, hb⟩
  · rw [hb] at hq
    refine ⟨.control x f none, ?_, rfl, ?_⟩
    · rw [bindings, hb]
      exact List.mem_map.mpr ⟨(x, f), hctl, rfl⟩
    · simp only [fire, hb, hmf]
      exact (List.mem_singleton.mp hq).symm
  · rw [hb] at hq
    obtain ⟨w, hw, rfl⟩ := List.mem_map.mp hq
    have hmark : (Petri.takeControl m (.control fr.function fr.pc) x f fr).marking waits =
        m.marking waits := Function.update_of_ne (hne _ _) _ _
    rw [hmark] at hw
    refine ⟨.control x f (some w), ?_, rfl, ?_⟩
    · rw [bindings, hb]
      exact List.mem_flatMap.mpr ⟨w, hw, List.mem_map.mpr ⟨(x, f), hctl, rfl⟩⟩
    · simp only [fire, hb, hmf]

end Statements

section Threads

theorem pc_of_opAt_none {fn : FunctionId} {pc : ℕ} (h : P.opAt fn pc = none) :
    (P.function fn).body.length ≤ pc := by
  rw [SemProgram.opAt, Option.map_eq_none_iff, List.getElem?_eq_none_iff] at h
  exact h

/-- What moves on a thread that is blocked for a reason. -/
def wakeOps (P : SemProgram) : BlockReason → List NetOp
  | .lock r => [.lockWaitAcquire r]
  | .semaphore r => [.semGrant r]
  | .channelSend c => if (P.resource c).capacity = 0 then [] else [.bufferDeliver c]
  | .channelRecv c => if (P.resource c).capacity = 0 then [] else [.bufferRecvWait c]
  | .condvar _ _ | .join _ | .scope _ => []

/-- A resource moves on the threads that are blocked for it. -/
theorem binding_of_buildResource {tr : Transition} (h : tr ∈ buildResource P r (P.resource r)) :
    ∃ k, (k.cell = none ∧ ∀ fn pc, k ≠ .control fn pc) ∧ tr.binding = .wait k ∧
      ∀ fn pc reason, k = waitPlace fn pc reason → tr.op ∈ wakeOps P reason := by
  rw [buildResource] at h
  cases hk : (P.resource r).kind with
  | mutex =>
      simp only [hk, List.mem_singleton] at h
      subst h
      refine ⟨.lockWait r, ⟨rfl, by simp⟩, rfl, fun fn pc reason he ↦ ?_⟩
      cases reason <;> cases he
      exact List.mem_cons_self
  | semaphore =>
      simp only [hk, List.mem_singleton] at h
      subst h
      refine ⟨.semWait r, ⟨rfl, by simp⟩, rfl, fun fn pc reason he ↦ ?_⟩
      cases reason <;> cases he
      exact List.mem_cons_self
  | channel =>
      simp only [hk] at h
      split_ifs at h with hcap
      · cases h
      · simp only [List.mem_cons, List.not_mem_nil, or_false] at h
        rcases h with rfl | rfl
        · refine ⟨.channelSend r, ⟨rfl, by simp⟩, rfl, fun fn pc reason he ↦ ?_⟩
          cases reason <;> cases he
          rw [wakeOps, if_neg hcap]
          exact List.mem_cons_self
        · refine ⟨.channelRecv r, ⟨rfl, by simp⟩, rfl, fun fn pc reason he ↦ ?_⟩
          cases reason <;> cases he
          rw [wakeOps, if_neg hcap]
          exact List.mem_cons_self
  | _ =>
      simp only [hk] at h
      cases h

/-- Every way of moving on a blocked thread is a transition of a resource. -/
theorem exists_buildResource (hw : Wf P σ) (top : Top σ x t f fr) {reason : BlockReason}
    (hb : t.status = .blocked reason) {o : NetOp} (ho : o ∈ wakeOps P reason) :
    ∃ r, r < P.resources.length ∧ ∃ tr ∈ buildResource P r (P.resource r),
      tr.binding = .wait (waitPlace fr.function fr.pc reason) ∧ tr.op = o := by
  have hx : σ.status x = some (.blocked reason) := by rw [top.status, hb]
  obtain ⟨u, g, gr, op, -, -, hop, hwaits⟩ := hw.blocked_thread hx
  have hok := SemProgram.opAt_ok hop
  cases reason with
  | lock r =>
      have hr : hasKind P.resources r .mutex = true := by
        rcases hwaits with rfl | ⟨cv, rfl⟩
        · exact hok
        · exact (Bool.and_eq_true_iff.mp hok).2
      obtain rfl := List.mem_singleton.mp ho
      refine ⟨r, hasKind_lt hr, ⟨.lockWaitAcquire r, .wait (.lockWait r), none,
        ⟨(P.resource r).module, P.entry, none, .reacquire⟩⟩, ?_, rfl, rfl⟩
      rw [buildResource, P.resource_kind hr]
      exact List.mem_cons_self
  | semaphore r =>
      obtain ⟨n, rfl, -⟩ := hwaits
      obtain rfl := List.mem_singleton.mp ho
      refine ⟨r, hasKind_lt hok, ⟨.semGrant r, .wait (.semWait r), none,
        ⟨(P.resource r).module, P.entry, none, .reacquire⟩⟩, ?_, rfl, rfl⟩
      rw [buildResource, P.resource_kind hok]
      exact List.mem_cons_self
  | channelSend c =>
      obtain ⟨e, rfl⟩ := hwaits
      rw [wakeOps] at ho
      split_ifs at ho with hcap
      · cases ho
      · obtain rfl := List.mem_singleton.mp ho
        refine ⟨c, hasKind_lt hok, ⟨.bufferDeliver c, .wait (.channelSend c), none,
          ⟨(P.resource c).module, P.entry, none, .wake⟩⟩, ?_, rfl, rfl⟩
        simp only [buildResource, P.resource_kind hok, hcap, if_false]
        exact List.mem_cons_self
  | channelRecv c =>
      obtain ⟨dst, rfl⟩ := hwaits
      have hr := (Bool.and_eq_true_iff.mp hok).1
      rw [wakeOps] at ho
      split_ifs at ho with hcap
      · cases ho
      · obtain rfl := List.mem_singleton.mp ho
        refine ⟨c, hasKind_lt hr, ⟨.bufferRecvWait c, .wait (.channelRecv c), none,
          ⟨(P.resource c).module, P.entry, none, .wake⟩⟩, ?_, rfl, rfl⟩
        simp only [buildResource, P.resource_kind hr, hcap, if_false]
        exact List.mem_cons_of_mem _ List.mem_cons_self
  | _ => cases ho

variable [FloatArith] {q : BackendResult Fired}

/-- The outcomes of the transitions of the end of a body. -/
def endOutcomes (E : Engine) (m : NetState) (x : ThreadId) (f : FrameId) (fr : Frame) :
    List (BackendResult Fired) :=
  [fireReturnInner m x f E fr none, fireReturnFinal m x f E fr none]

/-- An outcome of a transition on the token of a thread in a machine state. -/
inductive FiredAt (E : Engine) (σ : MachineState) (m : NetState) (x : ThreadId)
    (q : BackendResult Fired) : Prop
  | statement {t : ThreadState} {f : FrameId} {fr : Frame} {op : SemOp} (top : Top σ x t f fr)
      (hrun : t.status = .runnable) (hop : E.program.opAt fr.function fr.pc = some op)
      (h : q ∈ outcomes E (Petri.takeControl m (.control fr.function fr.pc) x f fr) x f fr op)
  | endOfBody {t : ThreadState} {f : FrameId} {fr : Frame} (top : Top σ x t f fr)
      (hrun : t.status = .runnable) (hop : E.program.opAt fr.function fr.pc = none)
      (h : q ∈ endOutcomes E (Petri.takeControl m (.control fr.function fr.pc) x f fr) x f fr)
  | wake {t : ThreadState} {f : FrameId} {fr : Frame} {r : BlockReason} {tok : NetToken}
      {o : NetOp} (top : Top σ x t f fr) (hb : t.status = .blocked r)
      (hwt : WaitToken σ x f r tok) (ho : o ∈ wakeOps E.program r) (h : q = fireWait E m tok o)

theorem firedAt_of_firing (h : Corr E.program ∅ σ m) (hq : Firing E m x q) :
    FiredAt E σ m x q := by
  obtain ⟨tr, htr, bind, hbind, hx, rfl⟩ := hq
  have hframe : ∀ {y t f fr}, Top σ y t f fr → m.store.frames[f]? = some fr := fun top ↦ by
    rw [h.records.frames]
    exact top.frame
  have hend : ∀ fr : Frame, fr.pc = (E.program.function fr.function).body.length →
      E.program.opAt fr.function fr.pc = none := fun fr hpc ↦ by
    rw [SemProgram.opAt, hpc, List.getElem?_eq_none (le_refl _), Option.map_none]
  rw [bindings] at hbind
  rcases mem_transitions.mp htr with ⟨fn, pc, op, hop, htr⟩ | ⟨fn, hfn, rfl⟩ | ⟨fn, hfn, rfl⟩ |
    ⟨r, hr, htr⟩
  · rcases binding_of_buildStmt htr with hb | ⟨waits, ⟨-, hne⟩, hb⟩
    · rw [hb] at hbind
      obtain ⟨⟨y, f⟩, hc, rfl⟩ := List.mem_map.mp hbind
      obtain rfl : y = x := hx
      obtain ⟨t, fr, top, hrun, he⟩ := h.control rfl (mem_controls.mp hc)
      obtain ⟨rfl, rfl⟩ := PlaceKey.control.inj he
      refine .statement top hrun hop (List.mem_flatMap.mpr ⟨tr, htr, ?_⟩)
      simp only [fire, hb, hframe top, List.mem_singleton]
    · rw [hb] at hbind
      obtain ⟨w, hw, hbind⟩ := List.mem_flatMap.mp hbind
      obtain ⟨⟨y, f⟩, hc, rfl⟩ := List.mem_map.mp hbind
      obtain rfl : y = x := hx
      obtain ⟨t, fr, top, hrun, he⟩ := h.control rfl (mem_controls.mp hc)
      obtain ⟨rfl, rfl⟩ := PlaceKey.control.inj he
      refine .statement top hrun hop (List.mem_flatMap.mpr ⟨tr, htr, ?_⟩)
      have hmark : (Petri.takeControl m (.control fr.function fr.pc) y f fr).marking waits =
          m.marking waits := Function.update_of_ne (hne _ _) _ _
      simp only [fire, hb, hframe top, hmark]
      exact List.mem_map.mpr ⟨w, hw, rfl⟩
  · obtain ⟨⟨y, f⟩, hc, rfl⟩ := List.mem_map.mp hbind
    obtain rfl : y = x := hx
    obtain ⟨t, fr, top, hrun, he⟩ := h.control rfl (mem_controls.mp hc)
    obtain ⟨rfl, hpc⟩ := PlaceKey.control.inj he
    refine .endOfBody top hrun (hend fr hpc.symm) ?_
    simp only [fire, hframe top, hpc, fireOp, endOutcomes, List.mem_cons, true_or]
  · obtain ⟨⟨y, f⟩, hc, rfl⟩ := List.mem_map.mp hbind
    obtain rfl : y = x := hx
    obtain ⟨t, fr, top, hrun, he⟩ := h.control rfl (mem_controls.mp hc)
    obtain ⟨rfl, hpc⟩ := PlaceKey.control.inj he
    refine .endOfBody top hrun (hend fr hpc.symm) ?_
    simp only [fire, hframe top, hpc, fireOp, endOutcomes, List.mem_cons, true_or, or_true]
  · obtain ⟨k, ⟨hk, hctl⟩, hb, ho⟩ := binding_of_buildResource htr
    rw [hb] at hbind
    obtain ⟨tok, hmem, rfl⟩ := List.mem_map.mp hbind
    obtain ⟨y, t, f, fr, reason, top, hst, rfl, hwt⟩ := h.waiting hk hctl hmem
    obtain rfl : y = x := by rwa [FireBind.ids, hwt.binding] at hx
    refine .wake top hst hwt (ho _ _ _ rfl) ?_
    simp only [fire, hb]

theorem firing_of_firedAt (h : Corr E.program ∅ σ m) (hw : Wf E.program σ)
    (hq : FiredAt E σ m x q) : Firing E m x q := by
  cases hq with
  | statement top hrun hop hq => exact firing_of_outcome h top hrun hop hq
  | @endOfBody t f fr top hrun hop hq =>
      have hframe : m.store.frames[f]? = some fr := by
        rw [h.records.frames]
        exact top.frame
      have hpc : fr.pc = (E.program.function fr.function).body.length := le_antisymm (hw.code.pc_le f fr top.frame) (pc_of_opAt_none hop)
      have hctl : (x, f) ∈ controls m (.control fr.function fr.pc) :=
        mem_controls.mpr (h.control_mem top hrun)
      have hfn := hw.stack.function_lt f fr top.frame
      rw [hpc] at hctl
      rcases List.mem_cons.mp hq with rfl | hq
      · refine ⟨_, mem_transitions.mpr (.endInner _ hfn rfl), .control x f none,
          List.mem_map.mpr ⟨_, hctl, rfl⟩, rfl, ?_⟩
        simp only [fire, hframe, hpc, fireOp]
      · obtain rfl := List.mem_singleton.mp hq
        refine ⟨_, mem_transitions.mpr (.endFinal _ hfn rfl), .control x f none,
          List.mem_map.mpr ⟨_, hctl, rfl⟩, rfl, ?_⟩
        simp only [fire, hframe, hpc, fireOp]
  | @wake t f fr r tok o top hb hwt ho hq =>
      obtain ⟨i, hi, tr, htr, hbind, rfl⟩ := exists_buildResource hw top hb ho
      have hmem : tok ∈ m.marking (waitPlace fr.function fr.pc r) :=
        ((h.seats _ (cell_waitPlace _ _ _)).2 _).mpr ⟨x, Set.notMem_empty x, .wait top hb hwt⟩
      refine ⟨tr, mem_transitions.mpr (.resource i hi htr), .wait tok, ?_, ?_, ?_⟩
      · rw [bindings, hbind]
        exact List.mem_map.mpr ⟨tok, hmem, rfl⟩
      · rw [FireBind.ids, hwt.binding, Option.getD_some]
      · simp only [fire, hbind, hq]

end Threads

end Petri

end ConcIR
