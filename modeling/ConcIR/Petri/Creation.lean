import ConcIR.Petri.Pairs

/-!
# Both engines agree on threads and activations

Statements that create threads, reclaim them, or enter and leave an activation.
-/

namespace ConcIR

open MachineState

namespace Petri

variable {E : Engine} {P : SemProgram} {out : Set ThreadId} {σ σ' σ₁ : MachineState}
  {m m' m₁ : NetState} {x y : ThreadId} {t u : ThreadState} {f g : FrameId} {fr gr : Frame}
  {v : Value} {dst : SlotRef} {qs : List (BackendResult Fired)} {op : SemOp} {func : FunctionId}

theorem spot_of_top_eq (top : Top σ x t f fr) (top' : Top σ' x u f gr)
    (hst : u.status = t.status) (hs : u.stack = t.stack) (hfn : gr.function = fr.function)
    (hpc : gr.pc = fr.pc) : spot σ' x = spot σ x := by
  rw [spot_of_top top, spot_of_top top', hst, hs, hfn, hpc]

section Spawn

/-- A fresh handle is bound on both sides. -/
theorem Corr.bindHandle (h : Corr P out σ m) (x : ThreadId) (f : FrameId) (name : String)
    (c : ThreadId) : Corr P out (Engine.bindHandle σ x f name c)
      ((({ m with store := { m.store with
        alloc := { m.store.alloc with nextHandle := m.store.alloc.nextHandle + 1 } } }).modifyFrame
          f fun fr ↦ { fr with
            handles := fr.handles.insert name m.store.alloc.nextHandle }).modifyThread x fun t ↦
              { t with handleChildren := t.handleChildren.insert m.store.alloc.nextHandle c }) := by
  rw [h.records.alloc]
  have h₁ := (h.setAlloc { σ.alloc with nextHandle := σ.alloc.nextHandle + 1 }).modifyFrame f
    (F := fun fr ↦ { fr with handles := fr.handles.insert name σ.alloc.nextHandle })
    (fun _ ↦ rfl) fun _ ↦ rfl
  exact h₁.modifyThread x
    (F := fun t ↦ { t with handleChildren := t.handleChildren.insert σ.alloc.nextHandle c })
    (G := fun t ↦ { t with handleChildren := t.handleChildren.insert σ.alloc.nextHandle c })
    (fun _ _ ↦ rfl) (fun _ ↦ rfl) (.inr fun _ ↦ rfl)

theorem Rebound.spot {hs : BTreeMap String HandleId} {cs : BTreeMap HandleId ThreadId}
    (hre : Rebound σ σ' x t f fr hs cs) (top : Top σ x t f fr) :
    Petri.spot σ' x = Petri.spot σ x :=
  spot_of_top_eq top ⟨hre.hasThread.mpr (.inl ⟨rfl, rfl⟩), top.head,
    hre.hasFrame.mpr (.inl ⟨rfl, rfl⟩)⟩ rfl rfl rfl rfl

variable [FloatArith] (h : Corr E.program (insert x ∅) σ m) (hw : Wf E.program σ)
  (top : Top σ x t f fr) (hrun : t.status = .runnable)

include h hw top hrun

omit [FloatArith] h hw hrun in
theorem exists_out : ∀ y ∈ insert x (∅ : Set ThreadId), ∃ t, σ.HasThread y t := by
  rintro y (rfl | hy)
  · exact ⟨t, top.thread⟩
  · exact absurd hy (Set.notMem_empty y)

theorem agrees_spawn {handle : String} (hlt : func < E.program.functions.length) :
    Agrees E.program (E.stepOp σ x f fr (.spawn func handle))
      (outcomes E m x f fr (.spawn func handle)) := by
  have hnone : ∀ s, (none : Option ScopeId) = some s → s < σ.alloc.nextScope ∧ σ.scopes[s]? = none :=
    by simp
  have hcreate := h.createThread hw (exists_out top) hlt hnone
  simp only [Engine.stepOp, Engine.stepSpawn, outcomes, buildStmt, List.flatMap_cons,
    List.flatMap_nil, List.append_nil, fireOp, fireSpawn, withinBound_eq h hw]
  by_cases hb : E.withinFunctionBound σ func = true
  · simp only [hb, Bool.not_true, Bool.false_eq_true, if_false]
    cases hc : E.createThread σ func none with
    | none =>
        rw [hc] at hcreate
        rw [hcreate]
        exact .boundary
    | some p =>
        obtain ⟨c, σ₁⟩ := p
        rw [hc] at hcreate
        obtain ⟨m₁, hm₁, h₁⟩ := hcreate
        rw [hm₁]
        obtain ⟨v, new, hst, -⟩ := createThread_started hlt (by simp) hc
        have top₁ := top.started hw hst
        exact .only ((h₁.bindHandle x f handle c).proceed (Set.notMem_empty x) top₁ hrun
          (Rebound.spot (rebound_bindHandle top₁ handle c) top₁))
  · simp only [hb, Bool.not_false, if_true]
    exact .off

omit [FloatArith] h hw top hrun in
/-- A scope is opened when nobody is out. -/
theorem Corr.openScope (h : Corr P ∅ σ m) (s : ScopeId) (sc : ScopeState) :
    Corr P ∅ { σ with scopes := σ.scopes.insert s sc }
      { m with store := { m.store with
        scopes := m.store.scopes.insert s (netScope σ.store.frames sc) } } := by
  have hr := h.records
  refine h.rebuild h.cells (fun _ _ ↦ rfl)
    (fun y _ k tok ↦ Unmoved.seat (.of_eq rfl rfl (fun _ ↦ rfl) rfl))
    ⟨hr.frames, hr.thread, fun d ↦ ?_, hr.finished, hr.completedFunctions, hr.completedScopes,
      hr.reached, hr.alloc⟩ h.apart fun s sc x _ hx ↦ absurd hx (Set.notMem_empty x)
  rw [Std.ExtTreeMap.getElem?_insert, Std.ExtTreeMap.getElem?_insert, hr.scope]
  split_ifs <;> rfl

theorem agrees_scope {funcs : List FunctionId}
    (hlt : funcs.all (· < E.program.functions.length) = true) :
    Agrees E.program (E.stepOp σ x f fr (.scope funcs)) (outcomes E m x f fr (.scope funcs)) := by
  have hout := exists_out top
  have hcreate := (h.setAlloc { σ.alloc with nextScope := σ.alloc.nextScope + 1 }).createMembers
    funcs hw.reserveScope (fun y hy ↦ hout y hy) hlt (Nat.lt_succ_self σ.alloc.nextScope)
      hw.fresh_scope ∅
  have hbound : withinBound E m = E.withinFunctionBound σ := funext (withinBound_eq h hw)
  simp only [Engine.stepOp, Engine.stepScope, outcomes, buildStmt, List.flatMap_cons,
    List.flatMap_nil, List.append_nil, fireOp, fireScope, hbound, h.records.alloc]
  by_cases hnil : funcs = []
  · simp only [hnil, if_true]
    exact .failing
  by_cases hb : funcs.all (E.withinFunctionBound σ) = true
  · simp only [hnil, hb, Bool.not_true, Bool.false_eq_true, if_false]
    cases hc : E.createMembers σ.alloc.nextScope
        { σ with alloc := { σ.alloc with nextScope := σ.alloc.nextScope + 1 } } ∅ funcs with
    | none =>
        rw [hc] at hcreate
        rw [hcreate]
        exact .boundary
    | some p =>
        obtain ⟨σ₁, remaining⟩ := p
        rw [hc] at hcreate
        obtain ⟨m₁, hm₁, h₁⟩ := hcreate
        have hmem := hw.members hlt hc
        have top₁ : Top σ₁ x t f fr :=
          ⟨hmem.old x t top.thread, top.head, hmem.oldFrame f fr top.frame⟩
        rw [hm₁]
        change Agrees _ (if remaining.isEmpty = true then _ else _)
          [if remaining.isEmpty = true then _ else _]
        by_cases hr : remaining.isEmpty = true
        · rw [if_pos hr, if_pos hr]
          exact .only ((h₁.completeStatement (fr.function, fr.pc)).proceed (Set.notMem_empty x)
            (⟨top₁.thread, top₁.head, top₁.frame⟩ : Top { σ₁ with
              completedScopes := σ₁.completedScopes.insert (fr.function, fr.pc) } x t f fr) hrun rfl)
        · rw [if_neg hr, if_neg hr]
          have h₂ := (h₁.block (Set.notMem_empty x) top₁ (.scope σ.alloc.nextScope)
            fun tok' hwt ↦ by cases hwt; rfl).openScope σ.alloc.nextScope
              ⟨σ.alloc.nextScope, x, f, remaining⟩
          have hsid : netScope σ₁.store.frames ⟨σ.alloc.nextScope, x, f, remaining⟩ =
              ⟨σ.alloc.nextScope, x, f, fr.pc, remaining⟩ := by
            simp only [netScope, show σ₁.store.frames[f]? = some fr from top₁.frame,
              Option.map_some, Option.getD_some]
          rw [show (σ₁.block x (.scope σ.alloc.nextScope)).store = σ₁.store from rfl, hsid] at h₂
          exact .only h₂
  · simp only [hnil, hb, Bool.not_false, if_true, if_false]
    exact .off

end Spawn

section Join

theorem spot_reclaim (hne : x ≠ y) : spot (Engine.reclaim σ y) x = spot σ x := by
  rw [spot, spot, (removed_reclaim y).kept x hne]
  rfl

variable [FloatArith] (h : Corr E.program (insert x ∅) σ m) (hw : Wf E.program σ)
  (top : Top σ x t f fr) (hrun : t.status = .runnable)

include h hw top hrun

omit [FloatArith] in
/-- A finished child is consumed on both sides. -/
theorem Corr.consumeJoin (name : String) {k : HandleId} {c : ThreadId} (hc : t.HasChild k c)
    (hf : c ∈ σ.finished) : Corr E.program (insert x ∅) (Engine.consumeJoin σ x f name k c)
      (reclaim ((m.modifyFrame f fun fr ↦ { fr with handles := fr.handles.erase name }).modifyThread
        x fun t ↦ { t with handleChildren := t.handleChildren.erase k }) c) ∧
      spot (Engine.consumeJoin σ x f name k c) x = spot σ x := by
  have hre := rebound_drop top name k
  have hfin := (hw.stack.finished_set c).mp hf
  have hne : x ≠ c := by
    rintro rfl
    rw [top.status, hrun] at hfin
    cases hfin
  have h₁ := (h.modifyFrame f (F := fun fr ↦ { fr with handles := fr.handles.erase name })
    (fun _ ↦ rfl) fun _ ↦ rfl).modifyThread x
      (F := fun t ↦ { t with handleChildren := t.handleChildren.erase k })
      (G := fun t ↦ { t with handleChildren := t.handleChildren.erase k }) (fun _ _ ↦ rfl)
        (fun _ ↦ rfl) (.inr fun _ ↦ rfl)
  have hr := h₁.records
  constructor
  · refine h₁.remove (removed_reclaim c) ?_ rfl ⟨hr.frames, fun y ↦ ?_, hr.scope, ?_,
      hr.completedFunctions, hr.completedScopes, hr.reached, hr.alloc⟩
    · rintro y u rfl hu
      have := hre.status top y
      rw [hfin, status, show _ = some u from hu] at this
      exact Option.some.inj this
    · refine (Std.ExtTreeMap.getElem?_erase ..).trans ?_
      refine Eq.trans ?_ (congrArg (Option.map _) (Std.ExtTreeMap.getElem?_erase ..)).symm
      split_ifs
      · rfl
      · exact hr.thread y
    · exact congrArg (·.erase c) hr.finished
  · exact (spot_reclaim hne).trans (Rebound.spot hre top)

theorem agrees_join {name : String} : Agrees E.program (E.stepOp σ x f fr (.join name))
    (outcomes E m x f fr (.join name)) := by
  simp only [Engine.stepOp, Engine.stepJoin, outcomes, buildStmt, List.flatMap_cons,
    List.flatMap_nil, List.append_nil, List.cons_append, List.nil_append, fireOp, fireJoinReady,
    fireJoinBlock, childOf, h.records.thread, h.records.finished,
    show σ.threads[x]? = some t from top.thread, Option.map_some, Option.bind_some]
  cases hk : fr.handles[name]? with
  | none => exact .error ⟨_, List.mem_cons_self, fails_error _⟩
  | some k =>
      obtain ⟨c, hc⟩ := hw.handles.bound x t f fr name k top.thread top.mem top.frame hk
      simp only [show (netThread σ.store.frames t).handleChildren[k]? = some c from hc,
        show t.handleChildren[k]? = some c from hc, Std.ExtTreeSet.contains_iff_mem]
      change Agrees _ (if c ∈ σ.finished then _ else _)
        [if c ∉ σ.finished then _ else _, if c ∈ σ.finished then _ else _]
      by_cases hf : c ∈ σ.finished
      · have h₁ := Corr.consumeJoin h hw top hrun (E := E) name hc hf
        rw [if_pos hf, if_pos hf, if_neg (not_not.mpr hf)]
        exact .first (h₁.1.proceed (Set.notMem_empty x) top hrun h₁.2)
      · have hx : σ.status x = some .runnable := by rw [top.status, hrun]
        rw [if_neg hf, if_neg hf, if_pos hf]
        exact .second (Corr.wait top h (.same hw hx (by simp) (BlockReason.ne_of_untabled rfl))
          (.join k))

end Join

section Return

variable [FloatArith] (h : Corr E.program (insert x ∅) σ m) (hw : Wf E.program σ)
  (top : Top σ x t f fr) (hrun : t.status = .runnable)

include h hw top hrun

/-- The end of the last activation. -/
theorem agrees_returnFinal (hst : t.stack = [f]) (value : Option LExpr) :
    Agrees E.program (evalReturn m E fr value >>= fun val ↦
      E.oneOf x f fr (E.applyReturn σ x f fr val))
      [fireReturnInner m x f E fr value, fireReturnFinal m x f E fr value] := by
  have hstack : m.store.threads[x]?.map (·.stack) = some [f] := by
    rw [h.records.thread, show σ.threads[x]? = some t from top.thread, ← hst]
    rfl
  simp only [fireReturnInner, fireReturnFinal, hstack]
  refine .right (.bind fun val _ ↦ ?_)
  have hcaller : (σ.threads[x]?.map (·.stack)).bind (·[1]?) = none := by
    rw [show σ.threads[x]? = some t from top.thread, Option.map_some, hst]
    rfl
  have hok : E.returnOk σ fr none val = returnTypeOk E fr.function val := by
    cases val <;> simp only [Engine.returnOk, returnTypeOk, Bool.and_true] <;>
      cases (E.function fr.function).returns <;> rfl
  rw [Engine.applyReturn, hcaller]
  simp only [hok]
  by_cases hr : returnTypeOk E fr.function val = true
  · simp only [hr, if_true, Bool.not_true, Bool.false_eq_true, if_false]
    exact .only (h.finishThread hw top hrun hst fr.function)
  · simp only [hr, Bool.not_false, if_true, Bool.false_eq_true, if_false]
    exact .off

/-- The end of an activation that was called. -/
theorem agrees_returnInner {caller : FrameId} {rest : List FrameId}
    (hst : t.stack = f :: caller :: rest) (value : Option LExpr) :
    Agrees E.program (evalReturn m E fr value >>= fun val ↦
      E.oneOf x f fr (E.applyReturn σ x f fr val))
      [fireReturnInner m x f E fr value, fireReturnFinal m x f E fr value] := by
  have hstack : m.store.threads[x]?.map (·.stack) = some (f :: caller :: rest) := by
    rw [h.records.thread, show σ.threads[x]? = some t from top.thread, ← hst]
    rfl
  simp only [fireReturnInner, fireReturnFinal, hstack]
  refine .left (.bind fun val _ ↦ ?_)
  have hcaller : (σ.threads[x]?.map (·.stack)).bind (·[1]?) = some caller := by
    rw [show σ.threads[x]? = some t from top.thread, Option.map_some, hst]
    rfl
  have hchain := hw.stack.chain x t top.thread
  rw [hst, List.isChain_cons_cons] at hchain
  obtain ⟨fr', fc, ret, hfr', hfc, hret, hle, hdst⟩ := hchain.1
  obtain rfl : fr = fr' := Option.some.inj (top.frame.symm.trans hfr')
  have hne : caller ≠ f := fun he ↦ by
    have := hw.stack.nodup x t top.thread
    simp [hst, he] at this
  have hu := unwound_popFrame top hrun hst
  have hw₁ := hw.unwind top hrun hst (by simp) hu
  have top₁ : Top (Engine.popFrame σ x f) x { t with stack := caller :: rest, status := .runnable }
      caller fc := ⟨hu.hasThread.mpr (.inl ⟨rfl, rfl⟩), rfl, hu.hasFrame.mpr ⟨hne, hfc⟩⟩
  have h₁ := h.popFrame (Set.mem_insert x ∅) top hrun hst
  have hnext : hasPlace E (.control fc.function ret.pcNext) = true :=
    hasPlace_iff.mpr (control_mem_places (hw.stack.function_lt caller fc hfc) hle)
  -- Once the value is written, the caller goes on.
  have hresume : ∀ σ₁ m₁, Corr E.program (insert x ∅) σ₁ m₁ →
      spot σ₁ x = spot (Engine.popFrame σ x f) x →
        Corr E.program ∅ (E.recordCompletion (σ₁.setPc caller ret.pcNext) fr.function)
          (Petri.recordCompletion E (resumeCaller E m₁ x caller ret.pcNext) fr.function) := by
    intro σ₁ m₁ hc hspot
    obtain ⟨t₁, fc₁, top₂, hst₂, hfn, -⟩ := top_of_spot_eq hspot top₁
    have hplace := hc.placeControl (Set.notMem_empty x) top₂ hst₂ ret.pcNext
    have hres : resumeCaller E m₁ x caller ret.pcNext =
        Petri.placeControl m₁ (.control fc₁.function ret.pcNext) x caller := by
      rw [resumeCaller, hc.records.frames, show σ₁.store.frames[caller]? = some fc₁ from top₂.frame]
      simp only [hfn, hnext, if_true]
    rw [hres]
    exact hplace.recordCompletion fr.function
  rw [Engine.applyReturn, hcaller]
  cases val with
  | none =>
      have hok : returnTypeOk E fr.function none = true := by simp [returnTypeOk]
      simp only [hok, Engine.returnOk, if_true, Bool.not_true, Bool.false_eq_true, if_false, hret,
        Engine.returnTo]
      exact .only (hresume _ _ h₁ rfl)
  | some v =>
      have hdstOk : E.dstTypeOk (Engine.popFrame σ x f) caller ret.dst v =
          E.dstTypeOk σ caller ret.dst v := by
        cases ret.dst with
        | localSlot slot =>
            rw [Engine.dstTypeOk, Engine.dstTypeOk, hu.frames, if_neg hne]
        | _ => rfl
      have hwrite := h₁.writeDst hw₁.stores hdst caller v
      have hok : E.returnOk σ fr (some caller) (some v) = (returnTypeOk E fr.function (some v) &&
          E.dstTypeOk (Engine.popFrame σ x f) caller ret.dst v) := by
        rw [hdstOk]
        simp only [Engine.returnOk, returnTypeOk, hret]
        cases (E.function fr.function).returns <;> rfl
      simp only [hok, hret, Engine.returnTo]
      by_cases hr : returnTypeOk E fr.function (some v) = true
      · simp only [hr, Bool.true_and, Bool.not_true, Bool.false_eq_true, if_false]
        by_cases hd : E.dstTypeOk (Engine.popFrame σ x f) caller ret.dst v = true
        · rw [Engine.tryWriteDst, if_pos hd] at hwrite
          obtain ⟨m₁, hm₁, h₂⟩ := hwrite
          rw [if_pos hd, hm₁]
          exact .only (hresume _ _ h₂ (spot_tryWriteDst (E := E) (v := v) (if_pos hd)))
        · rw [Engine.tryWriteDst, if_neg hd] at hwrite
          rw [if_neg hd, hwrite]
          exact .off
      · simp only [hr, Bool.false_and, Bool.not_false, if_true, Bool.false_eq_true, if_false]
        exact .off

theorem agrees_applyReturn (value : Option LExpr) :
    Agrees E.program (evalReturn m E fr value >>= fun val ↦
      E.oneOf x f fr (E.applyReturn σ x f fr val))
      [fireReturnInner m x f E fr value, fireReturnFinal m x f E fr value] := by
  cases hst : t.stack with
  | nil =>
      have := top.head
      rw [hst] at this
      cases this
  | cons g rest =>
      obtain rfl : g = f := by
        have := top.head
        rw [hst] at this
        exact Option.some.inj this
      cases rest with
      | nil => exact agrees_returnFinal h hw top hrun hst value
      | cons caller rest => exact agrees_returnInner h hw top hrun hst value

theorem agrees_return (value : Option LExpr) : Agrees E.program (E.stepOp σ x f fr (.return value))
    (outcomes E m x f fr (.return value)) := by
  have hstep : E.stepOp σ x f fr (.return value) = (evalReturn m E fr value >>= fun val ↦
      E.oneOf x f fr (E.applyReturn σ x f fr val)) := by
    cases value with
    | none => rfl
    | some e =>
        rw [Engine.stepOp, evalReturn, evalIn_eq h hw.stores]
        cases E.evalIn σ fr e <;> rfl
  rw [hstep]
  exact agrees_applyReturn h hw top hrun value

end Return

section Call

variable [FloatArith] (h : Corr E.program (insert x ∅) σ m) (hw : Wf E.program σ)
  (top : Top σ x t f fr) (hrun : t.status = .runnable)

include h hw top hrun

omit [FloatArith] in
/-- The thread enters the activation that the call creates. -/
theorem Corr.call {args : List LExpr} {dst : Option SlotRef}
    (hop : E.program.opAt fr.function fr.pc = some (.call func args dst)) (values : List Value) :
    Corr E.program ∅ (Engine.pushFrame σ x (E.callFrame σ fr func dst values))
      (Petri.placeControl (({ m with store := { m.store with
        alloc := { m.store.alloc with nextFrame := m.store.alloc.nextFrame + 1 }
        frames := m.store.frames.insert m.store.alloc.nextFrame
          (callFrame E fr m.store.alloc.nextFrame func dst values) } }).modifyThread x fun t ↦
            { t with stack := m.store.alloc.nextFrame :: t.stack }) (.control func 0) x
              m.store.alloc.nextFrame) := by
  have hok := SemProgram.opAt_ok hop
  simp only [opOk, Bool.and_eq_true, decide_eq_true_eq] at hok
  have hp := pushed_pushFrame top hok.1 values (SemProgram.opAt_lt hop) hok.2
  have hr := h.records
  have hnew : callFrame E fr σ.alloc.nextFrame func dst values =
      E.callFrame σ fr func dst values := rfl
  have hother : ∀ g : FrameId, g ≠ σ.alloc.nextFrame →
      (Engine.pushFrame σ x (E.callFrame σ fr func dst values)).store.frames[g]? =
        σ.store.frames[g]? := fun g hg ↦ (hp.frames g).trans (if_neg hg)
  rw [hr.alloc, hnew]
  have top₁ : Top (Engine.pushFrame σ x (E.callFrame σ fr func dst values)) x
      { t with stack := σ.alloc.nextFrame :: t.stack } σ.alloc.nextFrame
        (E.callFrame σ fr func dst values) :=
    ⟨hp.hasThread.mpr (.inl ⟨rfl, rfl⟩), rfl, hp.hasFrame.mpr (.inl ⟨rfl, rfl⟩)⟩
  refine Corr.enter ?_ (Set.notMem_empty x) top₁ hrun
  refine h.push hw (Set.mem_insert x ∅) top hrun hp rfl ⟨?_, fun y ↦ ?_, fun s ↦ ?_, hr.finished,
    hr.completedFunctions, hr.completedScopes, hr.reached, rfl⟩
  · exact congrArg (·.insert σ.alloc.nextFrame (E.callFrame σ fr func dst values)) hr.frames
  · refine (Std.ExtTreeMap.getElem?_modify ..).trans ?_
    rw [hp.threads]
    simp only [Nat.compare_eq_eq, @eq_comm _ x]
    split_ifs with hy
    · rw [hr.thread, show σ.threads[x]? = some t from top.thread]
      simp [netThread, hrun, Engine.callFrame, newFrame]
    · rw [hr.thread]
      cases hu : σ.threads[y]? with
      | none => rfl
      | some u =>
          refine congrArg some (netThread_congr fun g hg ↦ ?_).symm
          rw [hother g (hp.ne_new_of_mem hw hu (List.mem_of_head? hg))]
  · refine (hr.scope s).trans ?_
    change _ = (σ.scopes[s]?).map _
    cases hs : σ.scopes[s]? with
    | none => rfl
    | some sc =>
        obtain ⟨gr, hgr⟩ := Wf.frame_of_scope hw hs
        exact congrArg some (netScope_congr (by rw [hother _ (hp.ne_new hw hgr)])).symm

omit h hw top hrun in
/-- A call that enters an activation of the callee, whatever its body. -/
def enterCall (E : Engine) (σ : MachineState) (x : ThreadId) (f : FrameId) (fr : Frame)
    (func : FunctionId) (args : List LExpr) (dst : Option SlotRef) :
    BackendResult (Enabled MachineState) :=
  if E.bounds.maxFramesPerThread ≤ ((σ.threads[x]?.map (·.stack.length)).getD 0) then
    .ok ⟨[], [E.frameLimit (E.function func)]⟩
  else do
    let values ← E.evalArgs σ fr args
    if Engine.argsOk (E.function func) values then
      E.one x f fr (Engine.pushFrame σ x (E.callFrame σ fr func dst values))
    else .ok .empty

theorem agrees_enterCall {args : List LExpr} {dst : Option SlotRef}
    (hop : E.program.opAt fr.function fr.pc = some (.call func args dst)) :
    Agrees E.program (enterCall E σ x f fr func args dst)
      (outcomes E m x f fr (.call func args dst)) := by
  simp only [outcomes, buildStmt, List.flatMap_cons, List.flatMap_nil, List.append_nil, fireOp,
    fireCall, h.records.thread, enterCall, show σ.threads[x]? = some t from top.thread,
    Option.map_some, Option.getD_some, evalArgs_eq h hw.stores]
  change Agrees _ (if E.bounds.maxFramesPerThread ≤ t.stack.length then _ else _)
    [if E.bounds.maxFramesPerThread ≤ t.stack.length then _ else _]
  by_cases hlim : E.bounds.maxFramesPerThread ≤ t.stack.length
  · rw [if_pos hlim, if_pos hlim]
    exact .boundary
  · rw [if_neg hlim, if_neg hlim]
    refine .bind fun values _ ↦ ?_
    by_cases hargs : Engine.argsOk (E.function func) values = true
    · simp only [hargs, if_true, Bool.not_true, Bool.false_eq_true, if_false]
      exact .only (Corr.call h hw top hrun hop values)
    · simp only [hargs, Bool.not_false, if_true, Bool.false_eq_true, if_false]
      exact .off

/-- The engines agree on calls of functions that are not skipped. -/
theorem agrees_call {args : List LExpr} {dst : Option SlotRef}
    (hop : E.program.opAt fr.function fr.pc = some (.call func args dst))
    (hbody : (E.function func).isTransparentNobody = false) :
    Agrees E.program (E.stepOp σ x f fr (.call func args dst))
      (outcomes E m x f fr (.call func args dst)) := by
  have hstep : E.stepOp σ x f fr (.call func args dst) = enterCall E σ x f fr func args dst := by
    rw [Engine.stepOp, Engine.stepCall, if_neg (by simpa using hbody)]
    rfl
  rw [hstep]
  exact agrees_enterCall h hw top hrun hop

end Call

end Petri

end ConcIR
