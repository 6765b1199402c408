import ConcIR.Interp.Steps
import ConcIR.Petri.Values

/-!
# Both engines agree on a statement

What the interpreter offers at a statement, and what the transitions of the statement
yield when they are fired on the token of the thread.
-/

namespace ConcIR

open MachineState

namespace Petri

def Fails {A : Type} (r : BackendResult A) : Prop := ∃ e, r = .error e

/-- The outcomes of the firings match what the interpreter offers. -/
structure Agrees (P : SemProgram) (r : BackendResult (Enabled MachineState))
    (qs : List (BackendResult Fired)) : Prop where
  fails : Fails r ↔ ∃ q ∈ qs, Fails q
  offered : ∀ σ', Offers r σ' → ∃ m' bs, .ok ⟨some m', bs⟩ ∈ qs ∧ Corr P ∅ σ' m'
  taken : ¬ Fails r → ∀ m' bs, .ok ⟨some m', bs⟩ ∈ qs → ∃ σ', Offers r σ' ∧ Corr P ∅ σ' m'

/-- The outcomes of the transitions of a statement on the token of a thread. -/
def outcomes [FloatArith] (E : Engine) (m : NetState) (x : ThreadId) (f : FrameId) (fr : Frame)
    (op : SemOp) : List (BackendResult Fired) :=
  (buildStmt E.program fr.function fr.pc op).flatMap fun tr ↦
    match tr.binding with
    | .controlChooseWait _ waits => (m.marking waits).map fun w ↦ fireOp tr m x f E fr (some w)
    | _ => [fireOp tr m x f E fr none]

variable {E : Engine} {P : SemProgram} {out : Set ThreadId} {σ σ' σ₁ : MachineState}
  {m m' m₁ : NetState} {x y : ThreadId} {t u : ThreadState} {f g : FrameId} {fr gr : Frame}
  {r c : ResourceId} {v : Value} {dst : SlotRef} {qs : List (BackendResult Fired)}
  {op : SemOp}

section Verdicts

theorem fails_error {A : Type} (e : BackendError) : Fails (.error e : BackendResult A) := ⟨e, rfl⟩

theorem not_fails_ok {A : Type} (a : A) : ¬ Fails (.ok a : BackendResult A) := by
  rintro ⟨e, ⟨⟩⟩

theorem Agrees.one (hc : Corr P ∅ σ' m') (hmem : fired m' ∈ qs)
    (hall : ∀ q ∈ qs, q = fired m' ∨ q = disabled) : Agrees P (E.one x f fr σ') qs where
  fails := by
    refine ⟨fun h ↦ absurd h (not_fails_ok _), ?_⟩
    rintro ⟨q, hq, hf⟩
    rcases hall q hq with rfl | rfl <;> exact absurd hf (not_fails_ok _)
  offered := by
    intro σ'' h
    rw [Engine.offers_one] at h
    exact ⟨m', [], hmem, h ▸ hc⟩
  taken := by
    intro _ m'' bs hq
    refine ⟨σ', Engine.offers_one.mpr rfl, ?_⟩
    rcases hall _ hq with he | he
    · rw [fired, Except.ok.injEq, Fired.mk.injEq, Option.some.injEq] at he
      rwa [he.1]
    · cases he

theorem Agrees.error {e : BackendError} (hmem : ∃ q ∈ qs, Fails q) : Agrees P (.error e) qs where
  fails := ⟨fun _ ↦ hmem, fun _ ↦ fails_error e⟩
  offered := fun _ h ↦ absurd h (offers_error e)
  taken := fun hno ↦ absurd (fails_error e) hno

theorem Agrees.stay {bs : List BoundaryEvent} (hall : ∀ q ∈ qs, ∃ bs, q = .ok ⟨none, bs⟩) :
    Agrees P (.ok ⟨[], bs⟩) qs where
  fails := by
    refine ⟨fun h ↦ absurd h (not_fails_ok _), ?_⟩
    rintro ⟨q, hq, hf⟩
    obtain ⟨bs, rfl⟩ := hall q hq
    exact absurd hf (not_fails_ok _)
  offered := by
    rintro σ' ⟨_, ⟨⟩, st, ⟨⟩, -⟩
  taken := by
    intro _ m' bs hq
    obtain ⟨bs, he⟩ := hall _ hq
    cases he

theorem Agrees.only (hc : Corr P ∅ σ' m') : Agrees P (E.one x f fr σ') [fired m'] :=
  .one hc List.mem_cons_self (by simp)

/-- Firings that are not enabled do not count. -/
theorem Agrees.pad {r : BackendResult (Enabled MachineState)} {qs' : List (BackendResult Fired)}
    (h : Agrees P r qs) (hsub : ∀ q ∈ qs, q ∈ qs') (hsup : ∀ q ∈ qs', q ∈ qs ∨ q = disabled) :
    Agrees P r qs' where
  fails := by
    refine h.fails.trans ⟨fun ⟨q, hq, hf⟩ ↦ ⟨q, hsub q hq, hf⟩, ?_⟩
    rintro ⟨q, hq, hf⟩
    rcases hsup q hq with hq | rfl
    · exact ⟨q, hq, hf⟩
    · exact absurd hf (not_fails_ok _)
  offered := by
    intro σ' ho
    obtain ⟨m', bs, hq, hc⟩ := h.offered σ' ho
    exact ⟨m', bs, hsub _ hq, hc⟩
  taken := by
    intro hno m' bs hq
    rcases hsup _ hq with hq | hq
    · exact h.taken hno m' bs hq
    · cases hq

theorem Agrees.left {r : BackendResult (Enabled MachineState)} {q : BackendResult Fired}
    (h : Agrees P r [q]) : Agrees P r [q, disabled] :=
  h.pad (by simp) (by simp)

theorem Agrees.right {r : BackendResult (Enabled MachineState)} {q : BackendResult Fired}
    (h : Agrees P r [q]) : Agrees P r [disabled, q] :=
  h.pad (by simp) (by simp [or_comm])

theorem Agrees.first (hc : Corr P ∅ σ' m') : Agrees P (E.one x f fr σ') [fired m', disabled] :=
  (Agrees.only hc).left

theorem Agrees.second (hc : Corr P ∅ σ' m') : Agrees P (E.one x f fr σ') [disabled, fired m'] :=
  (Agrees.only hc).right

theorem Agrees.off : Agrees P (.ok .empty) [disabled] := .stay (by simp [disabled])

theorem Agrees.boundary {bs bs' : List BoundaryEvent} :
    Agrees P (.ok ⟨[], bs⟩) [.ok ⟨none, bs'⟩] := .stay (by simp)

theorem Agrees.failing {e e' : BackendError} : Agrees P (.error e) [.error e'] :=
  .error ⟨_, List.mem_cons_self, fails_error e'⟩

/-- Both sides evaluate first. -/
theorem Agrees.bind {A : Type} {a : BackendResult A}
    {F : A → BackendResult (Enabled MachineState)} {G : A → BackendResult Fired}
    (hok : ∀ v, a = .ok v → Agrees P (F v) [G v]) : Agrees P (a >>= F) [a >>= G] := by
  cases ha : a with
  | error e => exact .error ⟨_, List.mem_cons_self, e, rfl⟩
  | ok v => exact hok v ha

theorem Agrees.bind_two {A : Type} {a : BackendResult A}
    {F : A → BackendResult (Enabled MachineState)} {G G' : A → BackendResult Fired}
    (hok : ∀ v, a = .ok v → Agrees P (F v) [G v, G' v]) :
    Agrees P (a >>= F) [a >>= G, a >>= G'] := by
  cases ha : a with
  | error e => exact .error ⟨_, List.mem_cons_self, e, rfl⟩
  | ok v => exact hok v ha

end Verdicts

section Standing

/-- A thread that still stands where it stood moves on by one statement. -/
theorem Corr.proceed (h : Corr P (insert x out) σ₁ m₁) (hx : x ∉ out) (top : Top σ x t f fr)
    (hrun : t.status = .runnable) (hspot : spot σ₁ x = spot σ x) :
    Corr P out (σ₁.advance x) (Petri.placeControl m₁ (.control fr.function (fr.pc + 1)) x f) := by
  obtain ⟨t', fr', top', hst, hfn, hpc⟩ := top_of_spot_eq hspot top
  rw [← hfn, ← hpc]
  exact h.advance hx top' (hst.trans hrun)

theorem spot_of_eq (ht : σ'.threads = σ.threads) (hf : σ'.store.frames = σ.store.frames) :
    spot σ' x = spot σ x := by
  rw [spot, spot, ht, hf]

theorem spot_modifyFrame (f : FrameId) {F : Frame → Frame}
    (hfn : ∀ fr, (F fr).function = fr.function) (hpc : ∀ fr, (F fr).pc = fr.pc) :
    spot (σ.modifyFrame f F) x = spot σ x := by
  refine congrArg (fun G ↦ σ.threads[x]?.map G) (funext fun t ↦ ?_)
  cases t.stack.head? with
  | none => rfl
  | some g =>
      simp only [Option.bind_some]
      exact congrArg (fun o ↦ (t.status, t.stack, o)) (getElem?_modify_steps hfn hpc g)

theorem spot_tryWriteDst (h : E.tryWriteDst σ g dst v = some σ₁) : spot σ₁ x = spot σ x := by
  rw [tryWriteDst_eq h]
  cases dst with
  | discard => rfl
  | localSlot slot => exact spot_modifyFrame g (fun _ ↦ rfl) fun _ ↦ rfl
  | shared r =>
      refine spot_of_eq rfl ?_
      simp only [MachineState.writeDst, Store.writeShared]
      split_ifs <;> rfl

/-- The step of another thread does not move this one. -/
theorem spot_advance_other (top : Top σ y u g gr)
    (hne : ∀ t, σ.HasThread x t → g ∉ t.stack) : spot (σ.advance y) x = spot σ x := by
  rw [advance_eq_setPc top, spot, spot]
  change σ.threads[x]?.map _ = _
  cases ht : σ.threads[x]? with
  | none => rfl
  | some t =>
      rw [Option.map_some, Option.map_some]
      cases hf : t.stack.head? with
      | none => rfl
      | some f =>
          have hfg : f ≠ g := fun he ↦ hne t ht (he ▸ List.mem_of_head? hf)
          simp only [Option.bind_some, MachineState.setPc, getElem?_modifyFrame, if_neg hfg]

theorem spot_setStatus_other (hxy : x ≠ y) (st : ThreadStatus) :
    spot (σ.setStatus y st) x = spot σ x := by
  rw [spot, spot, setStatus, getElem?_modifyThread, if_neg hxy]
  rfl

end Standing

section Statements

theorem exists_cell {V : Type} {cells : BTreeMap ResourceId V} {kind : ResKind}
    (hdom : cells.contains r = hasKind P.resources r kind)
    (hr : hasKind P.resources r kind = true) : ∃ v, cells[r]? = some v := by
  rw [← hdom, Std.ExtTreeMap.contains_eq_isSome_getElem?, Option.isSome_iff_exists] at hr
  exact hr

variable [FloatArith] (h : Corr E.program (insert x ∅) σ m) (hw : Wf E.program σ)
  (top : Top σ x t f fr) (hrun : t.status = .runnable)

include h top hrun

theorem agrees_nop : Agrees E.program (E.stepOp σ x f fr .nop) (outcomes E m x f fr .nop) := by
  exact .only (h.proceed (Set.notMem_empty x) top hrun rfl)

theorem agrees_goto (target : ℕ) :
    Agrees E.program (E.stepOp σ x f fr (.goto target)) (outcomes E m x f fr (.goto target)) := by
  exact .only (h.placeControl (Set.notMem_empty x) top hrun target)

omit [FloatArith] in
/-- A statement that writes a value and goes on. -/
theorem agrees_write (hs : Stores E.program σ) (hd : dstOk E.program.resources dst = true)
    (v : Value) {K : MachineState → MachineState} {K' : NetState → NetState}
    (hK : ∀ σ₁ m₁, E.tryWriteDst σ f dst v = some σ₁ → Corr E.program (insert x ∅) σ₁ m₁ →
      Corr E.program (insert x ∅) (K σ₁) (K' m₁) ∧ spot (K σ₁) x = spot σ₁ x)
    {Q : Option NetState → BackendResult Fired} (hnone : Q none = disabled)
    (hsome : ∀ m₁, Q (some m₁) =
      fired (placeControl (K' m₁) (.control fr.function (fr.pc + 1)) x f)) :
    Agrees E.program (E.oneOf x f fr ((E.tryWriteDst σ f dst v).map fun σ₁ ↦ (K σ₁).advance x))
      [writeDst E m f dst v >>= Q] := by
  have hwrite := h.writeDst hs hd f v
  cases ho : E.tryWriteDst σ f dst v with
  | none =>
      rw [ho] at hwrite
      rw [hwrite, show (.ok none >>= Q) = Q none from rfl, hnone]
      exact .off
  | some σ₁ =>
      rw [ho] at hwrite
      obtain ⟨m₁, hm, h₁⟩ := hwrite
      obtain ⟨h₂, hspot⟩ := hK σ₁ m₁ ho h₁
      rw [hm, show (.ok (some m₁) >>= Q) = Q (some m₁) from rfl, hsome]
      exact .only (h₂.proceed (Set.notMem_empty x) top hrun (hspot.trans (spot_tryWriteDst ho)))

theorem agrees_assign {target : SlotRef} {e : LExpr} (hs : Stores E.program σ)
    (hok : opOk E.program.functions E.program.resources (E.program.function fr.function)
      (.assignLocal target e) = true) :
    Agrees E.program (E.stepOp σ x f fr (.assignLocal target e))
      (outcomes E m x f fr (.assignLocal target e)) := by
  simp only [Engine.stepOp, outcomes, buildStmt, fireOp, List.flatMap_cons, List.flatMap_nil,
    List.append_nil, evalIn_eq h hs]
  refine .bind fun v _ ↦ ?_
  cases target with
  | localSlot slot =>
      cases hv : E.assignOk fr (.localSlot slot) v with
      | false => exact .off
      | true =>
          exact .only (Corr.proceed (h.modifyFrame f (fun _ ↦ rfl) fun _ ↦ rfl)
            (Set.notMem_empty x) top hrun (spot_modifyFrame f (fun _ ↦ rfl) fun _ ↦ rfl))
  | _ => cases hok

theorem agrees_read {dst : Option SlotRef} (hs : Stores E.program σ)
    (hr : hasKind E.program.resources r .var = true)
    (hd : (dst.map (dstOk E.program.resources)).getD true = true) :
    Agrees E.program (E.stepOp σ x f fr (.readShared r dst))
      (outcomes E m x f fr (.readShared r dst)) := by
  obtain ⟨v, hv⟩ := exists_cell (hs.vars r) hr
  simp only [Engine.stepOp, outcomes, buildStmt, fireOp, List.flatMap_cons, List.flatMap_nil,
    List.append_nil, Store.readShared, hv, Option.some_or, Cells.readVar h.cells]
  cases dst with
  | none => exact .only (h.proceed (Set.notMem_empty x) top hrun rfl)
  | some dst =>
      exact agrees_write h top hrun hs hd v (fun _ _ _ h₁ ↦ ⟨h₁, rfl⟩) rfl fun _ ↦ rfl

theorem agrees_writeShared {e : LExpr} (hs : Stores E.program σ) :
    Agrees E.program (E.stepOp σ x f fr (.writeShared r e))
      (outcomes E m x f fr (.writeShared r e)) := by
  simp only [Engine.stepOp, outcomes, buildStmt, fireOp, List.flatMap_cons, List.flatMap_nil,
    List.append_nil, evalIn_eq h hs]
  refine .bind fun v _ ↦ ?_
  cases E.resourceTypeOk r v with
  | false => exact .off
  | true => exact .only ((h.setVar r v).proceed (Set.notMem_empty x) top hrun rfl)

theorem agrees_load (hs : Stores E.program σ) (hr : hasKind E.program.resources r .atomic = true)
    (hd : dstOk E.program.resources dst = true) :
    Agrees E.program (E.stepOp σ x f fr (.atomicLoad r dst))
      (outcomes E m x f fr (.atomicLoad r dst)) := by
  obtain ⟨v, hv⟩ := exists_cell (hs.atomics r) hr
  simp only [Engine.stepOp, outcomes, buildStmt, fireOp, List.flatMap_cons, List.flatMap_nil,
    List.append_nil, hv, Cells.readAtomic h.cells]
  exact agrees_write h top hrun hs hd v (fun _ _ _ h₁ ↦ ⟨h₁, rfl⟩) rfl fun _ ↦ rfl

theorem agrees_store {e : LExpr} (hs : Stores E.program σ) :
    Agrees E.program (E.stepOp σ x f fr (.atomicStore r e))
      (outcomes E m x f fr (.atomicStore r e)) := by
  simp only [Engine.stepOp, outcomes, buildStmt, fireOp, List.flatMap_cons, List.flatMap_nil,
    List.append_nil, evalIn_eq h hs]
  refine .bind fun v _ ↦ ?_
  cases E.resourceTypeOk r v with
  | false => exact .off
  | true => exact .only ((h.setAtomic r v).proceed (Set.notMem_empty x) top hrun rfl)

theorem agrees_cas {e e' : LExpr} (hs : Stores E.program σ)
    (hr : hasKind E.program.resources r .atomic = true)
    (hd : dstOk E.program.resources dst = true) :
    Agrees E.program (E.stepOp σ x f fr (.atomicCas r e e' dst))
      (outcomes E m x f fr (.atomicCas r e e' dst)) := by
  obtain ⟨old, hold⟩ := exists_cell (hs.atomics r) hr
  simp only [Engine.stepOp, outcomes, buildStmt, fireOp, List.flatMap_cons, List.flatMap_nil,
    List.append_nil, evalIn_eq h hs, hold, Cells.readAtomic h.cells]
  refine .bind fun exp _ ↦ .bind fun des _ ↦ ?_
  cases E.resourceTypeOk r des with
  | false => exact .off
  | true =>
      refine agrees_write h top hrun hs hd old (fun σ₁ m₁ _ h₁ ↦ ?_) rfl fun m₁ ↦ rfl
      split_ifs
      · exact ⟨h₁.setAtomic r des, rfl⟩
      · exact ⟨h₁, rfl⟩

theorem agrees_branch {e : LExpr} {thenTarget elseTarget : ℕ} (hs : Stores E.program σ) :
    Agrees E.program (E.stepOp σ x f fr (.branch e thenTarget elseTarget))
      (outcomes E m x f fr (.branch e thenTarget elseTarget)) := by
  simp only [Engine.stepOp, outcomes, buildStmt, fireOp, fireBranch, List.flatMap_cons,
    List.flatMap_nil, List.append_nil, List.cons_append, List.nil_append, evalIn_eq h hs]
  refine .bind_two fun v _ ↦ ?_
  cases v.asBool with
  | none => exact .error ⟨_, List.mem_cons_self, fails_error _⟩
  | some b =>
      cases b with
      | true => exact .first (h.placeControl (Set.notMem_empty x) top hrun thenTarget)
      | false => exact .second (h.placeControl (Set.notMem_empty x) top hrun elseTarget)

theorem agrees_unlock : Agrees E.program (E.stepOp σ x f fr (.mutexUnlock r))
    (outcomes E m x f fr (.mutexUnlock r)) := by
  simp only [Engine.stepOp, outcomes, buildStmt, fireOp, fireUnlock, List.flatMap_cons,
    List.flatMap_nil, List.append_nil, Cells.readMutex h.cells]
  cases σ.store.mutexes[r]? with
  | none => exact .failing
  | some s =>
      cases s with
      | free => exact .failing
      | held owner =>
          simp only
          split_ifs
          · exact .only ((h.setMutex r .free).proceed (Set.notMem_empty x) top hrun rfl)
          · exact .failing

theorem agrees_release {n : ℤ} : Agrees E.program (E.stepOp σ x f fr (.semaphoreRelease r n))
      (outcomes E m x f fr (.semaphoreRelease r n)) := by
  simp only [Engine.stepOp, outcomes, buildStmt, fireOp, fireRelease, List.flatMap_cons,
    List.flatMap_nil, List.append_nil, Cells.readInt h.cells]
  split_ifs
  · exact .failing
  · cases checkedI64 (σ.store.semaphores[r]?.getD 0 + n) with
    | none => exact .failing
    | some k => exact .only ((h.setSemaphore r k).proceed (Set.notMem_empty x) top hrun rfl)

end Statements

section Blocking

variable [FloatArith] (h : Corr E.program (insert x ∅) σ m) (hw : Wf E.program σ)
  (top : Top σ x t f fr) (hrun : t.status = .runnable)

include h hw top hrun

omit [FloatArith] h hw hrun in
/-- A thread that has been entered in a table is put in the place of its reason. -/
theorem Corr.wait {r : BlockReason} {tok : NetToken} (h : Corr E.program (insert x ∅) σ₁ m₁)
    (hre : Retabled E.program σ σ₁ x (.blocked r)) (hwt : WaitToken σ₁ x f r tok) :
    Corr E.program ∅ (σ₁.block x r) ((m₁.put (waitPlace fr.function fr.pc r) tok).setBlocked x
      (waitPlace fr.function fr.pc r)) := by
  refine h.block (Set.notMem_empty x) ⟨?_, top.head, ?_⟩ hwt fun tok' hwt' ↦
    hwt.unique hre.sends_nodup hre.queue_nodup hwt'
  · rw [HasThread, hre.threads]
    exact top.thread
  · rw [HasFrame, hre.frames]
    exact top.frame

theorem agrees_lock (hr : hasKind E.program.resources r .mutex = true) :
    Agrees E.program (E.stepOp σ x f fr (.mutexLock r)) (outcomes E m x f fr (.mutexLock r)) := by
  obtain ⟨s, hs⟩ := exists_cell (hw.stores.mutexes r) hr
  simp only [Engine.stepOp, outcomes, buildStmt, fireOp, List.flatMap_cons, List.flatMap_nil,
    List.append_nil, List.cons_append, List.nil_append, Cells.readMutex h.cells, hs]
  cases s with
  | free => exact .first ((h.setMutex r (.held x)).proceed (Set.notMem_empty x) top hrun rfl)
  | held owner =>
      have hx : σ.status x = some .runnable := by rw [top.status, hrun]
      exact .second (Corr.wait top h (.same hw hx (by simp) (BlockReason.ne_of_untabled rfl)) (.lock r))

theorem agrees_acquire {n : ℤ} (hr : hasKind E.program.resources r .semaphore = true) :
    Agrees E.program (E.stepOp σ x f fr (.semaphoreAcquire r n))
      (outcomes E m x f fr (.semaphoreAcquire r n)) := by
  obtain ⟨k, hk⟩ := hw.semaphore hr
  have hx : σ.status x = some .runnable := by rw [top.status, hrun]
  simp only [Engine.stepOp, outcomes, buildStmt, fireOp, fireAcquire, List.flatMap_cons,
    List.flatMap_nil, List.append_nil, List.cons_append, List.nil_append, Cells.readInt h.cells, hk,
    Option.getD_some]
  by_cases hn : n ≤ 0
  · simp only [hn, if_true]
    exact .error ⟨_, List.mem_cons_self, fails_error _⟩
  · by_cases hle : n ≤ k
    · simp only [hn, hle, if_false, if_true, not_lt.mpr hle]
      exact .first ((h.setSemaphore r (k - n)).proceed (Set.notMem_empty x) top hrun rfl)
    · have hlt : k < n := not_le.mp hle
      simp only [hn, hle, if_false, if_true, hlt]
      have hre := Retabled.pushSemWaiter hw (n := n) hx (r := r)
      refine .second (Corr.wait top (h.pushSemWaiter (Set.mem_insert x ∅) r n) hre
        (.semaphore r n ?_))
      rw [MachineState.semQueue_pushSemWaiter, if_pos rfl]
      exact List.mem_append_right _ List.mem_cons_self

theorem agrees_condvarWait {cv lk : ResourceId}
    (hcv : hasKind E.program.resources cv .condvar = true) :
    Agrees E.program (E.stepOp σ x f fr (.condvarWait cv lk))
      (outcomes E m x f fr (.condvarWait cv lk)) := by
  have hx : σ.status x = some .runnable := by rw [top.status, hrun]
  simp only [Engine.stepOp, outcomes, buildStmt, fireOp, fireCondvarWait, List.flatMap_cons,
    List.flatMap_nil, List.append_nil, Cells.readMutex h.cells, hw.stores.condvars, hcv, if_true]
  split_ifs with hm
  · have hlk : σ.store.mutexes.contains lk = true := by
      rw [Std.ExtTreeMap.contains_eq_isSome_getElem?, hm, Option.isSome_some]
    have hc : (σ.setMutex lk .free).store.condvars.contains cv = true :=
      (hw.stores.condvars cv).trans hcv
    have hw₁ : Wf E.program (σ.setMutex lk .free) := hw.quiet (quiet_setMutex hlk .free)
    have top₁ : Top (σ.setMutex lk .free) x t f fr := ⟨top.thread, top.head, top.frame⟩
    exact .only (Corr.wait top₁ ((h.setMutex lk .free).modifyWaiters cv _)
      (.pushWaiter hw₁ hx hc) (.condvar cv lk))
  · exact .failing

end Blocking

end Petri

end ConcIR
