import ConcIR.Machine.Tables

/-!
# What both engines show

The running activations of the threads, and the cells of mutexes, semaphores and condition
variables. A step completes the statements that threads go past in it.
-/

namespace ConcIR

open MachineState

/-- What an engine shows of a state. -/
structure EngineView (S : Type) where
  threads : S → List ThreadId
  /-- The running activation of a thread. -/
  current : S → ThreadId → Option Frame
  runnable : S → ThreadId → Prop
  /-- The function that an unfinished thread was started on. -/
  startedOn : S → ThreadId → Option FunctionId
  available : S → ResourceId → Option ℤ
  mutex : S → ResourceId → Option MutexState
  /-- Who waits on a condition variable, and for which mutex afterwards. -/
  waits : S → ResourceId → Set (ThreadId × ResourceId)

namespace EngineView

variable {S : Type} (V : EngineView S) (P : SemProgram)

/-- The statement a thread stands at. -/
def statement (s : S) (y : ThreadId) : Option SemOp :=
  (V.current s y).bind fun fr ↦ P.opAt fr.function fr.pc

/-- A thread that can go on stands at the statement. -/
def Runs (s : S) (x : ThreadId) (op : SemOp) : Prop :=
  V.runnable s x ∧ V.statement P s x = some op

/-- The activation of a thread moves on by one statement. -/
def passes (s s' : S) (y : ThreadId) : Bool :=
  decide ((V.current s' y).map (fun fr ↦ (fr.id, fr.pc)) =
    (V.current s y).map fun fr ↦ (fr.id, fr.pc + 1))

/-- The statements that are completed between two states. -/
def completed (s s' : S) : List SemOp :=
  ((V.threads s).filter (V.passes s s')).filterMap (V.statement P s)

variable {V P} {s s' : S} {x : ThreadId}

theorem mem_completed {op : SemOp} : op ∈ V.completed P s s' ↔
    ∃ y ∈ V.threads s, V.passes s s' y = true ∧ V.statement P s y = some op := by
  simp only [completed, List.mem_filterMap, List.mem_filter, and_assoc]

/-- Where the other threads complete nothing that counts, the thread of the step does. -/
theorem sum_completed (g : SemOp → ℤ) (hnd : (V.threads s).Nodup) (hx : x ∈ V.threads s)
    (hother : ∀ y, y ≠ x → V.passes s s' y = true →
      ∀ op, V.statement P s y = some op → g op = 0) :
    ((V.completed P s s').map g).sum =
      if V.passes s s' x = true then ((V.statement P s x).map g).getD 0 else 0 := by
  set h : ThreadId → ℤ := fun y ↦
    if V.passes s s' y = true then ((V.statement P s y).map g).getD 0 else 0 with hh
  have hsum : ∀ l : List ThreadId,
      (((l.filter (V.passes s s')).filterMap (V.statement P s)).map g).sum = (l.map h).sum := by
    intro l
    induction l with
    | nil => rfl
    | cons y l ih =>
        rw [List.map_cons, List.sum_cons, ← ih, List.filter_cons]
        by_cases hy : V.passes s s' y = true
        · cases hst : V.statement P s y with
          | none => simp [hh, hy, hst]
          | some op => simp [hh, hy, hst]
        · simp [hh, hy]
  have hzero : ∀ y, y ≠ x → y ∈ V.threads s → h y = 0 := by
    intro y hne _
    simp only [hh]
    split_ifs with hy
    · cases hst : V.statement P s y with
      | none => rfl
      | some op => exact hother y hne hy op hst
    · rfl
  rw [completed, hsum, List.sum_map_eq_nsmul_single x h hzero, List.count_eq_one_of_mem hnd hx,
    one_smul]

end EngineView

/-- What the machine shows. -/
def machineView : EngineView MachineState where
  threads σ := σ.threads.keys
  current σ y := σ.currentFrame y
  runnable σ y := σ.status y = some .runnable
  startedOn σ y := (σ.threads[y]?.filter Engine.isLive).map (·.entryFunction)
  available σ r := σ.store.semaphores[r]?
  mutex σ r := σ.store.mutexes[r]?
  waits σ cv := {w | w ∈ σ.waiters cv}

variable {E : Engine} {P : SemProgram} {σ σ' σ₁ : MachineState} {x y : ThreadId}
  {t u : ThreadState} {f g : FrameId} {fr gr : Frame} {op : SemOp}

section Passing

theorem Top.machineView_statement (top : Top σ x t f fr) :
    machineView.statement P σ x = P.opAt fr.function fr.pc := by
  rw [EngineView.statement, show machineView.current σ x = some fr from top.currentFrame]
  rfl

theorem runs_iff (top : Top σ x t f fr) : machineView.Runs P σ x op ↔
    t.status = .runnable ∧ P.opAt fr.function fr.pc = some op := by
  rw [EngineView.Runs, top.machineView_statement]
  simp only [machineView, top.status, Option.some.injEq]

theorem exists_top_of_statement (h : machineView.statement P σ y = some op) :
    ∃ u g gr, Top σ y u g gr ∧ P.opAt gr.function gr.pc = some op := by
  obtain ⟨gr, hcur, hop⟩ := Option.bind_eq_some_iff.mp h
  obtain ⟨g, hid, hgr⟩ := Option.bind_eq_some_iff.mp hcur
  obtain ⟨u, hu, hhead⟩ := Option.bind_eq_some_iff.mp hid
  exact ⟨u, g, gr, ⟨hu, hhead, hgr⟩, hop⟩

theorem passes_iff (top : Top σ y u g gr) : machineView.passes σ σ' y = true ↔
    ∃ gr', σ'.currentFrame y = some gr' ∧ gr'.id = gr.id ∧ gr'.pc = gr.pc + 1 := by
  simp only [EngineView.passes, machineView, top.currentFrame, decide_eq_true_eq, Option.map_some,
    Option.map_eq_some_iff, Prod.mk.injEq]

/-- An activation that its thread moves on in is still there. -/
theorem passes_frame (hw : Wf P σ) (hw' : Wf P σ') (top : Top σ y u g gr)
    (h : machineView.passes σ σ' y = true) : ∃ gr', σ'.HasFrame g gr' ∧ gr'.pc = gr.pc + 1 := by
  obtain ⟨gr', hcur, hid, hpc⟩ := (passes_iff top).mp h
  obtain ⟨k, -, hk⟩ := Option.bind_eq_some_iff.mp hcur
  have hkid := (hw'.stack.frame_id k gr' hk).1
  have hgid := (hw.stack.frame_id g gr top.frame).1
  rw [show k = g by rw [← hkid, hid, hgid]] at hk
  exact ⟨gr', hk, hpc⟩

theorem not_passes_of_frame (hw : Wf P σ) (hw' : Wf P σ') (top : Top σ y u g gr)
    (hf : σ'.store.frames[g]? = σ.store.frames[g]?) : machineView.passes σ σ' y = false := by
  refine Bool.eq_false_iff.mpr fun h ↦ ?_
  obtain ⟨gr', hgr', hpc⟩ := passes_frame hw hw' top h
  rw [HasFrame, hf, show σ.store.frames[g]? = some gr from top.frame] at hgr'
  rw [← Option.some.inj hgr'] at hpc
  omega

theorem passes_advance (top : Top σ x t f fr) (hcur : σ₁.currentFrameId x = some f)
    (hf : σ₁.store.frames[f]? = some fr) : machineView.passes σ (σ₁.advance x) x = true := by
  refine (passes_iff top).mpr ⟨fr.next, ?_, rfl, rfl⟩
  rw [MachineState.currentFrame, currentFrameId_congr (advance_records σ₁ x).1, hcur,
    Option.bind_some, frames_advance, hcur, if_pos rfl, hf]
  rfl

/-- Statements that another thread can be taken past. -/
def SemOp.isPaired : SemOp → Bool
  | .channelSend _ _ | .channelRecv _ _ | .join _ | .scope _ => true
  | _ => false

/-- A thread goes past any other statement in a step of its own. -/
theorem ActivationStep.not_passes [FloatArith] (hw : Wf E.program σ) (hw' : Wf E.program σ')
    (h : ActivationStep E σ x σ') (hxy : y ≠ x)
    (hs : machineView.statement E.program σ y = some op) (hop : op.isPaired = false) :
    machineView.passes σ σ' y = false := by
  refine Bool.eq_false_iff.mpr fun hp ↦ ?_
  obtain ⟨u, g, gr, topy, hopy⟩ := exists_top_of_statement hs
  obtain ⟨gr', hgr', hpc⟩ := passes_frame hw hw' topy hp
  obtain ⟨gr₁, hgr₁, ht⟩ := h.foreign y u g gr topy.thread hxy topy.mem topy.frame
  obtain rfl : gr' = gr₁ := Option.some.inj (hgr'.symm.trans hgr₁)
  have hno : ∀ op', E.program.opAt gr.function gr.pc = some op' → op'.isPaired = false := by
    intro op' hop'
    rwa [← Option.some.inj (hopy.symm.trans hop')]
  cases ht with
  | same => omega
  | received _ _ _ _ _ _ hop' => exact absurd (hno _ hop') (by simp [SemOp.isPaired])
  | sent _ _ _ _ _ hop' => exact absurd (hno _ hop') (by simp [SemOp.isPaired])
  | joined hj => exact absurd (hno _ hj.op) (by simp [SemOp.isPaired])
  | scope _ _ _ _ hop' => exact absurd (hno _ hop') (by simp [SemOp.isPaired])

end Passing

/-- The cells of mutexes, semaphores and condition variables are as before. -/
structure SameCells (σ σ' : MachineState) : Prop where
  mutexes : σ'.store.mutexes = σ.store.mutexes
  semaphores : σ'.store.semaphores = σ.store.semaphores
  condvars : σ'.store.condvars = σ.store.condvars

namespace SameCells

theorem trans {σ'' : MachineState} (h : SameCells σ σ') (h' : SameCells σ' σ'') :
    SameCells σ σ'' :=
  ⟨h'.mutexes.trans h.mutexes, h'.semaphores.trans h.semaphores, h'.condvars.trans h.condvars⟩

theorem of_tables (h : SameTables σ σ') : SameCells σ σ' := by
  constructor <;> rw [h.store]

theorem advance (σ : MachineState) (x : ThreadId) : SameCells σ (σ.advance x) := by
  rw [MachineState.advance]
  cases σ.currentFrameId x <;> exact ⟨rfl, rfl, rfl⟩

theorem writeDst (σ : MachineState) (k : FrameId) (dst : SlotRef) (v : Value) :
    SameCells σ (σ.writeDst k dst v) := by
  cases dst with
  | shared r =>
      simp only [MachineState.writeDst, Store.writeShared]
      split_ifs <;> exact ⟨rfl, rfl, rfl⟩
  | _ => exact ⟨rfl, rfl, rfl⟩

theorem tryWriteDst {k : FrameId} {dst : SlotRef} {v : Value}
    (h : E.tryWriteDst σ k dst v = some σ₁) : SameCells σ σ₁ := by
  rw [tryWriteDst_eq h]
  exact .writeDst σ k dst v

theorem complete (σ : MachineState) (x : ThreadId) : SameCells σ (Engine.complete σ x) := by
  refine SameCells.trans ?_ (.advance _ x)
  exact ⟨rfl, rfl, rfl⟩

end SameCells

/-- Statements on mutexes and semaphores. -/
def SemOp.isLocking : SemOp → Bool
  | .mutexLock _ | .mutexUnlock _ | .semaphoreAcquire _ _ | .semaphoreRelease _ _ => true
  | _ => false

section Cells

variable [FloatArith]

theorem Local.sameCells (h : Local E σ x f fr op σ') (hop : op.isLocking = false) :
    SameCells σ σ' := by
  cases h with
  | lock | unlock | acquire | release => cases hop
  | assign target e v => exact (SameCells.writeDst σ f target v).trans (.advance _ x)
  | read r dst v σ₁ _ hw | load r dst v σ₁ _ hw =>
      exact (SameCells.tryWriteDst hw).trans (.advance _ x)
  | cas r e d dst exp des old σ₁ _ _ _ _ hw =>
      refine (SameCells.tryWriteDst hw).trans (SameCells.trans ?_ (.advance _ x))
      split_ifs <;> exact ⟨rfl, rfl, rfl⟩
  | recv c dst v vs σ₁ _ _ hw =>
      refine (SameCells.tryWriteDst hw).trans (SameCells.trans ?_ (.advance _ x))
      exact ⟨rfl, rfl, rfl⟩
  | skipCall k args dst hk =>
      obtain ⟨cf, hcf⟩ := recordCompletion_eq (E := E) σ k
      rw [hcf]
      refine SameCells.trans ?_ (.advance _ x)
      exact ⟨rfl, rfl, rfl⟩
  | goto | branch | switch => exact ⟨rfl, rfl, rfl⟩
  | _ =>
      refine SameCells.trans ?_ (.advance _ x)
      exact ⟨rfl, rfl, rfl⟩

theorem Blocks.sameCells {r : BlockReason} (h : Blocks E σ x fr op r σ')
    (hop : ∀ cv lk, op ≠ .condvarWait cv lk) : SameCells σ (σ'.block x r) := by
  cases h with
  | wait cv lk _ => exact absurd rfl (hop cv lk)
  | _ => exact ⟨rfl, rfl, rfl⟩

theorem Pairs.mutexes_semaphores (h : Pairs E σ x f fr op σ') :
    σ'.store.mutexes = σ.store.mutexes ∧ σ'.store.semaphores = σ.store.semaphores := by
  cases h with
  | send c e v y u g gr dst σ₁ _ _ _ _ _ _ hw =>
      have hd : SameCells σ₁ (σ₁.dropRecv c y) := ⟨rfl, rfl, rfl⟩
      have h := ((SameCells.tryWriteDst hw).trans hd).trans ((SameCells.complete _ y).trans (.advance _ x))
      exact ⟨h.mutexes, h.semaphores⟩
  | recv c dst p σ₁ _ _ hw =>
      have hd : SameCells σ₁ (σ₁.dropSend c p.thread) := ⟨rfl, rfl, rfl⟩
      have h := ((SameCells.tryWriteDst hw).trans hd).trans
        ((SameCells.complete _ p.thread).trans (.advance _ x))
      exact ⟨h.mutexes, h.semaphores⟩
  | notify cv w _ =>
      have h := SameCells.advance ((σ.modifyWaiters cv (·.filter (· ≠ w))).block w.1 (.lock w.2)) x
      exact ⟨h.mutexes, h.semaphores⟩
  | notifyAll cv =>
      have h := SameCells.advance ((σ.waiters cv).foldl (fun σ w ↦ σ.block w.1 (.lock w.2))
        (σ.modifyWaiters cv fun _ ↦ [])) x
      rw [h.mutexes, h.semaphores, notifyAll_frames]
      exact ⟨rfl, rfl⟩

end Cells

end ConcIR
