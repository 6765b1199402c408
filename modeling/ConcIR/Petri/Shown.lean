import ConcIR.Machine.Condvars
import ConcIR.Machine.Semaphores
import ConcIR.Petri.Agreement

/-!
# What the net shows

A marking shows the same activations and cells as the machine state it corresponds to, so
what a step may do to them is the same in both engines.
-/

namespace ConcIR

open MachineState

/-- Two states show the same. -/
structure SameView {S S' : Type} (V : EngineView S) (V' : EngineView S') (s : S) (s' : S') :
    Prop where
  threads : V'.threads s' = V.threads s
  current : ∀ y, V'.current s' y = V.current s y
  runnable : ∀ y, V'.runnable s' y ↔ V.runnable s y
  startedOn : ∀ y, V'.startedOn s' y = V.startedOn s y
  available : ∀ r, V'.available s' r = V.available s r
  mutex : ∀ r, V'.mutex s' r = V.mutex s r
  waits : ∀ cv, V'.waits s' cv = V.waits s cv

namespace SameView

variable {S S' : Type} {V : EngineView S} {V' : EngineView S'} {s t : S} {s' t' : S'}
  {P : SemProgram}

theorem statement (h : SameView V V' s s') (y : ThreadId) :
    V'.statement P s' y = V.statement P s y := by
  rw [EngineView.statement, h.current, ← EngineView.statement]

theorem passes (h : SameView V V' s s') (ht : SameView V V' t t') (y : ThreadId) :
    V'.passes s' t' y = V.passes s t y := by
  rw [EngineView.passes, h.current, ht.current, ← EngineView.passes]

theorem completed (h : SameView V V' s s') (ht : SameView V V' t t') :
    V'.completed P s' t' = V.completed P s t := by
  rw [EngineView.completed, h.threads, funext h.statement, funext (h.passes ht),
    ← EngineView.completed]

theorem semaphoreStep (h : SameView V V' s s') (ht : SameView V V' t t')
    (hst : SemaphoreStep P V s t) : SemaphoreStep P V' s' t' where
  balance r k hk := by
    rw [ht.available, h.completed ht]
    exact hst.balance r k ((h.available r).symm.trans hk)
  nonneg r k k' hk hk' := hst.nonneg r k k' ((h.available r).symm.trans hk)
    ((ht.available r).symm.trans hk')
  enough r n hmem := by
    rw [h.completed ht] at hmem
    rw [h.available]
    exact hst.enough r n hmem

theorem runs (h : SameView V V' s s') {x : ThreadId} {op : SemOp} :
    V'.Runs P s' x op ↔ V.Runs P s x op := by
  rw [EngineView.Runs, EngineView.Runs, h.runnable, h.statement]

theorem condvarStep (h : SameView V V' s s') (ht : SameView V V' t t') {x : ThreadId}
    (hst : CondvarStep P V s x t) : CondvarStep P V' s' x t' where
  waits cv := by
    cases hst.waits cv with
    | keep hwait hone hall hw =>
        refine .keep (fun lk hr ↦ hwait lk (h.runs.mp hr)) (fun hr ↦ ?_)
          (fun hr ↦ hall (h.runs.mp hr)) ?_
        · rw [h.waits]
          exact hone (h.runs.mp hr)
        · rw [h.waits, ht.waits, hw]
    | register lk hop hnew hheld hfree hw =>
        refine .register lk (h.runs.mpr hop) (fun lk' ↦ ?_) ((h.mutex lk).trans hheld)
          ((ht.mutex lk).trans hfree) ?_
        · rw [h.waits]
          exact hnew lk'
        · rw [h.waits, ht.waits, hw]
    | notify w hop hmem hw =>
        refine .notify w (h.runs.mpr hop) ?_ ?_
        · rwa [h.waits]
        · rw [h.waits, ht.waits, hw]
    | notifyAll hop hw => exact .notifyAll (h.runs.mpr hop) ((ht.waits cv).trans hw)
  complete y cv lk hp hs := by
    rw [h.passes ht] at hp
    rw [h.statement] at hs
    rw [ht.mutex]
    exact hst.complete y cv lk hp hs

end SameView

namespace Petri

/-- What the net shows. -/
def netView : EngineView NetState where
  threads m := m.store.threads.keys
  current m y := (m.store.threads[y]?.bind (·.stack.head?)).bind (m.store.frames[·]?)
  runnable m y := y ∉ m.store.finished ∧ m.store.threads[y]?.map (·.blockedAt) = some none
  startedOn m y :=
    if y ∈ m.store.finished then none else m.store.threads[y]?.map (·.entryFunction)
  available m r := m.readInt (.semaphore r)
  mutex m r := m.readMutex (.mutex r)
  waits m cv := {w | ∃ f, .condvarWait w.1 f w.2 ∈ m.marking (.condvar cv)}

variable {P : SemProgram} {σ : MachineState} {m : NetState} {x y : ThreadId} {t : ThreadState}
  {f : FrameId} {fr : Frame} {cv lk : ResourceId}

section Keys

theorem keys_eq {A B : Type} {m : BTreeMap ℕ A} {m' : BTreeMap ℕ B}
    (h : ∀ k : ℕ, m.contains k = m'.contains k) : m.keys = m'.keys := by
  have hsorted : ∀ {C : Type} (m : BTreeMap ℕ C), m.keys.Pairwise (· < ·) := by
    intro C m
    exact (Std.ExtTreeMap.ordered_keys (t := m)).imp fun hc ↦ Nat.compare_eq_lt.mp hc
  refine List.Perm.eq_of_pairwise ?_ (hsorted m) (hsorted m') ?_
  · intro a b _ _ hab hba
    omega
  · refine (List.perm_ext_iff_of_nodup Std.ExtTreeMap.nodup_keys Std.ExtTreeMap.nodup_keys).mpr ?_
    intro k
    rw [Std.ExtTreeMap.mem_keys, Std.ExtTreeMap.mem_keys, ← Std.ExtTreeMap.contains_iff_mem,
      ← Std.ExtTreeMap.contains_iff_mem, h]

end Keys

theorem netView_runnable (h : Corr P ∅ σ m) (hw : Wf P σ) :
    netView.runnable m y ↔ machineView.runnable σ y := by
  simp only [netView, machineView, h.records.finished, hw.stack.finished_set, h.records.thread,
    MachineState.status]
  cases hy : σ.threads[y]? with
  | none => simp
  | some t =>
      cases hst : t.status with
      | runnable => simp [netThread, hst]
      | finished => simp [hst]
      | blocked r =>
          obtain ⟨u, f, fr, op, top, -, -⟩ := hw.blocked_thread (x := y) (r := r) (by
            rw [MachineState.status, hy, Option.map_some, hst])
          obtain rfl : t = u := Option.some.inj (hy.symm.trans top.thread)
          simp [netThread, hst, top.head, show σ.store.frames[f]? = some fr from top.frame]

theorem mem_netView_waits (h : Corr P ∅ σ m) (hw : Wf P σ) {w : ThreadId × ResourceId} :
    w ∈ netView.waits m cv ↔ w ∈ machineView.waits σ cv := by
  have hseat : ∀ tok, tok ∈ m.marking (.condvar cv) ↔ ∃ x, x ∉ (∅ : Set ThreadId) ∧
      Seat σ x (.condvar cv) tok := (h.seats (.condvar cv) rfl).2
  simp only [netView, machineView, Set.mem_ofPred_eq, hseat]
  constructor
  · rintro ⟨f, x, -, hs⟩
    generalize hk : PlaceKey.condvar cv = k at hs
    generalize htok : NetToken.condvarWait w.1 f w.2 = tok at hs
    cases hs with
    | control top hrun => cases hk
    | @wait t f' fr r _ top hb hwt =>
        cases hwt with
        | condvar cv' lk =>
            obtain rfl := PlaceKey.condvar.inj hk
            obtain ⟨rfl, -, rfl⟩ := NetToken.condvarWait.inj htok
            exact (hw.regs.iff w.1 (.condvar cv w.2) rfl).mpr (top.status.trans (congrArg some hb))
        | _ => cases htok
  · intro hmem
    obtain ⟨t, f, fr, op, top, hb, -⟩ := hw.blocked_thread (hw.mem_waiters cv hmem)
    exact ⟨f, w.1, Set.notMem_empty w.1, Seat.wait top hb (.condvar cv w.2)⟩

theorem Corr.sameView (h : Corr P ∅ σ m) (hw : Wf P σ) : SameView machineView netView σ m where
  threads := by
    refine keys_eq fun k ↦ ?_
    rw [Std.ExtTreeMap.contains_eq_isSome_getElem?, Std.ExtTreeMap.contains_eq_isSome_getElem?,
      h.records.thread, Option.isSome_map]
  current y := by
    simp only [netView, machineView, MachineState.currentFrame, MachineState.currentFrameId,
      h.records.thread, h.records.frames]
    cases σ.threads[y]? <;> rfl
  runnable y := netView_runnable h hw
  startedOn y := by
    simp only [netView, machineView, h.records.finished, hw.stack.finished_set, h.records.thread,
      MachineState.status]
    cases hy : σ.threads[y]? with
    | none => simp
    | some t => by_cases hf : t.status = .finished <;> simp [hf, Engine.isLive, netThread]
  available r := Cells.readInt h.cells r
  mutex r := Cells.readMutex h.cells r
  waits cv := by
    refine Set.ext fun w ↦ ?_
    exact mem_netView_waits h hw

end Petri

end ConcIR
