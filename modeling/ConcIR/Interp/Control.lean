import ConcIR.Interp.Steps
import ConcIR.Machine.Moves
import ConcIR.Machine.Reached

/-!
# Control in the runs of the interpreter

The control state of every reachable state is that of a run of control steps: each activation
has come to where it is on a way through its body.
-/

namespace ConcIR

open MachineState

variable {E : Engine} {P : SemProgram} {σ σ' : MachineState} {x : ThreadId} {t : ThreadState}
  {g : FrameId} {gr : Frame}

section Initial

theorem free_initResources {r : ResourceId} {m : MutexState}
    (h : (initResources P).mutexes[r]? = some m) : m = .free := by
  rw [initResources] at h
  generalize P.resources.length = n at h
  induction n with
  | zero => simp [Store.empty] at h
  | succ n ih =>
      rw [List.range_succ, List.foldl_append, List.foldl_cons, List.foldl_nil] at h
      generalize (List.range n).foldl (fun s i ↦ initResource s i (P.resource i)) .empty = s at h ih
      rw [initResource] at h
      cases hk : (P.resource n).kind with
      | mutex =>
          simp only [hk] at h
          rw [Std.ExtTreeMap.getElem?_insert] at h
          split_ifs at h
          · exact (Option.some.inj h).symm
          · exact ih h
      | var | atomic =>
          cases hi : (P.resource n).init <;> simp only [hk, hi] at h <;> exact ih h
      | _ =>
          simp only [hk] at h
          exact ih h

/-- Nothing runs before the first thread, and no mutex is held. -/
theorem sound_bare (needs : FunctionId → Finset ResourceId) :
    Control.Sound needs P.code (control (bare P)) := by
  have hplace : ∀ g, (control (bare P)).place g = none := by
    intro g
    have hframes := (cells_initResources P).frames
    change (initResources P).frames[g]?.map Frame.at = none
    rw [hframes]
    simp
  have howner : ∀ r, (control (bare P)).owner r = none := by
    intro r
    change (initResources P).mutexes[r]?.bind MutexState.owner = none
    cases hr : (initResources P).mutexes[r]? with
    | none => rfl
    | some m =>
        rw [free_initResources hr]
        rfl
  have hstack : ∀ y, (control (bare P)).stack y = [] := fun y ↦ by simp [control, bare]
  have hwait : ∀ y, (control (bare P)).waiting y = none := fun y ↦ by
    simp [control, bare, status]
  refine ⟨⟨fun y ↦ ?_, fun y z g hg ↦ ?_, fun y ↦ ?_, fun y r hr ↦ ?_⟩, fun _ ↦ ∅, fun g p hg ↦ ?_,
    fun _ ↦ ⟨fun y r ↦ ?_, fun y a b ha ↦ ?_, fun y a as p hsuf ↦ ?_⟩⟩
  · rw [hstack]
    exact List.nodup_nil
  · rw [hstack] at hg
    cases hg
  · rw [hstack]
    exact .nil
  · rw [hwait] at hr
    cases hr
  · rw [hplace] at hg
    cases hg
  · rw [howner, hstack]
    simp
  · rw [hstack] at ha
    cases ha
  · rw [hstack, List.suffix_nil] at hsuf
    cases hsuf

theorem initial_frame (h : (MachineState.initial P).HasFrame g gr) : gr.ret = none := by
  have hframes := (cells_initResources P).frames
  rw [MachineState.initial] at h
  split_ifs at h
  · change (initResources P).frames[g]? = some gr at h
    rw [hframes] at h
    simp at h
  · change ((initResources P).frames.insert 0 _)[g]? = some gr at h
    rw [Std.ExtTreeMap.getElem?_insert, hframes] at h
    split_ifs at h
    · obtain rfl := Option.some.inj h
      rfl
    · simp at h

theorem initial_entryFunction (h : (MachineState.initial P).HasThread x t) :
    t.entryFunction = P.entry := by
  rw [MachineState.initial] at h
  split_ifs at h
  · change ((∅ : BTreeMap ThreadId ThreadState).insert 0 _)[x]? = some t at h
    rw [Std.ExtTreeMap.getElem?_insert] at h
    split_ifs at h
    · obtain rfl := Option.some.inj h
      rfl
    · simp at h
  · change ((∅ : BTreeMap ThreadId ThreadState).insert 0 _)[x]? = some t at h
    rw [Std.ExtTreeMap.getElem?_insert] at h
    split_ifs at h
    · obtain rfl := Option.some.inj h
      rfl
    · simp at h

theorem moves_initial (h : E.initial = .ok σ) :
    E.program.Moves (control (bare E.program)) (control σ) := by
  obtain ⟨u, new, hst, -⟩ := started_initial E.program
  have hmoves := hst.moves (wf_bare E.program)
    (fun fr hfr ↦ initial_frame (hst.hasFrame.mpr (.inl ⟨hfr, rfl⟩)))
    (.inl (initial_entryFunction (hst.hasThread.mpr (.inl ⟨rfl, rfl⟩))))
  rw [Engine.initial] at h
  obtain rfl := Except.ok.inj h
  split_ifs
  · have heq : control { MachineState.initial E.program with
        completedFunctions :=
          (MachineState.initial E.program).completedFunctions.erase E.program.entry } =
        control (MachineState.initial E.program) := control_of_eq rfl rfl rfl
    rwa [heq]
  · exact hmoves

theorem reached_initial (h : E.initial = .ok σ) : σ.reached = ∅ := by
  have hempty : (MachineState.initial E.program).reached = ∅ := by
    rw [MachineState.initial]
    split_ifs <;> rfl
  rw [Engine.initial] at h
  obtain rfl := Except.ok.inj h
  split_ifs <;> exact hempty

end Initial

section Runs

variable [FloatArith]

theorem moves_of_reachableFrom (h : E.interpreter.Reachable σ)
    (hs : E.interpreter.ReachableFrom σ σ') : E.program.Moves (control σ) (control σ') := by
  induction hs with
  | refl => exact .refl
  | tail hs hn ih =>
      obtain ⟨hw, -⟩ := wf_of_reachable (h.trans hs)
      obtain ⟨x, hf⟩ := fires_of_next hw hn
      exact ih.trans (hf.moves hw)

/-- The control state of a reachable state is that of a run of control steps. -/
theorem moves_of_reachable (h : E.interpreter.Reachable σ) :
    E.program.Moves (control (bare E.program)) (control σ) := by
  obtain ⟨s, hs, hrun⟩ := h
  exact (moves_initial hs).trans
    (moves_of_reachableFrom (TransitionSystem.reachable_initial _ hs) hrun)

theorem sound_of_reachable (h : E.interpreter.Reachable σ)
    (needs : FunctionId → Finset ResourceId) :
    Control.Sound needs E.program.code (control σ) :=
  (sound_bare needs).run (moves_of_reachable h)

/-- Each activation has come to where it is on a way through its body. -/
theorem arrives_of_reachable (h : E.interpreter.Reachable σ) (hg : σ.HasFrame g gr) :
    ∃ H, Control.Arrives E.program.code gr.function gr.pc H := by
  obtain ⟨H, ht, -⟩ := (sound_of_reachable h fun _ ↦ ∅).held
  refine ⟨H g, ht g gr.at ?_⟩
  change σ.store.frames[g]?.map Frame.at = some gr.at
  rw [show σ.store.frames[g]? = some gr from hg]
  rfl

/-- The statements that count as reached are on ways through their bodies. -/
theorem arrives_of_reached (h : E.interpreter.Reachable σ) {fn : FunctionId} {pc : ℕ}
    (hmem : (fn, pc) ∈ σ.reached) : ∃ H, Control.Arrives E.program.code fn pc H := by
  have hinv : E.interpreter.Reachable σ ∧ ∀ fn pc, (fn, pc) ∈ σ.reached →
      ∃ H, Control.Arrives E.program.code fn pc H := by
    refine h.invariant (P := fun σ ↦ E.interpreter.Reachable σ ∧ ∀ fn pc, (fn, pc) ∈ σ.reached →
      ∃ H, Control.Arrives E.program.code fn pc H) (fun s hs ↦
        ⟨TransitionSystem.reachable_initial _ hs, fun fn pc hmem ↦ ?_⟩) ?_
    · rw [reached_initial hs] at hmem
      simp at hmem
    · rintro s τ ⟨hs, hold⟩ hn
      refine ⟨hs.step hn, fun fn pc hmem ↦ ?_⟩
      obtain ⟨x, hf⟩ := fires_of_next (wf_of_reachable hs).1 hn
      rcases hf.reached hmem with hmem | ⟨t, f, fr, top, rfl, rfl⟩
      · exact hold fn pc hmem
      · exact arrives_of_reachable hs top.frame
  exact hinv.2 fn pc hmem

end Runs

end ConcIR
