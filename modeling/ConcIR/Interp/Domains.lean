import ConcIR.Interp.Waits
import ConcIR.Machine.Domains

/-!
# The domain invariant

In every reachable state every value is in the declared domain of its location.
-/

namespace ConcIR

open MachineState

variable {E : Engine} {σ : MachineState}

section Reachable

variable [FloatArith]

theorem domains_of_reachable (hT : E.program.TypesWellFormed) (hI : E.program.InitsLowered)
    (h : E.interpreter.Reachable σ) : Domains E.program σ := by
  refine (h.invariant (P := fun σ ↦ Wf E.program σ ∧ Live σ ∧ Domains E.program σ) ?_ ?_).2.2
  · intro s hs
    obtain ⟨hw, hl⟩ := wf_initial hs
    exact ⟨hw, hl, domains_initial hT hI hs⟩
  · rintro s t ⟨hw, hl, hd⟩ hst
    obtain ⟨x, hf⟩ := fires_of_next hw hst
    obtain ⟨hw', hl'⟩ := hf.wf hw hl
    exact ⟨hw', hl', hf.domains hd fun k slot v ↦ hI.inSlot hT⟩

end Reachable

section Pipeline

theorem pipeline_typesWellFormed : pipeline.TypesWellFormed where
  resources r hr ty hty := by
    obtain rfl := List.mem_singleton.mp hr
    obtain rfl := Option.some.inj hty
    rfl
  slots fn hfn s hs := by
    simp only [pipeline, List.mem_cons, List.not_mem_nil, or_false] at hfn
    rcases hfn with rfl | rfl <;> cases hs

theorem pipeline_initsLowered : pipeline.InitsLowered where
  resources r hr ty v _ hv := by
    obtain rfl := List.mem_singleton.mp hr
    cases hv
  slots fn hfn s hs := by
    simp only [pipeline, List.mem_cons, List.not_mem_nil, or_false] at hfn
    rcases hfn with rfl | rfl <;> cases hs

/-- One value is queued and another waits to be. -/
theorem domains_of_reachable_pipeline : ∃ σ, pipelineSystem.run [0, 1, 1] = some σ ∧
    σ.buffer 0 = [.int 1] ∧ Domains pipeline σ := by
  have hrun : (pipelineSystem.run [0, 1, 1]).map (·.buffer 0) = some [.int 1] := by decide
  obtain ⟨σ, hσ, hb⟩ := Option.map_eq_some_iff.mp hrun
  exact ⟨σ, hσ, hb, @domains_of_reachable pipelineEngine σ .unused pipeline_typesWellFormed
    pipeline_initsLowered (TransitionSystem.reachable_of_run hσ)⟩

end Pipeline

end ConcIR
