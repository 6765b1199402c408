import ConcIR.Machine.Bounds
import ConcIR.Petri.Shown

/-!
# Instance bounds in both engines

A scope that lists a bounded function more often than it has instances left goes past the
bound. In the other runs the bounds are kept.
-/

namespace ConcIR

open MachineState

namespace SameView

variable {S S' : Type} {V : EngineView S} {V' : EngineView S'} {s : S} {s' : S'}
  {P : SemProgram} {x : ThreadId}

theorem instances (h : SameView V V' s s') (g : FunctionId) :
    V'.instances s' g = V.instances s g := by
  refine Finset.ext fun y ↦ ?_
  rw [mem_instances, mem_instances, h.threads, h.startedOn]

theorem instanceBound (h : SameView V V' s s') :
    InstanceBound P V' s' ↔ InstanceBound P V s := by
  simp only [InstanceBound, h.instances]

theorem roomFor (h : SameView V V' s s') : RoomFor P V' s' x ↔ RoomFor P V s x := by
  simp only [RoomFor, h.instances, h.runs]

end SameView

/-- Both engines keep the bounds in the runs whose scopes find room. -/
theorem instances_bounded [FloatArith] {E : Engine} :
    BoundedRuns E.program machineView E.interpreter ∧
      BoundedRuns E.program Petri.netView E.petri := by
  constructor
  · refine boundedRuns_of_step (fun σ hs ↦ instanceBound_initial hs) fun σ x σ' hr hs hroom hb ↦ ?_
    obtain ⟨hw, hl⟩ := wf_of_reachable hr
    exact (fires_of_takes hw hs).instanceBound hw hl hroom hb
  · refine boundedRuns_of_step (fun m hm ↦ ?_) fun m x m' hr hs hroom hb ↦ ?_
    · obtain ⟨m', hm', hc⟩ := Petri.corr_initial (E := E) rfl
      obtain rfl : m' = m := Except.ok.inj (hm'.symm.trans hm)
      obtain ⟨hw, -⟩ := wf_initial (E := E) rfl
      exact (hc.sameView hw).instanceBound.mpr (instanceBound_initial rfl)
    · obtain ⟨σ, hc, hw, hl⟩ := Petri.corr_of_reachable hr
      obtain ⟨σ', hf, hc'⟩ := Petri.fires_of_takes hc hw hs
      have hv := hc.sameView hw
      refine (hc'.sameView (hf.wf hw hl).1).instanceBound.mpr ?_
      exact hf.instanceBound hw hl (hv.roomFor.mp hroom) (hv.instanceBound.mp hb)

section Twins

/-- A scope that starts two instances of a function that allows one. -/
def twins : SemProgram where
  moduleNames := ["m"]
  functions :=
    [⟨0, "main", false, true, none, none, [], [⟨"s0", .scope [1, 1]⟩], none⟩,
    ⟨0, "twin", false, true, none, none, [], [⟨"s0", .nop⟩], some 1⟩]
  resources := []
  entry := 0
  unsupported := []
  entry_lt := by decide
  functions_ok := by decide
  resources_ok := by decide

def twinsEngine : Engine := ⟨twins, ⟨4, 4, 100, 100, 100⟩, .unbounded⟩

def twinsSystem : TransitionSystem MachineState := @Engine.interpreter twinsEngine .unused

def twinsNet : TransitionSystem Petri.NetState := @Engine.petri .unused twinsEngine

/-- Both engines reach a state with two instances of the function. -/
theorem not_bounded_twins :
    (¬ ∀ σ, twinsSystem.Reachable σ → InstanceBound twins machineView σ) ∧
      ¬ ∀ m, twinsNet.Reachable m → InstanceBound twins Petri.netView m := by
  constructor
  · intro h
    have hrun : (twinsSystem.run [0]).map (fun σ ↦ (machineView.instances σ 1).card) = some 2 := by
      decide +kernel
    obtain ⟨σ, hσ, hcard⟩ := Option.map_eq_some_iff.mp hrun
    have hb := h σ (twinsSystem.reachable_of_run hσ) 1 1 rfl
    rw [hcard] at hb
    exact absurd hb (by decide)
  · intro h
    have hrun : (twinsNet.run [0]).map (fun m ↦ (Petri.netView.instances m 1).card) = some 2 := by
      decide +kernel
    obtain ⟨m, hm, hcard⟩ := Option.map_eq_some_iff.mp hrun
    have hb := h m (twinsNet.reachable_of_run hm) 1 1 rfl
    rw [hcard] at hb
    exact absurd hb (by decide)

end Twins

end ConcIR
