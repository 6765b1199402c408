import ConcIR.Interp.Waits

/-!
# Activation discipline

The frame table is the disjoint union of the stacks, and a step keeps to the
activations of its thread, but for the statements it completes for others.
-/

namespace ConcIR

open MachineState

variable {E : Engine} {P : SemProgram} {σ : MachineState}

/-- The frame table is exactly the disjoint union of the threads' stacks. -/
structure FramesFit (σ : MachineState) : Prop where
  owned : ∀ g, σ.store.frames.contains g = true ↔ ∃ x t, σ.HasThread x t ∧ g ∈ t.stack
  disjoint : ∀ x t y u g, σ.HasThread x t → σ.HasThread y u → g ∈ t.stack → g ∈ u.stack → x = y
  nodup : ∀ x t, σ.HasThread x t → t.stack.Nodup

theorem Stacks.framesFit (h : Stacks P σ) : FramesFit σ where
  owned g := by
    constructor
    · intro hg
      rw [Std.ExtTreeMap.contains_eq_isSome_getElem?, Option.isSome_iff_exists] at hg
      obtain ⟨gr, hgr⟩ := hg
      exact h.frame_owner g gr hgr
    · rintro ⟨x, t, ht, hg⟩
      exact h.stack_frame x t g ht hg
  disjoint := h.disjoint
  nodup := h.nodup

section Reachable

variable [FloatArith]

theorem activation_discipline (h : E.interpreter.Reachable σ) :
    FramesFit σ ∧ ∀ x σ', E.interpreter.Takes σ x σ' → ActivationStep E σ x σ' := by
  obtain ⟨hw, -⟩ := wf_of_reachable h
  exact ⟨hw.stack.framesFit, fun x σ' hs ↦ (fires_of_takes hw hs).activationStep hw⟩

end Reachable

section Handover

/-- A value is handed over to a thread that waits for it. -/
def handover : SemProgram where
  moduleNames := ["m"]
  functions :=
    [⟨0, "main", false, true, none, none, [],
      [⟨"s0", .spawn 1 "r"⟩, ⟨"s1", .channelSend 0 (.lit (.int 7))⟩, ⟨"s2", .join "r"⟩], none⟩,
    ⟨0, "receiver", false, true, none, none, [⟨.primitive "Int", true, .local, none⟩],
      [⟨"s0", .channelRecv 0 (.localSlot 0)⟩], none⟩]
  resources := [⟨0, "c", .channel, some (.primitive "Int"), 0, 0, none⟩]
  entry := 0
  unsupported := []
  entry_lt := by decide
  functions_ok := by decide
  resources_ok := by decide

def handoverEngine : Engine := ⟨handover, ⟨4, 4, 100, 100, 100⟩, .unbounded⟩

def handoverSystem : TransitionSystem MachineState :=
  @Engine.interpreter handoverEngine .unused

/-- The step in which the main thread hands its value over. -/
theorem activation_discipline_handover : ∃ es e σ,
    handoverSystem.trace [0, 1, 0] = some (es ++ [e], σ) ∧ e.thread = 0 ∧
      (e.after.currentFrame 1).bind (·.locals[0]?) = some (.int 7) ∧ FramesFit e.before ∧
        @ActivationStep .unused handoverEngine e.before e.thread e.after := by
  have hrun : (handoverSystem.trace [0, 1, 0]).map (fun r ↦
      r.1.map fun e ↦ (e.thread, (e.after.currentFrame 1).bind (·.locals[0]?))) =
      some ([(0, some (.int 0)), (1, some (.int 0))] ++ [(0, some (.int 7))]) := by decide
  obtain ⟨⟨es, σ⟩, htr, hes⟩ := Option.map_eq_some_iff.mp hrun
  obtain ⟨es, last, rfl, -, hlast⟩ := List.map_eq_append_iff.mp hes
  obtain ⟨e, rfl, he⟩ := List.map_eq_singleton_iff.mp hlast
  obtain ⟨hx, hv⟩ := Prod.mk.inj he
  obtain ⟨hb, htake, -⟩ := (TransitionSystem.run_of_trace htr).last
  have h := @activation_discipline handoverEngine e.before .unused hb.reachable
  exact ⟨es, e, σ, htr, hx, hv, h.1, h.2 e.thread e.after htake⟩

end Handover

end ConcIR
