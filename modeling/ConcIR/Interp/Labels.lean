import ConcIR.Interp.Observe

/-!
# What a step says about itself

Every step the interpreter offers is labelled with the statement its thread stands at.
-/

namespace ConcIR

open MachineState

variable {E : Engine} {σ τ : MachineState} {x : ThreadId} {f : FrameId} {fr : Frame}

section Labels

variable {A : Type} {l : StepLabel} {r : BackendResult (Enabled MachineState)}

/-- All the steps of a result carry one label. -/
def Labelled (l : StepLabel) (r : BackendResult (Enabled MachineState)) : Prop :=
  ∀ en, r = .ok en → ∀ st ∈ en.steps, st.label = l

namespace Labelled

@[simp] theorem error (e : BackendError) : Labelled l (.error e) := by
  intro en h
  cases h

@[simp] theorem none (bs : List BoundaryEvent) : Labelled l (.ok ⟨[], bs⟩) := by
  intro en h st hst
  obtain rfl := Except.ok.inj h
  cases hst

@[simp] theorem empty : Labelled l (.ok .empty) := Labelled.none []

theorem bind {v : BackendResult A} {k : A → BackendResult (Enabled MachineState)}
    (h : ∀ a, v = .ok a → Labelled l (k a)) : Labelled l (v >>= k) := by
  intro en hen
  obtain ⟨a, ha, hk⟩ := bind_eq_ok.mp hen
  exact h a ha en hk

@[simp] theorem one (τ : MachineState) : Labelled (E.stepLabel fr x f) (E.one x f fr τ) := by
  intro en h st hst
  obtain rfl := Except.ok.inj h
  rw [List.mem_singleton.mp hst]

@[simp] theorem many (τs : List MachineState) :
    Labelled (E.stepLabel fr x f) (E.many x f fr τs) := by
  intro en h st hst
  obtain rfl := Except.ok.inj h
  obtain ⟨τ, -, rfl⟩ := List.mem_map.mp hst
  rfl

@[simp] theorem oneOf (o : Option MachineState) :
    Labelled (E.stepLabel fr x f) (E.oneOf x f fr o) := by
  cases o with
  | none => exact empty
  | some τ => exact one τ

@[simp] theorem fail (code message : String) :
    Labelled (E.stepLabel fr x f) (E.fail fr code message) := error _

theorem stepSend (c : ResourceId) (v : Value) :
    Labelled (E.stepLabel fr x f) (E.stepSend σ x f fr c v) := by
  rw [Engine.stepSend]
  split
  case _ => exact empty
  case _ =>
    split
    case _ => exact error _
    case _ => split_ifs <;> simp

theorem stepRecv (c : ResourceId) :
    Labelled (E.stepLabel fr x f) (E.stepRecv σ x f fr c) := by
  rw [Engine.stepRecv]
  split
  case _ => exact error _
  case _ =>
    split_ifs
    · exact one _
    · exact many _
    · split <;> simp

theorem stepNotify (cv : ResourceId) :
    Labelled (E.stepLabel fr x f) (E.stepNotify σ x f fr cv) := by
  rw [Engine.stepNotify]
  split_ifs <;> simp

theorem stepCall [FloatArith] (g : FunctionId) (args : List LExpr) (dst : Option SlotRef) :
    Labelled (E.stepLabel fr x f) (E.stepCall σ x f fr g args dst) := by
  simp only [Engine.stepCall]
  split_ifs
  · exact one _
  · exact none _
  · refine bind fun values _ ↦ ?_
    split_ifs <;> simp

theorem stepSpawn (g : FunctionId) (handle : String) :
    Labelled (E.stepLabel fr x f) (E.stepSpawn σ x f fr g handle) := by
  rw [Engine.stepSpawn]
  split_ifs
  · exact empty
  · split <;> simp

theorem stepScope (gs : List FunctionId) :
    Labelled (E.stepLabel fr x f) (E.stepScope σ x f fr gs) := by
  rw [Engine.stepScope]
  split_ifs
  · exact fail _ _
  · exact empty
  · simp only
    split
    case _ => exact none _
    case _ => split_ifs <;> simp

theorem stepJoin (handle : String) :
    Labelled (E.stepLabel fr x f) (E.stepJoin σ x f fr handle) := by
  rw [Engine.stepJoin]
  split
  case _ => exact fail _ _
  case _ =>
    split
    case _ => exact fail _ _
    case _ => split_ifs <;> simp

theorem stepOp [FloatArith] (op : SemOp) : Labelled (E.stepLabel fr x f) (E.stepOp σ x f fr op) := by
  cases op with
  | nop | goto => exact one _
  | assignLocal | writeShared | atomicStore =>
      refine bind fun v _ ↦ ?_
      split_ifs <;> simp
  | readShared | atomicLoad =>
      simp only [Engine.stepOp]
      split <;> simp
  | atomicCas =>
      refine bind fun exp _ ↦ bind fun des _ ↦ ?_
      split_ifs
      · split <;> simp
      · exact empty
  | mutexLock =>
      simp only [Engine.stepOp]
      split_ifs <;> simp
  | mutexUnlock =>
      simp only [Engine.stepOp]
      split
      case _ => split_ifs <;> simp
      case _ => exact fail _ _
  | channelSend c => exact bind fun v _ ↦ stepSend c v
  | channelRecv c => exact stepRecv c
  | condvarWait =>
      simp only [Engine.stepOp]
      split_ifs <;> simp
  | condvarNotify cv => exact stepNotify cv
  | condvarNotifyAll =>
      simp only [Engine.stepOp, Engine.stepNotifyAll]
      split <;> simp
  | semaphoreAcquire =>
      simp only [Engine.stepOp]
      split_ifs <;> simp
  | semaphoreRelease =>
      simp only [Engine.stepOp]
      split_ifs
      · exact fail _ _
      · split <;> simp
  | call g args dst => exact stepCall g args dst
  | spawn g handle => exact stepSpawn g handle
  | scope gs => exact stepScope gs
  | join handle => exact stepJoin handle
  | branch =>
      refine bind fun v _ ↦ ?_
      split <;> simp
  | switch => exact bind fun v _ ↦ bind fun target _ ↦ one _
  | «return» e =>
      cases e with
      | none => exact oneOf _
      | some e => exact bind fun v _ ↦ oneOf _
  | unsupported => exact error _

theorem resumeOp (reason : BlockReason) :
    Labelled (E.stepLabel fr x f) (E.resumeOp σ x f fr reason) := by
  cases reason with
  | lock =>
      simp only [Engine.resumeOp]
      split_ifs <;> simp
  | semaphore =>
      simp only [Engine.resumeOp, Engine.resumeSemaphore]
      split
      case _ => exact empty
      case _ => split_ifs <;> simp
  | channelSend =>
      simp only [Engine.resumeOp, Engine.resumeSend]
      split
      case _ => exact empty
      case _ =>
        split
        case _ => exact empty
        case _ =>
          split_ifs
          · split <;> simp
          · exact one _
          · exact empty
  | channelRecv =>
      simp only [Engine.resumeOp, Engine.resumeRecv]
      split
      case _ => exact empty
      case _ =>
        split_ifs
        · split <;> simp
        · split <;> simp
  | condvar | join | scope => exact empty

end Labelled

variable [FloatArith]

/-- The steps of one thread carry the label of its running activation. -/
theorem threadSteps_label {t : ThreadState} {en : Enabled MachineState}
    (h : E.threadSteps σ x t = .ok en) {st : Step MachineState} (hst : st ∈ en.steps) :
    ∃ f fr, σ.currentFrame x = some fr ∧ st.label = E.stepLabel fr x f := by
  have hrun : ∀ {f fr}, Engine.running σ x = .ok (f, fr) → σ.currentFrame x = some fr := by
    intro f fr hr
    rw [Engine.running] at hr
    rw [currentFrame]
    split at hr
    case _ => cases hr
    case _ fid hf =>
      rw [hf]
      split at hr
      case _ => cases hr
      case _ fr' hfr =>
        obtain ⟨rfl, rfl⟩ := Prod.mk.inj (Except.ok.inj hr)
        exact hfr
  rw [Engine.threadSteps] at h
  split at h
  case _ =>
    obtain ⟨⟨f, fr⟩, hr, hk⟩ := bind_eq_ok.mp h
    refine ⟨f, fr, hrun hr, ?_⟩
    simp only at hk
    split at hk
    case _ => exact Labelled.oneOf _ en hk st hst
    case _ op _ => exact Labelled.stepOp op en hk st hst
  case _ reason _ =>
    obtain ⟨⟨f, fr⟩, hr, hk⟩ := bind_eq_ok.mp h
    exact ⟨f, fr, hrun hr, Labelled.resumeOp reason en hk st hst⟩
  case _ =>
    obtain rfl := Except.ok.inj h
    cases hst

end Labels

end ConcIR
