import ConcIR.Machine.Tables
import ConcIR.Sem.Domain

/-!
# Declared domains

Every value of a cell, an activation, a queue or a waiting send is in the declared
domain of where it is: what a step moves without a check was in the domain before, and
everything else is checked.
-/

namespace ConcIR

open MachineState

variable {E : Engine} {P : SemProgram} {σ σ' σ₁ : MachineState} {x y : ThreadId}
  {t u : ThreadState} {f g : FrameId} {fr gr : Frame} {op : SemOp} {v : Value}

namespace SemProgram

/-- A value is in the declared domain of a resource. -/
def InResource (P : SemProgram) (r : ResourceId) (v : Value) : Prop :=
  ∀ ty, (P.resource r).ty = some ty → withinType ty v = true

/-- A value is in the declared domain of a slot of a function. -/
def InSlot (P : SemProgram) (fn : FunctionId) (slot : SlotId) (v : Value) : Prop :=
  ∀ s, (P.function fn).slots[slot]? = some s → withinType s.ty v = true

structure TypesWellFormed (P : SemProgram) : Prop where
  resources : ∀ r ∈ P.resources, ∀ ty, r.ty = some ty → ty.wellFormed = true
  slots : ∀ fn ∈ P.functions, ∀ s ∈ fn.slots, s.ty.wellFormed = true

/-- Initial values are read from literals at their types, or are defaults. -/
structure InitsLowered (P : SemProgram) : Prop where
  resources : ∀ r ∈ P.resources, ∀ ty v, r.ty = some ty → r.init = some v →
    v = defaultValue ty ∨ ∃ j, fromJson ty j = .ok v
  slots : ∀ fn ∈ P.functions, ∀ s ∈ fn.slots, ∀ v, s.init = some v →
    ∃ j, fromJson s.ty j = .ok v

theorem InitsLowered.inResource (h : P.InitsLowered) (ht : P.TypesWellFormed) {r : ResourceId}
    (hv : (P.resource r).init = some v) : P.InResource r v := by
  intro ty hty
  rw [resource] at hv hty
  cases hr : P.resources[r]? with
  | none =>
      rw [hr] at hv
      cases hv
  | some res =>
      rw [hr] at hv hty
      have hmem := List.mem_of_getElem? hr
      have hwf := ht.resources res hmem ty hty
      rcases h.resources res hmem ty v hty hv with rfl | ⟨j, hj⟩
      · exact withinType_defaultValue ty hwf
      · exact withinType_fromJson ty hwf j v hj

theorem InitsLowered.inSlot (h : P.InitsLowered) (ht : P.TypesWellFormed) {fn : FunctionId}
    {slot : SlotId} (hv : (P.function fn).defaultLocals[slot]? = some v) :
    P.InSlot fn slot v := by
  intro s hs
  have hlocal : (P.function fn).defaultLocals[slot]? = some (s.init.getD (defaultValue s.ty)) := by
    rw [SemFunction.defaultLocals]
    refine Std.ExtTreeMap.getElem?_ofList_of_mem (k := slot)
      (Nat.compare_eq_eq.mpr rfl) ?_ ?_
    · rw [List.pairwise_iff_getElem]
      intro i j hi hj hij
      simp only [List.getElem_mapIdx, Nat.compare_eq_eq]
      omega
    · exact List.mem_mapIdx.mpr ⟨slot, (List.getElem?_eq_some_iff.mp hs).1, by
        rw [(List.getElem?_eq_some_iff.mp hs).2]⟩
  obtain rfl := Option.some.inj (hlocal.symm.trans hv)
  rw [function] at hs
  cases hf : P.functions[fn]? with
  | none =>
      rw [hf] at hs
      cases hs
  | some func =>
      rw [hf] at hs
      have hmem := List.mem_of_getElem? hf
      have hsm := List.mem_of_getElem? hs
      have hwf := ht.slots func hmem s hsm
      cases hi : s.init with
      | none => exact withinType_defaultValue s.ty hwf
      | some w =>
          obtain ⟨j, hj⟩ := h.slots func hmem s hsm w hi
          exact withinType_fromJson s.ty hwf j w hj

end SemProgram

structure Domains (P : SemProgram) (σ : MachineState) : Prop where
  vars : ∀ r v, σ.store.vars[r]? = some v → P.InResource r v
  atomics : ∀ r v, σ.store.atomics[r]? = some v → P.InResource r v
  locals : ∀ f fr slot v, σ.HasFrame f fr → fr.locals[slot]? = some v →
    P.InSlot fr.function slot v
  buffers : ∀ c, ∀ v ∈ σ.buffer c, P.InResource c v
  pending : ∀ c, ∀ p ∈ σ.sends c, P.InResource c p.value

/-- No value has come to a new place. -/
structure Keeps (σ σ' : MachineState) : Prop where
  vars : ∀ (r : ResourceId) v, σ'.store.vars[r]? = some v → σ.store.vars[r]? = some v
  atomics : ∀ (r : ResourceId) v, σ'.store.atomics[r]? = some v → σ.store.atomics[r]? = some v
  frames : ∀ g gr', σ'.HasFrame g gr' →
    ∃ gr, σ.HasFrame g gr ∧ gr.function = gr'.function ∧ gr.locals = gr'.locals
  buffers : ∀ c, ∀ v ∈ σ'.buffer c, v ∈ σ.buffer c
  sends : ∀ c, ∀ p ∈ σ'.sends c, p ∈ σ.sends c

theorem Domains.keeps (hd : Domains P σ) (h : Keeps σ σ') : Domains P σ' where
  vars r v hv := hd.vars r v (h.vars r v hv)
  atomics r v hv := hd.atomics r v (h.atomics r v hv)
  locals g gr' slot v hgr hv := by
    obtain ⟨gr, hg, hfn, hl⟩ := h.frames g gr' hgr
    rw [← hfn]
    exact hd.locals g gr slot v hg (hl ▸ hv)
  buffers c v hv := hd.buffers c v (h.buffers c v hv)
  pending c p hp := hd.pending c p (h.sends c p hp)

namespace Keeps

theorem trans {σ'' : MachineState} (h : Keeps σ σ') (h' : Keeps σ' σ'') : Keeps σ σ'' where
  vars r v hv := h.vars r v (h'.vars r v hv)
  atomics r v hv := h.atomics r v (h'.atomics r v hv)
  frames g gr'' hg := by
    obtain ⟨gr', hg', hfn', hl'⟩ := h'.frames g gr'' hg
    obtain ⟨gr, hg, hfn, hl⟩ := h.frames g gr' hg'
    exact ⟨gr, hg, hfn.trans hfn', hl.trans hl'⟩
  buffers c v hv := h.buffers c v (h'.buffers c v hv)
  sends c p hp := h.sends c p (h'.sends c p hp)

theorem of_cells (hv : σ'.store.vars = σ.store.vars) (ha : σ'.store.atomics = σ.store.atomics)
    (hf : σ'.store.frames = σ.store.frames) (hc : σ'.store.channels = σ.store.channels) :
    Keeps σ σ' := by
  refine ⟨?_, ?_, fun g gr hg ↦ ⟨gr, ?_, rfl, rfl⟩, ?_, ?_⟩
  · rw [hv]
    exact fun _ _ ↦ id
  · rw [ha]
    exact fun _ _ ↦ id
  · rwa [HasFrame, ← hf]
  · simp only [buffer, hc]
    exact fun _ _ ↦ id
  · simp only [MachineState.sends, hc]
    exact fun _ _ ↦ id

theorem of_store (h : σ'.store = σ.store) : Keeps σ σ' :=
  of_cells (congrArg _ h) (congrArg _ h) (congrArg _ h) (congrArg _ h)

theorem refl (σ : MachineState) : Keeps σ σ := of_store rfl

theorem of_queues (hs : ∃ channels, σ'.store = { σ.store with channels })
    (hb : ∀ c, ∀ v ∈ σ'.buffer c, v ∈ σ.buffer c) (hp : ∀ c, ∀ p ∈ σ'.sends c, p ∈ σ.sends c) :
    Keeps σ σ' := by
  obtain ⟨channels, hs⟩ := hs
  refine ⟨?_, ?_, fun g gr hg ↦ ⟨gr, ?_, rfl, rfl⟩, hb, hp⟩
  · rw [hs]
    exact fun _ _ ↦ id
  · rw [hs]
    exact fun _ _ ↦ id
  · rwa [HasFrame, hs] at hg

theorem popBuffer (c : ResourceId) : Keeps σ (σ.popBuffer c) := by
  refine of_queues ⟨_, rfl⟩ (fun d v hv ↦ ?_) fun d p hp ↦ ?_
  · rw [buffer_popBuffer] at hv
    split_ifs at hv
    · exact List.mem_of_mem_tail hv
    · exact hv
  · rwa [(popBuffer_views c d).1] at hp

theorem dropSend (c : ResourceId) (x : ThreadId) : Keeps σ (σ.dropSend c x) := by
  refine of_queues ⟨_, rfl⟩ (fun d v hv ↦ ?_) fun d p hp ↦ ?_
  · rwa [(dropSend_views c x d).2] at hv
  · rw [sends_dropSend] at hp
    split_ifs at hp
    · exact (List.mem_filter.mp hp).1
    · exact hp

theorem dropRecv (c : ResourceId) (x : ThreadId) : Keeps σ (σ.dropRecv c x) := by
  refine of_queues ⟨_, rfl⟩ (fun d v hv ↦ ?_) fun d p hp ↦ ?_
  · rwa [(dropRecv_views c x d).2] at hv
  · rwa [(dropRecv_views c x d).1] at hp

theorem pushRecv (c : ResourceId) (x : ThreadId) : Keeps σ (σ.pushRecv c x) := by
  refine of_queues ⟨_, rfl⟩ (fun d v hv ↦ ?_) fun d p hp ↦ ?_
  · rw [MachineState.pushRecv, buffer_modifyChannel] at hv
    split_ifs at hv with hc
    · subst hc
      exact hv
    · exact hv
  · rw [MachineState.pushRecv, sends_modifyChannel] at hp
    split_ifs at hp with hc
    · subst hc
      exact hp
    · exact hp

/-- The cells are as before; the activations are old ones. -/
theorem of_frames {frames : BTreeMap FrameId Frame} (h : σ'.store = { σ.store with frames })
    (hf : ∀ g gr', frames[g]? = some gr' →
      ∃ gr, σ.HasFrame g gr ∧ gr.function = gr'.function ∧ gr.locals = gr'.locals) :
    Keeps σ σ' := by
  refine ⟨?_, ?_, fun g gr' hg ↦ ?_, ?_, ?_⟩
  · rw [h]
    exact fun _ _ ↦ id
  · rw [h]
    exact fun _ _ ↦ id
  · rw [HasFrame, h] at hg
    exact hf g gr' hg
  · simp only [buffer, h]
    exact fun _ _ ↦ id
  · simp only [MachineState.sends, h]
    exact fun _ _ ↦ id

theorem modifyFrame (k : FrameId) {F : Frame → Frame}
    (hF : ∀ fr, (F fr).function = fr.function ∧ (F fr).locals = fr.locals) :
    Keeps σ (σ.modifyFrame k F) := by
  refine of_frames rfl fun g gr' hg ↦ ?_
  have hg' := getElem?_modifyFrame σ k g F
  rw [show (σ.modifyFrame k F).store.frames[g]? = some gr' from hg] at hg'
  split_ifs at hg' with hk
  · obtain ⟨gr, hgr, rfl⟩ := Option.map_eq_some_iff.mp hg'.symm
    exact ⟨gr, hgr, (hF gr).1.symm, (hF gr).2.symm⟩
  · exact ⟨gr', hg'.symm, rfl, rfl⟩

theorem of_modifyFrame {k : FrameId} {F : Frame → Frame}
    (h : σ'.store = (σ.modifyFrame k F).store)
    (hF : ∀ fr, (F fr).function = fr.function ∧ (F fr).locals = fr.locals) : Keeps σ σ' :=
  (modifyFrame k hF).trans (of_store h)

theorem advance (h : Keeps σ σ₁) (x : ThreadId) : Keeps σ (σ₁.advance x) := by
  refine h.trans ?_
  rw [MachineState.advance]
  cases σ₁.currentFrameId x with
  | none => exact refl σ₁
  | some k => exact modifyFrame k fun _ ↦ ⟨rfl, rfl⟩

theorem complete (y : ThreadId) : Keeps σ (Engine.complete σ y) := by
  refine advance ?_ y
  exact of_store rfl

theorem setPc (k : FrameId) (pc : ℕ) : Keeps σ (σ.setPc k pc) :=
  modifyFrame k fun _ ↦ ⟨rfl, rfl⟩

theorem popFrame (x : ThreadId) (k : FrameId) : Keeps σ (Engine.popFrame σ x k) := by
  refine of_frames rfl fun g gr hg ↦ ⟨gr, ?_, rfl, rfl⟩
  rw [Std.ExtTreeMap.getElem?_erase] at hg
  split_ifs at hg
  exact hg

theorem recordCompletion (h : Keeps σ σ₁) (fn : FunctionId) :
    Keeps σ (E.recordCompletion σ₁ fn) := by
  refine h.trans ?_
  obtain ⟨m, hm⟩ := recordCompletion_eq (E := E) σ₁ fn
  rw [hm]
  exact of_store rfl

theorem completeScope (s : ScopeId) (sc : ScopeState) :
    Keeps σ (Engine.completeScope σ s sc) := by
  have hdone : ∀ σ₁ : MachineState, σ₁.store = σ.store →
      Keeps σ ((σ₁.setRunnable sc.owner).advance sc.owner) := by
    intro σ₁ h₁
    refine advance ?_ sc.owner
    exact of_store h₁
  rw [Engine.completeScope]
  cases σ.store.frames[sc.ownerFrame]? with
  | none => exact (hdone σ rfl).trans (of_store rfl)
  | some fr =>
      let σ₁ := { σ with completedScopes := σ.completedScopes.insert (fr.function, fr.pc) }
      exact (hdone σ₁ rfl).trans (of_store rfl)

theorem leaveScope (x : ThreadId) (s : ScopeId) : Keeps σ (Engine.leaveScope σ x s) := by
  rw [Engine.leaveScope]
  cases σ.scopes[s]? with
  | none => exact refl σ
  | some sc =>
      dsimp only
      split_ifs
      · refine Keeps.trans ?_ (completeScope s _)
        exact of_store rfl
      · exact of_store rfl

theorem wakeJoiner (x j : ThreadId) : Keeps σ (E.wakeJoiner x σ j) := by
  have hthread : Keeps σ (σ.modifyThread j fun t ↦
      { t with handleChildren := t.handleChildren.filter fun _ c ↦ c ≠ x }) := of_store rfl
  rw [Engine.wakeJoiner]
  refine (hthread.trans ?_).trans (complete j)
  split
  · split
    · exact modifyFrame _ fun _ ↦ ⟨rfl, rfl⟩
    · exact refl _
  · exact refl _

theorem wakeJoiners (x : ThreadId) : Keeps σ (E.wakeJoiners σ x) := by
  have hfold : ∀ (js : List ThreadId) (σ : MachineState),
      Keeps σ (js.foldl (E.wakeJoiner x) σ) := by
    intro js
    induction js with
    | nil => exact refl
    | cons j js ih => exact fun σ ↦ (wakeJoiner x j).trans (ih _)
  rw [Engine.wakeJoiners]
  split_ifs
  · exact hfold _ σ
  · exact (hfold _ σ).trans (of_store rfl)

theorem finishThread (x : ThreadId) (fn : FunctionId) : Keeps σ (E.finishThread σ x fn) := by
  rw [Engine.finishThread]
  refine Keeps.trans ?_ (wakeJoiners x)
  have hrec : Keeps σ (E.recordCompletion
      { σ.setStatus x .finished with finished := σ.finished.insert x } fn) := by
    refine recordCompletion ?_ fn
    exact of_store rfl
  refine hrec.trans ?_
  split
  · exact leaveScope x _
  · exact refl _

end Keeps

section Writing

theorem inSlot_of_dstTypeOk {k : FrameId} {slot : SlotId}
    (h : E.dstTypeOk σ k (.localSlot slot) v = true) (hg : σ.HasFrame k gr) :
    E.program.InSlot gr.function slot v := fun s hs ↦ by
  have hg' : σ.store.frames[k]? = some gr := hg
  simpa [Engine.dstTypeOk, Engine.function, hg', hs] using h

theorem Domains.setVar (hd : Domains P σ) {r : ResourceId} (hv : P.InResource r v) :
    Domains P (σ.setVar r v) where
  vars q w hw := by
    change (σ.store.vars.insert r v)[q]? = some w at hw
    rw [Std.ExtTreeMap.getElem?_insert] at hw
    split_ifs at hw with hq
    · obtain rfl := Nat.compare_eq_eq.mp hq
      exact Option.some.inj hw ▸ hv
    · exact hd.vars q w hw
  atomics := hd.atomics
  locals := hd.locals
  buffers := hd.buffers
  pending := hd.pending

theorem Domains.setAtomic (hd : Domains P σ) {r : ResourceId} (hv : P.InResource r v) :
    Domains P (σ.setAtomic r v) where
  vars := hd.vars
  atomics q w hw := by
    change (σ.store.atomics.insert r v)[q]? = some w at hw
    rw [Std.ExtTreeMap.getElem?_insert] at hw
    split_ifs at hw with hq
    · obtain rfl := Nat.compare_eq_eq.mp hq
      exact Option.some.inj hw ▸ hv
    · exact hd.atomics q w hw
  locals := hd.locals
  buffers := hd.buffers
  pending := hd.pending

theorem Domains.writeLocal (hd : Domains P σ) {k : FrameId} {slot : SlotId}
    (hv : ∀ gr, σ.HasFrame k gr → P.InSlot gr.function slot v) :
    Domains P (σ.writeDst k (.localSlot slot) v) where
  vars := hd.vars
  atomics := hd.atomics
  locals g gr' q w hg hw := by
    have hg' := getElem?_modifyFrame σ k g fun fr ↦ { fr with locals := fr.locals.insert slot v }
    rw [← MachineState.writeDst, show (σ.writeDst k (.localSlot slot) v).store.frames[g]? = _
      from hg] at hg'
    split_ifs at hg' with hk
    · obtain ⟨gr, hgr, rfl⟩ := Option.map_eq_some_iff.mp hg'.symm
      change (gr.locals.insert slot v)[q]? = some w at hw
      rw [Std.ExtTreeMap.getElem?_insert] at hw
      split_ifs at hw with hq
      · obtain rfl := Nat.compare_eq_eq.mp hq
        obtain rfl := Option.some.inj hw
        exact hv gr (hk ▸ hgr)
      · exact hd.locals g gr q w hgr hw
    · exact hd.locals g gr' q w hg'.symm hw
  buffers := hd.buffers
  pending := hd.pending

theorem Domains.writeShared (hd : Domains P σ) {k : FrameId} {r : ResourceId}
    (hv : P.InResource r v) : Domains P (σ.writeDst k (.shared r) v) := by
  by_cases hr : σ.store.vars.contains r = true
  · have heq : σ.writeDst k (.shared r) v = σ.setVar r v := by
      simp only [MachineState.writeDst, Store.writeShared, if_pos hr]
      rfl
    rw [heq]
    exact hd.setVar hv
  · have heq : σ.writeDst k (.shared r) v = σ.setAtomic r v := by
      simp only [MachineState.writeDst, Store.writeShared, if_neg hr]
      rfl
    rw [heq]
    exact hd.setAtomic hv

theorem Domains.writeDst (hd : Domains E.program σ) {k : FrameId} {dst : SlotRef}
    (hok : E.dstTypeOk σ k dst v = true) : Domains E.program (σ.writeDst k dst v) := by
  cases dst with
  | localSlot slot => exact hd.writeLocal fun gr ↦ inSlot_of_dstTypeOk hok
  | shared r => exact hd.writeShared (resourceTypeOk_iff.mp hok)
  | discard => exact hd

theorem Domains.tryWriteDst (hd : Domains E.program σ) {k : FrameId} {dst : SlotRef}
    (hw : E.tryWriteDst σ k dst v = some σ₁) : Domains E.program σ₁ := by
  rw [Engine.tryWriteDst] at hw
  split_ifs at hw with hok
  obtain rfl := Option.some.inj hw
  exact hd.writeDst hok

theorem Domains.pushBuffer (hd : Domains P σ) {c : ResourceId} (hv : P.InResource c v) :
    Domains P (σ.pushBuffer c v) where
  vars := hd.vars
  atomics := hd.atomics
  locals := hd.locals
  buffers d w hw := by
    rw [MachineState.pushBuffer, buffer_modifyChannel] at hw
    split_ifs at hw with hc
    · have hold := hd.buffers c w
      rw [buffer] at hold
      cases hch : σ.store.channels[c]? with
      | none => simp [hch] at hw
      | some ch =>
          rw [hch] at hw hold
          rcases List.mem_append.mp hw with hw | hw
          · exact hc ▸ hold hw
          · rw [List.mem_singleton.mp hw, hc]
            exact hv
    · exact hd.buffers d w hw
  pending d p hp := by
    rw [(pushBuffer_views c v d).1] at hp
    exact hd.pending d p hp

theorem Domains.pushSend (hd : Domains P σ) {c : ResourceId} (hv : P.InResource c v)
    (x : ThreadId) : Domains P (σ.pushSend c ⟨x, v⟩) where
  vars := hd.vars
  atomics := hd.atomics
  locals := hd.locals
  buffers d w hw := by
    rw [(pushSend_views c ⟨x, v⟩ d).2] at hw
    exact hd.buffers d w hw
  pending d p hp := by
    rw [MachineState.pushSend, sends_modifyChannel] at hp
    split_ifs at hp with hc
    · have hold := hd.pending c p
      rw [MachineState.sends] at hold
      cases hch : σ.store.channels[c]? with
      | none => simp [hch] at hp
      | some ch =>
          rw [hch] at hp hold
          rcases List.mem_append.mp hp with hp | hp
          · exact hc ▸ hold hp
          · rw [List.mem_singleton.mp hp, hc]
            exact hv
    · exact hd.pending d p hp

theorem Domains.writeFrame (hd : Domains P σ) (k : FrameId) (fr : Frame)
    (hv : ∀ slot v, fr.locals[slot]? = some v → P.InSlot fr.function slot v) :
    Domains P (σ.writeFrame k fr) where
  vars := hd.vars
  atomics := hd.atomics
  locals g gr q w hg hw := by
    change (σ.store.frames.insert k fr)[g]? = some gr at hg
    rw [Std.ExtTreeMap.getElem?_insert] at hg
    split_ifs at hg
    · obtain rfl := Option.some.inj hg
      exact hv q w hw
    · exact hd.locals g gr q w hg hw
  buffers := hd.buffers
  pending := hd.pending

end Writing

section Steps

variable [FloatArith]

theorem Blocks.domains {r : BlockReason} (hd : Domains E.program σ)
    (h : Blocks E σ x fr op r σ') : Domains E.program σ' := by
  cases h with
  | send c e v _ hok _ _ => exact hd.pushSend (resourceTypeOk_iff.mp hok) x
  | recv c dst _ _ => exact hd.keeps (.pushRecv c x)
  | lock | join => exact hd
  | wait | acquire => exact hd.keeps (.of_cells rfl rfl rfl rfl)

omit [FloatArith] in
theorem Resumes.domains {r : BlockReason} (hd : Domains E.program σ)
    (h : Resumes E σ x f fr r σ') : Domains E.program σ' := by
  cases h with
  | lock r _ => exact hd.keeps (.of_cells rfl rfl rfl rfl)
  | semaphore r n k _ _ _ => exact hd.keeps (.of_cells rfl rfl rfl rfl)
  | send c v hp _ _ =>
      exact (hd.keeps (.dropSend c x)).pushBuffer (hd.pending c ⟨x, v⟩ hp)
  | recv c dst v vs σ₁ _ _ _ htry =>
      exact (hd.tryWriteDst htry).keeps ((Keeps.popBuffer c).trans (.dropRecv c x))

omit [FloatArith] in
theorem Domains.advance (hd : Domains P σ) (x : ThreadId) : Domains P (σ.advance x) :=
  hd.keeps ((Keeps.refl σ).advance x)

theorem Local.domains (hd : Domains E.program σ) (hf : σ.HasFrame f fr)
    (hok : opOk E.program.functions E.program.resources (E.program.function fr.function) op =
      true) (h : Local E σ x f fr op σ') : Domains E.program σ' := by
  cases h with
  | nop => exact hd.advance x
  | assign target e v _ hv =>
      refine Domains.advance ?_ x
      cases target with
      | localSlot slot =>
          refine hd.writeLocal fun gr hgr s hs ↦ ?_
          obtain rfl : fr = gr := Option.some.inj (hf.symm.trans hgr)
          simpa [Engine.assignOk, Engine.function, hs] using hv
      | shared r => cases hok
      | discard => cases hok
  | read r dst v σ₁ _ htry => exact (hd.tryWriteDst htry).advance x
  | write r e v _ hv => exact (hd.setVar (resourceTypeOk_iff.mp hv)).advance x
  | load r dst v σ₁ _ htry => exact (hd.tryWriteDst htry).advance x
  | store r e v _ hv => exact (hd.setAtomic (resourceTypeOk_iff.mp hv)).advance x
  | cas r e d dst exp des old σ₁ _ _ hv _ htry =>
      refine Domains.advance ?_ x
      split_ifs
      · exact (hd.tryWriteDst htry).setAtomic (resourceTypeOk_iff.mp hv)
      · exact hd.tryWriteDst htry
  | lock r _ | unlock r _ | acquire r n k _ _ _ | release r n k m _ _ _ =>
      refine Domains.advance ?_ x
      exact hd.keeps (.of_cells rfl rfl rfl rfl)
  | send c e v _ hv _ _ => exact (hd.pushBuffer (resourceTypeOk_iff.mp hv)).advance x
  | recv c dst v vs σ₁ _ _ htry =>
      exact ((hd.tryWriteDst htry).keeps (.popBuffer c)).advance x
  | notifyMiss cv _ => exact hd.advance x
  | skipCall g args dst _ => exact (hd.keeps ((Keeps.refl σ).recordCompletion g)).advance x
  | goto target => exact hd.keeps (.setPc f target)
  | branch c t e b _ => exact hd.keeps (.setPc f _)
  | switch e cases default v target _ _ => exact hd.keeps (.setPc f target)

theorem Pairs.domains (hd : Domains E.program σ) (h : Pairs E σ x f fr op σ') :
    Domains E.program σ' := by
  cases h with
  | send c e v y u g gr dst σ₁ _ _ _ _ _ _ htry =>
      exact ((hd.tryWriteDst htry).keeps ((Keeps.dropRecv c y).trans (.complete y))).advance x
  | recv c dst p σ₁ _ _ htry =>
      exact ((hd.tryWriteDst htry).keeps
        ((Keeps.dropSend c p.thread).trans (.complete p.thread))).advance x
  | notify cv w _ =>
      refine Domains.advance ?_ x
      exact hd.keeps (.of_cells rfl rfl rfl rfl)
  | notifyAll cv =>
      have hfold : ∀ (ws : List (ThreadId × ResourceId)) (σ : MachineState),
          (ws.foldl (fun σ w ↦ σ.block w.1 (.lock w.2)) σ).store = σ.store := by
        intro ws
        induction ws with
        | nil => exact fun _ ↦ rfl
        | cons w ws ih => exact fun σ ↦ ih _
      have hwaiters : Domains E.program (σ.modifyWaiters cv fun _ ↦ []) :=
        hd.keeps (.of_cells rfl rfl rfl rfl)
      exact (hwaiters.keeps (.of_store (hfold _ _))).advance x

end Steps

section Creating

theorem foldl_insert_get {slot : SlotId} (l : List (SlotId × Value)) (m : BTreeMap ℕ Value)
    (h : (l.foldl (fun m p ↦ m.insert p.1 p.2) m)[slot]? = some v) :
    (slot, v) ∈ l ∨ m[slot]? = some v := by
  induction l generalizing m with
  | nil => exact .inr h
  | cons p l ih =>
      rcases ih (m.insert p.1 p.2) h with hmem | hm
      · exact .inl (List.mem_cons_of_mem p hmem)
      · rw [Std.ExtTreeMap.getElem?_insert] at hm
        split_ifs at hm with hp
        · obtain rfl := Nat.compare_eq_eq.mp hp
          obtain rfl := Option.some.inj hm
          exact .inl List.mem_cons_self
        · exact .inr hm

theorem inSlot_callFrame {k : FunctionId} {dst : Option SlotRef} {values : List Value}
    (hi : ∀ slot v, (E.program.function k).defaultLocals[slot]? = some v →
      E.program.InSlot k slot v)
    (hok : Engine.argsOk (E.function k) values = true) {slot : SlotId}
    (hv : (E.callFrame σ fr k dst values).locals[slot]? = some v) :
    E.program.InSlot k slot v := by
  rcases foldl_insert_get _ _ hv with hmem | hdef
  · intro s hs
    have harg := List.all_eq_true.mp hok (slot, v) hmem
    simpa [Engine.function, hs] using harg
  · exact hi slot v hdef

variable (hi : ∀ k slot v, (E.program.function k).defaultLocals[slot]? = some v →
  E.program.InSlot k slot v)

include hi

theorem Domains.createThread (hd : Domains E.program σ) {k : FunctionId}
    {parent : Option ScopeId} {c : ThreadId} (h : E.createThread σ k parent = some (c, σ₁)) :
    Domains E.program σ₁ := by
  rw [Engine.createThread] at h
  split_ifs at h
  · obtain ⟨-, rfl⟩ := Prod.mk.inj (Option.some.inj h)
    refine hd.keeps (Keeps.recordCompletion ?_ k)
    exact .of_store rfl
  · obtain ⟨-, rfl⟩ := Prod.mk.inj (Option.some.inj h)
    have hframe := hd.writeFrame σ.alloc.nextFrame (σ.newFrame E.program k) (hi k)
    exact hframe.keeps (.of_store rfl)

theorem Domains.createMembers (gs : List FunctionId) {s : ScopeId} {r r' : BTreeSet ThreadId}
    (hd : Domains E.program σ) (h : E.createMembers s σ r gs = some (σ', r')) :
    Domains E.program σ' := by
  induction gs generalizing σ r with
  | nil =>
      obtain ⟨rfl, -⟩ := Prod.mk.inj (Option.some.inj h)
      exact hd
  | cons k gs ih =>
      rw [Engine.createMembers] at h
      split at h
      case _ => cases h
      case _ c σ₁ hc => exact ih (hd.createThread hi hc) h

variable [FloatArith]

theorem Creates.domains (hd : Domains E.program σ) (h : Creates E σ x t f fr op σ') :
    Domains E.program σ' := by
  have hnext : ∀ n, Domains E.program { σ with alloc := { σ.alloc with nextScope := n } } :=
    fun n ↦ hd.keeps (.of_store rfl)
  cases h with
  | call k args dst values _ _ hok =>
      have hframe := hd.writeFrame σ.alloc.nextFrame (E.callFrame σ fr k dst values)
        fun slot v ↦ inSlot_callFrame (hi k) hok
      exact hframe.keeps (.of_store rfl)
  | spawn k handle child σ₁ _ hc =>
      refine (hd.createThread hi hc).keeps (Keeps.advance ?_ x)
      exact .of_modifyFrame rfl fun _ ↦ ⟨rfl, rfl⟩
  | scopeDone gs σ₁ _ _ hc =>
      refine (Domains.createMembers hi gs (hnext _) hc).keeps (Keeps.advance ?_ x)
      exact .of_store rfl
  | scope gs σ₁ remaining _ _ hc _ =>
      exact (Domains.createMembers hi gs (hnext _) hc).keeps (.of_store rfl)
  | join name k c _ _ _ =>
      refine hd.keeps (Keeps.advance ?_ x)
      exact .of_modifyFrame rfl fun _ ↦ ⟨rfl, rfl⟩

end Creating

section Returning

theorem dstTypeOk_keeps (h : Keeps σ σ') {k : FrameId} {dst : SlotRef}
    (hok : E.dstTypeOk σ k dst v = true) : E.dstTypeOk σ' k dst v = true := by
  cases dst with
  | localSlot slot =>
      simp only [Engine.dstTypeOk] at hok ⊢
      cases hg : σ'.store.frames[k]? with
      | none => rfl
      | some gr' =>
          obtain ⟨gr, hgr, hfn, -⟩ := h.frames k gr' hg
          rw [show σ.store.frames[k]? = some gr from hgr] at hok
          dsimp only [Option.bind_some] at hok ⊢
          rwa [← hfn]
  | shared r => exact hok
  | discard => rfl

theorem Domains.applyReturn (hd : Domains E.program σ) {val : Option Value}
    (h : E.applyReturn σ x f fr val = some σ') : Domains E.program σ' := by
  rw [Engine.applyReturn] at h
  generalize (σ.threads[x]?.map (·.stack)).bind (·[1]?) = caller at h
  have hpop : Keeps σ (Engine.popFrame σ x f) := .popFrame x f
  split_ifs at h with hok
  cases caller with
  | none =>
      obtain rfl := Option.some.inj h
      exact hd.keeps (hpop.trans (.finishThread x fr.function))
  | some caller =>
      obtain rfl := Option.some.inj h
      rw [Engine.returnTo]
      refine Domains.keeps ?_ ((Keeps.refl _).recordCompletion fr.function)
      cases hret : fr.ret with
      | none => exact hd.keeps hpop
      | some ret =>
          cases val with
          | none => exact hd.keeps (hpop.trans (.setPc caller ret.pcNext))
          | some v =>
              have hdst : E.dstTypeOk σ caller ret.dst v = true := by
                simp only [Engine.returnOk, hret, Bool.and_eq_true] at hok
                exact hok.2
              exact ((hd.keeps hpop).writeDst (dstTypeOk_keeps hpop hdst)).keeps
                (.setPc caller ret.pcNext)

end Returning

section Runs

variable [FloatArith]

/-- One step of either engine. -/
theorem Fires.domains (hd : Domains E.program σ)
    (hi : ∀ k slot v, (E.program.function k).defaultLocals[slot]? = some v →
      E.program.InSlot k slot v) (h : Fires E x σ σ') : Domains E.program σ' := by
  cases h with
  | @exec t f fr op _ top hrun hop h =>
      have hm : Domains E.program (σ.markReached fr.function fr.pc) := hd.keeps (.of_store rfl)
      cases h with
      | done h => exact h.domains hm top.frame (SemProgram.opAt_ok hop)
      | block h => exact (h.domains hm).keeps (.of_store rfl)
      | pair h => exact h.domains hm
      | create h => exact h.domains hi hm
      | ret _ _ h => exact hm.applyReturn h
  | endOfBody _ _ _ h => exact hd.applyReturn h
  | resume _ _ h => exact (h.domains hd).keeps (.complete x)

omit [FloatArith]

theorem inits_initResource {s : Store} {r : ResourceId}
    (hv : ∀ (q : ResourceId) v, s.vars[q]? = some v → (P.resource q).init = some v)
    (ha : ∀ (q : ResourceId) v, s.atomics[q]? = some v → (P.resource q).init = some v) :
    (∀ (q : ResourceId) v, (initResource s r (P.resource r)).vars[q]? = some v →
        (P.resource q).init = some v) ∧
      (∀ (q : ResourceId) v, (initResource s r (P.resource r)).atomics[q]? = some v →
        (P.resource q).init = some v) ∧ (initResource s r (P.resource r)).frames = s.frames := by
  have hinsert : ∀ {m : BTreeMap ResourceId Value} {w : Value},
      (∀ (q : ResourceId) v, m[q]? = some v → (P.resource q).init = some v) →
        (P.resource r).init = some w → ∀ (q : ResourceId) v, (m.insert r w)[q]? = some v →
          (P.resource q).init = some v := by
    intro m w hm hw q v hq
    rw [Std.ExtTreeMap.getElem?_insert] at hq
    split_ifs at hq with he
    · obtain rfl := Nat.compare_eq_eq.mp he
      exact hw.trans hq
    · exact hm q v hq
  rw [initResource]
  cases (P.resource r).kind with
  | var =>
      cases hi : (P.resource r).init with
      | none => exact ⟨hv, ha, rfl⟩
      | some w => exact ⟨hinsert hv hi, ha, rfl⟩
  | atomic =>
      cases hi : (P.resource r).init with
      | none => exact ⟨hv, ha, rfl⟩
      | some w => exact ⟨hv, hinsert ha hi, rfl⟩
  | _ => exact ⟨hv, ha, rfl⟩

theorem inits_initResources (P : SemProgram) :
    (∀ (q : ResourceId) v, (initResources P).vars[q]? = some v →
        (P.resource q).init = some v) ∧
      (∀ (q : ResourceId) v, (initResources P).atomics[q]? = some v →
        (P.resource q).init = some v) ∧ (initResources P).frames = ∅ := by
  rw [initResources]
  induction P.resources.length with
  | zero => simp [Store.empty]
  | succ n ih =>
      obtain ⟨hv, ha, hf⟩ := ih
      rw [List.range_succ, List.foldl_append]
      obtain ⟨hv', ha', hf'⟩ := inits_initResource (r := n) hv ha
      exact ⟨hv', ha', hf'.trans hf⟩

theorem domains_initial (hT : E.program.TypesWellFormed) (hI : E.program.InitsLowered)
    (h : E.initial = .ok σ) : Domains E.program σ := by
  obtain ⟨hv, ha, hf⟩ := inits_initResources E.program
  obtain ⟨-, hsends, -, hbuffer, -⟩ := Cells.stores (σ := bare E.program)
    (cells_initResources E.program) rfl
  have hbare : Domains E.program (bare E.program) := by
    refine ⟨fun r v hr ↦ hI.inResource hT (hv r v hr), fun r v hr ↦ hI.inResource hT (ha r v hr),
      fun g gr q w hg ↦ ?_, by simp [hbuffer], by simp [hsends]⟩
    change (initResources E.program).frames[g]? = some gr at hg
    rw [hf] at hg
    cases hg
  have hinit : Domains E.program (MachineState.initial E.program) := by
    rw [MachineState.initial]
    split_ifs
    · exact hbare.keeps (.of_store rfl)
    · have hframe := hbare.writeFrame 0 ((bare E.program).newFrame E.program E.program.entry)
        fun slot v ↦ hI.inSlot hT
      exact hframe.keeps (.of_store rfl)
  rw [Engine.initial] at h
  obtain rfl := Except.ok.inj h
  split_ifs
  · exact hinit.keeps (.of_store rfl)
  · exact hinit

end Runs

end ConcIR
