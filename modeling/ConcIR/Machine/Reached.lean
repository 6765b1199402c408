import ConcIR.Machine.Births

/-!
# Which statements count as reached

A step marks the statement that it executes, and no other.
-/

namespace ConcIR

open MachineState

variable {E : Engine} {σ τ σ₁ : MachineState} {x y : ThreadId} {f g : FrameId} {fr : Frame}
  {t : ThreadState} {op : SemOp}

section Updates

@[simp] theorem reached_modifyFrame (k : FrameId) (F : Frame → Frame) :
    (σ.modifyFrame k F).reached = σ.reached := rfl

@[simp] theorem reached_modifyThread (F : ThreadState → ThreadState) :
    (σ.modifyThread y F).reached = σ.reached := rfl

@[simp] theorem reached_setStatus (st : ThreadStatus) :
    (σ.setStatus y st).reached = σ.reached := rfl

@[simp] theorem reached_block (r : BlockReason) : (σ.block y r).reached = σ.reached := rfl

@[simp] theorem reached_setPc (k : FrameId) (n : ℕ) : (σ.setPc k n).reached = σ.reached := rfl

@[simp] theorem reached_advance : (σ.advance y).reached = σ.reached := by
  rw [MachineState.advance]
  cases σ.currentFrameId y <;> rfl

@[simp] theorem reached_complete : (Engine.complete σ y).reached = σ.reached :=
  reached_advance

@[simp] theorem reached_writeDst (k : FrameId) (dst : SlotRef) (v : Value) :
    (σ.writeDst k dst v).reached = σ.reached := by
  cases dst <;> rfl

theorem reached_tryWriteDst {k : FrameId} {dst : SlotRef} {v : Value}
    (h : E.tryWriteDst σ k dst v = some σ₁) : σ₁.reached = σ.reached := by
  rw [tryWriteDst_eq h, reached_writeDst]

@[simp] theorem reached_recordCompletion (fn : FunctionId) :
    (E.recordCompletion σ fn).reached = σ.reached := by
  obtain ⟨m, hm⟩ := recordCompletion_eq (E := E) σ fn
  rw [hm]

theorem reached_foldl {A : Type} {k : MachineState → A → MachineState}
    (hk : ∀ σ a, (k σ a).reached = σ.reached) (as : List A) :
    (as.foldl k σ).reached = σ.reached := by
  induction as generalizing σ with
  | nil => rfl
  | cons a as ih => rw [List.foldl_cons, ih, hk]

end Updates

section Endings

theorem reached_wakeJoiner (σ : MachineState) (j : ThreadId) :
    (E.wakeJoiner x σ j).reached = σ.reached := by
  rw [Engine.wakeJoiner, reached_complete]
  split
  · split <;> rfl
  · rfl

theorem reached_wakeJoiners : (E.wakeJoiners σ x).reached = σ.reached := by
  have hfold := reached_foldl (σ := σ) (reached_wakeJoiner (E := E) (x := x))
    ((σ.threads.toList.filter fun p ↦ Engine.isJoiner x p.2).map Prod.fst)
  rw [Engine.wakeJoiners]
  split_ifs
  · exact hfold
  · exact hfold

theorem reached_completeScope (s : ScopeId) (sc : ScopeState) :
    (Engine.completeScope σ s sc).reached = σ.reached := by
  rw [Engine.completeScope]
  refine reached_complete.trans ?_
  split <;> rfl

theorem reached_leaveScope (s : ScopeId) : (Engine.leaveScope σ x s).reached = σ.reached := by
  rw [Engine.leaveScope]
  split
  · simp only
    split_ifs
    · exact reached_completeScope s _
    · rfl
  · rfl

theorem reached_finishThread (fn : FunctionId) : (E.finishThread σ x fn).reached = σ.reached := by
  rw [Engine.finishThread, reached_wakeJoiners]
  split
  · exact (reached_leaveScope _).trans (reached_recordCompletion fn)
  · exact reached_recordCompletion fn

theorem reached_applyReturn {val : Option Value} (h : E.applyReturn σ x f fr val = some τ) :
    τ.reached = σ.reached := by
  rw [Engine.applyReturn] at h
  split_ifs at h
  split at h
  · rename_i caller _
    obtain rfl := Option.some.inj h
    rw [Engine.returnTo, reached_recordCompletion]
    split
    · refine (reached_setPc caller _).trans ?_
      split
      · exact reached_writeDst caller _ _
      · rfl
    · rfl
  · obtain rfl := Option.some.inj h
    exact reached_finishThread fr.function

theorem reached_createThread {callee : FunctionId} {parent : Option ScopeId} {c : ThreadId}
    (h : E.createThread σ callee parent = some (c, τ)) : τ.reached = σ.reached := by
  rw [Engine.createThread] at h
  split_ifs at h
  · obtain ⟨-, rfl⟩ := Prod.mk.inj (Option.some.inj h)
    exact reached_recordCompletion callee
  · obtain ⟨-, rfl⟩ := Prod.mk.inj (Option.some.inj h)
    rfl

theorem reached_createMembers {gs : List FunctionId} {s : ScopeId} {r r' : BTreeSet ThreadId}
    (h : E.createMembers s σ r gs = some (τ, r')) : τ.reached = σ.reached := by
  induction gs generalizing σ r with
  | nil =>
      obtain ⟨rfl, -⟩ := Prod.mk.inj (Option.some.inj h)
      rfl
  | cons callee gs ih =>
      rw [Engine.createMembers] at h
      split at h
      · cases h
      · rename_i c σ₁ hc
        rw [ih h, reached_createThread hc]

end Endings

section Stepping

variable [FloatArith]

theorem Local.reached (h : Local E σ x f fr op τ) : τ.reached = σ.reached := by
  cases h with
  | read r dst v σ₁ _ hw | load r dst v σ₁ _ hw =>
      exact reached_advance.trans (reached_tryWriteDst hw)
  | recv c dst v vs σ₁ _ _ hw =>
      have hwrite := reached_tryWriteDst hw
      exact reached_advance.trans hwrite
  | cas r e d dst exp des old σ₁ _ _ _ _ hw =>
      have hwrite := reached_tryWriteDst hw
      refine reached_advance.trans ?_
      split_ifs <;> exact hwrite
  | assign target e v => exact reached_advance.trans (reached_writeDst f target v)
  | skipCall g => exact reached_advance.trans (reached_recordCompletion g)
  | goto | branch | switch => rfl
  | _ => exact reached_advance

theorem Blocks.reached {r : BlockReason} (h : Blocks E σ x fr op r τ) :
    τ.reached = σ.reached := by
  cases h <;> rfl

omit [FloatArith] in
theorem Resumes.reached {r : BlockReason} (h : Resumes E σ x f fr r τ) :
    τ.reached = σ.reached := by
  cases h with
  | recv c dst v vs σ₁ _ _ _ hw =>
      have hwrite := reached_tryWriteDst hw
      exact hwrite
  | _ => rfl

theorem Pairs.reached (h : Pairs E σ x f fr op τ) : τ.reached = σ.reached := by
  cases h with
  | send c e v y u g gr dst σ₁ _ _ _ _ _ _ hw =>
      have hwrite := reached_tryWriteDst hw
      exact (reached_advance.trans reached_complete).trans hwrite
  | recv c dst p σ₁ _ _ hw =>
      have hwrite := reached_tryWriteDst hw
      exact (reached_advance.trans reached_complete).trans hwrite
  | notify cv w => exact reached_advance
  | notifyAll cv =>
      have hblock : ∀ (σ : MachineState) (w : ThreadId × ResourceId),
          (σ.block w.1 (.lock w.2)).reached = σ.reached := fun _ _ ↦ rfl
      exact reached_advance.trans (reached_foldl hblock (σ.waiters cv))

theorem Creates.reached (h : Creates E σ x t f fr op τ) : τ.reached = σ.reached := by
  cases h with
  | call => rfl
  | spawn g handle child σ₁ _ hc =>
      have hthread := reached_createThread hc
      exact reached_advance.trans hthread
  | scopeDone gs σ₁ _ _ hc =>
      have hmembers := reached_createMembers hc
      exact reached_advance.trans hmembers
  | scope gs σ₁ remaining _ _ hc _ =>
      have hmembers := reached_createMembers hc
      exact hmembers
  | join => exact reached_advance

theorem Executes.reached (h : Executes E σ x t f fr op τ) : τ.reached = σ.reached := by
  cases h with
  | done h => exact h.reached
  | block h => exact h.reached
  | pair h => exact h.reached
  | create h => exact h.reached
  | ret _ _ h => exact reached_applyReturn h

/-- A statement that is newly reached is the one that its thread stands at. -/
theorem Fires.reached (h : Fires E x σ τ) {fn : FunctionId} {pc : ℕ}
    (hmem : (fn, pc) ∈ τ.reached) : (fn, pc) ∈ σ.reached ∨
      ∃ t f fr, Top σ x t f fr ∧ fr.function = fn ∧ fr.pc = pc := by
  cases h with
  | @exec t f fr op _ top _ _ h =>
      rw [h.reached] at hmem
      change (fn, pc) ∈ σ.reached.insert (fr.function, fr.pc) at hmem
      rcases Std.ExtTreeSet.mem_insert.mp hmem with heq | hmem
      · rw [compareLex_eq_eq] at heq
        exact .inr ⟨t, f, fr, top, Nat.compare_eq_eq.mp heq.1, Nat.compare_eq_eq.mp heq.2⟩
      · exact .inl hmem
  | endOfBody top _ _ h =>
      rw [reached_applyReturn h] at hmem
      exact .inl hmem
  | resume top _ h =>
      rw [reached_complete, h.reached] at hmem
      exact .inl hmem

end Stepping

end ConcIR
