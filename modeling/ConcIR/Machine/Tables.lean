import ConcIR.Machine.Frames

/-!
# What a step does to the tables

Creating and ending threads and activations leaves the cells of the store and the
tables of waiting threads alone.
-/

namespace ConcIR

open MachineState

variable {E : Engine} {P : SemProgram} {σ σ' σ₁ : MachineState} {x y : ThreadId}
  {t u : ThreadState} {f g : FrameId} {fr gr : Frame} {op : SemOp}

namespace SameTables

theorem refl (σ : MachineState) : SameTables σ σ := ⟨rfl, rfl⟩

theorem trans {σ'' : MachineState} (h : SameTables σ σ') (h' : SameTables σ' σ'') :
    SameTables σ σ'' := by
  refine ⟨?_, h'.semWaiters.trans h.semWaiters⟩
  rw [h'.store, h.store]

theorem advance (h : SameTables σ σ₁) (x : ThreadId) : SameTables σ (σ₁.advance x) := by
  refine h.trans ?_
  rw [MachineState.advance]
  cases σ₁.currentFrameId x <;> exact ⟨rfl, rfl⟩

theorem recordCompletion (h : SameTables σ σ₁) (fn : FunctionId) :
    SameTables σ (E.recordCompletion σ₁ fn) := by
  refine h.trans ?_
  obtain ⟨m, hm⟩ := recordCompletion_eq (E := E) σ₁ fn
  rw [hm]
  exact ⟨rfl, rfl⟩

end SameTables

section Creating

theorem createMembers_tables (gs : List FunctionId) {s : ScopeId} {r r' : BTreeSet ThreadId}
    (h : E.createMembers s σ r gs = some (σ', r')) : SameTables σ σ' := by
  have hone : ∀ {σ σ₁ : MachineState} {k : FunctionId} {c : ThreadId},
      E.createThread σ k (some s) = some (c, σ₁) → SameTables σ σ₁ := by
    intro σ σ₁ k c hc
    rw [Engine.createThread] at hc
    split_ifs at hc
    · obtain ⟨-, rfl⟩ := Prod.mk.inj (Option.some.inj hc)
      refine SameTables.recordCompletion ?_ k
      exact ⟨rfl, rfl⟩
    · obtain ⟨-, rfl⟩ := Prod.mk.inj (Option.some.inj hc)
      exact ⟨rfl, rfl⟩
  induction gs generalizing σ r with
  | nil =>
      obtain ⟨rfl, -⟩ := Prod.mk.inj (Option.some.inj h)
      exact .refl σ
  | cons k gs ih =>
      rw [Engine.createMembers] at h
      split at h
      case _ => cases h
      case _ c σ₁ hc => exact (hone hc).trans (ih h)

variable [FloatArith]

theorem Creates.tables
    (hop : E.program.opAt fr.function fr.pc = some op) (h : Creates E σ x t f fr op σ') :
    SameTables σ σ' := by
  have hok := SemProgram.opAt_ok hop
  have hnext : SameTables σ
      { σ with alloc := { σ.alloc with nextScope := σ.alloc.nextScope + 1 } } := ⟨rfl, rfl⟩
  cases h with
  | call k args dst values _ _ _ => exact ⟨rfl, rfl⟩
  | spawn k handle child σ₁ _ hc =>
      obtain ⟨v, new, hst, rfl, -, -, -⟩ :=
        createThread_started (of_decide_eq_true hok) (by simp) hc
      refine SameTables.advance ?_ x
      exact hst.tables.trans ⟨rfl, rfl⟩
  | scopeDone gs σ₁ _ _ hc =>
      refine SameTables.advance ?_ x
      exact (hnext.trans (createMembers_tables gs hc)).trans ⟨rfl, rfl⟩
  | scope gs σ₁ remaining _ _ hc _ =>
      exact (hnext.trans (createMembers_tables gs hc)).trans ⟨rfl, rfl⟩
  | join name k c _ _ _ =>
      refine SameTables.advance ?_ x
      exact ⟨rfl, rfl⟩

end Creating

section Ending

theorem Settled.tables (hw : Wf P σ) {parent : Option ScopeId} (h : Settled σ parent σ') :
    SameTables σ σ' := by
  cases h with
  | stay _ => exact .refl σ
  | @scope s sc hp hs _ =>
      obtain ⟨-, k, hr⟩ := hw.wakeOwner hs
      have howner : SameTables σ (ConcIR.wakeOwner σ s sc) := by
        refine SameTables.advance ?_ _
        exact ⟨rfl, rfl⟩
      exact howner.trans (removed_completeScope hr).tables

theorem Woken.tables (h : Woken P σ x σ') : SameTables σ σ' := by
  cases h with
  | nobody _ => exact .refl σ
  | @joiner j t f fr name k hj =>
      have hjoin : SameTables σ ((unjoin σ j f name k).advance j) := by
        refine SameTables.advance ?_ j
        exact ⟨rfl, rfl⟩
      exact hjoin.trans (removed_reclaim x).tables

theorem Wf.tables_finish (hw : Wf E.program σ) (top : Top σ x t f fr)
    (hrun : t.status = .runnable) (hst : t.stack = [f]) (fn : FunctionId) :
    SameTables σ (E.finishThread (Engine.popFrame σ x f) x fn) := by
  have hu := unwound_leave (E := E) top hst fn
  have hw₁ := hw.unwind top hrun hst (by simp) hu
  obtain ⟨σ₁, hse, heq⟩ := finishThread_settled (E := E) top fn
  obtain ⟨hw₂, -⟩ := hse.wf hw₁ fun u ↦ finished_unwound hu
  rw [heq]
  exact (hu.tables.trans (hse.tables hw₁)).trans (hw₂.woken x).tables

/-- A return writes variables and atomics, at most. -/
theorem Wf.cells_applyReturn (hw : Wf E.program σ) (top : Top σ x t f fr)
    (hrun : t.status = .runnable) {val : Option Value}
    (h : E.applyReturn σ x f fr val = some σ') :
    σ'.store.mutexes = σ.store.mutexes ∧ σ'.store.semaphores = σ.store.semaphores ∧
      σ'.store.channels = σ.store.channels ∧ σ'.store.condvars = σ.store.condvars ∧
        σ'.semWaiters = σ.semWaiters := by
  have hstk : (σ.threads[x]?.map (·.stack)).bind (·[1]?) = t.stack[1]? := by
    rw [show σ.threads[x]? = some t from top.thread]
    rfl
  obtain ⟨rest, hrest⟩ := List.head?_eq_some_iff.mp top.head
  rw [Engine.applyReturn, hstk] at h
  split_ifs at h
  cases rest with
  | nil =>
      rw [hrest] at h
      obtain rfl := Option.some.inj h
      have ht := hw.tables_finish top hrun hrest fr.function
      refine ⟨?_, ?_, ?_, ?_, ht.semWaiters⟩
      all_goals rw [ht.store]
  | cons caller rest =>
      rw [hrest] at h
      obtain rfl := Option.some.inj h
      obtain ⟨fc, ret, hr⟩ := hw.returnedTo top hrun hrest val
      obtain ⟨hm, hs, hc, hcv, hq, -⟩ := hr.tables
      exact ⟨hm, hs, hc, hcv, hq⟩

end Ending

end ConcIR
