import ConcIR.Machine.Frames

/-!
# Which steps start threads

Only a spawn or a scope, when first attempted, brings new threads into the table.
-/

namespace ConcIR

open MachineState

variable {E : Engine} {σ τ : MachineState} {x : ThreadId} {f : FrameId} {fr : Frame}

section Threads

/-- Every thread of `τ` is a thread of `σ`, and no thread id has been handed out. -/
structure NoBirth (σ τ : MachineState) : Prop where
  threads : ∀ y, y ∈ τ.threads → y ∈ σ.threads
  nextThread : τ.alloc.nextThread = σ.alloc.nextThread

/-- The threads of `τ` are threads of `σ` and no thread id has been handed out: they keep
the function they were started on, and a finished thread stays finished. -/
structure Ages (σ τ : MachineState) : Prop where
  threads : ∀ (y : ThreadId) t', τ.threads[y]? = some t' → ∃ t, σ.threads[y]? = some t ∧
    t.entryFunction = t'.entryFunction ∧ (t.stack = [] → t'.stack = [])
  nextThread : τ.alloc.nextThread = σ.alloc.nextThread

theorem Ages.noBirth (h : Ages σ τ) : NoBirth σ τ := by
  refine ⟨fun y hy ↦ ?_, h.nextThread⟩
  rw [Std.ExtTreeMap.mem_iff_isSome_getElem?, Option.isSome_iff_exists] at hy ⊢
  obtain ⟨t', ht'⟩ := hy
  obtain ⟨t, ht, -⟩ := h.threads y t' ht'
  exact ⟨t, ht⟩

namespace Ages

variable {σ₁ : MachineState} {y : ThreadId}

theorem refl (σ : MachineState) : Ages σ σ := ⟨fun _ t h ↦ ⟨t, h, rfl, id⟩, rfl⟩

theorem of_eq (h : τ.threads = σ.threads) (ha : τ.alloc.nextThread = σ.alloc.nextThread) :
    Ages σ τ := by
  refine ⟨fun y t hy ↦ ⟨t, ?_, rfl, id⟩, ha⟩
  rwa [← h]

/-- Threads may be removed from the table. -/
theorem of_sub (h : ∀ (y : ThreadId) t, τ.threads[y]? = some t → σ.threads[y]? = some t)
    (ha : τ.alloc.nextThread = σ.alloc.nextThread) : Ages σ τ :=
  ⟨fun y t hy ↦ ⟨t, h y t hy, rfl, id⟩, ha⟩

theorem of_records (h : τ.threads = σ.threads ∧ τ.scopes = σ.scopes ∧ τ.alloc = σ.alloc) :
    Ages σ τ := of_eq h.1 (by rw [h.2.2])

theorem trans (h : Ages σ σ₁) (h' : Ages σ₁ τ) : Ages σ τ :=
  ⟨fun y t hy ↦ by
    obtain ⟨t₁, h₁, he₁, hs₁⟩ := h'.threads y t hy
    obtain ⟨t₀, h₀, he₀, hs₀⟩ := h.threads y t₁ h₁
    exact ⟨t₀, h₀, he₀.trans he₁, fun hnil ↦ hs₁ (hs₀ hnil)⟩,
    h'.nextThread.trans h.nextThread⟩

theorem modifyThread (σ : MachineState) (y : ThreadId) {k : ThreadState → ThreadState}
    (hk : ∀ t, (k t).entryFunction = t.entryFunction ∧ (t.stack = [] → (k t).stack = [])) :
    Ages σ (σ.modifyThread y k) := by
  refine ⟨fun z t hz ↦ ?_, rfl⟩
  rw [MachineState.modifyThread, Std.ExtTreeMap.getElem?_modify] at hz
  split_ifs at hz with hy
  · obtain ⟨u, hu, rfl⟩ := Option.map_eq_some_iff.mp hz
    obtain rfl := Nat.compare_eq_eq.mp hy
    exact ⟨u, hu, (hk u).1.symm, (hk u).2⟩
  · exact ⟨t, hz, rfl, id⟩

theorem setStatus (σ : MachineState) (y : ThreadId) (st : ThreadStatus) :
    Ages σ (σ.setStatus y st) := modifyThread σ y fun _ ↦ ⟨rfl, id⟩

theorem advance (σ : MachineState) (y : ThreadId) : Ages σ (σ.advance y) :=
  of_records (advance_records σ y)

theorem step (h : Ages σ σ₁) (y : ThreadId) : Ages σ (σ₁.advance y) :=
  h.trans (advance σ₁ y)

theorem complete (σ : MachineState) (y : ThreadId) : Ages σ (Engine.complete σ y) :=
  (setStatus σ y .runnable).trans (advance _ y)

theorem reclaim (σ : MachineState) (y : ThreadId) : Ages σ (Engine.reclaim σ y) :=
  .of_sub (fun z t hz ↦ by
    rw [Engine.reclaim, Std.ExtTreeMap.getElem?_erase] at hz
    split_ifs at hz
    exact hz) rfl

theorem foldl {A : Type} {k : MachineState → A → MachineState}
    (hk : ∀ σ a, Ages σ (k σ a)) (as : List A) (σ : MachineState) :
    Ages σ (as.foldl k σ) := by
  induction as generalizing σ with
  | nil => exact refl σ
  | cons a as ih => exact (hk σ a).trans (ih (k σ a))

theorem wakeJoiner (x : ThreadId) (σ : MachineState) (j : ThreadId) :
    Ages σ (E.wakeJoiner x σ j) := by
  have hdrop : Ages σ (σ.modifyThread j fun t ↦
      { t with handleChildren := t.handleChildren.filter fun _ c ↦ c ≠ x }) :=
    modifyThread σ j fun _ ↦ ⟨rfl, id⟩
  rw [Engine.wakeJoiner]
  refine trans ?_ (complete _ j)
  split
  case _ =>
    split
    case _ => exact hdrop.trans (of_eq rfl rfl)
    case _ => exact hdrop
  case _ => exact hdrop

theorem wakeJoiners (σ : MachineState) (x : ThreadId) : Ages σ (E.wakeJoiners σ x) := by
  rw [Engine.wakeJoiners]
  have hfold := foldl (wakeJoiner (E := E) x)
    ((σ.threads.toList.filter fun p ↦ Engine.isJoiner x p.2).map Prod.fst) σ
  split_ifs
  · exact hfold
  · exact hfold.trans (reclaim _ x)

theorem filter {k : ThreadId → ThreadState → Bool} (h : τ.threads = σ.threads.filter k)
    (ha : τ.alloc.nextThread = σ.alloc.nextThread) : Ages σ τ := by
  refine of_sub (fun y t hy ↦ ?_) ha
  rw [h, Std.ExtTreeMap.getElem?_filter'] at hy
  exact (Option.filter_eq_some_iff.mp hy).1

theorem completeScope (σ : MachineState) (s : ScopeId) (sc : ScopeState) :
    Ages σ (Engine.completeScope σ s sc) := by
  rw [Engine.completeScope]
  refine trans ?_ (filter rfl rfl)
  refine trans ?_ (complete _ sc.owner)
  split
  case _ => exact of_eq rfl rfl
  case _ => exact refl σ

theorem leaveScope (σ : MachineState) (x : ThreadId) (s : ScopeId) :
    Ages σ (Engine.leaveScope σ x s) := by
  rw [Engine.leaveScope]
  split
  case _ =>
    simp only
    split_ifs
    · refine trans ?_ (completeScope _ s _)
      exact of_eq rfl rfl
    · exact of_eq rfl rfl
  case _ => exact refl σ

theorem finishThread (σ : MachineState) (x : ThreadId) (fn : FunctionId) :
    Ages σ (E.finishThread σ x fn) := by
  rw [Engine.finishThread]
  refine trans ?_ (wakeJoiners _ x)
  have hset : Ages σ (E.recordCompletion
      { σ.setStatus x .finished with
        finished := (σ.setStatus x .finished).finished.insert x } fn) :=
    ((setStatus σ x .finished).trans (of_eq rfl rfl)).trans
      (of_records (recordCompletion_records _ fn))
  split
  case _ => exact hset.trans (leaveScope _ x _)
  case _ => exact hset

theorem popFrame (σ : MachineState) (x : ThreadId) (f : FrameId) :
    Ages σ (Engine.popFrame σ x f) := by
  have htail : Ages σ (σ.modifyThread x fun t ↦ { t with stack := t.stack.tail }) := by
    refine modifyThread σ x fun t ↦ ⟨rfl, fun ht ↦ ?_⟩
    rw [ht]
    rfl
  exact htail.trans (of_eq rfl rfl)

theorem applyReturn {val : Option Value} (h : E.applyReturn σ x f fr val = some τ) :
    Ages σ τ := by
  rw [Engine.applyReturn] at h
  split_ifs at h
  split at h
  case _ caller _ =>
    obtain rfl := Option.some.inj h
    refine (popFrame σ x f).trans (trans ?_ (of_records (recordCompletion_records _ _)))
    split
    case _ ret _ =>
      refine trans ?_ (of_eq rfl rfl)
      split
      · exact of_records (writeDst_records _ caller ret.dst _)
      · exact of_eq rfl rfl
    case _ => exact of_eq rfl rfl
  case _ =>
    obtain rfl := Option.some.inj h
    exact (popFrame σ x f).trans (finishThread _ x _)

end Ages

variable [FloatArith] {t : ThreadState} {op : SemOp}

/-- The statements that start threads. -/
def SemOp.forks : SemOp → Bool
  | .spawn _ _ | .scope _ => true
  | _ => false

theorem Local.ages (h : Local E σ x f fr op τ) : Ages σ τ := by
  cases h with
  | read r dst v σ₁ _ hw | load r dst v σ₁ _ hw =>
      exact (Ages.of_records (tryWriteDst_records hw)).step x
  | recv c dst v vs σ₁ _ _ hw =>
      apply Ages.step
      exact (Ages.of_records (tryWriteDst_records hw)).trans (.of_eq rfl rfl)
  | cas r e d dst exp des old σ₁ _ _ _ _ hw =>
      refine Ages.trans ?_ (.advance _ x)
      split_ifs
      · exact (Ages.of_records (tryWriteDst_records hw)).trans (.of_eq rfl rfl)
      · exact .of_records (tryWriteDst_records hw)
  | assign target e v =>
      exact (Ages.of_records (writeDst_records σ f target v)).trans (.advance _ x)
  | skipCall g args dst _ =>
      exact (Ages.of_records (recordCompletion_records σ g)).trans (.advance _ x)
  | goto | branch | switch => exact .of_eq rfl rfl
  | _ =>
      apply Ages.step
      exact .of_eq rfl rfl

theorem Blocks.ages {r : BlockReason} (h : Blocks E σ x fr op r τ) : Ages σ τ := by
  cases h <;> exact .of_eq rfl rfl

omit [FloatArith] in
theorem Resumes.ages {r : BlockReason} (h : Resumes E σ x f fr r τ) : Ages σ τ := by
  cases h with
  | recv c dst v vs σ₁ _ _ _ hw =>
      exact (Ages.of_records (tryWriteDst_records hw)).trans (.of_eq rfl rfl)
  | _ => exact .of_eq rfl rfl

theorem Pairs.ages (h : Pairs E σ x f fr op τ) : Ages σ τ := by
  cases h with
  | send c e v y u g gr dst σ₁ _ _ _ _ _ _ hw =>
      have hdrop : Ages σ (σ₁.dropRecv c y) :=
        (Ages.of_records (tryWriteDst_records hw)).trans (.of_eq rfl rfl)
      exact (hdrop.trans (.complete _ y)).trans (.advance _ x)
  | recv c dst p σ₁ _ _ hw =>
      have hdrop : Ages σ (σ₁.dropSend c p.thread) :=
        (Ages.of_records (tryWriteDst_records hw)).trans (.of_eq rfl rfl)
      exact (hdrop.trans (.complete _ p.thread)).trans (.advance _ x)
  | notify cv w hw =>
      have hdrop : Ages σ (σ.modifyWaiters cv (·.filter (· ≠ w))) := .of_eq rfl rfl
      exact (hdrop.trans (.setStatus _ w.1 _)).trans (.advance _ x)
  | notifyAll cv =>
      have hclear : Ages σ (σ.modifyWaiters cv fun _ ↦ []) := .of_eq rfl rfl
      have hblock : ∀ (σ : MachineState) (w : ThreadId × ResourceId),
          Ages σ (σ.block w.1 (.lock w.2)) := fun σ w ↦ .setStatus σ w.1 _
      exact (hclear.trans (.foldl hblock (σ.waiters cv) _)).trans (.advance _ x)

omit [FloatArith] in
theorem Ages.consumeJoin (name : String) (k : HandleId) (c : ThreadId) :
    Ages σ (Engine.consumeJoin σ x f name k c) := by
  rw [Engine.consumeJoin]
  refine Ages.trans ?_ (.reclaim _ c)
  refine Ages.trans ?_ (.modifyThread _ x fun _ ↦ ⟨rfl, id⟩)
  exact .of_eq rfl rfl

omit [FloatArith] in
theorem Ages.pushFrame (top : Top σ x t f fr) (callee : Frame) :
    Ages σ (Engine.pushFrame σ x callee) := by
  refine ⟨fun y u hu ↦ ?_, rfl⟩
  rw [Engine.pushFrame, MachineState.modifyThread, Std.ExtTreeMap.getElem?_modify] at hu
  split_ifs at hu with hy
  · obtain rfl := Nat.compare_eq_eq.mp hy
    obtain ⟨v, hv, rfl⟩ := Option.map_eq_some_iff.mp hu
    obtain rfl : t = v := Option.some.inj (top.thread.symm.trans hv)
    refine ⟨t, hv, rfl, fun hnil ↦ ?_⟩
    have hhead := top.head
    rw [hnil] at hhead
    cases hhead
  · exact ⟨u, hu, rfl, id⟩

theorem Executes.ages (top : Top σ x t f fr) (h : Executes E σ x t f fr op τ)
    (hop : op.forks = false) : Ages σ τ := by
  cases h with
  | done h => exact h.ages
  | block h => exact h.ages.trans (.setStatus _ x _)
  | pair h => exact h.ages
  | create h =>
      cases h with
      | call g args dst values _ _ _ => exact .pushFrame top _
      | spawn | scopeDone | scope => cases hop
      | join name k c _ _ _ => exact (Ages.consumeJoin name k c).trans (.advance _ x)
  | ret _ _ h => exact .applyReturn h

/-- A step brings no new thread unless it is the first attempt of a spawn or a scope. -/
theorem Fires.ages (h : Fires E x σ τ) :
    Ages σ τ ∨ ∃ t f fr op, Top σ x t f fr ∧ t.status = .runnable ∧
      E.program.opAt fr.function fr.pc = some op ∧ op.forks = true ∧
        Executes E (σ.markReached fr.function fr.pc) x t f fr op τ := by
  cases h with
  | @exec t f fr op _ top hrun hop h =>
      cases hf : op.forks with
      | true => exact .inr ⟨t, f, fr, op, top, hrun, hop, hf, h⟩
      | false =>
          have hmark : Ages σ (σ.markReached fr.function fr.pc) := .of_eq rfl rfl
          exact .inl (hmark.trans (h.ages ⟨top.thread, top.head, top.frame⟩ hf))
  | endOfBody top hrun hop h => exact .inl (.applyReturn h)
  | resume top hb h => exact .inl (h.ages.trans (.complete _ x))

theorem Fires.noBirth (h : Fires E x σ τ) :
    NoBirth σ τ ∨ ∃ t f fr op, Top σ x t f fr ∧ t.status = .runnable ∧
      E.program.opAt fr.function fr.pc = some op ∧ op.forks = true ∧
        Executes E (σ.markReached fr.function fr.pc) x t f fr op τ :=
  h.ages.imp_left Ages.noBirth

end Threads

section Births

/-- The threads of `τ` that `σ` does not have got their ids in between, and there are
some. -/
structure Birth (σ τ : MachineState) : Prop where
  threads : ∀ y, y ∈ τ.threads → y ∈ σ.threads ∨ σ.alloc.nextThread ≤ y
  nextThread : σ.alloc.nextThread < τ.alloc.nextThread
  first : σ.alloc.nextThread ∈ τ.threads

theorem Birth.trans {σ₁ : MachineState} (h : Birth σ σ₁) (h' : NoBirth σ₁ τ)
    (hkeep : σ.alloc.nextThread ∈ τ.threads) : Birth σ τ where
  threads y hy := h.threads y (h'.threads y hy)
  nextThread := h'.nextThread ▸ h.nextThread
  first := hkeep

theorem createThread_threads {callee : FunctionId} {parent : Option ScopeId} {c : ThreadId}
    (h : E.createThread σ callee parent = some (c, τ)) :
    (∀ y, y ∈ τ.threads ↔ y = σ.alloc.nextThread ∨ y ∈ σ.threads) ∧
      τ.alloc.nextThread = σ.alloc.nextThread + 1 := by
  rw [Engine.createThread] at h
  split_ifs at h with hlim htr
  · obtain ⟨rfl, rfl⟩ := Prod.mk.inj (Option.some.inj h)
    constructor
    · intro y
      rw [(recordCompletion_records _ callee).1, Std.ExtTreeMap.mem_insert, compare_eq_iff_eq,
        eq_comm]
    · rw [(recordCompletion_records _ callee).2.2]
  · obtain ⟨rfl, rfl⟩ := Prod.mk.inj (Option.some.inj h)
    refine ⟨fun y ↦ ?_, rfl⟩
    rw [Std.ExtTreeMap.mem_insert, compare_eq_iff_eq, eq_comm]
    rfl

theorem createMembers_threads {gs : List FunctionId} {s : ScopeId} {r r' : BTreeSet ThreadId}
    (h : E.createMembers s σ r gs = some (τ, r')) :
    (∀ y, y ∈ σ.threads → y ∈ τ.threads) ∧
      (∀ y, y ∈ τ.threads → y ∈ σ.threads ∨ σ.alloc.nextThread ≤ y) ∧
        τ.alloc.nextThread = σ.alloc.nextThread + gs.length ∧
          (gs ≠ [] → σ.alloc.nextThread ∈ τ.threads) := by
  induction gs generalizing σ r with
  | nil =>
      obtain ⟨rfl, rfl⟩ := Prod.mk.inj (Option.some.inj h)
      exact ⟨fun _ hy ↦ hy, fun _ hy ↦ .inl hy, rfl, fun hne ↦ absurd rfl hne⟩
  | cons g gs ih =>
      rw [Engine.createMembers] at h
      split at h
      case _ => cases h
      case _ c σ₁ hc =>
        obtain ⟨hth, hnext⟩ := createThread_threads hc
        obtain ⟨hkeep, hnew, hlen, -⟩ := ih h
        refine ⟨fun y hy ↦ hkeep y ((hth y).mpr (.inr hy)), fun y hy ↦ ?_, ?_, fun _ ↦
          hkeep _ ((hth _).mpr (.inl rfl))⟩
        · rcases hnew y hy with hy | hy
          · rcases (hth y).mp hy with rfl | hy
            · exact .inr le_rfl
            · exact .inl hy
          · rw [hnext] at hy
            exact .inr (by omega)
        · rw [hlen, hnext, List.length_cons]
          omega

variable [FloatArith] {t : ThreadState} {op : SemOp}

theorem Executes.birth (h : Executes E σ x t f fr op τ) (hop : op.forks = true) :
    Birth σ τ := by
  cases h with
  | done h => cases h <;> cases hop
  | block h => cases h <;> cases hop
  | pair h => cases h <;> cases hop
  | ret he _ _ =>
      subst he
      cases hop
  | create h =>
      cases h with
      | call | join => cases hop
      | spawn g handle child σ₁ _ hc =>
          obtain ⟨hth, hnext⟩ := createThread_threads hc
          have hmem : ∀ y, y ∈ ((Engine.bindHandle σ₁ x f handle child).advance x).threads ↔
              y ∈ σ₁.threads := by
            intro y
            rw [(advance_records _ x).1]
            exact Std.ExtTreeMap.mem_modify
          refine ⟨fun y hy ↦ ?_, ?_, (hmem _).mpr ((hth _).mpr (.inl rfl))⟩
          · rcases (hth y).mp ((hmem y).mp hy) with rfl | hy
            · exact .inr le_rfl
            · exact .inl hy
          · rw [(advance_records _ x).2.2]
            change _ < σ₁.alloc.nextThread
            omega
      | scopeDone gs σ₁ hne _ hc =>
          obtain ⟨-, hnew, hlen, hfirst⟩ := createMembers_threads hc
          refine ⟨fun y hy ↦ ?_, ?_, ?_⟩
          · rw [(advance_records _ x).1] at hy
            exact hnew y hy
          · rw [(advance_records _ x).2.2]
            change _ < σ₁.alloc.nextThread
            rw [hlen]
            exact Nat.lt_add_of_pos_right (List.length_pos_iff.mpr hne)
          · rw [(advance_records _ x).1]
            exact hfirst hne
      | scope gs σ₁ remaining hne _ hc _ =>
          obtain ⟨-, hnew, hlen, hfirst⟩ := createMembers_threads hc
          refine ⟨fun y hy ↦ ?_, ?_, ?_⟩
          · exact hnew y (Std.ExtTreeMap.mem_modify.mp hy)
          · change _ < σ₁.alloc.nextThread
            rw [hlen]
            exact Nat.lt_add_of_pos_right (List.length_pos_iff.mpr hne)
          · exact Std.ExtTreeMap.mem_modify.mpr (hfirst hne)

/-- A step hands out thread ids exactly when it starts threads. -/
theorem Fires.births (h : Fires E x σ τ) : NoBirth σ τ ∨ Birth σ τ := by
  rcases h.noBirth with hb | ⟨t, f, fr, op, -, -, -, hf, he⟩
  · exact .inl hb
  · have hb := he.birth hf
    exact .inr ⟨hb.threads, hb.nextThread, hb.first⟩

end Births

end ConcIR
