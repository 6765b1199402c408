import ConcIR.Machine.Births
import ConcIR.Machine.Observed

/-!
# Instance bounds

How many unfinished threads a step leaves that were started on a function. A spawn is
checked against the bound of its function; a scope checks its functions one by one against
the state before it starts any of them.
-/

namespace ConcIR

open MachineState

section Views

variable {S : Type} (P : SemProgram) (V : EngineView S)

/-- The unfinished threads that a spawn or a scope has started on a function: all but the
entry thread. -/
def EngineView.instances (s : S) (g : FunctionId) : Finset ThreadId :=
  (V.threads s).toFinset.filter fun y ↦ y ≠ 0 ∧ V.startedOn s y = some g

/-- No function has more instances than it declares. -/
def InstanceBound (s : S) : Prop :=
  ∀ g b, (P.function g).bound = some b → ((V.instances s g).card : ℤ) ≤ max b 0

/-- A scope that the thread is about to open lists a bounded function no more often than
the function has instances left. -/
def RoomFor (s : S) (x : ThreadId) : Prop :=
  ∀ gs, V.Runs P s x (.scope gs) → ∀ g ∈ gs, ∀ b, (P.function g).bound = some b →
    (P.function g).isTransparentNobody = false →
      ((V.instances s g).card : ℤ) + gs.count g ≤ max b 0

/-- In every run whose scopes find room. -/
def BoundedRuns (T : TransitionSystem S) : Prop :=
  ∀ es s, T.Run es s → (∀ e ∈ es, RoomFor P V e.before e.thread) → InstanceBound P V s

variable {P V}

theorem mem_instances {s : S} {g : FunctionId} {y : ThreadId} :
    y ∈ V.instances s g ↔ y ∈ V.threads s ∧ y ≠ 0 ∧ V.startedOn s y = some g := by
  rw [EngineView.instances, Finset.mem_filter, List.mem_toFinset]

/-- What a step keeps, a run keeps. -/
theorem boundedRuns_of_step {T : TransitionSystem S}
    (hinit : ∀ s, T.initial = .ok s → InstanceBound P V s)
    (hstep : ∀ s x s', T.Reachable s → T.Takes s x s' → RoomFor P V s x →
      InstanceBound P V s → InstanceBound P V s') : BoundedRuns P V T := by
  intro es s h hroom
  induction h with
  | start hs => exact hinit _ hs
  | @step es s s' x hrun hs ih =>
      have hlast := hroom ⟨s, x, s'⟩ (List.mem_append_right es List.mem_cons_self)
      exact hstep s x s' hrun.reachable hs hlast
        (ih fun e he ↦ hroom e (List.mem_append_left _ he))

end Views

variable {E : Engine} {P : SemProgram} {σ σ' σ₁ : MachineState} {x y : ThreadId}
  {t u : ThreadState} {f : FrameId} {fr : Frame} {op : SemOp} {g k : FunctionId}

section Instances

theorem mem_machine_instances : y ∈ machineView.instances σ g ↔
    y ≠ 0 ∧ ∃ t, σ.HasThread y t ∧ t.status ≠ .finished ∧ t.entryFunction = g := by
  rw [mem_instances]
  have hkeys : y ∈ machineView.threads σ ↔ ∃ t, σ.HasThread y t := by
    simp only [machineView, Std.ExtTreeMap.mem_keys, Std.ExtTreeMap.mem_iff_isSome_getElem?,
      Option.isSome_iff_exists]
  have hstart : machineView.startedOn σ y = some g ↔
      ∃ t, σ.HasThread y t ∧ t.status ≠ .finished ∧ t.entryFunction = g := by
    simp only [machineView, Option.map_eq_some_iff, Option.filter_eq_some_iff, Engine.isLive,
      decide_eq_true_eq, and_assoc]
  rw [hkeys, hstart]
  constructor
  · rintro ⟨-, h0, h⟩
    exact ⟨h0, h⟩
  · rintro ⟨h0, t, ht, h⟩
    exact ⟨⟨t, ht⟩, h0, t, ht, h⟩

theorem Ages.instances (h : Ages σ σ') (hw : Wf P σ) (hw' : Wf P σ') (g : FunctionId) :
    machineView.instances σ' g ⊆ machineView.instances σ g := by
  intro y hy
  obtain ⟨h0, t', ht', hlive, he⟩ := mem_machine_instances.mp hy
  obtain ⟨t, ht, hen, hstk⟩ := h.threads y t' ht'
  refine mem_machine_instances.mpr ⟨h0, t, ht, fun hfin ↦ hlive ?_, hen.trans he⟩
  have hnil := (hw.stack.finished_stack y t ht).mp hfin
  exact (hw'.stack.finished_stack y t' ht').mpr (hstk hnil)

/-- A new thread is an instance of the function it is started on, if it is not finished
at once. -/
theorem Started.instances {new : Option Frame} (h : Started P σ σ' u new) (g : FunctionId) :
    machineView.instances σ' g ⊆ if u.entryFunction = g ∧ new ≠ none
      then insert u.id (machineView.instances σ g) else machineView.instances σ g := by
  intro y hy
  obtain ⟨h0, t', ht', hlive, he⟩ := mem_machine_instances.mp hy
  rcases h.hasThread.mp ht' with ⟨rfl, rfl⟩ | ⟨hne, ht⟩
  · have hnew : new ≠ none := by
      rintro rfl
      exact hlive h.status
    rw [if_pos ⟨he, hnew⟩]
    exact Finset.mem_insert_self _ _
  · have hin := mem_machine_instances.mpr ⟨h0, t', ht, hlive, he⟩
    split_ifs
    · exact Finset.mem_insert_of_mem hin
    · exact hin

theorem card_createThread (hlt : k < E.program.functions.length) {parent : Option ScopeId}
    {c : ThreadId} (hp : ∀ s, parent = some s → s < σ.alloc.nextScope ∧ σ.scopes[s]? = none)
    (h : E.createThread σ k parent = some (c, σ₁)) (g : FunctionId) :
    (machineView.instances σ₁ g).card ≤ (machineView.instances σ g).card +
      if k = g ∧ (E.program.function g).isTransparentNobody = false then 1 else 0 := by
  obtain ⟨u, new, hst, -, hen, -, hnew⟩ := createThread_started hlt hp h
  refine (Finset.card_le_card (hst.instances g)).trans ?_
  rw [hen]
  by_cases hk : k = g
  · subst hk
    cases htr : (E.program.function k).isTransparentNobody with
    | true =>
        have hnone : new = none := hnew.mpr htr
        simp [hnone]
    | false =>
        have hsome : new ≠ none := fun hn ↦ by
          rw [Engine.function, htr] at hnew
          exact absurd (hnew.mp hn) (by simp)
        simpa [hsome] using Finset.card_insert_le u.id (machineView.instances σ k)
  · simp [hk]

/-- The members of a scope are its list, each function as often as it is listed. -/
theorem card_createMembers (gs : List FunctionId) {s : ScopeId} {r r' : BTreeSet ThreadId}
    (hlt : gs.all (· < E.program.functions.length) = true)
    (hs : s < σ.alloc.nextScope ∧ σ.scopes[s]? = none)
    (h : E.createMembers s σ r gs = some (σ', r')) (g : FunctionId) :
    (machineView.instances σ' g).card ≤ (machineView.instances σ g).card +
      if (E.program.function g).isTransparentNobody = false then gs.count g else 0 := by
  induction gs generalizing σ r with
  | nil =>
      obtain ⟨rfl, -⟩ := Prod.mk.inj (Option.some.inj h)
      simp
  | cons k gs ih =>
      rw [Engine.createMembers] at h
      rw [List.all_cons, Bool.and_eq_true, decide_eq_true_eq] at hlt
      split at h
      case _ => cases h
      case _ c σ₁ hc =>
        have hp : ∀ s', some s = some s' → s' < σ.alloc.nextScope ∧ σ.scopes[s']? = none := by
          rintro _ ⟨⟩
          exact hs
        have hone := card_createThread hlt.1 hp hc g
        obtain ⟨u, new, hst, -⟩ := createThread_started hlt.1 hp hc
        have hs₁ : s < σ₁.alloc.nextScope ∧ σ₁.scopes[s]? = none := by
          rw [hst.scopes]
          exact ⟨hs.1.trans_le hst.alloc.scope, hs.2⟩
        have hrest := ih hlt.2 hs₁ h
        rw [List.count_cons]
        by_cases hk : k = g
        · simp only [hk, true_and, beq_self_eq_true, if_true] at hone ⊢
          split_ifs at hone hrest ⊢ <;> omega
        · simp only [hk, false_and, if_false, beq_iff_eq] at hone ⊢
          split_ifs at hrest ⊢ <;> omega

/-- The check of a bound counts at least the instances. -/
theorem card_lt_of_withinFunctionBound (hw : Wf E.program σ)
    (h : E.withinFunctionBound σ g = true) {b : ℤ} (hb : (E.program.function g).bound = some b) :
    ((machineView.instances σ g).card : ℤ) < max b 0 := by
  rw [Engine.withinFunctionBound, Engine.function, hb] at h
  have hlt := of_decide_eq_true h
  have hle : (machineView.instances σ g).card ≤ σ.threads.toList.countP fun p ↦
      Engine.isLive p.2 &&
        (p.2.stack.getLast?.bind (σ.store.frames[·]?)).map (·.function) = some g := by
    rw [List.countP_eq_length_filter, ← List.length_map (f := Prod.fst)]
    refine (Finset.card_le_card fun y hy ↦ ?_).trans (List.toFinset_card_le _)
    obtain ⟨-, t, ht, hlive, he⟩ := mem_machine_instances.mp hy
    refine List.mem_toFinset.mpr (List.mem_map.mpr ⟨(y, t), List.mem_filter.mpr ⟨?_, ?_⟩, rfl⟩)
    · exact Std.ExtTreeMap.mem_toList_iff_getElem?_eq_some.mpr ht
    · have hne : t.stack ≠ [] := fun hnil ↦ hlive ((hw.stack.finished_stack y t ht).mpr hnil)
      obtain ⟨fr, hfr, hfn⟩ := hw.stack.bottom y t _ ht (List.getLast?_eq_some_getLast hne)
      rw [List.getLast?_eq_some_getLast hne, Option.bind_some,
        show σ.store.frames[t.stack.getLast hne]? = some fr from hfr]
      simp [Engine.isLive, hlive, hfn, he]
  omega

end Instances

section Steps

/-- Threads that only age leave no more instances. -/
theorem InstanceBound.ages (hb : InstanceBound P machineView σ) (hw : Wf P σ) (hw' : Wf P σ')
    (h : Ages σ σ') : InstanceBound P machineView σ' := by
  intro g b hg
  have hle := Finset.card_le_card (h.instances hw hw' g)
  have hbound := hb g b hg
  omega

/-- A spawn has been checked against the bound. -/
theorem InstanceBound.spawn (hb : InstanceBound E.program machineView σ) (hw : Wf E.program σ)
    (hlt : k < E.program.functions.length) (hk : E.withinFunctionBound σ k = true)
    {c : ThreadId} (hc : E.createThread σ k none = some (c, σ₁)) :
    InstanceBound E.program machineView σ₁ := by
  intro g b hg
  have hcard := card_createThread hlt (by simp) hc g
  have hbound := hb g b hg
  split_ifs at hcard with h
  · obtain rfl := h.1
    have hless := card_lt_of_withinFunctionBound hw hk hg
    omega
  · omega

/-- A scope has been given room for its members. -/
theorem InstanceBound.members (hb : InstanceBound E.program machineView σ)
    {gs : List FunctionId} (hlt : gs.all (· < E.program.functions.length) = true)
    (hs : s < σ.alloc.nextScope ∧ σ.scopes[s]? = none) {r r' : BTreeSet ThreadId}
    (hc : E.createMembers s σ r gs = some (σ₁, r'))
    (hroom : ∀ g ∈ gs, ∀ b, (E.program.function g).bound = some b →
      (E.program.function g).isTransparentNobody = false →
        ((machineView.instances σ g).card : ℤ) + gs.count g ≤ max b 0) :
    InstanceBound E.program machineView σ₁ := by
  intro g b hg
  have hcard := card_createMembers gs hlt hs hc g
  have hbound := hb g b hg
  by_cases hmem : g ∈ gs
  · have hr := hroom g hmem b hg
    split_ifs at hcard with htr
    · have hfit := hr htr
      omega
    · omega
  · rw [List.count_eq_zero_of_not_mem hmem, ite_self] at hcard
    omega

variable [FloatArith]

theorem Fires.instanceBound (hw : Wf E.program σ) (hl : Live σ) (h : Fires E x σ σ')
    (hroom : RoomFor E.program machineView σ x) (hb : InstanceBound E.program machineView σ) :
    InstanceBound E.program machineView σ' := by
  have hw' := (h.wf hw hl).1
  rcases h.ages with h | ⟨t, f, fr, op, top, hrun, hop, hforks, he⟩
  · exact hb.ages hw hw' h
  · clear h
    have hruns : machineView.Runs E.program σ x op := (runs_iff top).mpr ⟨hrun, hop⟩
    have hw₁ : Wf E.program (σ.markReached fr.function fr.pc) := hw.quiet (quiet_markReached _ _)
    have hok := SemProgram.opAt_ok hop
    cases he with
    | done h => cases h <;> cases hforks
    | block h => cases h <;> cases hforks
    | pair h => cases h <;> cases hforks
    | ret he _ _ =>
        subst he
        cases hforks
    | create h =>
        cases h with
        | call | join => cases hforks
        | spawn k handle child σ₁ hk hc =>
            have hb₁ : InstanceBound E.program machineView (σ.markReached fr.function fr.pc) := hb
            obtain ⟨u, new, hst, -⟩ := createThread_started (of_decide_eq_true hok) (by simp) hc
            have hbind : Ages σ₁ ((Engine.bindHandle σ₁ x f handle child).advance x) := by
              refine Ages.step ?_ x
              rw [Engine.bindHandle]
              refine Ages.trans ?_ (.modifyThread _ x fun _ ↦ ⟨rfl, id⟩)
              exact .of_eq rfl rfl
            exact (hb₁.spawn hw₁ (of_decide_eq_true hok) hk hc).ages (hw₁.start hst) hw' hbind
        | scopeDone gs σ₁ _ _ hc =>
            have hm := hw₁.members hok hc
            have hmembers : InstanceBound E.program machineView σ₁ := by
              refine InstanceBound.members ?_ hok ?_ hc (hroom gs hruns)
              · exact hb
              · exact ⟨Nat.lt_succ_self _, hw₁.fresh_scope⟩
            refine hmembers.ages hm.wf hw' (Ages.trans ?_ (.advance _ x))
            exact .of_eq rfl rfl
        | scope gs σ₁ remaining _ _ hc _ =>
            have hm := hw₁.members hok hc
            have hmembers : InstanceBound E.program machineView σ₁ := by
              refine InstanceBound.members ?_ hok ?_ hc (hroom gs hruns)
              · exact hb
              · exact ⟨Nat.lt_succ_self _, hw₁.fresh_scope⟩
            refine hmembers.ages hm.wf hw' (Ages.trans ?_ (.setStatus _ x _))
            exact .of_eq rfl rfl

omit [FloatArith] in
theorem instanceBound_initial (h : E.initial = .ok σ) : InstanceBound E.program machineView σ := by
  obtain ⟨u, new, hst, -⟩ := started_initial E.program
  have hthreads : σ.threads = (MachineState.initial E.program).threads := by
    rw [Engine.initial] at h
    obtain rfl := Except.ok.inj h
    split_ifs <;> rfl
  intro g b hg
  have hnone : machineView.instances σ g = ∅ := by
    refine Finset.eq_empty_iff_forall_notMem.mpr fun y hy ↦ ?_
    obtain ⟨h0, t, ht, -⟩ := mem_machine_instances.mp hy
    have ht' : (MachineState.initial E.program).HasThread y t := by
      rwa [HasThread, ← hthreads]
    rcases hst.hasThread.mp ht' with ⟨rfl, -⟩ | ⟨-, hold⟩
    · exact h0 hst.fresh.1
    · cases hold
  rw [hnone]
  simp

end Steps

end ConcIR
