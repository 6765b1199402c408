import ConcIR.Machine.Live

/-!
# Steps of a machine

Every step keeps a machine well-formed and live, and the initial state is both.
-/

namespace ConcIR

open MachineState

variable {E : Engine} {P : SemProgram} {σ σ' σ₁ : MachineState} {x y : ThreadId}
  {t : ThreadState} {f g : FrameId} {fr : Frame} {op : SemOp}

section Initial

theorem hasKind_lt {r : ResourceId} {k : ResKind} (h : hasKind P.resources r k = true) :
    r < P.resources.length := by
  by_contra hr
  simp [hasKind, List.getElem?_eq_none (Nat.le_of_not_lt hr)] at h

/-- What initialising the first `n` resources does to the domains of the store. -/
structure Cells (P : SemProgram) (n : ℕ) (s : Store) : Prop where
  vars : ∀ r, s.vars.contains r = (decide (r < n) && hasKind P.resources r .var)
  atomics : ∀ r, s.atomics.contains r = (decide (r < n) && hasKind P.resources r .atomic)
  mutexes : ∀ r, s.mutexes.contains r = (decide (r < n) && hasKind P.resources r .mutex)
  semaphores : ∀ r, s.semaphores.contains r =
    (decide (r < n) && hasKind P.resources r .semaphore)
  channels : ∀ r, s.channels.contains r = (decide (r < n) && hasKind P.resources r .channel)
  condvars : ∀ r, s.condvars.contains r = (decide (r < n) && hasKind P.resources r .condvar)
  channel_empty : ∀ (r : ResourceId) c, s.channels[r]? = some c → c = .empty
  condvar_empty : ∀ (r : ResourceId) c, s.condvars[r]? = some c → c.waiters = []
  frames : s.frames = ∅

section Cell

variable {V : Type} {n : ℕ} {k : ResKind} {m : BTreeMap ResourceId V}
  (h : ∀ r, m.contains r = (decide (r < n) && hasKind P.resources r k))

include h

theorem keep_cells (hk : hasKind P.resources n k = false) (r : ResourceId) :
    m.contains r = (decide (r < n + 1) && hasKind P.resources r k) := by
  rw [h]
  by_cases hr : r = n
  · simp [hr, hk]
  · have : r < n + 1 ↔ r < n := by rw [Nat.lt_succ_iff_lt_or_eq, or_iff_left hr]
    simp [this]

theorem insert_cells (hk : hasKind P.resources n k = true) (v : V) (r : ResourceId) :
    (m.insert n v).contains r = (decide (r < n + 1) && hasKind P.resources r k) := by
  rw [Std.ExtTreeMap.contains_insert, h]
  by_cases hr : r = n
  · simp [hr, hk]
  · have : r < n + 1 ↔ r < n := by rw [Nat.lt_succ_iff_lt_or_eq, or_iff_left hr]
    simp [this, Ne.symm hr]

end Cell

theorem Cells.step {n : ℕ} {s : Store} (hn : n < P.resources.length) (h : Cells P n s) :
    Cells P (n + 1) (initResource s n (P.resource n)) := by
  obtain ⟨res, hres⟩ : ∃ res, P.resources[n]? = some res :=
    ⟨_, List.getElem?_eq_getElem hn⟩
  have hr : P.resource n = res := by simp [SemProgram.resource, hres]
  have hok := P.resources_ok res (List.mem_of_getElem? hres)
  have hkind : ∀ k, hasKind P.resources n k = decide (res.kind = k) := by
    intro k
    simp [hasKind, hres]
  have hne : ∀ k, res.kind ≠ k → hasKind P.resources n k = false := fun k hk ↦ by
    simp [hkind, hk]
  have heq : ∀ k, res.kind = k → hasKind P.resources n k = true := fun k hk ↦ by
    simp [hkind, hk]
  rw [hr, initResource]
  cases hc : res.kind with
  | var =>
      obtain ⟨v, hv⟩ : ∃ v, res.init = some v := by
        simp only [SemResource.isLowered, hc, Bool.and_eq_true] at hok
        exact Option.isSome_iff_exists.mp hok.2
      simp only [hv]
      exact ⟨insert_cells h.vars (heq _ hc) v, keep_cells h.atomics (hne _ (by simp [hc])),
        keep_cells h.mutexes (hne _ (by simp [hc])),
        keep_cells h.semaphores (hne _ (by simp [hc])),
        keep_cells h.channels (hne _ (by simp [hc])),
        keep_cells h.condvars (hne _ (by simp [hc])), h.channel_empty, h.condvar_empty, h.frames⟩
  | atomic =>
      obtain ⟨v, hv⟩ : ∃ v, res.init = some v := by
        simp only [SemResource.isLowered, hc, Bool.and_eq_true] at hok
        exact Option.isSome_iff_exists.mp hok.2
      simp only [hv]
      exact ⟨keep_cells h.vars (hne _ (by simp [hc])), insert_cells h.atomics (heq _ hc) v,
        keep_cells h.mutexes (hne _ (by simp [hc])),
        keep_cells h.semaphores (hne _ (by simp [hc])),
        keep_cells h.channels (hne _ (by simp [hc])),
        keep_cells h.condvars (hne _ (by simp [hc])), h.channel_empty, h.condvar_empty, h.frames⟩
  | mutex =>
      exact ⟨keep_cells h.vars (hne _ (by simp [hc])),
        keep_cells h.atomics (hne _ (by simp [hc])), insert_cells h.mutexes (heq _ hc) _,
        keep_cells h.semaphores (hne _ (by simp [hc])),
        keep_cells h.channels (hne _ (by simp [hc])),
        keep_cells h.condvars (hne _ (by simp [hc])), h.channel_empty, h.condvar_empty, h.frames⟩
  | semaphore =>
      exact ⟨keep_cells h.vars (hne _ (by simp [hc])),
        keep_cells h.atomics (hne _ (by simp [hc])),
        keep_cells h.mutexes (hne _ (by simp [hc])), insert_cells h.semaphores (heq _ hc) _,
        keep_cells h.channels (hne _ (by simp [hc])),
        keep_cells h.condvars (hne _ (by simp [hc])), h.channel_empty, h.condvar_empty, h.frames⟩
  | channel =>
      refine ⟨keep_cells h.vars (hne _ (by simp [hc])),
        keep_cells h.atomics (hne _ (by simp [hc])),
        keep_cells h.mutexes (hne _ (by simp [hc])),
        keep_cells h.semaphores (hne _ (by simp [hc])), insert_cells h.channels (heq _ hc) _,
        keep_cells h.condvars (hne _ (by simp [hc])), fun r c hrc ↦ ?_, h.condvar_empty, h.frames⟩
      rw [Std.ExtTreeMap.getElem?_insert] at hrc
      split_ifs at hrc
      · exact (Option.some.inj hrc).symm
      · exact h.channel_empty r c hrc
  | condvar =>
      refine ⟨keep_cells h.vars (hne _ (by simp [hc])),
        keep_cells h.atomics (hne _ (by simp [hc])),
        keep_cells h.mutexes (hne _ (by simp [hc])),
        keep_cells h.semaphores (hne _ (by simp [hc])),
        keep_cells h.channels (hne _ (by simp [hc])), insert_cells h.condvars (heq _ hc) _,
        h.channel_empty, fun r c hrc ↦ ?_, h.frames⟩
      rw [Std.ExtTreeMap.getElem?_insert] at hrc
      split_ifs at hrc
      · rw [← Option.some.inj hrc]
      · exact h.condvar_empty r c hrc
  | rwLock =>
      exact ⟨keep_cells h.vars (hne _ (by simp [hc])),
        keep_cells h.atomics (hne _ (by simp [hc])),
        keep_cells h.mutexes (hne _ (by simp [hc])),
        keep_cells h.semaphores (hne _ (by simp [hc])),
        keep_cells h.channels (hne _ (by simp [hc])),
        keep_cells h.condvars (hne _ (by simp [hc])), h.channel_empty, h.condvar_empty, h.frames⟩

theorem cells_initResources (P : SemProgram) :
    Cells P P.resources.length (initResources P) := by
  have hupto : ∀ n ≤ P.resources.length,
      Cells P n ((List.range n).foldl (fun s i ↦ initResource s i (P.resource i)) .empty) := by
    intro n hn
    induction n with
    | zero =>
        constructor <;> intros <;> simp_all [Store.empty]
    | succ n ih =>
        rw [List.range_succ, List.foldl_append]
        exact Cells.step hn (ih (Nat.le_of_succ_le hn))
  exact hupto _ le_rfl

/-- The initial store has a cell for each resource of its kind, and nobody waits. -/
theorem Cells.stores {s : Store} (h : Cells P P.resources.length s) (hσ : σ.store =
    { s with frames := σ.store.frames }) : Stores P σ ∧ (∀ c, σ.sends c = []) ∧
      (∀ c, σ.recvs c = []) ∧ (∀ c, σ.buffer c = []) ∧ ∀ cv, σ.waiters cv = [] := by
  have hall : ∀ {b r k}, b = (decide (r < P.resources.length) && hasKind P.resources r k) →
      b = hasKind P.resources r k := by
    intro b r k hb
    rw [hb]
    cases hk : hasKind P.resources r k with
    | false => simp
    | true => simpa using hasKind_lt hk
  have hch : ∀ (c : ResourceId) ch, σ.store.channels[c]? = some ch → ch = .empty := by
    rw [hσ]
    exact h.channel_empty
  have hsends : ∀ c, σ.sends c = [] := by
    intro c
    rw [sends]
    cases hc : σ.store.channels[c]? with
    | none => rfl
    | some ch => rw [hch c ch hc]; rfl
  have hrecvs : ∀ c, σ.recvs c = [] := by
    intro c
    rw [recvs]
    cases hc : σ.store.channels[c]? with
    | none => rfl
    | some ch => rw [hch c ch hc]; rfl
  have hbuf : ∀ c, σ.buffer c = [] := by
    intro c
    rw [buffer]
    cases hc : σ.store.channels[c]? with
    | none => rfl
    | some ch => rw [hch c ch hc]; rfl
  refine ⟨⟨fun r ↦ ?_, fun r ↦ ?_, fun r ↦ ?_, fun r ↦ ?_, fun r ↦ ?_, fun r ↦ ?_, ?_, ?_, ?_⟩,
    hsends, hrecvs, hbuf, fun cv ↦ ?_⟩
  · rw [hσ]
    exact hall (h.vars r)
  · rw [hσ]
    exact hall (h.atomics r)
  · rw [hσ]
    exact hall (h.mutexes r)
  · rw [hσ]
    exact hall (h.semaphores r)
  · rw [hσ]
    exact hall (h.channels r)
  · rw [hσ]
    exact hall (h.condvars r)
  · intro c
    simp [hbuf]
  · intro c _
    exact .inl (hsends c)
  · intro c p ty hp
    rw [hsends] at hp
    cases hp
  · rw [waiters, hσ]
    cases hc : s.condvars[cv]? with
    | none => simp
    | some c => simp [h.condvar_empty cv c hc]

/-- The machine before its first thread. -/
def bare (P : SemProgram) : MachineState where
  store := initResources P
  threads := ∅
  semWaiters := ∅
  scopes := ∅
  finished := ∅
  completedFunctions := ∅
  completedScopes := ∅
  reached := ∅
  alloc := ⟨0, 0, 0, 0⟩

theorem wf_bare (P : SemProgram) : Wf P (bare P) := by
  have hc := cells_initResources P
  obtain ⟨hst, hse, hre, -, hwa⟩ := Cells.stores (σ := bare P) hc rfl
  have hth : ∀ x t, ¬ (bare P).HasThread x t := fun x t ↦ by simp [bare]
  have hfr : ∀ f fr, ¬ (bare P).HasFrame f fr := fun f fr ↦ by simp [bare, hc.frames]
  have hsc : ∀ s sc, ¬ (bare P).HasScope s sc := fun s sc ↦ by simp [bare]
  have hst' : ∀ x, (bare P).status x = none := fun x ↦ by simp [bare, status]
  have hqu : ∀ r, (bare P).semQueue r = [] := fun r ↦ by simp [bare, semQueue]
  refine ⟨⟨fun x t h ↦ absurd h (hth x t), fun f fr h ↦ absurd h (hfr f fr),
    fun f fr h ↦ absurd h (hfr f fr), fun x t _ h ↦ absurd h (hth x t),
    fun f fr h ↦ absurd h (hfr f fr), fun x t h ↦ absurd h (hth x t),
    fun x t _ _ _ h ↦ absurd h (hth x t), fun x t h ↦ absurd h (hth x t), fun x ↦ ?_,
    fun x t _ h ↦ absurd h (hth x t), fun x t h ↦ absurd h (hth x t)⟩,
    ⟨fun x r hr ↦ ?_, fun c ↦ ?_, fun c ↦ ?_, fun cv ↦ ?_, fun r ↦ ?_⟩,
    ⟨fun f fr h ↦ absurd h (hfr f fr), fun x t _ h ↦ absurd h (hth x t)⟩,
    ⟨fun x t _ _ _ _ h ↦ absurd h (hth x t), fun x t _ _ h ↦ absurd h (hth x t),
      fun x t _ _ _ _ _ h ↦ absurd h (hth x t), fun f fr _ _ _ _ _ h ↦ absurd h (hfr f fr),
      fun f fr _ _ h ↦ absurd h (hfr f fr)⟩,
    ⟨fun s sc h ↦ absurd h (hsc s sc), fun x t _ h ↦ absurd h (hth x t),
      fun s sc h ↦ absurd h (hsc s sc), fun s sc _ h ↦ absurd h (hsc s sc)⟩, hst⟩
  · rw [hst']
    simp [bare]
  · rw [hst']
    cases r <;> simp [registered, hse, hre, hwa, hqu, hsc]
  · simp [hse]
  · simp [hre]
  · simp [hwa]
  · simp [hqu]

theorem started_initial (P : SemProgram) :
    ∃ u new, Started P (bare P) (MachineState.initial P) u new ∧ u.parentScope = none := by
  by_cases htr : (P.function P.entry).isTransparentNobody = true
  · refine ⟨⟨0, .finished, [], P.entry, ∅, none⟩, none, ?_, rfl⟩
    rw [MachineState.initial, if_pos htr]
    exact {
      threads := fun y ↦ by grind [bare]
      frames := fun k ↦ rfl
      finished := fun y ↦ by grind [bare]
      scopes := rfl
      alloc := ⟨Nat.zero_le _, le_rfl, le_rfl, le_rfl⟩
      fresh := ⟨rfl, Nat.one_pos⟩
      status := rfl
      stack := rfl
      children := rfl
      parent := by simp
      frame := by simp
      tables := ⟨rfl, rfl⟩ }
  · refine ⟨⟨0, .runnable, [0], P.entry, ∅, none⟩, some ((bare P).newFrame P P.entry), ?_, rfl⟩
    rw [MachineState.initial, if_neg htr]
    exact {
      threads := fun y ↦ by
        change ((∅ : BTreeMap ThreadId ThreadState).insert 0
          ⟨0, .runnable, [0], P.entry, ∅, none⟩)[y]? = _
        grind [bare]
      frames := fun k ↦ by
        change ((initResources P).frames.insert 0 ((bare P).newFrame P P.entry))[k]? = _
        grind [bare, newFrame]
      finished := fun y ↦ by
        change y ∈ (∅ : BTreeSet ThreadId) ↔ _
        simp [bare]
      scopes := rfl
      alloc := ⟨Nat.zero_le _, Nat.zero_le _, le_rfl, le_rfl⟩
      fresh := ⟨rfl, Nat.one_pos⟩
      status := rfl
      stack := rfl
      children := rfl
      parent := by simp
      frame := by
        rintro _ ⟨⟩
        exact ⟨⟨rfl, Nat.one_pos⟩, rfl, P.entry_lt, rfl, rfl⟩
      tables := ⟨rfl, rfl⟩ }

theorem wf_initial {σ : MachineState} (h : E.initial = .ok σ) : Wf E.program σ ∧ Live σ := by
  obtain ⟨u, new, hst, hp⟩ := started_initial E.program
  have hw := (wf_bare E.program).start hst
  have hl₀ : Live (bare E.program) :=
    ⟨fun s sc h ↦ absurd h (by simp [bare]), fun x t _ _ h ↦ absurd h (by simp [bare]),
      fun x t _ h ↦ absurd h (by simp [bare])⟩
  have hl := hl₀.start (wf_bare E.program) hst hp
  rw [Engine.initial] at h
  obtain rfl := Except.ok.inj h
  split_ifs
  · exact ⟨hw.quiet (.of_store rfl rfl rfl rfl rfl rfl rfl (.refl _) (fun _ ↦ rfl)
      (fun _ ↦ rfl) (fun _ ↦ rfl) fun _ ↦ rfl), hl.steady (.of_eq rfl rfl)⟩
  · exact ⟨hw, hl⟩

theorem tables_initial {σ : MachineState} (h : E.initial = .ok σ) :
    SameTables (bare E.program) σ := by
  obtain ⟨u, new, hst, -⟩ := started_initial E.program
  rw [Engine.initial] at h
  obtain rfl := Except.ok.inj h
  split_ifs
  · exact ⟨hst.tables.store, hst.tables.semWaiters⟩
  · exact hst.tables

/-- Nothing is queued and nobody waits at the start. -/
theorem queues_initial {σ : MachineState} (h : E.initial = .ok σ) :
    (∀ c, σ.sends c = []) ∧ (∀ c, σ.recvs c = []) ∧ (∀ c, σ.buffer c = []) ∧
      ∀ cv, σ.waiters cv = [] :=
  (Cells.stores (cells_initResources E.program) (tables_initial h).store).2

end Initial

section Stepping

theorem Wf.applyReturn (hw : Wf E.program σ) (hl : Live σ) (top : Top σ x t f fr)
    (hrun : t.status = .runnable) {val : Option Value}
    (h : E.applyReturn σ x f fr val = some σ') : Wf E.program σ' ∧ Live σ' := by
  have hstk : (σ.threads[x]?.map (·.stack)).bind (·[1]?) = t.stack[1]? := by
    rw [show σ.threads[x]? = some t from top.thread]
    rfl
  obtain ⟨rest, hrest⟩ := List.head?_eq_some_iff.mp top.head
  rw [Engine.applyReturn, hstk] at h
  split_ifs at h
  cases rest with
  | nil =>
      rw [hrest] at h
      obtain rfl := Option.some.inj h
      exact ⟨hw.finishThread top hrun hrest _, hl.finishThread hw top hrun hrest _⟩
  | cons caller rest =>
      rw [hrest] at h
      obtain rfl := Option.some.inj h
      refine ⟨hw.returnTo top hrun hrest val, hl.steady ?_⟩
      have hu := unwound_popFrame top hrun hrest
      have hpop : Steady σ (Engine.popFrame σ x f) := by
        refine ⟨fun y ↦ ?_, rfl⟩
        rw [hu.threads]
        split_ifs with hy
        · rw [hy, show σ.threads[x]? = some t from top.thread]
          simp [ThreadState.bond, hrun]
        · rfl
      refine hpop.trans (.of_eq ?_ ?_)
      all_goals
        simp only [Engine.returnTo, recordCompletion_records]
        cases fr.ret with
        | none => rfl
        | some ret =>
            cases val with
            | none => rfl
            | some v => simp [setPc, modifyFrame]

variable [FloatArith]

theorem Creates.wf (hw : Wf E.program σ) (hl : Live σ) (top : Top σ x t f fr)
    (hrun : t.status = .runnable) (hop : E.program.opAt fr.function fr.pc = some op)
    (h : Creates E σ x t f fr op σ') : Wf E.program σ' ∧ Live σ' := by
  have hok := SemProgram.opAt_ok hop
  have hpc := SemProgram.opAt_lt hop
  cases h with
  | call g args dst values _ _ _ =>
      simp only [opOk, Bool.and_eq_true, decide_eq_true_eq] at hok
      have hp := pushed_pushFrame top hok.1 values hpc hok.2
      refine ⟨hw.push top hrun hp, hl.steady ⟨fun y ↦ ?_, hp.scopes⟩⟩
      rw [hp.threads]
      split_ifs with hy
      · rw [hy, show σ.threads[x]? = some t from top.thread]
        rfl
      · rfl
  | spawn g handle child σ₁ _ hc =>
      have hlt : g < E.program.functions.length := of_decide_eq_true hok
      exact ⟨hw.spawn top hrun hpc hlt hc, hl.spawn hw top hrun hlt hc⟩
  | scopeDone gs σ₁ _ _ hc =>
      have hm := hw.members hok hc
      have hq : Quiet E.program σ₁ { σ₁ with
          completedScopes := σ₁.completedScopes.insert (fr.function, fr.pc) } :=
        .of_store rfl rfl rfl rfl rfl rfl rfl (.refl _) (fun _ ↦ rfl) (fun _ ↦ rfl)
          (fun _ ↦ rfl) fun _ ↦ rfl
      have top₁ : Top σ₁ x t f fr :=
        ⟨hm.old x t top.thread, top.head, hm.oldFrame f fr top.frame⟩
      have hr : Ready E.program { σ₁ with
          completedScopes := σ₁.completedScopes.insert (fr.function, fr.pc) } x f :=
        (Ready.of_top top₁ hrun hpc).congr rfl rfl
      refine ⟨hm.wf.done hq hr, (hl.membersDone hw hm).steady ?_⟩
      refine .step ?_ x
      exact .of_eq rfl rfl
  | scope gs σ₁ remaining _ _ hc hr =>
      have hm := hw.members hok hc
      have top₁ : Top σ₁ x t f fr :=
        ⟨hm.old x t top.thread, top.head, hm.oldFrame f fr top.frame⟩
      have hno : σ.scopes[σ.alloc.nextScope]? = none := by
        cases hs : σ.scopes[σ.alloc.nextScope]? with
        | none => rfl
        | some sc => exact absurd (hw.scopes.scope_id _ sc hs).2 (Nat.lt_irrefl _)
      have hpar : t.parentScope ≠ some σ.alloc.nextScope := fun hp ↦
        absurd (hw.scopes.parent_lt x t _ top.thread hp) (Nat.lt_irrefl _)
      exact ⟨hm.wf.block top₁ hrun hop (.openScope hm.wf top₁ hrun hm.scope_lt
        (by rwa [hm.scopes]) hpar hm.remaining) ⟨gs, rfl⟩,
        hl.openScope hw hm top hrun hr hno⟩
  | join name k c hh hc hf =>
      exact ⟨hw.consumeJoin top hrun hpc hh hc hf,
        (hl.consumeJoin top hrun name k c).steady (.advance _ x)⟩

theorem Fires.wf (hw : Wf E.program σ) (hl : Live σ) (h : Fires E x σ σ') :
    Wf E.program σ' ∧ Live σ' := by
  cases h with
  | @exec t f fr op _ top hrun hop h =>
      have hw₁ : Wf E.program (σ.markReached fr.function fr.pc) :=
        hw.quiet (quiet_markReached _ _)
      have hl₁ : Live (σ.markReached fr.function fr.pc) := hl.steady (.of_eq rfl rfl)
      have top₁ : Top (σ.markReached fr.function fr.pc) x t f fr :=
        ⟨top.thread, top.head, top.frame⟩
      have hok := SemProgram.opAt_ok hop
      cases h with
      | done h =>
          exact ⟨h.wf hw₁ (.of_top top₁ hrun (SemProgram.opAt_lt hop)) top₁.frame hok,
            hl₁.steady h.steady⟩
      | block h => exact ⟨h.wf hw₁ top₁ hrun hop, h.live hw₁ hl₁ top₁ hrun⟩
      | pair h => exact ⟨h.wf hw₁ top₁ hrun hop, hl₁.steady (h.steady hw₁ hok)⟩
      | create h => exact h.wf hw₁ hl₁ top₁ hrun hop
      | ret _ _ h => exact hw₁.applyReturn hl₁ top₁ hrun h
  | endOfBody top hrun _ h => exact hw.applyReturn hl top hrun h
  | resume top hb h =>
      exact ⟨h.wf hw top hb, hl.steady (h.steady (by rw [top.status, hb]))⟩

end Stepping

end ConcIR
