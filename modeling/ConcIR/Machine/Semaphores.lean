import ConcIR.Machine.Observed

/-!
# Semaphore accounting

What a step does to the permits of a semaphore: an acquire that is completed takes its
permits, a release that is completed gives them, and nothing else changes them.
-/

namespace ConcIR

open MachineState

/-- The permits that completing a statement takes from a semaphore. -/
def SemOp.acquires (r : ResourceId) : SemOp → ℤ
  | .semaphoreAcquire q n => if q = r then n else 0
  | _ => 0

/-- The permits that completing a statement gives to a semaphore. -/
def SemOp.releases (r : ResourceId) : SemOp → ℤ
  | .semaphoreRelease q n => if q = r then n else 0
  | _ => 0

namespace EngineView

variable {S : Type} (V : EngineView S) (P : SemProgram)

/-- The permits acquired along a run. -/
def acquired (r : ResourceId) (es : List (Transition S)) : ℤ :=
  (es.map fun e ↦ ((V.completed P e.before e.after).map (SemOp.acquires r)).sum).sum

/-- The permits released along a run. -/
def released (r : ResourceId) (es : List (Transition S)) : ℤ :=
  (es.map fun e ↦ ((V.completed P e.before e.after).map (SemOp.releases r)).sum).sum

theorem acquired_concat (r : ResourceId) (es : List (Transition S)) (e : Transition S) :
    V.acquired P r (es ++ [e]) = V.acquired P r es +
      ((V.completed P e.before e.after).map (SemOp.acquires r)).sum := by
  simp [acquired]

theorem released_concat (r : ResourceId) (es : List (Transition S)) (e : Transition S) :
    V.released P r (es ++ [e]) = V.released P r es +
      ((V.completed P e.before e.after).map (SemOp.releases r)).sum := by
  simp [released]

end EngineView

/-- What a step may do to the permits of the semaphores. -/
structure SemaphoreStep {S : Type} (P : SemProgram) (V : EngineView S) (s s' : S) : Prop where
  balance : ∀ r k, V.available s r = some k → V.available s' r =
    some (k + ((V.completed P s s').map (SemOp.releases r)).sum -
      ((V.completed P s s').map (SemOp.acquires r)).sum)
  /-- No step makes the permits negative. -/
  nonneg : ∀ r k k', V.available s r = some k → V.available s' r = some k' → 0 ≤ k → 0 ≤ k'
  /-- An acquire is completed with enough permits only. -/
  enough : ∀ r n, .semaphoreAcquire r n ∈ V.completed P s s' →
    ∃ k, V.available s r = some k ∧ n ≤ k

/-- The ways the thread of a step uses semaphores. -/
inductive PermitsStep (P : SemProgram) (σ : MachineState) (x : ThreadId) (σ' : MachineState) :
    Prop
  | keep (hno : machineView.passes σ σ' x = true → ∀ op, machineView.statement P σ x = some op →
        (∀ r n, op ≠ .semaphoreAcquire r n) ∧ ∀ r n, op ≠ .semaphoreRelease r n)
      (hs : σ'.store.semaphores = σ.store.semaphores)
  | acquire (r : ResourceId) (n k : ℤ)
      (hst : machineView.statement P σ x = some (.semaphoreAcquire r n))
      (hp : machineView.passes σ σ' x = true) (hk : σ.store.semaphores[r]? = some k)
      (hle : n ≤ k) (hs : σ'.store.semaphores = σ.store.semaphores.insert r (k - n))
  | release (r : ResourceId) (n k : ℤ) (hn : 0 < n)
      (hst : machineView.statement P σ x = some (.semaphoreRelease r n))
      (hp : machineView.passes σ σ' x = true) (hk : σ.store.semaphores[r]? = some k)
      (hs : σ'.store.semaphores = σ.store.semaphores.insert r (k + n))

variable {E : Engine} {P : SemProgram} {σ σ' σ₁ : MachineState} {x y : ThreadId}
  {t u : ThreadState} {f g : FrameId} {fr gr : Frame} {op : SemOp}

section Using

theorem PermitsStep.keep_of (hst : machineView.statement P σ x = some op)
    (hl : op.isLocking = false) (hs : σ'.store.semaphores = σ.store.semaphores) :
    PermitsStep P σ x σ' := by
  refine .keep (fun _ op' hop' ↦ ?_) hs
  obtain rfl := Option.some.inj (hst.symm.trans hop')
  constructor
  · rintro r n rfl
    cases hl
  · rintro r n rfl
    cases hl

theorem PermitsStep.of_marked {fn : FunctionId} {pc : ℕ}
    (h : PermitsStep P (σ.markReached fn pc) x σ') : PermitsStep P σ x σ' := by
  cases h with
  | keep hno hs => exact .keep hno hs
  | acquire r n k hst hp hk hle hs => exact .acquire r n k hst hp hk hle hs
  | release r n k hn hst hp hk hs => exact .release r n k hn hst hp hk hs

theorem checkedI64_eq {k m : ℤ} (h : checkedI64 k = some m) : m = k := by
  rw [checkedI64] at h
  split_ifs at h
  exact (Option.some.inj h).symm

variable [FloatArith]

theorem Local.permitsStep (top : Top σ x t f fr)
    (hop : E.program.opAt fr.function fr.pc = some op) (h : Local E σ x f fr op σ') :
    PermitsStep E.program σ x σ' := by
  have hst := top.machineView_statement.trans hop
  have hpass : ∀ {m : BTreeMap ResourceId ℤ}, machineView.passes σ
      (MachineState.advance { σ with store := { σ.store with semaphores := m } } x) x = true :=
    fun {m} ↦ passes_advance top top.currentFrameId top.frame
  cases hl : op.isLocking with
  | false => exact .keep_of hst hl (h.sameCells hl).semaphores
  | true =>
      cases h with
      | acquire r n k hn hk hle =>
          exact .acquire r n k hst hpass hk hle (SameCells.advance _ x).semaphores
      | release r n k m hn hk hm =>
          obtain rfl := checkedI64_eq hm
          exact .release r n k hn hst hpass hk (SameCells.advance _ x).semaphores
      | lock | unlock =>
          refine .keep (fun _ op' hop' ↦ ?_) (SameCells.advance _ x).semaphores
          obtain rfl := Option.some.inj (hst.symm.trans hop')
          simp
      | _ => cases hl

/-- A thread that has to wait for permits does not go past its statement. -/
theorem Blocks.permitsStep (hw : Wf E.program σ) {r : BlockReason}
    (hw' : Wf E.program (σ'.block x r)) (top : Top σ x t f fr)
    (h : Blocks E σ x fr op r σ') : PermitsStep E.program σ x (σ'.block x r) := by
  have hno : machineView.passes σ (σ'.block x r) x = false :=
    not_passes_of_frame hw hw' top (congrArg (·[f]?) h.frames)
  refine .keep (fun hp ↦ absurd hp (by simp [hno])) ?_
  cases h <;> rfl

omit [FloatArith] in
/-- A resumed acquire takes the permits that its statement asks for. -/
theorem Resumes.permitsStep (hw : Wf E.program σ) (top : Top σ x t f fr) {r : BlockReason}
    (hb : t.status = .blocked r) (h : Resumes E σ x f fr r σ') :
    PermitsStep E.program σ x (Engine.complete σ' x) := by
  obtain ⟨g, gr, op, hhead, hgr, hop, hwt⟩ := hw.code.blocked x t r top.thread hb
  obtain rfl : f = g := Option.some.inj (top.head.symm.trans hhead)
  obtain rfl : fr = gr := Option.some.inj (top.frame.symm.trans hgr)
  have hst := top.machineView_statement.trans hop
  have hcells := SameCells.complete σ' x
  cases h with
  | semaphore r n k hq hk hle =>
      obtain ⟨n', rfl, hq'⟩ := hwt
      obtain rfl : n = n' := by
        have := List.inj_on_of_nodup_map (hw.regs.queue_nodup r) hq hq' rfl
        exact (Prod.mk.inj this).2
      refine .acquire r n k hst ?_ hk hle hcells.semaphores
      refine passes_advance top ((currentFrameId_setStatus x .runnable x).trans ?_) top.frame
      exact top.currentFrameId
  | lock r hm =>
      refine .keep (fun _ op' hop' ↦ ?_) hcells.semaphores
      obtain rfl := Option.some.inj (hst.symm.trans hop')
      rcases hwt with rfl | ⟨cv, rfl⟩ <;> simp
  | send c v _ _ _ =>
      refine .keep (fun _ op' hop' ↦ ?_) hcells.semaphores
      obtain rfl := Option.some.inj (hst.symm.trans hop')
      obtain ⟨e, rfl⟩ := hwt
      simp
  | recv c dst v vs σ₁ hopr _ _ hd =>
      refine .keep (fun _ op' hop' ↦ ?_) (hcells.semaphores.trans (SameCells.tryWriteDst hd).semaphores)
      obtain rfl := Option.some.inj (hst.symm.trans hop')
      obtain rfl := Option.some.inj (hop.symm.trans hopr)
      simp

theorem Executes.permitsStep (hw : Wf E.program σ) (hw' : Wf E.program σ')
    (top : Top σ x t f fr) (hrun : t.status = .runnable)
    (hop : E.program.opAt fr.function fr.pc = some op) (h : Executes E σ x t f fr op σ') :
    PermitsStep E.program σ x σ' := by
  have hst := top.machineView_statement.trans hop
  have hkeep : σ'.store.semaphores = σ.store.semaphores → op.isLocking = false →
      PermitsStep E.program σ x σ' := fun hs hl ↦ .keep_of hst hl hs
  cases h with
  | done h => exact h.permitsStep top hop
  | block h => exact h.permitsStep hw hw' top
  | pair h =>
      refine hkeep h.mutexes_semaphores.2 ?_
      cases h <;> rfl
  | create h =>
      refine hkeep (SameCells.of_tables (h.tables hop)).semaphores ?_
      cases h <;> rfl
  | ret he _ h => exact hkeep (hw.cells_applyReturn top hrun h).2.1 (by rw [he]; rfl)

theorem Fires.permitsStep (hw : Wf E.program σ) (hl : Live σ) (h : Fires E x σ σ') :
    PermitsStep E.program σ x σ' := by
  have hw' := (h.wf hw hl).1
  cases h with
  | @exec t f fr op _ top hrun hop h =>
      have hw₁ : Wf E.program (σ.markReached fr.function fr.pc) := hw.quiet (quiet_markReached _ _)
      have hm := h.permitsStep hw₁ hw' ⟨top.thread, top.head, top.frame⟩ hrun hop
      exact hm.of_marked
  | endOfBody top hrun hop h =>
      refine .keep (fun _ op' hop' ↦ ?_) (hw.cells_applyReturn top hrun h).2.1
      cases hop.symm.trans (top.machineView_statement.symm.trans hop')
  | resume top hb h => exact h.permitsStep hw top hb

end Using

section Steps

theorem SemOp.acquires_eq_zero {r : ResourceId} (h : ∀ n, op ≠ .semaphoreAcquire r n) :
    op.acquires r = 0 := by
  cases op with
  | semaphoreAcquire q n =>
      refine if_neg ?_
      rintro rfl
      exact h n rfl
  | _ => rfl

theorem SemOp.releases_eq_zero {r : ResourceId} (h : ∀ n, op ≠ .semaphoreRelease r n) :
    op.releases r = 0 := by
  cases op with
  | semaphoreRelease q n =>
      refine if_neg ?_
      rintro rfl
      exact h n rfl
  | _ => rfl

/-- Only the thread of a step completes a statement on a semaphore in it. -/
theorem sum_completed_of_other {g : SemOp → ℤ} (hx : σ.HasThread x t)
    (hother : ∀ y op, y ≠ x → machineView.passes σ σ' y = true →
      machineView.statement P σ y = some op → g op = 0) :
    ((machineView.completed P σ σ').map g).sum =
      if machineView.passes σ σ' x = true then
        ((machineView.statement P σ x).map g).getD 0 else 0 := by
  refine EngineView.sum_completed g Std.ExtTreeMap.nodup_keys ?_ fun y hne hp op hop ↦
    hother y op hne hp hop
  refine Std.ExtTreeMap.mem_keys.mpr (Std.ExtTreeMap.mem_iff_isSome_getElem?.mpr ?_)
  rw [show σ.threads[x]? = some t from hx]
  rfl

variable [FloatArith]

theorem Fires.semaphoreStep (hw : Wf E.program σ) (hl : Live σ) (h : Fires E x σ σ') :
    SemaphoreStep E.program machineView σ σ' := by
  have hw' := (h.wf hw hl).1
  have hact := h.activationStep hw
  obtain ⟨t, hx⟩ : ∃ t, σ.HasThread x t := by
    cases h with
    | exec top _ _ _ | endOfBody top _ _ _ | resume top _ _ => exact ⟨_, top.thread⟩
  have hother : ∀ y op, y ≠ x → machineView.passes σ σ' y = true →
      machineView.statement E.program σ y = some op → op.isPaired = true := by
    intro y op hne hp hop
    by_contra hpair
    rw [hact.not_passes hw hw' hne hop (by simpa using hpair)] at hp
    cases hp
  have hacq : ∀ r, ((machineView.completed E.program σ σ').map (SemOp.acquires r)).sum =
      if machineView.passes σ σ' x = true then
        ((machineView.statement E.program σ x).map (SemOp.acquires r)).getD 0 else 0 := by
    intro r
    refine sum_completed_of_other hx fun y op hne hp hop ↦ SemOp.acquires_eq_zero ?_
    rintro n rfl
    cases hother y _ hne hp hop
  have hrel : ∀ r, ((machineView.completed E.program σ σ').map (SemOp.releases r)).sum =
      if machineView.passes σ σ' x = true then
        ((machineView.statement E.program σ x).map (SemOp.releases r)).getD 0 else 0 := by
    intro r
    refine sum_completed_of_other hx fun y op hne hp hop ↦ SemOp.releases_eq_zero ?_
    rintro n rfl
    cases hother y _ hne hp hop
  have hown : ∀ r n, .semaphoreAcquire r n ∈ machineView.completed E.program σ σ' →
      machineView.passes σ σ' x = true ∧
        machineView.statement E.program σ x = some (.semaphoreAcquire r n) := by
    intro r n hmem
    obtain ⟨y, -, hp, hst⟩ := EngineView.mem_completed.mp hmem
    obtain rfl : y = x := by
      by_contra hne
      cases hother y _ hne hp hst
    exact ⟨hp, hst⟩
  -- one cell is set, to what its old permits and the completed statement make
  have hset : ∀ (q : ResourceId) (k m : ℤ), σ.store.semaphores[q]? = some k → (0 ≤ k → 0 ≤ m) →
      σ'.store.semaphores = σ.store.semaphores.insert q m →
      (∀ r, ((machineView.completed E.program σ σ').map (SemOp.releases r)).sum -
        ((machineView.completed E.program σ σ').map (SemOp.acquires r)).sum =
          if q = r then m - k else 0) →
      (∀ r n, .semaphoreAcquire r n ∈ machineView.completed E.program σ σ' →
        ∃ k, machineView.available σ r = some k ∧ n ≤ k) →
      SemaphoreStep E.program machineView σ σ' := by
    intro q k m hk hpos hs hsum henough
    have hget : ∀ r : ResourceId, machineView.available σ' r =
        if q = r then some m else machineView.available σ r := by
      intro r
      simp only [machineView, hs, Std.ExtTreeMap.getElem?_insert, Nat.compare_eq_eq]
    refine ⟨fun r i hi ↦ ?_, fun r i i' hi hi' h ↦ ?_, henough⟩
    · have hr := hsum r
      rw [hget]
      split_ifs at hr ⊢ with hq
      · obtain rfl := hq
        obtain rfl : k = i := Option.some.inj (hk.symm.trans hi)
        congr 1
        omega
      · rw [hi]
        congr 1
        omega
    · rw [hget] at hi'
      split_ifs at hi' with hq
      · obtain rfl := hq
        obtain rfl : k = i := Option.some.inj (hk.symm.trans hi)
        exact Option.some.inj hi' ▸ hpos h
      · exact Option.some.inj (hi.symm.trans hi') ▸ h
  cases h.permitsStep hw hl with
  | keep hno hs =>
      have hzero : ∀ g : SemOp → ℤ, (∀ op, (∀ r n, op ≠ .semaphoreAcquire r n) →
          (∀ r n, op ≠ .semaphoreRelease r n) → g op = 0) →
          (if machineView.passes σ σ' x = true then
            ((machineView.statement E.program σ x).map g).getD 0 else 0) = 0 := by
        intro g hg
        split_ifs with hp
        · cases hst : machineView.statement E.program σ x with
          | none => rfl
          | some op => exact hg op (hno hp op hst).1 (hno hp op hst).2
        · rfl
      have hsame : ∀ r, machineView.available σ' r = machineView.available σ r := fun r ↦
        congrArg (·[r]?) hs
      refine ⟨fun r k hk ↦ ?_, fun r k k' hk hk' h ↦ ?_, fun r n hmem ↦ ?_⟩
      · rw [hacq, hrel, hzero _ fun op ha _ ↦ SemOp.acquires_eq_zero (ha r),
          hzero _ fun op _ hr ↦ SemOp.releases_eq_zero (hr r), add_zero, sub_zero, ← hk, hsame]
      · exact Option.some.inj (hk.symm.trans ((hsame r).symm.trans hk')) ▸ h
      · obtain ⟨hp, hst⟩ := hown r n hmem
        exact absurd rfl ((hno hp _ hst).1 r n)
  | acquire q n k hst hp hk hle hs =>
      refine hset q k (k - n) hk (fun _ ↦ by omega) hs (fun r ↦ ?_) fun r i hmem ↦ ?_
      · rw [hacq, hrel, if_pos hp, if_pos hp, hst]
        by_cases hq : q = r
        · simp [SemOp.acquires, SemOp.releases, hq]
        · simp [SemOp.acquires, SemOp.releases, hq]
      · obtain ⟨-, hst'⟩ := hown r i hmem
        obtain ⟨rfl, rfl⟩ : q = r ∧ n = i := by simpa using hst.symm.trans hst'
        exact ⟨k, hk, hle⟩
  | release q n k hn hst hp hk hs =>
      refine hset q k (k + n) hk (fun _ ↦ by omega) hs (fun r ↦ ?_) fun r i hmem ↦ ?_
      · rw [hacq, hrel, if_pos hp, if_pos hp, hst]
        by_cases hq : q = r
        · simp [SemOp.acquires, SemOp.releases, hq]
        · simp [SemOp.acquires, SemOp.releases, hq]
      · obtain ⟨-, hst'⟩ := hown r i hmem
        cases hst.symm.trans hst'

end Steps

section Runs

/-- A semaphore starts with the permits it is declared with. -/
theorem semaphores_initial {r : ResourceId} (h : E.initial = .ok σ)
    (hr : hasKind E.program.resources r .semaphore = true) :
    machineView.available σ r = some (E.program.resource r).permits := by
  have hupto : ∀ n, ((List.range n).foldl (fun s i ↦ initResource s i (E.program.resource i))
      .empty).semaphores[r]? =
        if r < n ∧ (E.program.resource r).kind = .semaphore
          then some (E.program.resource r).permits else none := by
    intro n
    induction n with
    | zero => simp [Store.empty]
    | succ n ih =>
        rw [List.range_succ, List.foldl_append, List.foldl_cons, List.foldl_nil, initResource]
        cases hk : (E.program.resource n).kind with
        | semaphore =>
            simp only [Std.ExtTreeMap.getElem?_insert, Nat.compare_eq_eq, ih]
            split_ifs <;> grind
        | var | atomic =>
            cases (E.program.resource n).init <;> simp only [ih] <;> split_ifs <;> grind
        | _ =>
            simp only [ih]
            split_ifs <;> grind
  have hstore : σ.store.semaphores = (initResources E.program).semaphores := by
    rw [(tables_initial h).store]
    rfl
  have hkind : (E.program.resource r).kind = .semaphore := by
    obtain ⟨res, hres, hk⟩ := Option.map_eq_some_iff.mp (of_decide_eq_true hr)
    rw [SemProgram.resource, hres]
    exact hk
  simp only [machineView, hstore, initResources, hupto, hasKind_lt hr, hkind]
  rfl

variable {S : Type} {T : TransitionSystem S} {V : EngineView S}

/-- Along a run the permits of a semaphore are the declared ones, with those released and
without those acquired, and never negative. -/
theorem accounts_of_run
    (hinit : ∀ s r, T.initial = .ok s → hasKind P.resources r .semaphore = true →
      V.available s r = some (P.resource r).permits)
    (hstep : ∀ s x s', T.Reachable s → T.Takes s x s' → SemaphoreStep P V s s')
    (hpos : ∀ r, hasKind P.resources r .semaphore = true → 0 ≤ (P.resource r).permits)
    {es : List (Transition S)} {s : S} (h : T.Run es s) {r : ResourceId}
    (hr : hasKind P.resources r .semaphore = true) :
    V.available s r =
        some ((P.resource r).permits + V.released P r es - V.acquired P r es) ∧
      0 ≤ (P.resource r).permits + V.released P r es - V.acquired P r es := by
  induction h with
  | start hs => simpa [EngineView.released, EngineView.acquired, hinit _ r hs hr] using hpos r hr
  | @step es s s' x hrun hs ih =>
      obtain ⟨hav, hnn⟩ := ih
      have hst := hstep s x s' hrun.reachable hs
      have hav' := hst.balance r _ hav
      have heq : (P.resource r).permits + V.released P r (es ++ [⟨s, x, s'⟩]) -
          V.acquired P r (es ++ [⟨s, x, s'⟩]) =
          (P.resource r).permits + V.released P r es - V.acquired P r es +
            ((V.completed P s s').map (SemOp.releases r)).sum -
              ((V.completed P s s').map (SemOp.acquires r)).sum := by
        rw [EngineView.released_concat, EngineView.acquired_concat]
        ring
      rw [heq]
      exact ⟨hav', hst.nonneg r _ _ hav hav' hnn⟩

end Runs

end ConcIR
