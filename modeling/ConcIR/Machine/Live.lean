import ConcIR.Machine.Finish

/-!
# Liveness of waits

A thread that waits for a child or for the members of a scope waits for somebody who
is still there. Most steps change no tie between threads; the others are treated one
by one.
-/

namespace ConcIR

open MachineState

variable {E : Engine} {P : SemProgram} {σ σ' σ₁ : MachineState} {x y : ThreadId}
  {t : ThreadState} {f g : FrameId} {fr : Frame} {op : SemOp}

section Bonds

/-- Whether and for which child a thread waits in a join, and whether it is over. -/
def ThreadStatus.bond : ThreadStatus → ThreadStatus
  | .blocked (.join h) => .blocked (.join h)
  | .finished => .finished
  | _ => .runnable

theorem ThreadStatus.bond_finished {st : ThreadStatus} :
    st.bond = .finished ↔ st = .finished := by
  rcases st with _ | r | _
  · simp [bond]
  · cases r <;> simp [bond]
  · simp [bond]

theorem ThreadStatus.bond_join {st : ThreadStatus} {h : HandleId} :
    st.bond = .blocked (.join h) ↔ st = .blocked (.join h) := by
  rcases st with _ | r | _
  · simp [bond]
  · cases r <;> simp [bond]
  · simp [bond]

/-- What ties a thread to children and to its scope. -/
def ThreadState.bond (t : ThreadState) :
    BTreeMap HandleId ThreadId × Option ScopeId × ThreadStatus :=
  (t.handleChildren, t.parentScope, t.status.bond)

/-- No tie between threads changes. -/
structure Steady (σ σ' : MachineState) : Prop where
  threads : ∀ y : ThreadId,
    σ'.threads[y]?.map ThreadState.bond = σ.threads[y]?.map ThreadState.bond
  scopes : σ'.scopes = σ.scopes

namespace Steady

theorem trans {σ'' : MachineState} (h : Steady σ σ') (h' : Steady σ' σ'') : Steady σ σ'' :=
  ⟨fun y ↦ (h'.threads y).trans (h.threads y), h'.scopes.trans h.scopes⟩

theorem of_eq (ht : σ'.threads = σ.threads) (hs : σ'.scopes = σ.scopes) : Steady σ σ' :=
  ⟨fun y ↦ by rw [ht], hs⟩

theorem advance (σ : MachineState) (x : ThreadId) : Steady σ (σ.advance x) :=
  .of_eq (σ.advance_records x).1 (σ.advance_records x).2.1

theorem step (h : Steady σ σ₁) (x : ThreadId) : Steady σ (σ₁.advance x) :=
  h.trans (.advance σ₁ x)

theorem setStatus {s st : ThreadStatus} (hx : σ.status x = some s) (hb : st.bond = s.bond) :
    Steady σ (σ.setStatus x st) := by
  refine ⟨fun y ↦ ?_, rfl⟩
  rw [MachineState.setStatus, getElem?_modifyThread]
  split_ifs with hy
  · subst hy
    obtain ⟨t, ht, rfl⟩ := Option.map_eq_some_iff.mp hx
    simp [ht, ThreadState.bond, hb]
  · rfl

theorem restatus {s st : ThreadStatus} (ht : σ₁.threads = σ.threads)
    (hs : σ₁.scopes = σ.scopes) (hx : σ.status x = some s) (hb : st.bond = s.bond) :
    Steady σ (σ₁.setStatus x st) := by
  have hx₁ : σ₁.status x = some s := by rw [← hx, status, status, ht]
  exact (of_eq ht hs).trans (setStatus hx₁ hb)

/-- A thread that waits for nobody in particular is let go, after updates elsewhere. -/
theorem complete {s : ThreadStatus} (ht : σ₁.threads = σ.threads) (hs : σ₁.scopes = σ.scopes)
    (hx : σ.status x = some s) (hb : s.bond = .runnable) :
    Steady σ (Engine.complete σ₁ x) := by
  have hr : Steady σ (σ₁.setRunnable x) := restatus ht hs hx hb.symm
  exact hr.step x

theorem back (h : Steady σ σ') {t' : ThreadState} (ht : σ'.HasThread x t') :
    ∃ t, σ.HasThread x t ∧ t.handleChildren = t'.handleChildren ∧
      t.parentScope = t'.parentScope ∧ t.status.bond = t'.status.bond := by
  have hx := h.threads x
  rw [show σ'.threads[x]? = some t' from ht, Option.map_some, eq_comm,
    Option.map_eq_some_iff] at hx
  obtain ⟨t, hxt, hb⟩ := hx
  simp only [ThreadState.bond, Prod.mk.injEq] at hb
  exact ⟨t, hxt, hb⟩

end Steady

theorem Live.steady (hl : Live σ) (h : Steady σ σ') : Live σ' := by
  constructor
  · intro s sc hs
    rw [HasScope, h.scopes] at hs
    exact hl.scope s sc hs
  · intro y t' k c ht hst hc hfin
    obtain ⟨t, hyt, hch, -, hb⟩ := h.back ht
    rw [hst, show (ThreadStatus.blocked (.join k)).bond = .blocked (.join k) from rfl,
      ThreadStatus.bond_join] at hb
    obtain ⟨u', hu', hf⟩ := Option.map_eq_some_iff.mp hfin
    obtain ⟨u, hu, -, -, hb'⟩ := h.back hu'
    rw [hf, show ThreadStatus.finished.bond = .finished from rfl,
      ThreadStatus.bond_finished] at hb'
    refine hl.join y t k c hyt hb (by rwa [ThreadState.HasChild, hch]) ?_
    rw [status, show σ.threads[c]? = some u from hu, Option.map_some, hb']
  · intro y t' s ht hp hf
    obtain ⟨t, hyt, -, hpar, hb⟩ := h.back ht
    simp only [HasScope, h.scopes]
    refine hl.parent y t s hyt (hpar.trans hp) fun hfin ↦ hf ?_
    rwa [← ThreadStatus.bond_finished, ← hb, ThreadStatus.bond_finished]

end Bonds

section SteadySteps

theorem tryWriteDst_records {k : FrameId} {dst : SlotRef} {v : Value}
    (h : E.tryWriteDst σ k dst v = some σ₁) :
    σ₁.threads = σ.threads ∧ σ₁.scopes = σ.scopes ∧ σ₁.alloc = σ.alloc := by
  rw [Engine.tryWriteDst] at h
  split_ifs at h
  rw [← Option.some.inj h]
  exact σ.writeDst_records k dst v

theorem recordCompletion_records (σ : MachineState) (fn : FunctionId) :
    (E.recordCompletion σ fn).threads = σ.threads ∧
      (E.recordCompletion σ fn).scopes = σ.scopes ∧
        (E.recordCompletion σ fn).alloc = σ.alloc := by
  obtain ⟨m, hm⟩ := recordCompletion_eq (E := E) σ fn
  rw [hm]
  exact ⟨rfl, rfl, rfl⟩

theorem Resumes.steady {r : BlockReason} (hx : σ.status x = some (.blocked r))
    (h : Resumes E σ x f fr r σ') : Steady σ (Engine.complete σ' x) := by
  cases h with
  | lock r _ => exact .complete rfl rfl hx rfl
  | semaphore r n k _ _ _ => exact .complete rfl rfl hx rfl
  | send c v _ _ _ => exact .complete rfl rfl hx rfl
  | recv c dst v vs σ₁ _ _ _ hwr =>
      obtain ⟨ht, hs, -⟩ := tryWriteDst_records hwr
      exact .complete ht hs hx rfl

theorem Wf.steady_notifyAll {cv : ResourceId} (ws : List (ThreadId × ResourceId)) (hw : Wf P σ)
    (hc : σ.store.condvars.contains cv = true) (hws : σ.waiters cv = ws) :
    Steady σ (ws.foldl (ConcIR.notifyOne cv) σ) := by
  induction ws generalizing σ with
  | nil => exact .of_eq rfl rfl
  | cons w ws ih =>
      have hmem : w ∈ σ.waiters cv := by simp [hws]
      have hb := hw.mem_waiters cv hmem
      have h₁ : Steady σ (ConcIR.notifyOne cv σ w) := .restatus rfl rfl hb rfl
      exact h₁.trans (ih (hw.notifyOne hc hmem)
        ((contains_modifyWaiters cv cv _).trans hc)
        (waiters_notifyOne hc hws (hws ▸ hw.regs.waiters_nodup cv)))

variable [FloatArith]

theorem Local.steady (h : Local E σ x f fr op σ') : Steady σ σ' := by
  cases h with
  | assign target e v _ _ =>
      obtain ⟨ht, hs, -⟩ := σ.writeDst_records f target v
      refine .step ?_ x
      exact .of_eq ht hs
  | read r dst v σ₁ _ hwr | load r dst v σ₁ _ hwr | recv c dst v vs σ₁ _ _ hwr =>
      obtain ⟨ht, hs, -⟩ := tryWriteDst_records hwr
      refine .step ?_ x
      exact .of_eq ht hs
  | cas r e d dst exp des old σ₁ _ _ _ _ hwr =>
      obtain ⟨ht, hs, -⟩ := tryWriteDst_records hwr
      refine .step (.of_eq ?_ ?_) x <;> split_ifs <;> assumption
  | skipCall g args dst _ =>
      obtain ⟨ht, hs, -⟩ := recordCompletion_records (E := E) σ g
      refine .step ?_ x
      exact .of_eq ht hs
  | goto | branch | switch => exact .of_eq rfl rfl
  | _ =>
      refine .step ?_ x
      exact .of_eq rfl rfl

theorem Pairs.steady (hw : Wf E.program σ)
    (hok : opOk E.program.functions E.program.resources
      (E.program.function fr.function) op = true) (h : Pairs E σ x f fr op σ') :
    Steady σ σ' := by
  cases h with
  | send c e v y u g gr dst σ₁ _ _ _ hy _ _ hwr =>
      obtain ⟨ht, hs, -⟩ := tryWriteDst_records hwr
      refine .step ?_ x
      exact .complete ht hs (hw.mem_recvs c hy) rfl
  | recv c dst p σ₁ _ hp hwr =>
      obtain ⟨ht, hs, -⟩ := tryWriteDst_records hwr
      refine .step ?_ x
      exact .complete ht hs (hw.mem_sends c hp) rfl
  | notify cv w hmem =>
      refine .step ?_ x
      exact .restatus rfl rfl (hw.mem_waiters cv hmem) rfl
  | notifyAll cv =>
      have hc : σ.store.condvars.contains cv = true := by
        rw [hw.stores.condvars]
        exact hok
      rw [notifyAll_eq _ hc rfl (hw.regs.waiters_nodup cv)]
      exact (hw.steady_notifyAll _ hc rfl).step x

theorem Blocks.live (hw : Wf E.program σ) (hl : Live σ) (top : Top σ x t f fr)
    (hrun : t.status = .runnable) {r : BlockReason} (h : Blocks E σ x fr op r σ') :
    Live (σ'.block x r) := by
  have hx : σ.status x = some .runnable := by rw [top.status, hrun]
  have hplain : σ'.threads = σ.threads → σ'.scopes = σ.scopes → r.tabled = true →
      Live (σ'.block x r) := by
    intro ht hs hr
    refine hl.steady (.restatus ht hs hx ?_)
    cases r <;> first | rfl | cases hr
  cases h with
  | lock r _ => exact hl.steady (.setStatus hx rfl)
  | send c e v _ _ _ _ => exact hplain rfl rfl rfl
  | recv c dst _ _ => exact hplain rfl rfl rfl
  | wait cv lk _ => exact hplain rfl rfl rfl
  | acquire r n k _ _ _ => exact hplain rfl rfl rfl
  | join name k u c hh hu hc hf =>
      obtain rfl : t = u := Option.some.inj (top.thread.symm.trans hu)
      have hdone : ∀ d, (σ.block x (.join k)).status d = some .finished ↔
          σ.status d = some .finished := by
        intro d
        rw [MachineState.block, status_setStatus]
        split_ifs with hd
        · rw [hd, hx]
          simp
        · rfl
      have hthr : ∀ {y v}, (σ.block x (.join k)).HasThread y v → ∃ w, σ.HasThread y w ∧
          w.handleChildren = v.handleChildren ∧ w.parentScope = v.parentScope ∧
            ((y = x ∧ v.status = .blocked (.join k) ∧ w = t) ∨ (y ≠ x ∧ w.status = v.status)) := by
        intro y v hv
        rw [HasThread, MachineState.block, setStatus, getElem?_modifyThread] at hv
        split_ifs at hv with hy
        · subst hy
          obtain ⟨w, hw, rfl⟩ := Option.map_eq_some_iff.mp hv
          exact ⟨w, hw, rfl, rfl, .inl ⟨rfl, rfl, Option.some.inj (hw.symm.trans top.thread)⟩⟩
        · exact ⟨v, hv, rfl, rfl, .inr ⟨hy, rfl⟩⟩
      constructor
      · exact hl.scope
      · intro y v l d hv hst hd
        rw [ne_eq, hdone]
        obtain ⟨w, hyw, hch, -, ⟨rfl, hst', rfl⟩ | ⟨-, hst'⟩⟩ := hthr hv
        · rw [hst, ThreadStatus.blocked.injEq, BlockReason.join.injEq] at hst'
          subst hst'
          rw [ThreadState.HasChild, ← hch] at hd
          obtain rfl : c = d := Option.some.inj (hc.symm.trans hd)
          rwa [← hw.stack.finished_set]
        · exact hl.join y w l d hyw (hst'.trans hst) (by rwa [ThreadState.HasChild, hch])
      · intro y v s hv hp hf
        obtain ⟨w, hyw, -, hpar, ⟨rfl, -, rfl⟩ | ⟨-, hst'⟩⟩ := hthr hv
        · exact hl.parent y w s hyw (hpar.trans hp) (by simp [hrun])
        · exact hl.parent y w s hyw (hpar.trans hp) (hst' ▸ hf)

end SteadySteps

section Creation

theorem Live.rebind (hl : Live σ) (top : Top σ x t f fr) (hrun : t.status = .runnable)
    {hs : BTreeMap String HandleId} {cs : BTreeMap HandleId ThreadId}
    (h : Rebound σ σ' x t f fr hs cs) : Live σ' := by
  constructor
  · intro s sc hsc
    rw [HasScope, h.scopes] at hsc
    exact hl.scope s sc hsc
  · intro y u k c hu hst hc
    rw [h.status top]
    rcases h.hasThread.mp hu with ⟨rfl, rfl⟩ | ⟨-, hu⟩
    · exact absurd hst (by simp [hrun])
    · exact hl.join y u k c hu hst hc
  · intro y u s hu hp hf
    simp only [HasScope, h.scopes]
    rcases h.hasThread.mp hu with ⟨rfl, rfl⟩ | ⟨-, hu⟩
    · exact hl.parent y t s top.thread hp hf
    · exact hl.parent y u s hu hp hf

theorem Live.start (hw : Wf P σ) (hl : Live σ) {u : ThreadState} {new : Option Frame}
    (h : Started P σ σ' u new) (hp : u.parentScope = none) : Live σ' := by
  constructor
  · intro s sc hsc
    rw [HasScope, h.scopes] at hsc
    exact hl.scope s sc hsc
  · intro y v k c hv hst hc
    rcases h.hasThread.mp hv with ⟨rfl, rfl⟩ | ⟨-, hv⟩
    · rw [h.status] at hst
      split_ifs at hst
    · obtain ⟨-, w, hwc, -⟩ := hw.handles.child y v k c hv hc
      rw [h.status_old fun he ↦ h.not_old hw (he ▸ hwc)]
      exact hl.join y v k c hv hst hc
  · intro y v s hv hp' hf
    simp only [HasScope, h.scopes]
    rcases h.hasThread.mp hv with ⟨rfl, rfl⟩ | ⟨-, hv⟩
    · rw [hp] at hp'
      cases hp'
    · exact hl.parent y v s hv hp' hf

theorem Live.spawn (hw : Wf E.program σ) (hl : Live σ) (top : Top σ x t f fr)
    (hrun : t.status = .runnable) {callee : FunctionId}
    (hlt : callee < E.program.functions.length) {name : String} {c : ThreadId}
    (h : E.createThread σ callee none = some (c, σ₁)) :
    Live ((Engine.bindHandle σ₁ x f name c).advance x) := by
  obtain ⟨u, new, hst, rfl, -, hp, -⟩ := createThread_started hlt (by simp) h
  have top₁ := top.started hw hst
  exact ((hl.start hw hst hp).rebind top₁ hrun (rebound_bindHandle top₁ name u.id)).steady
    (.advance _ x)

theorem Live.consumeJoin (hl : Live σ) (top : Top σ x t f fr) (hrun : t.status = .runnable)
    (name : String) (k : HandleId) (c : ThreadId) :
    Live (Engine.consumeJoin σ x f name k c) := by
  have hl₁ := hl.rebind top hrun (rebound_drop top name k)
  have hre := removed_reclaim (σ := ((σ.modifyFrame f fun fr ↦
    { fr with handles := fr.handles.erase name }).modifyThread x fun t ↦
      { t with handleChildren := t.handleChildren.erase k })) c
  constructor
  · exact hl₁.scope
  · intro y u l d hu hst hd hfin
    have hu₁ := (hre.hasThread.mp hu).2
    refine hl₁.join y u l d hu₁ hst hd ?_
    obtain ⟨v, hv, hf⟩ := Option.map_eq_some_iff.mp hfin
    rw [status, show _ = some v from (hre.hasThread.mp hv).2, Option.map_some, hf]
  · intro y u s hu hp hf
    exact hl₁.parent y u s (hre.hasThread.mp hu).2 hp hf

variable {s : ScopeId} {r : BTreeSet ThreadId}

/-- Members that have finished at once tie nobody to their scope. -/
theorem Live.membersDone (hw : Wf P σ) (hl : Live σ) (hm : Members P σ σ' s ∅) : Live σ' := by
  constructor
  · intro s' sc hsc
    rw [HasScope, hm.scopes] at hsc
    exact hl.scope s' sc hsc
  · intro y u k c hu hst hc
    rcases hm.new y u hu with hu | ⟨-, -, hno⟩
    · obtain ⟨-, v, hv, -⟩ := hw.handles.child y u k c hu hc
      have := hl.join y u k c hu hst hc
      rwa [status, show σ'.threads[c]? = some v from hm.old c v hv,
        ← show σ.threads[c]? = some v from hv]
    · exact absurd hst (hno _)
  · intro y u s' hu hp hf
    simp only [HasScope, hm.scopes]
    rcases hm.new y u hu with hu' | ⟨hp', -⟩
    · exact hl.parent y u s' hu' hp hf
    · have := (hm.remaining y).mpr ⟨u, hu, hp', hf⟩
      simp at this

theorem Live.openScope (hw : Wf P σ) (hl : Live σ) (hm : Members P σ σ' s r)
    (top : Top σ x t f fr) (hrun : t.status = .runnable) (hr : r ≠ ∅)
    (hno : σ.scopes[s]? = none) :
    Live ((openScope σ' s ⟨s, x, f, r⟩).block x (.scope s)) := by
  have hx' := hm.old x t top.thread
  have hthr : ∀ {y u}, ((ConcIR.openScope σ' s ⟨s, x, f, r⟩).block x (.scope s)).HasThread y u →
      (y = x ∧ u = { t with status := .blocked (.scope s) }) ∨ (y ≠ x ∧ σ'.HasThread y u) := by
    intro y u hu
    rw [HasThread, MachineState.block, setStatus, getElem?_modifyThread] at hu
    split_ifs at hu with hy
    · subst hy
      rw [show (ConcIR.openScope σ' s _).threads[y]? = some t from hx', Option.map_some] at hu
      exact .inl ⟨rfl, (Option.some.inj hu).symm⟩
    · exact .inr ⟨hy, hu⟩
  constructor
  · intro s' sc hsc
    rcases hasScope_openScope.mp hsc with ⟨-, rfl⟩ | ⟨-, hsc⟩
    · exact hr
    · rw [HasScope, hm.scopes] at hsc
      exact hl.scope s' sc hsc
  · intro y u k c hu hst hc hfin
    rcases hthr hu with ⟨rfl, rfl⟩ | ⟨-, hu⟩
    · cases hst
    · rcases hm.new y u hu with hu | ⟨-, -, hno⟩
      · obtain ⟨-, v, hv, -⟩ := hw.handles.child y u k c hu hc
        refine hl.join y u k c hu hst hc ?_
        rw [MachineState.block, status_setStatus] at hfin
        split_ifs at hfin with hcx
        · obtain ⟨_, -, hf⟩ := Option.map_eq_some_iff.mp hfin
          cases hf
        · rw [status, show (ConcIR.openScope σ' s _).threads[c]? = some v from hm.old c v hv]
            at hfin
          rwa [status, show σ.threads[c]? = some v from hv]
      · exact absurd hst (hno _)
  · intro y u s' hu hp hf
    have hold : ∀ {v}, σ.HasThread y v → v.parentScope = some s' → v.status ≠ .finished →
        ∃ sc, ((ConcIR.openScope σ' s ⟨s, x, f, r⟩).block x (.scope s)).HasScope s' sc := by
      intro v hv hpv hfv
      obtain ⟨sc, hsc⟩ := hl.parent y v s' hv hpv hfv
      refine ⟨sc, hasScope_openScope.mpr (.inr ⟨?_, by rwa [HasScope, hm.scopes]⟩)⟩
      rintro rfl
      rw [HasScope, hno] at hsc
      cases hsc
    rcases hthr hu with ⟨rfl, rfl⟩ | ⟨-, hu⟩
    · exact hold top.thread hp (by simp [hrun])
    · rcases hm.new y u hu with hu | ⟨hp', -⟩
      · exact hold hu hp hf
      · rw [hp'] at hp
        obtain rfl := Option.some.inj hp
        exact ⟨_, hasScope_openScope.mpr (.inl ⟨rfl, rfl⟩)⟩

end Creation

section Ending

/-- Live, but for the joiners of thread `x`. -/
structure LiveBut (σ : MachineState) (x : ThreadId) : Prop where
  scope : ∀ s sc, σ.HasScope s sc → sc.remaining ≠ ∅
  join : ∀ y t h c, σ.HasThread y t → t.status = .blocked (.join h) → t.HasChild h c →
    c ≠ x → σ.status c ≠ some .finished
  parent : ∀ y t s, σ.HasThread y t → t.parentScope = some s → t.status ≠ .finished →
    ∃ sc, σ.HasScope s sc

theorem LiveBut.woken (hw : Wf P σ) (hl : LiveBut σ x) (h : Woken P σ x σ') : Live σ' := by
  cases h with
  | nobody hno =>
      refine ⟨hl.scope, fun y u l c hu hst hc ↦ ?_, hl.parent⟩
      by_cases hcx : c = x
      · have hjoin := hno y u hu
        rw [Engine.isJoiner, hst, ← hcx] at hjoin
        exact absurd hc (of_decide_eq_false hjoin)
      · exact hl.join y u l c hu hst hc hcx
  | @joiner j t f fr name k hj =>
      have hthr : ∀ {y v}, (Engine.reclaim ((unjoin σ j f name k).advance j) x).HasThread y v →
          y ≠ x ∧ ((y = j ∧ v.status = .runnable ∧ v.parentScope = t.parentScope) ∨
            (y ≠ j ∧ σ.HasThread y v)) := by
        intro y v hv
        obtain ⟨hne, hv⟩ := (removed_reclaim x).hasThread.mp hv
        rw [HasThread, (advance_records _ j).1] at hv
        refine ⟨hne, ?_⟩
        rcases hj.rebound.hasThread.mp hv with ⟨rfl, rfl⟩ | ⟨hyj, hv⟩
        · exact .inl ⟨rfl, rfl, rfl⟩
        · rw [HasThread, setRunnable, setStatus, getElem?_modifyThread, if_neg hyj] at hv
          exact .inr ⟨hyj, hv⟩
      have hscopes : (Engine.reclaim ((unjoin σ j f name k).advance j) x).scopes = σ.scopes :=
        (advance_records (unjoin σ j f name k) j).2.1
      constructor
      · intro s sc hs
        rw [HasScope, hscopes] at hs
        exact hl.scope s sc hs
      · intro y u l c hu hst hc hfin
        obtain ⟨-, ⟨rfl, hrun, -⟩ | ⟨hyj, hu'⟩⟩ := hthr hu
        · rw [hrun] at hst
          cases hst
        · have hcx : c ≠ x := by
            rintro rfl
            exact hyj (hw.handles.child_inj y u l j t k c hu' hc hj.top.thread hj.child).1
          refine hl.join y u l c hu' hst hc hcx ?_
          obtain ⟨v, hv, hf⟩ := Option.map_eq_some_iff.mp hfin
          obtain ⟨-, ⟨rfl, hrun, -⟩ | ⟨-, hv⟩⟩ := hthr hv
          · rw [hrun] at hf
            cases hf
          · rw [status, show σ.threads[c]? = some v from hv, Option.map_some, hf]
      · intro y u s hu hp hf
        simp only [HasScope, hscopes]
        obtain ⟨-, ⟨rfl, -, hpar⟩ | ⟨-, hu⟩⟩ := hthr hu
        · exact hl.parent y t s hj.top.thread (hpar ▸ hp) (by simp [hj.status])
        · exact hl.parent y u s hu hp hf

variable {s : ScopeId} {sc : ScopeState}

/-- A scope that has lost its last member is completed. -/
theorem LiveBut.completeScope (hw : Wf P σ) (hs : σ.HasScope s sc)
    (hscope : ∀ s' sc', s' ≠ s → σ.HasScope s' sc' → sc'.remaining ≠ ∅)
    (hjoin : ∀ y t h c, σ.HasThread y t → t.status = .blocked (.join h) → t.HasChild h c →
      c ≠ x → σ.status c ≠ some .finished)
    (hparent : ∀ y t s, σ.HasThread y t → t.parentScope = some s → t.status ≠ .finished →
      ∃ sc, σ.HasScope s sc) : LiveBut (Engine.completeScope σ s sc) x := by
  obtain ⟨-, g, hr⟩ := hw.wakeOwner hs
  have hscopes : ∀ {s' sc'}, (Engine.completeScope σ s sc).HasScope s' sc' ↔
      s' ≠ s ∧ σ.HasScope s' sc' := by
    intro s' sc'
    rw [HasScope, (removed_completeScope hr).scopes, ConcIR.wakeOwner, (advance_records _ _).2.1]
    exact hasScope_closeScope
  constructor
  · intro s' sc' h
    exact hscope s' sc' (hscopes.mp h).1 (hscopes.mp h).2
  · intro y u l c hu hst hc hcx hfin
    rcases ((hasThread_completeScope hw hs).mp hu).2 with ⟨-, v, -, rfl⟩ | ⟨-, hu⟩
    · cases hst
    · refine hjoin y u l c hu hst hc hcx ?_
      obtain ⟨v, hv, hf⟩ := Option.map_eq_some_iff.mp hfin
      rcases ((hasThread_completeScope hw hs).mp hv).2 with ⟨-, w, -, rfl⟩ | ⟨-, hv⟩
      · cases hf
      · rw [status, show σ.threads[c]? = some v from hv, Option.map_some, hf]
  · intro y u s' hu hp hf
    obtain ⟨hne, hu⟩ := (hasThread_completeScope hw hs).mp hu
    have hold : ∃ sc', σ.HasScope s' sc' := by
      rcases hu with ⟨rfl, v, hv, rfl⟩ | ⟨-, hu⟩
      · have hb := (hw.regs.iff sc.owner (.scope s) rfl).mp ⟨sc, hs, rfl⟩
        refine hparent sc.owner v s' hv hp fun hfv ↦ ?_
        rw [status, show σ.threads[sc.owner]? = some v from hv, Option.map_some, hfv] at hb
        cases hb
      · exact hparent y u s' hu hp hf
    obtain ⟨sc', hsc'⟩ := hold
    refine ⟨sc', hscopes.mpr ⟨?_, hsc'⟩⟩
    rintro rfl
    exact hne hp

theorem Live.finishThread (hw : Wf E.program σ) (hl : Live σ) (top : Top σ x t f fr)
    (hrun : t.status = .runnable) (hst : t.stack = [f]) (fn : FunctionId) :
    Live (E.finishThread (Engine.popFrame σ x f) x fn) := by
  have hu := unwound_leave (E := E) top hst fn
  have hw₁ := hw.unwind top hrun hst (by simp) hu
  obtain ⟨σ₁, hse, heq⟩ := finishThread_settled (E := E) top fn
  obtain ⟨hw₂, -⟩ := hse.wf hw₁ fun u ↦ finished_unwound hu
  rw [heq]
  refine LiveBut.woken hw₂ ?_ (hw₂.woken x)
  generalize leave (retire E σ x f fn) x t.parentScope = τ at hu hw₁ hse
  have hjoin : ∀ y v k c, τ.HasThread y v → v.status = .blocked (.join k) → v.HasChild k c →
      c ≠ x → τ.status c ≠ some .finished := by
    intro y v k c hv hb hc hcx
    rw [hu.status, if_neg hcx]
    rcases hu.hasThread.mp hv with ⟨-, rfl⟩ | ⟨-, hv⟩
    · cases hb
    · exact hl.join y v k c hv hb hc
  have hparent : ∀ y v s, τ.HasThread y v → v.parentScope = some s → v.status ≠ .finished →
      ∃ sc, τ.HasScope s sc := by
    intro y v s hv hp hf
    rcases hu.hasThread.mp hv with ⟨-, rfl⟩ | ⟨-, hv⟩
    · exact absurd rfl hf
    · obtain ⟨sc, hsc⟩ := hl.parent y v s hv hp hf
      exact ⟨_, hu.hasScope.mpr ⟨sc, hsc, rfl⟩⟩
  -- Only the scope of `x` itself can have lost its last member.
  have hscope : ∀ s sc, t.parentScope ≠ some s → τ.HasScope s sc → sc.remaining ≠ ∅ := by
    intro s sc hne hs
    obtain ⟨sc, hsc, rfl⟩ := hu.hasScope.mp hs
    rw [if_neg fun h ↦ hne h.2]
    exact hl.scope s sc hsc
  cases hse with
  | stay hstay =>
      refine ⟨fun s sc hs ↦ ?_, hjoin, hparent⟩
      by_cases hp : t.parentScope = some s
      · exact hstay s sc hp hs
      · exact hscope s sc hp hs
  | @scope s sc hp hs hrem =>
      refine .completeScope hw₁ hs (fun s' sc' hne ↦ hscope s' sc' ?_) hjoin hparent
      rw [hp]
      exact fun he ↦ hne (Option.some.inj he).symm

end Ending

end ConcIR
