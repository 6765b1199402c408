import ConcIR.Machine.Lifetimes

/-!
# Threads that finish

A thread that ends may be the last its scope waits for, and somebody may join it: the
owner is let go and the members are reclaimed, or the joiner is and the thread is.
-/

namespace ConcIR

open MachineState

variable {E : Engine} {P : SemProgram} {σ σ' σ₁ : MachineState} {x y : ThreadId}
  {t : ThreadState} {f g : FrameId} {fr : Frame} {op : SemOp}

section Finishing

/-- A thread is struck off the members its scope waits for. -/
def leave (σ : MachineState) (x : ThreadId) (parent : Option ScopeId) : MachineState :=
  match parent with
  | none => σ
  | some s =>
      { σ with scopes := σ.scopes.modify s fun sc ↦
          { sc with remaining := sc.remaining.erase x } }

/-- Thread `x` has dropped its last activation and is finished. -/
def retire (E : Engine) (σ : MachineState) (x : ThreadId) (f : FrameId) (fn : FunctionId) :
    MachineState :=
  let σ := (Engine.popFrame σ x f).setStatus x .finished
  E.recordCompletion { σ with finished := σ.finished.insert x } fn

theorem unwound_leave (top : Top σ x t f fr) (hst : t.stack = [f]) (fn : FunctionId) :
    Unwound σ (leave (retire E σ x f fn) x t.parentScope) x t f [] .finished := by
  obtain ⟨m, hm⟩ := recordCompletion_eq (E := E)
    { (Engine.popFrame σ x f).setStatus x .finished with
      finished := ((Engine.popFrame σ x f).setStatus x .finished).finished.insert x } fn
  have hr : retire E σ x f fn = _ := hm
  have hx := top.thread
  constructor
  · intro y
    have hth : (leave (retire E σ x f fn) x t.parentScope).threads =
        (σ.threads.modify x fun t ↦ { t with stack := t.stack.tail }).modify x
          fun t ↦ { t with status := .finished } := by
      rw [hr]
      cases t.parentScope <;> rfl
    rw [hth]
    clear hm hr hth
    grind
  · intro k
    have hfr : (leave (retire E σ x f fn) x t.parentScope).store.frames =
        σ.store.frames.erase f := by
      rw [hr]
      cases t.parentScope <;> rfl
    rw [hfr]
    clear hm hr hfr
    grind
  · intro y
    have hfi : (leave (retire E σ x f fn) x t.parentScope).finished = σ.finished.insert x := by
      rw [hr]
      cases t.parentScope <;> rfl
    rw [hfi]
    clear hm hr hfi
    grind
  · intro s
    rw [hr]
    clear hm hr
    cases hp : t.parentScope with
    | none => simp [leave, Engine.popFrame, modifyThread, setStatus]
    | some p =>
        change (σ.scopes.modify p _)[s]? = _
        grind
  · rw [hr]
    cases t.parentScope <;> rfl
  · rw [hr]
    cases t.parentScope <;> exact ⟨rfl, rfl⟩

theorem leave_of_none {s : ScopeId} (h : σ.scopes[s]? = none) : leave σ x (some s) = σ := by
  have hs : (σ.scopes.modify s fun sc ↦ { sc with remaining := sc.remaining.erase x }) =
      σ.scopes := by
    ext1 d
    grind
  simp only [leave, hs]

theorem leaveScope_eq {s : ScopeId} {sc : ScopeState} (h : σ.HasScope s sc) :
    Engine.leaveScope σ x s = if (sc.remaining.erase x).isEmpty then
      Engine.completeScope (leave σ x (some s)) s { sc with remaining := sc.remaining.erase x }
      else leave σ x (some s) := by
  have hs : (σ.scopes.modify s fun sc ↦ { sc with remaining := sc.remaining.erase x }) =
      σ.scopes.insert s { sc with remaining := sc.remaining.erase x } := by
    ext1 d
    have : σ.scopes[s]? = some sc := h
    grind
  simp only [Engine.leaveScope, show σ.scopes[s]? = some sc from h, leave, hs]

/-- The threads that a completed scope takes with it. -/
def memberOf (σ : MachineState) (s : ScopeId) (y : ThreadId) : Prop :=
  ∃ u, σ.HasThread y u ∧ u.parentScope = some s

/-- The owner of a scope is let go. -/
def wakeOwner (σ : MachineState) (s : ScopeId) (sc : ScopeState) : MachineState :=
  ((closeScope σ s).setRunnable sc.owner).advance sc.owner

variable {s : ScopeId} {sc : ScopeState}

theorem completeScope_eq (hr : Ready P ((closeScope σ s).setRunnable sc.owner) sc.owner g) :
    ∃ m, Engine.completeScope σ s sc =
      { wakeOwner σ s sc with
        threads := (wakeOwner σ s sc).threads.filter fun _ t ↦ t.parentScope ≠ some s
        finished := (wakeOwner σ s sc).finished.filter fun y ↦
          (wakeOwner σ s sc).threads[y]?.bind (·.parentScope) ≠ some s
        completedScopes := m } := by
  have hadv : ∀ σ₂ : MachineState, σ₂.threads = ((closeScope σ s).setRunnable sc.owner).threads →
      σ₂.advance sc.owner = σ₂.modifyFrame g fun fr ↦ { fr with pc := fr.pc + 1 } := by
    intro σ₂ h₂
    obtain ⟨u, hu, -, hhead⟩ := hr.thread
    simp only [advance, currentFrameId, h₂]
    rw [show ((closeScope σ s).setRunnable sc.owner).threads[sc.owner]? = some u from hu,
      Option.bind_some, hhead]
  rw [wakeOwner, hadv _ rfl, Engine.completeScope]
  cases σ.store.frames[sc.ownerFrame]? with
  | none =>
      simp only
      rw [hadv (σ.setRunnable sc.owner) rfl]
      exact ⟨_, rfl⟩
  | some fr =>
      simp only
      rw [hadv (setRunnable { σ with
        completedScopes := σ.completedScopes.insert (fr.function, fr.pc) } sc.owner) rfl]
      exact ⟨_, rfl⟩

theorem removed_members (τ : MachineState) (s : ScopeId) {σ' : MachineState}
    (hth : σ'.threads = τ.threads.filter fun _ t ↦ t.parentScope ≠ some s)
    (hfin : σ'.finished = τ.finished.filter fun y ↦
      τ.threads[y]?.bind (·.parentScope) ≠ some s)
    (hstore : σ'.store = τ.store) (hscopes : σ'.scopes = τ.scopes) (halloc : σ'.alloc = τ.alloc)
    (hq : σ'.semWaiters = τ.semWaiters) : Removed τ σ' (memberOf τ s) := by
  constructor
  · intro y hy
    simp only [memberOf, not_exists, not_and] at hy
    rw [hth, Std.ExtTreeMap.getElem?_filter']
    cases hu : τ.threads[y]? with
    | none => rfl
    | some u => simpa using hy u hu
  · rintro y ⟨u, hu, hp⟩
    rw [hth, Std.ExtTreeMap.getElem?_filter', show τ.threads[y]? = some u from hu]
    simp [hp]
  · intro y
    rw [hfin]
    simp only [Std.ExtTreeSet.mem_filter, Std.ExtTreeSet.get_eq, decide_eq_true_eq, exists_prop,
      memberOf, Ne, Option.bind_eq_some_iff]
  · rw [hstore]
  · exact hscopes
  · exact halloc
  · exact ⟨by rw [hstore], hq⟩

theorem removed_completeScope
    (hr : Ready P ((closeScope σ s).setRunnable sc.owner) sc.owner g) :
    Removed (wakeOwner σ s sc) (Engine.completeScope σ s sc)
      (memberOf (wakeOwner σ s sc) s) := by
  obtain ⟨m, hm⟩ := completeScope_eq hr
  rw [hm]
  exact removed_members _ s rfl rfl rfl rfl rfl rfl

theorem Wf.wakeOwner (hw : Wf P σ) (hs : σ.HasScope s sc) :
    Wf P (wakeOwner σ s sc) ∧ ∃ g, Ready P ((closeScope σ s).setRunnable sc.owner) sc.owner g := by
  have hb : σ.status sc.owner = some (.blocked (.scope s)) :=
    (hw.regs.iff sc.owner (.scope s) rfl).mp ⟨sc, hs, rfl⟩
  obtain ⟨hw', g, hr⟩ := hw.wake (.closeScope hw hs) hb
  exact ⟨hw'.quiet hr.quiet_advance, g, hr⟩

theorem hasThread_wakeOwner (hw : Wf P σ) (hs : σ.HasScope s sc) {u : ThreadState} :
    (ConcIR.wakeOwner σ s sc).HasThread y u ↔
      (y = sc.owner ∧ ∃ v, σ.HasThread y v ∧ u = { v with status := .runnable }) ∨
        (y ≠ sc.owner ∧ σ.HasThread y u) := by
  obtain ⟨-, g, hr⟩ := hw.wakeOwner hs
  rw [HasThread, ConcIR.wakeOwner, hr.quiet_advance.threads, setRunnable, setStatus,
    getElem?_modifyThread]
  split_ifs with hy
  · simp [hy, closeScope, eq_comm]
  · simp [hy, closeScope]

theorem hasThread_completeScope (hw : Wf P σ) (hs : σ.HasScope s sc) {u : ThreadState} :
    (Engine.completeScope σ s sc).HasThread y u ↔ u.parentScope ≠ some s ∧
      ((y = sc.owner ∧ ∃ v, σ.HasThread y v ∧ u = { v with status := .runnable }) ∨
        (y ≠ sc.owner ∧ σ.HasThread y u)) := by
  obtain ⟨-, g, hr⟩ := hw.wakeOwner hs
  rw [(removed_completeScope hr).hasThread, ← hasThread_wakeOwner hw hs]
  refine and_congr_left fun hu ↦ not_congr ⟨?_, fun hp ↦ ⟨u, hu, hp⟩⟩
  rintro ⟨v, hv, hp⟩
  rwa [Option.some.inj (hu.symm.trans hv)]

theorem Wf.completeScope (hw : Wf P σ) (hs : σ.HasScope s sc) (hrem : sc.remaining = ∅) :
    Wf P (Engine.completeScope σ s sc) := by
  obtain ⟨hw', g, hr⟩ := hw.wakeOwner hs
  refine hw'.remove (removed_completeScope hr) ?_ ?_
  · rintro y u ⟨v, hv, hp⟩ hu
    obtain rfl : u = v := Option.some.inj (hu.symm.trans hv)
    rcases (hasThread_wakeOwner hw hs).mp hu with ⟨rfl, v', hv', rfl⟩ | ⟨-, hu⟩
    · obtain ⟨w, hwo, -, hne⟩ := hw.scopes.owner s sc hs
      obtain rfl : v' = w := Option.some.inj (hv'.symm.trans hwo)
      exact absurd hp hne
    · by_contra hf
      have := (hw.scopes.remaining s sc y hs).mpr ⟨u, hu, hp, hf⟩
      simp [hrem] at this
  · rintro y u k c hu hk ⟨v, hv, hp⟩
    obtain ⟨-, w, hwc, hnone⟩ := hw'.handles.child y u k c hu hk
    obtain rfl : v = w := Option.some.inj (hv.symm.trans hwc)
    rw [hnone] at hp
    cases hp

theorem Wf.finished_completeScope (hw : Wf P σ) (hs : σ.HasScope s sc)
    (hy : ∀ u, σ.HasThread y u → u.status = .finished) {u : ThreadState}
    (hu : (Engine.completeScope σ s sc).HasThread y u) : u.status = .finished := by
  rcases ((hasThread_completeScope hw hs).mp hu).2 with ⟨rfl, v, hv, -⟩ | ⟨-, hu⟩
  · have hb := (hw.regs.iff sc.owner (.scope s) rfl).mp ⟨sc, hs, rfl⟩
    rw [status, show σ.threads[sc.owner]? = some v from hv, Option.map_some, hy v hv] at hb
    cases hb
  · exact hy u hu

/-- The joiner of thread `x`, which stands at the statement `join name`. -/
structure Joiner (P : SemProgram) (σ : MachineState) (x j : ThreadId) (t : ThreadState)
    (f : FrameId) (fr : Frame) (name : String) (k : HandleId) : Prop where
  top : Top σ j t f fr
  status : t.status = .blocked (.join k)
  op : P.opAt fr.function fr.pc = some (.join name)
  handle : fr.HasHandle name k
  child : t.HasChild k x

theorem Wf.joiner (hw : Wf P σ) {j : ThreadId} (hj : σ.HasThread j t)
    (hjoin : Engine.isJoiner x t = true) : ∃ f fr name k, Joiner P σ x j t f fr name k := by
  rw [Engine.isJoiner] at hjoin
  split at hjoin
  case _ k hst =>
    obtain ⟨f, fr, op, hhead, hf, hop, name, rfl, hk⟩ := hw.code.blocked j t _ hj hst
    exact ⟨f, fr, name, k, ⟨hj, hhead, hf⟩, hst, hop, hk, of_decide_eq_true hjoin⟩
  case _ => cases hjoin

theorem Joiner.isJoiner {j : ThreadId} {name : String} {k : HandleId}
    (h : Joiner P σ x j t f fr name k) : Engine.isJoiner x t = true := by
  rw [Engine.isJoiner, h.status]
  exact decide_eq_true h.child

/-- A thread has one joiner at most. -/
theorem Wf.joiners (hw : Wf P σ) (x : ThreadId) :
    (σ.threads.toList.filter fun p ↦ Engine.isJoiner x p.2).map Prod.fst = [] ∨
      ∃ j t f fr name k, Joiner P σ x j t f fr name k ∧
        (σ.threads.toList.filter fun p ↦ Engine.isJoiner x p.2).map Prod.fst = [j] := by
  have hkeys : ((σ.threads.toList.filter fun p ↦ Engine.isJoiner x p.2).map Prod.fst).Nodup := by
    refine List.Nodup.sublist (List.filter_sublist.map _) ?_
    rw [Std.ExtTreeMap.map_fst_toList_eq_keys]
    exact Std.ExtTreeMap.nodup_keys
  have hmem : ∀ j ∈ (σ.threads.toList.filter fun p ↦ Engine.isJoiner x p.2).map Prod.fst,
      ∃ t f fr name k, Joiner P σ x j t f fr name k := by
    intro j hj
    obtain ⟨⟨j, t⟩, hp, rfl⟩ := List.mem_map.mp hj
    obtain ⟨hp, hjoin⟩ := List.mem_filter.mp hp
    exact ⟨t, hw.joiner (Std.ExtTreeMap.mem_toList_iff_getElem?_eq_some.mp hp) hjoin⟩
  cases hl : (σ.threads.toList.filter fun p ↦ Engine.isJoiner x p.2).map Prod.fst with
  | nil => exact .inl rfl
  | cons j js =>
      rw [hl] at hkeys hmem
      obtain ⟨t, f, fr, name, k, hj⟩ := hmem j List.mem_cons_self
      refine .inr ⟨j, t, f, fr, name, k, hj, ?_⟩
      cases js with
      | nil => rfl
      | cons i is =>
          obtain ⟨u, g, gr, n, l, hi⟩ := hmem i (by simp)
          have := (hw.handles.child_inj j t k i u l x hj.top.thread hj.child hi.top.thread
            hi.child).1
          simp [this] at hkeys

variable {j : ThreadId} {name : String} {k : HandleId}

/-- The joiner let go, with its handle dropped. -/
def unjoin (σ : MachineState) (j : ThreadId) (f : FrameId) (name : String) (k : HandleId) :
    MachineState :=
  ((σ.setRunnable j).modifyFrame f fun fr ↦
    { fr with handles := fr.handles.erase name }).modifyThread j fun t ↦
      { t with handleChildren := t.handleChildren.erase k }

theorem Joiner.top_runnable (h : Joiner P σ x j t f fr name k) :
    Top (σ.setRunnable j) j { t with status := .runnable } f fr := by
  refine ⟨?_, h.top.head, h.top.frame⟩
  rw [HasThread, setRunnable, setStatus, getElem?_modifyThread, if_pos rfl,
    show σ.threads[j]? = some t from h.top.thread]
  rfl

theorem Joiner.rebound (h : Joiner P σ x j t f fr name k) :
    Rebound (σ.setRunnable j) (unjoin σ j f name k) j { t with status := .runnable } f fr
      (fr.handles.erase name) (t.handleChildren.erase k) :=
  rebound_drop h.top_runnable name k

theorem Joiner.ready (h : Joiner P σ x j t f fr name k) :
    Ready P (unjoin σ j f name k) j f :=
  h.rebound.ready h.top_runnable rfl (SemProgram.opAt_lt h.op)

theorem Joiner.wf (h : Joiner P σ x j t f fr name k) (hw : Wf P σ) :
    Wf P (σ.setRunnable j) ∧ Wf P (unjoin σ j f name k) := by
  have hb : σ.status j = some (.blocked (.join k)) := by rw [h.top.status, h.status]
  have hw' : Wf P (σ.setRunnable j) :=
    hw.restatus (.same hw hb (BlockReason.ne_of_untabled rfl) (by simp)) hb (by simp) (by simp)
      (by simp)
  exact ⟨hw', hw'.unbind h.top_runnable rfl h.rebound h.handle⟩

theorem Joiner.wakeJoiner_eq (h : Joiner E.program σ x j t f fr name k) (hw : Wf E.program σ) :
    E.wakeJoiner x σ j = (unjoin σ j f name k).advance j := by
  have hj := h.top.thread
  -- The only handle that leads to `x` is the one that is waited for.
  have hfilter : t.handleChildren.filter (fun _ c ↦ c ≠ x) = t.handleChildren.erase k := by
    ext1 l
    rw [Std.ExtTreeMap.getElem?_filter', Std.ExtTreeMap.getElem?_erase]
    split_ifs with hl
    · rw [← Nat.compare_eq_eq.mp hl, show t.handleChildren[k]? = some x from h.child]
      simp
    · cases hc : t.handleChildren[l]? with
      | none => rfl
      | some c =>
          have hne : c ≠ x := by
            rintro rfl
            have := (hw.handles.child_inj j t l j t k c hj hc hj h.child).2
            exact hl (by simp [this])
          simp [hne]
  have hthr : (σ.modifyThread j fun t ↦
      { t with handleChildren := t.handleChildren.filter fun _ c ↦ c ≠ x }).threads[j]? =
        some { t with handleChildren := t.handleChildren.erase k } := by
    rw [getElem?_modifyThread, if_pos rfl, show σ.threads[j]? = some t from hj, ← hfilter]
    rfl
  have hcur : (σ.modifyThread j fun t ↦
      { t with handleChildren := t.handleChildren.filter fun _ c ↦ c ≠ x }).currentFrameId j =
        some f := by
    rw [currentFrameId, hthr]
    exact h.top.head
  have hfr : (σ.modifyThread j fun t ↦
      { t with handleChildren := t.handleChildren.filter fun _ c ↦ c ≠ x }).currentFrame j =
        some fr := by
    rw [currentFrame, hcur]
    exact h.top.frame
  have hmap : (σ.threads.modify j fun t ↦
      { t with handleChildren := t.handleChildren.filter fun _ c ↦ c ≠ x }).modify j
        (fun t ↦ { t with status := .runnable }) =
      (σ.threads.modify j fun t ↦ { t with status := .runnable }).modify j
        fun t ↦ { t with handleChildren := t.handleChildren.erase k } := by
    ext1 y
    simp only [Std.ExtTreeMap.getElem?_modify, Nat.compare_eq_eq]
    split_ifs with hy
    · rw [show σ.threads[j]? = some t from hj]
      simp only [Option.map_some, hfilter]
    · rfl
  simp only [Engine.wakeJoiner, hfr, h.op, hcur, Option.getD_some, Engine.complete]
  congr 1
  simp only [unjoin, setRunnable, setStatus, modifyThread, modifyFrame, hmap]

/-- The end of thread `x`, as its joiner sees it. -/
inductive Woken (P : SemProgram) (σ : MachineState) (x : ThreadId) : MachineState → Prop
  | nobody (h : ∀ y u, σ.HasThread y u → Engine.isJoiner x u = false) : Woken P σ x σ
  | joiner {j : ThreadId} {t : ThreadState} {f : FrameId} {fr : Frame} {name : String}
      {k : HandleId} (h : Joiner P σ x j t f fr name k) :
      Woken P σ x (Engine.reclaim ((unjoin σ j f name k).advance j) x)

theorem Wf.woken (hw : Wf E.program σ) (x : ThreadId) :
    Woken E.program σ x (E.wakeJoiners σ x) := by
  rw [Engine.wakeJoiners]
  rcases hw.joiners x with hnil | ⟨j, t, f, fr, name, k, hj, hone⟩
  · simp only [hnil, List.foldl_nil, if_true]
    refine .nobody fun y u hu ↦ Bool.eq_false_iff.mpr fun hjoin ↦ ?_
    have hmem : y ∈ (σ.threads.toList.filter fun p ↦ Engine.isJoiner x p.2).map Prod.fst :=
      List.mem_map.mpr ⟨(y, u), List.mem_filter.mpr
        ⟨Std.ExtTreeMap.mem_toList_iff_getElem?_eq_some.mpr hu, hjoin⟩, rfl⟩
    rw [hnil] at hmem
    cases hmem
  · simp only [hone, List.foldl_cons, List.foldl_nil, List.cons_ne_nil, if_false]
    rw [hj.wakeJoiner_eq hw]
    exact .joiner hj

theorem Woken.wf (hw : Wf P σ) (hfin : ∀ u, σ.HasThread x u → u.status = .finished)
    (h : Woken P σ x σ') : Wf P σ' := by
  cases h with
  | nobody _ => exact hw
  | @joiner j t f fr name k hj =>
      obtain ⟨hw₁, hw₂⟩ := hj.wf hw
      have hq := hj.ready.quiet_advance
      obtain ⟨-, u, hu, -⟩ := hw.handles.child j t k x hj.top.thread hj.child
      have hf := hfin u hu
      have hne : x ≠ j := by
        rintro rfl
        rw [Option.some.inj (hu.symm.trans hj.top.thread), hj.status] at hf
        cases hf
      refine hw₁.reclaim_dropped hj.top_runnable hj.rebound (hw₂.quiet hq) hq.threads hj.child ?_
      rw [setRunnable, status_setStatus, if_neg hne, status, show σ.threads[x]? = some u from hu,
        Option.map_some, hf]

theorem finishThread_eq (top : Top σ x t f fr) (fn : FunctionId) :
    E.finishThread (Engine.popFrame σ x f) x fn =
      E.wakeJoiners (match t.parentScope with
        | some s => Engine.leaveScope (retire E σ x f fn) x s
        | none => retire E σ x f fn) x := by
  have hpar : (retire E σ x f fn).threads[x]?.bind (·.parentScope) = t.parentScope := by
    obtain ⟨m, hm⟩ := recordCompletion_eq (E := E)
      { (Engine.popFrame σ x f).setStatus x .finished with
        finished := ((Engine.popFrame σ x f).setStatus x .finished).finished.insert x } fn
    rw [show retire E σ x f fn = _ from hm]
    have hx := top.thread
    clear hm
    grind [Engine.popFrame, modifyThread, setStatus]
  rw [← hpar]
  rfl

/-- The end of a thread, as its scope sees it. -/
inductive Settled (σ : MachineState) (parent : Option ScopeId) : MachineState → Prop
  | stay (h : ∀ s sc, parent = some s → σ.HasScope s sc → sc.remaining ≠ ∅) :
      Settled σ parent σ
  | scope {s : ScopeId} {sc : ScopeState} (hp : parent = some s) (hs : σ.HasScope s sc)
      (hrem : sc.remaining = ∅) : Settled σ parent (Engine.completeScope σ s sc)

theorem settled_leaveScope (σ : MachineState) (x : ThreadId) (s : ScopeId) :
    Settled (leave σ x (some s)) (some s) (Engine.leaveScope σ x s) := by
  cases hs : σ.scopes[s]? with
  | none =>
      rw [Engine.leaveScope, hs, leave_of_none hs]
      refine .stay ?_
      rintro _ sc ⟨⟩ hsc
      rw [HasScope, hs] at hsc
      cases hsc
  | some sc =>
      have hsc : (leave σ x (some s)).HasScope s
          { sc with remaining := sc.remaining.erase x } := by
        change (σ.scopes.modify s _)[s]? = _
        rw [Std.ExtTreeMap.getElem?_modify, if_pos (by simp), hs]
        rfl
      rw [leaveScope_eq hs]
      split_ifs with hempty
      · exact .scope rfl hsc (Std.ExtTreeSet.isEmpty_iff.mp hempty)
      · refine .stay ?_
        rintro _ sc' ⟨⟩ hsc'
        rw [← Option.some.inj (hsc.symm.trans hsc')]
        exact fun he ↦ hempty (Std.ExtTreeSet.isEmpty_iff.mpr he)

theorem finishThread_settled (top : Top σ x t f fr) (fn : FunctionId) :
    ∃ σ₁, Settled (leave (retire E σ x f fn) x t.parentScope) t.parentScope σ₁ ∧
      E.finishThread (Engine.popFrame σ x f) x fn = E.wakeJoiners σ₁ x := by
  rw [finishThread_eq top]
  cases hp : t.parentScope with
  | none => exact ⟨_, .stay (by simp), rfl⟩
  | some s => exact ⟨_, settled_leaveScope _ x s, rfl⟩

theorem Settled.wf (hw : Wf P σ) (hfin : ∀ u, σ.HasThread x u → u.status = .finished)
    {parent : Option ScopeId} (h : Settled σ parent σ') :
    Wf P σ' ∧ ∀ u, σ'.HasThread x u → u.status = .finished := by
  cases h with
  | stay _ => exact ⟨hw, hfin⟩
  | scope _ hs hrem =>
      exact ⟨hw.completeScope hs hrem, fun u ↦ hw.finished_completeScope hs hfin⟩

theorem finished_unwound {st : ThreadStatus} (h : Unwound σ σ' x t f [] st) {u : ThreadState}
    (hu : σ'.HasThread x u) : u.status = st := by
  rcases h.hasThread.mp hu with ⟨-, rfl⟩ | ⟨hne, -⟩
  · rfl
  · exact absurd rfl hne

theorem Wf.finishThread (hw : Wf E.program σ) (top : Top σ x t f fr)
    (hrun : t.status = .runnable) (hst : t.stack = [f]) (fn : FunctionId) :
    Wf E.program (E.finishThread (Engine.popFrame σ x f) x fn) := by
  have hu := unwound_leave (E := E) top hst fn
  obtain ⟨σ₁, hse, heq⟩ := finishThread_settled (E := E) top fn
  obtain ⟨hw₁, hx₁⟩ := hse.wf (hw.unwind top hrun hst (by simp) hu) fun u ↦ finished_unwound hu
  rw [heq]
  exact (hw₁.woken x).wf hw₁ hx₁

end Finishing

end ConcIR
