import ConcIR.Machine.Finish
import ConcIR.Petri.Records

/-!
# Threads that finish, on both sides

The end of a thread lets the owner of its scope or its joiner go on. The net finds the
joiner in the places of waiting joins.
-/

namespace ConcIR

open MachineState

namespace Petri

variable {E : Engine} {P : SemProgram} {out : Set ThreadId} {σ σ' σ₁ : MachineState}
  {m m' m₁ : NetState} {x y j c : ThreadId} {t u : ThreadState} {f g : FrameId} {fr gr : Frame}
  {r : BlockReason} {k k' : PlaceKey} {tok tok' : NetToken} {s : ScopeId} {sc : ScopeState}

section Scopes

/-- A thread that is not blocked for a scope owns none. -/
theorem Wf.free (hw : Wf P σ) (hx : σ.HasThread x t) (hne : ∀ s, t.status ≠ .blocked (.scope s))
    (s : ScopeId) (sc : ScopeState) (hs : σ.HasScope s sc) :
    sc.owner ≠ x ∧ ∀ t, σ.HasThread x t → sc.ownerFrame ∉ t.stack := by
  have hne' : sc.owner ≠ x := by
    rintro rfl
    have hb := (hw.regs.iff sc.owner (.scope s) rfl).mp ⟨sc, hs, rfl⟩
    rw [status, show σ.threads[sc.owner]? = some t from hx, Option.map_some] at hb
    exact hne s (Option.some.inj hb)
  refine ⟨hne', fun u hu hmem ↦ hne' ?_⟩
  obtain ⟨v, hv, hhead, -⟩ := hw.scopes.owner s sc hs
  exact hw.stack.disjoint _ v x u _ hv hu (List.mem_of_head? hhead) hmem

/-- A change of the scopes that keeps their owners, or closes some. -/
theorem Corr.setScopes (h : Corr P out σ m) {scopes : BTreeMap ScopeId ScopeState}
    {netScopes : BTreeMap ScopeId NetScope}
    (hmap : ∀ s : ScopeId, netScopes[s]? = scopes[s]?.map (netScope σ.store.frames))
    (hscope : ∀ (s : ScopeId) sc, scopes[s]? = some sc →
      ∃ sc₀, σ.HasScope s sc₀ ∧ sc₀.owner = sc.owner ∧ sc₀.ownerFrame = sc.ownerFrame) :
    Corr P out { σ with scopes := scopes }
      { m with store := { m.store with scopes := netScopes } } := by
  have hr := h.records
  exact h.congr h.cells (fun _ _ ↦ rfl) (fun y _ ↦ .of_eq rfl rfl (fun _ ↦ rfl) rfl)
    ⟨hr.frames, hr.thread, hmap, hr.finished, hr.completedFunctions, hr.completedScopes,
      hr.reached, hr.alloc⟩ (fun y u hu ↦ ⟨u, hu, fun g hg ↦ hg⟩) hscope

theorem Corr.closeScope (h : Corr P out σ m) (s : ScopeId) :
    Corr P out (closeScope σ s)
      { m with store := { m.store with scopes := m.store.scopes.erase s } } := by
  refine h.setScopes (fun d ↦ ?_) fun d sc hd ↦ ?_
  · rw [Std.ExtTreeMap.getElem?_erase, Std.ExtTreeMap.getElem?_erase, h.records.scope]
    split_ifs <;> rfl
  · rw [Std.ExtTreeMap.getElem?_erase] at hd
    split_ifs at hd
    exact ⟨sc, hd, rfl, rfl⟩

theorem Corr.leave (h : Corr P out σ m) (hs : σ.HasScope s sc) (x : ThreadId) :
    Corr P out (leave σ x (some s)) { m with store := { m.store with
      scopes := m.store.scopes.insert s
        { netScope σ.store.frames sc with remaining := sc.remaining.erase x } } } := by
  refine h.setScopes (fun d ↦ ?_) fun d sc' hd ↦ ?_
  · rw [Std.ExtTreeMap.getElem?_insert, Std.ExtTreeMap.getElem?_modify]
    split_ifs with hd
    · rw [show σ.scopes[s]? = some sc from hs]
      rfl
    · exact h.records.scope d
  · rw [Std.ExtTreeMap.getElem?_modify] at hd
    split_ifs at hd with he
    · obtain ⟨sc₀, hs₀, rfl⟩ := Option.map_eq_some_iff.mp hd
      exact ⟨sc₀, Nat.compare_eq_eq.mp he ▸ hs₀, rfl, rfl⟩
    · exact ⟨sc', hd, rfl, rfl⟩

theorem Corr.filterMembers (h : Corr P out σ m) (s : ScopeId)
    (hgone : ∀ y t, memberOf σ s y → σ.HasThread y t → t.status = .finished) :
    Corr P out { σ with
      threads := σ.threads.filter fun _ t ↦ t.parentScope ≠ some s
      finished := σ.finished.filter fun y ↦ σ.threads[y]?.bind (·.parentScope) ≠ some s }
      { m with store := { m.store with
        threads := m.store.threads.filter fun _ t ↦ t.parentScope ≠ some s
        finished := m.store.finished.filter fun x ↦
          m.store.threads[x]?.bind (·.parentScope) ≠ some s } } := by
  have hr := h.records
  refine h.remove (removed_members σ s rfl rfl rfl rfl rfl rfl) hgone rfl
    ⟨hr.frames, fun y ↦ ?_, hr.scope, ?_, hr.completedFunctions, hr.completedScopes, hr.reached,
      hr.alloc⟩
  · rw [Std.ExtTreeMap.getElem?_filter', Std.ExtTreeMap.getElem?_filter', hr.thread]
    cases σ.threads[y]? with
    | none => rfl
    | some u =>
        have hp : (netThread σ.store.frames u).parentScope = u.parentScope := rfl
        rw [Option.map_some, Option.filter_some, Option.filter_some, hp]
        split_ifs <;> rfl
  · have hp : ∀ y : ThreadId, m.store.threads[y]?.bind (·.parentScope) =
        σ.threads[y]?.bind (·.parentScope) := fun y ↦ by
      rw [hr.thread]
      cases σ.threads[y]? <;> rfl
    simp only [hr.finished, hp]

/-- The owner of a scope, which waits for it in its place. -/
theorem Wf.scopeSeat (hw : Wf P σ) (hs : σ.HasScope s sc) :
    ∃ t fr, Top σ sc.owner t sc.ownerFrame fr ∧ t.status = .blocked (.scope s) ∧
      ∃ funcs, P.opAt fr.function fr.pc = some (.scope funcs) := by
  obtain ⟨t, ht, hhead, -⟩ := hw.scopes.owner s sc hs
  have hb := (hw.regs.iff sc.owner (.scope s) rfl).mp ⟨sc, hs, rfl⟩
  rw [status, show σ.threads[sc.owner]? = some t from ht, Option.map_some] at hb
  obtain ⟨f, fr, op, hf, hfr, hop, funcs, rfl⟩ :=
    hw.code.blocked sc.owner t _ ht (Option.some.inj hb)
  obtain rfl : sc.ownerFrame = f := Option.some.inj (hhead.symm.trans hf)
  exact ⟨t, fr, ⟨ht, hhead, hfr⟩, Option.some.inj hb, funcs, hop⟩

theorem Corr.completeScope (h : Corr E.program ∅ σ m) (hw : Wf E.program σ)
    (hs : σ.HasScope s sc) (hrem : sc.remaining = ∅) :
    Corr E.program ∅ (Engine.completeScope σ s sc)
      (completeScope E m s (netScope σ.store.frames sc)) := by
  obtain ⟨t, fr, top, hb, funcs, hop⟩ := Wf.scopeSeat hw hs
  have hf : σ.store.frames[sc.ownerFrame]? = some fr := top.frame
  have hmf : m.store.frames[sc.ownerFrame]? = some fr := by rw [h.records.frames, hf]
  have hseat : Seat σ sc.owner (.scopeWait fr.function fr.pc)
      (.scopeWait sc.owner sc.ownerFrame) := .wait top hb (.scope s)
  have hwait : hasPlace E (.scopeWait fr.function fr.pc) = true :=
    hasPlace_iff.mpr (scopeWait_mem_places hop)
  have hmem : NetToken.scopeWait sc.owner sc.ownerFrame ∈
      m.marking (.scopeWait fr.function fr.pc) :=
    ((h.seats _ rfl).2 _).mpr ⟨sc.owner, Set.notMem_empty _, hseat⟩
  have hnext : hasPlace E (.control fr.function (fr.pc + 1)) = true :=
    hasPlace_iff.mpr (control_mem_places (E.program.lt_of_opAt hop) (SemProgram.opAt_lt hop))
  have hsid : (netScope σ.store.frames sc).ownerSid = fr.pc := by
    rw [netScope, hf, Option.map_some, Option.getD_some]
  rw [Petri.completeScope, Engine.completeScope]
  simp only [show (netScope σ.store.frames sc).ownerFrame = sc.ownerFrame from rfl, hmf, hf, hsid,
    show (netScope σ.store.frames sc).owner = sc.owner from rfl, hwait, hmem, hnext, true_and,
    if_true]
  have htop : Top (ConcIR.closeScope { σ with
      completedScopes := σ.completedScopes.insert (fr.function, fr.pc) } s) sc.owner t
        sc.ownerFrame fr := ⟨top.thread, top.head, top.frame⟩
  have htop' : Top { σ with
      completedScopes := σ.completedScopes.insert (fr.function, fr.pc) } sc.owner t
        sc.ownerFrame fr := ⟨top.thread, top.head, top.frame⟩
  -- The scope is closed, so its owner can be taken out of its place and go on.
  have h₁ := (h.completeStatement (fr.function, fr.pc)).closeScope s
  have h₂ := (h₁.take (Set.notMem_empty _) (.wait htop hb (.scope s)) (fun k' tok' hs' ↦ ?_)
    fun s' sc' hs' ↦ ?_).complete (Set.notMem_empty _) htop
  · have h₃ := h₂.filterMembers s fun y u hmem hu ↦ ?_
    · rw [advance_eq_setPc (top_setRunnable htop')]
      rw [Engine.complete, advance_eq_setPc (top_setRunnable htop)] at h₃
      exact h₃
    · obtain ⟨v, hv, hpar⟩ := hmem
      obtain rfl : u = v := Option.some.inj (hu.symm.trans hv)
      rw [HasThread, Engine.complete, (advance_records _ _).1, MachineState.setRunnable,
        setStatus, getElem?_modifyThread] at hu
      split_ifs at hu with hy
      · obtain ⟨w, hw', -, hne⟩ := hw.scopes.owner s sc hs
        obtain ⟨w', hw'', rfl⟩ := Option.map_eq_some_iff.mp hu
        rw [hy] at hw''
        rw [Option.some.inj (hw''.symm.trans hw')] at hpar
        exact absurd hpar hne
      · by_contra hlive
        have := (hw.scopes.remaining s sc y hs).mpr ⟨u, hu, hpar, hlive⟩
        simp [hrem] at this
  · obtain ⟨rfl, hw'⟩ := seat_blocked htop hb hs'
    cases hw'
    exact ⟨rfl, rfl⟩
  · obtain ⟨hne, hs'⟩ := hasScope_closeScope.mp hs'
    have howner : sc'.owner ≠ sc.owner := by
      intro he
      have := (hw.regs.iff sc'.owner (.scope s') rfl).mp ⟨sc', hs', rfl⟩
      rw [he, top.status, hb] at this
      simp only [Option.some.injEq, ThreadStatus.blocked.injEq, BlockReason.scope.injEq] at this
      exact hne this.symm
    refine ⟨howner, fun u hu hmem ↦ howner ?_⟩
    obtain ⟨v, hv, hhead, -⟩ := hw.scopes.owner s' sc' hs'
    exact hw.stack.disjoint _ v sc.owner u _ hv hu (List.mem_of_head? hhead) hmem

end Scopes

section Joins

theorem foldl_eq_self {α β : Type} {F : α → β → α} {a : α} {l : List β}
    (h : ∀ b ∈ l, F a b = a) : l.foldl F a = a := by
  induction l with
  | nil => rfl
  | cons b l ih =>
      rw [List.foldl_cons, h b List.mem_cons_self]
      exact ih fun c hc ↦ h c (List.mem_cons_of_mem b hc)

theorem modify_comm {K V : Type} [Ord K] [Std.TransOrd K] [Std.LawfulEqOrd K]
    (map : BTreeMap K V) (k : K) {F G : V → V} (h : ∀ v, F (G v) = G (F v)) :
    (map.modify k F).modify k G = (map.modify k G).modify k F := by
  ext1 l
  simp only [Std.ExtTreeMap.getElem?_modify]
  by_cases hl : compare k l = .eq
  · have : compare k k = .eq := Std.ReflCmp.compare_self
    simp only [hl, this, if_true]
    cases map[k]? with
    | none => rfl
    | some v => exact congrArg some (h v).symm
  · simp only [hl, if_false]

/-- The thread that a waiting join statement names is the one its reason says. -/
theorem joinedChild_eq (h : Corr E.program out σ m) (hw : Wf E.program σ) {fn : FunctionId}
    {pc : ℕ} (hs : Seat σ y (.joinWait fn pc) (.joinWait y f)) :
    ∃ t fr name l, Top σ y t f fr ∧ t.status = .blocked (.join l) ∧ fr.function = fn ∧
      fr.pc = pc ∧ E.program.opAt fn pc = some (.join name) ∧ fr.HasHandle name l ∧
        joinedChild E m fn pc y f = t.handleChildren[l]? := by
  generalize hk : PlaceKey.joinWait fn pc = k at hs
  cases hs with
  | @wait t g fr r _ top hb hwt =>
      cases hwt with
      | join l =>
          obtain ⟨rfl, rfl⟩ := PlaceKey.joinWait.inj hk
          obtain ⟨g, gr, op, hg, hgr, hop, name, rfl, hh⟩ := hw.code.blocked y t _ top.thread hb
          obtain rfl : f = g := Option.some.inj (top.head.symm.trans hg)
          obtain rfl : fr = gr := Option.some.inj (top.frame.symm.trans hgr)
          refine ⟨t, fr, name, l, top, hb, rfl, rfl, hop, hh, ?_⟩
          simp only [joinedChild, hop, h.records.frames, h.records.thread,
            show σ.store.frames[f]? = some fr from top.frame,
            show σ.threads[y]? = some t from top.thread, Option.bind_some, Option.map_some,
            show fr.handles[name]? = some l from hh]
          rfl

/-- In a place of waiting joins stand blocked threads. -/
theorem joiner_of_mem (h : Corr P out σ m) {fn : FunctionId} {pc : ℕ}
    (hmem : tok ∈ m.marking (.joinWait fn pc)) :
    ∃ y f, tok = .joinWait y f ∧ y ∉ out ∧ Seat σ y (.joinWait fn pc) (.joinWait y f) := by
  obtain ⟨y, hy, hs⟩ := ((h.seats _ rfl).2 tok).mp hmem
  generalize hk : PlaceKey.joinWait fn pc = k at hs
  cases hs with
  | control top hrun => cases hk
  | @wait t f fr r _ top hb hwt =>
      cases hwt <;> cases hk
      exact ⟨y, f, rfl, hy, .wait top hb (.join _)⟩

/-- A waiting thread that has no business with `x` is left alone. -/
theorem wakeJoiner_other (h : Corr E.program out σ m) (hw : Wf E.program σ) {fn : FunctionId}
    {pc : ℕ} (hno : ∀ y t l, σ.HasThread y t → t.status = .blocked (.join l) →
      Seat σ y (.joinWait fn pc) tok → ¬ t.HasChild l x)
    (hmem : tok ∈ m.marking (.joinWait fn pc)) : wakeJoiner E x fn pc m tok = m := by
  obtain ⟨y, f, rfl, hy, hs⟩ := joiner_of_mem h hmem
  obtain ⟨t, fr, name, l, top, hb, -, -, -, -, hc⟩ := joinedChild_eq h hw hs
  rw [wakeJoiner, if_neg]
  rw [hc]
  exact hno y t l top.thread hb hs

/-- Nobody waits for `x`. -/
theorem wakeJoinersAt_nobody (h : Corr E.program out σ m) (hw : Wf E.program σ)
    (hno : ∀ y t l, σ.HasThread y t → t.status = .blocked (.join l) → ¬ t.HasChild l x)
    (k : PlaceKey) : wakeJoinersAt E x m k = m := by
  cases k with
  | joinWait fn pc =>
      exact foldl_eq_self fun tok hmem ↦
        wakeJoiner_other h hw (fun y t l ht hb _ ↦ hno y t l ht hb) hmem
  | _ => rfl

/-- The joiner is let go and the thread it waited for is reclaimed. -/
theorem Corr.wakeJoiner (h : Corr E.program ∅ σ m) (hw : Wf E.program σ) {name : String}
    {l : HandleId} (hj : Joiner E.program σ x j t f fr name l)
    (hfin : ∀ u, σ.HasThread x u → u.status = .finished) :
    Corr E.program ∅ (Engine.reclaim ((unjoin σ j f name l).advance j) x)
      (wakeJoiner E x fr.function fr.pc m (.joinWait j f)) := by
  have htop := hj.top
  have hf : σ.store.frames[f]? = some fr := htop.frame
  have hmf : m.store.frames[f]? = some fr := by rw [h.records.frames, hf]
  have hchild : joinedChild E m fr.function fr.pc j f = some x := by
    simp only [joinedChild, hj.op, hmf, h.records.thread,
      show σ.threads[j]? = some t from htop.thread, Option.bind_some, Option.map_some,
      show fr.handles[name]? = some l from hj.handle]
    exact hj.child
  have hnext : hasPlace E (.control fr.function (fr.pc + 1)) = true :=
    hasPlace_iff.mpr (control_mem_places (E.program.lt_of_opAt hj.op) (SemProgram.opAt_lt hj.op))
  have hcomm := modify_comm (σ.setRunnable j).store.frames f
    (F := fun fr ↦ { fr with pc := fr.pc + 1 })
    (G := fun fr ↦ { fr with handles := fr.handles.erase name }) fun _ ↦ rfl
  have hmach : (((Engine.complete σ j).modifyThread j
      fun t ↦ { t with handleChildren := t.handleChildren.erase l }).modifyFrame f
        fun fr ↦ { fr with handles := fr.handles.erase name }) =
      (unjoin σ j f name l).advance j := by
    rw [hj.ready.advance_eq, Engine.complete,
      (Ready.of_top hj.top_runnable rfl (SemProgram.opAt_lt hj.op)).advance_eq]
    simp only [unjoin, MachineState.modifyFrame, MachineState.modifyThread, hcomm]
  have huniq : ∀ k' tok', Seat σ j k' tok' →
      k' = .joinWait fr.function fr.pc ∧ tok' = .joinWait j f := fun k' tok' hs ↦ by
    obtain ⟨rfl, hw'⟩ := seat_blocked htop hj.status hs
    cases hw'
    exact ⟨rfl, rfl⟩
  have h₁ := ((((h.take (Set.notMem_empty j) (.wait htop hj.status (.join l)) huniq
    (Wf.free hw htop.thread fun s ↦ by simp [hj.status])).complete (Set.notMem_empty j)
      htop).modifyThread j (F := fun t ↦ { t with handleChildren := t.handleChildren.erase l })
      (G := fun t ↦ { t with handleChildren := t.handleChildren.erase l }) (fun _ _ ↦ rfl)
        (fun _ ↦ rfl) (.inr fun _ ↦ rfl)).modifyFrame f
      (F := fun fr ↦ { fr with handles := fr.handles.erase name }) (fun _ ↦ rfl) fun _ ↦ rfl)
  rw [hmach] at h₁
  have hhandle : (((Petri.placeControl (m.takeToken (.joinWait fr.function fr.pc) (.joinWait j f))
      (.control fr.function (fr.pc + 1)) j f).unblock j).store.frames[f]?).bind
        (·.handles[name]?) = some l := by
    change ((m.store.frames.modify f fun fr ↦ _)[f]?).bind _ = _
    rw [Std.ExtTreeMap.getElem?_modify_self, hmf]
    exact hj.handle
  rw [Petri.wakeJoiner, if_pos hchild]
  simp only [hnext, if_true, hj.op, hhandle]
  have hr := h₁.records
  refine h₁.remove (removed_reclaim x) ?_ rfl ⟨hr.frames, fun y ↦ ?_, hr.scope, ?_,
    hr.completedFunctions, hr.completedScopes, hr.reached, hr.alloc⟩
  · rintro y u rfl hu
    rw [HasThread, (advance_records _ j).1] at hu
    rcases hj.rebound.hasThread.mp hu with ⟨rfl, -⟩ | ⟨hne, hu⟩
    · have := hfin t htop.thread
      rw [hj.status] at this
      cases this
    · rw [HasThread, MachineState.setRunnable, setStatus, getElem?_modifyThread, if_neg hne] at hu
      exact hfin u hu
  · refine (Std.ExtTreeMap.getElem?_erase ..).trans ?_
    refine Eq.trans ?_ (congrArg (Option.map _) (Std.ExtTreeMap.getElem?_erase ..)).symm
    split_ifs
    · rfl
    · exact hr.thread y
  · exact congrArg (·.erase x) hr.finished

/-- Nobody holds a handle to `x`. -/
theorem wakeJoiner_childless (hno : ∀ (y : ThreadId) t (l : HandleId),
    m.store.threads[y]? = some t → t.handleChildren[l]? ≠ some x)
    (fn : FunctionId) (pc : ℕ) (tok : NetToken) : wakeJoiner E x fn pc m tok = m := by
  cases tok with
  | joinWait y f =>
      rw [Petri.wakeJoiner, if_neg]
      intro hc
      rw [joinedChild] at hc
      split at hc
      · obtain ⟨l, -, hl⟩ := Option.bind_eq_some_iff.mp hc
        obtain ⟨t, ht, htl⟩ := Option.bind_eq_some_iff.mp hl
        exact hno y t l ht htl
      · cases hc
  | _ => rfl

theorem wakeJoinersAt_childless (hno : ∀ (y : ThreadId) t (l : HandleId),
    m.store.threads[y]? = some t → t.handleChildren[l]? ≠ some x) (k : PlaceKey) :
    wakeJoinersAt E x m k = m := by
  cases k with
  | joinWait fn pc => exact foldl_eq_self fun tok _ ↦ wakeJoiner_childless hno fn pc tok
  | _ => rfl

/-- The joiner of a finished thread is let go on both sides. -/
theorem Corr.wakeJoiners (h : Corr E.program ∅ σ m) (hw : Wf E.program σ)
    (hfin : ∀ u, σ.HasThread x u → u.status = .finished) :
    Corr E.program ∅ (E.wakeJoiners σ x) ((places E.program).foldl (wakeJoinersAt E x) m) := by
  have hwoken := hw.woken x
  have hw' := hwoken.wf hw hfin
  generalize E.wakeJoiners σ x = σ' at hwoken hw'
  cases hwoken with
  | nobody hno =>
      rw [foldl_eq_self fun k _ ↦ wakeJoinersAt_nobody h hw (fun y t l ht hb hc ↦ ?_) k]
      · exact h
      · have := hno y t ht
        rw [Engine.isJoiner, hb] at this
        exact absurd hc (of_decide_eq_false this)
  | @joiner j t f fr name l hj =>
      have h' := h.wakeJoiner hw hj hfin
      have hseat : Seat σ j (.joinWait fr.function fr.pc) (.joinWait j f) :=
        .wait hj.top hj.status (.join l)
      -- The joiner is the only one who waits for `x`, in its place and with its token.
      have hone : ∀ y u l' k tok, σ.HasThread y u → u.HasChild l' x → Seat σ y k tok →
          k = .joinWait fr.function fr.pc ∧ tok = .joinWait j f := by
        intro y u l' k tok hu hc hs
        obtain ⟨rfl, -⟩ := hw.handles.child_inj y u l' j t l x hu hc hj.top.thread hj.child
        exact hseat.unique hw.regs hs
      have hnone : ∀ (y : ThreadId) u (l' : HandleId), (Petri.wakeJoiner E x fr.function fr.pc m
          (.joinWait j f)).store.threads[y]? = some u → u.handleChildren[l']? ≠ some x := by
        intro y u l' hu hc
        rw [h'.records.thread] at hu
        obtain ⟨v, hv, rfl⟩ := Option.map_eq_some_iff.mp hu
        obtain ⟨-, w, hx, -⟩ := hw'.handles.child y v l' x hv hc
        exact (removed_reclaim x).hasThread.mp hx |>.1 rfl
      have hplace : PlaceKey.joinWait fr.function fr.pc ∈ places E.program :=
        joinWait_mem_places hj.op
      obtain ⟨ks, ks', hks, hk⟩ := List.eq_append_cons_of_mem hplace
      obtain ⟨toks, toks', htoks, htok⟩ := List.eq_append_cons_of_mem
        (((h.seats _ rfl).2 _).mpr ⟨j, Set.notMem_empty j, hseat⟩)
      have hother : ∀ fn pc tok, tok ∈ m.marking (.joinWait fn pc) →
          ¬ (PlaceKey.joinWait fn pc = .joinWait fr.function fr.pc ∧ tok = .joinWait j f) →
            Petri.wakeJoiner E x fn pc m tok = m := fun fn pc tok hmem hne ↦
        wakeJoiner_other h hw (fun y u l' hu _ hs hc ↦ hne (hone y u l' _ tok hu hc hs)) hmem
      have hbefore : ks.foldl (wakeJoinersAt E x) m = m := foldl_eq_self fun k hk' ↦ by
        cases k with
        | joinWait fn pc =>
            exact foldl_eq_self fun tok hmem ↦ hother fn pc tok hmem fun he ↦ hk (he.1 ▸ hk')
        | _ => rfl
      have hfirst : toks.foldl (Petri.wakeJoiner E x fr.function fr.pc) m = m :=
        foldl_eq_self fun tok hmem ↦ hother _ _ tok (htoks ▸ List.mem_append_left _ hmem)
          fun he ↦ htok (he.2 ▸ hmem)
      rw [hks, List.foldl_append, hbefore, List.foldl_cons, wakeJoinersAt, htoks,
        List.foldl_append, hfirst, List.foldl_cons,
        foldl_eq_self fun tok _ ↦ wakeJoiner_childless hnone _ _ tok,
        foldl_eq_self fun k _ ↦ wakeJoinersAt_childless hnone k]
      exact h'

end Joins

section Ends

theorem Corr.leaveScope (h : Corr E.program ∅ σ m) (hw : Wf E.program (ConcIR.leave σ x (some s))) :
    Corr E.program ∅ (Engine.leaveScope σ x s) (leaveScope E m x s) := by
  cases hs : σ.scopes[s]? with
  | none =>
      have hm : m.store.scopes[s]? = none := by rw [h.records.scope, hs, Option.map_none]
      rw [Engine.leaveScope, hs, Petri.leaveScope, hm]
      exact h
  | some sc =>
      have hm : m.store.scopes[s]? = some (netScope σ.store.frames sc) := by
        rw [h.records.scope, hs, Option.map_some]
      have hl := h.leave hs x
      have hsc : (ConcIR.leave σ x (some s)).HasScope s
          { sc with remaining := sc.remaining.erase x } := by
        change (σ.scopes.modify s _)[s]? = _
        rw [Std.ExtTreeMap.getElem?_modify_self, hs]
        rfl
      rw [leaveScope_eq hs, Petri.leaveScope, hm]
      simp only [show (netScope σ.store.frames sc).remaining = sc.remaining from rfl]
      split_ifs with hempty
      · exact hl.completeScope hw hsc (Std.ExtTreeSet.isEmpty_iff.mp hempty)
      · exact hl

/-- A thread that drops its last activation is finished on both sides. -/
theorem Corr.finishThread (h : Corr E.program (insert x ∅) σ m) (hw : Wf E.program σ)
    (top : Top σ x t f fr) (hrun : t.status = .runnable) (hst : t.stack = [f])
    (fn : FunctionId) : Corr E.program ∅ (E.finishThread (Engine.popFrame σ x f) x fn)
      (finishThread E (Petri.popFrame m x f) x fn) := by
  have hu := unwound_leave (E := E) top hst fn
  have hwl : Wf E.program (ConcIR.leave (retire E σ x f fn) x t.parentScope) :=
    hw.unwind top hrun hst (by simp) hu
  have hpop : (Engine.popFrame σ x f).HasThread x { t with stack := [], status := .runnable } :=
    (unwound_popFrame top hrun hst).hasThread.mpr (.inl ⟨rfl, rfl⟩)
  have h₁ := ((h.popFrame (Set.mem_insert x ∅) top hrun hst).setFinished (Set.mem_insert x ∅) hpop
    rfl).recordCompletion fn
  have hret : (retire E σ x f fn).HasThread x { t with stack := [], status := .finished } := by
    have := hu.hasThread.mpr (.inl ⟨rfl, rfl⟩)
    cases hp : t.parentScope <;> rwa [hp] at this
  have h₂ : Corr E.program ∅ (retire E σ x f fn) _ := Corr.drop h₁ fun k tok ↦
    not_seat_of_finished hret rfl
  rw [Petri.finishThread, finishThread_eq top]
  generalize hm : Petri.recordCompletion E _ fn = m₂
  rw [show Petri.recordCompletion E _ fn = m₂ from hm] at h₂
  have hpar : m₂.store.threads[x]?.bind (·.parentScope) = t.parentScope := by
    rw [h₂.records.thread, show (retire E σ x f fn).threads[x]? = some _ from hret]
    rfl
  simp only [hpar]
  cases hp : t.parentScope with
  | none =>
      rw [hp] at hwl hu
      exact h₂.wakeJoiners hwl fun u ↦ finished_unwound hu
  | some s =>
      rw [hp] at hwl hu
      obtain ⟨hw₁, hfin⟩ := (settled_leaveScope _ x s).wf hwl fun u ↦ finished_unwound hu
      exact (h₂.leaveScope hwl).wakeJoiners hw₁ hfin

end Ends

end Petri

end ConcIR
