import ConcIR.Machine.Preserve

/-!
# Calls, returns and the lifetimes of threads

The steps that create or reclaim records keep a machine well-formed.
-/

namespace ConcIR

open MachineState

variable {E : Engine} {P : SemProgram} {σ σ' σ₁ : MachineState} {x y : ThreadId}
  {t : ThreadState} {f g : FrameId} {fr : Frame} {op : SemOp}

section Calls

theorem unwound_popFrame (top : Top σ x t f fr) (hrun : t.status = .runnable)
    {rest : List FrameId} (hst : t.stack = f :: rest) :
    Unwound σ (Engine.popFrame σ x f) x t f rest .runnable where
  threads := fun y ↦ by
    have hx := top.thread
    grind [Engine.popFrame, modifyThread]
  frames := fun k ↦ by grind [Engine.popFrame, modifyThread]
  finished := fun y ↦ by simp [Engine.popFrame, modifyThread]
  scopes := fun s ↦ by
    simp only [reduceCtorEq, false_and, if_false, Option.map_id']
    rfl
  alloc := rfl
  tables := ⟨rfl, rfl⟩

theorem Wf.returnTo (hw : Wf E.program σ) (top : Top σ x t f fr) (hrun : t.status = .runnable)
    {caller : FrameId} {rest : List FrameId} (hst : t.stack = f :: caller :: rest)
    (val : Option Value) : Wf E.program (E.returnTo σ x f caller fr val) := by
  have hu := unwound_popFrame top hrun hst
  have hw₁ := hw.unwind top hrun hst (by simp) hu
  have hchain := hw.stack.chain x t top.thread
  rw [hst, List.isChain_cons_cons] at hchain
  obtain ⟨fr', fc, ret, hfr', hfc, hret, hle, hok⟩ := hchain.1
  obtain rfl : fr = fr' := Option.some.inj (top.frame.symm.trans hfr')
  have hne : caller ≠ f := fun he ↦ by
    have := hw.stack.nodup x t top.thread
    simp [hst, he] at this
  have hrunning : ∃ u, (Engine.popFrame σ x f).HasThread x u ∧ u.status = .runnable ∧
      u.stack.head? = some caller := ⟨_, hu.hasThread.mpr (.inl ⟨rfl, rfl⟩), rfl, rfl⟩
  have hfc₁ : (Engine.popFrame σ x f).HasFrame caller fc := hu.hasFrame.mpr ⟨hne, hfc⟩
  simp only [Engine.returnTo, hret]
  generalize Engine.popFrame σ x f = σ₁ at hw₁ hrunning hfc₁
  -- The value is written, then the caller goes on.
  have hw₂ : ∀ σ₂, Quiet E.program σ₁ σ₂ →
      Wf E.program (E.recordCompletion (σ₂.setPc caller ret.pcNext) fr.function) := by
    intro σ₂ hq
    have hpc : Quiet E.program σ₂ (σ₂.setPc caller ret.pcNext) := by
      refine Ready.quiet_setPc (x := x) ?_ fun gr hgr ↦ ?_
      · obtain ⟨u, hu, hrest⟩ := hrunning
        exact ⟨u, by rwa [HasThread, hq.threads], hrest⟩
      · obtain ⟨gr₁, hgr₁, hs⟩ := hq.frames.back hgr
        obtain rfl : fc = gr₁ := Option.some.inj (hfc₁.symm.trans hgr₁)
        obtain ⟨-, hfun, -⟩ := Frame.skel_eq_iff.mp hs
        rwa [← hfun]
    exact ((hw₁.quiet hq).quiet hpc).quiet (quiet_recordCompletion _ _)
  cases val with
  | none => exact hw₂ σ₁ (.refl _)
  | some v => exact hw₂ _ (hw₁.quiet_writeDst hok caller v)

theorem pushed_pushFrame (top : Top σ x t f fr) {callee : FunctionId}
    (hlt : callee < E.program.functions.length) {dst : Option SlotRef} (values : List Value)
    (hpc : fr.pc < (E.program.function fr.function).body.length)
    (hd : (dst.map (dstOk E.program.resources)).getD true = true) :
    Pushed E.program σ (Engine.pushFrame σ x (E.callFrame σ fr callee dst values)) x t fr
      (E.callFrame σ fr callee dst values) where
  threads := fun y ↦ by
    have hx := top.thread
    grind [Engine.pushFrame, modifyThread, writeFrame]
  frames := fun k ↦ by grind [Engine.pushFrame, modifyThread, writeFrame]
  finished := rfl
  scopes := rfl
  alloc := ⟨le_rfl, Nat.le_succ _, le_rfl, le_rfl⟩
  fresh := ⟨rfl, Nat.lt_succ_self _⟩
  function_lt := hlt
  pc := rfl
  handles := rfl
  ret := ⟨_, rfl, hpc, by cases dst with
    | none => rfl
    | some d => exact hd⟩
  tables := ⟨rfl, rfl⟩

end Calls

section Starts

theorem createThread_started {callee : FunctionId}
    (hlt : callee < E.program.functions.length) {parent : Option ScopeId} {c : ThreadId}
    (hp : ∀ s, parent = some s → s < σ.alloc.nextScope ∧ σ.scopes[s]? = none)
    (h : E.createThread σ callee parent = some (c, σ₁)) :
    ∃ u new, Started E.program σ σ₁ u new ∧ u.id = c ∧ u.entryFunction = callee ∧
      u.parentScope = parent ∧ (new = none ↔ (E.function callee).isTransparentNobody = true) := by
  rw [Engine.createThread] at h
  split_ifs at h with hlim htr
  · obtain ⟨rfl, rfl⟩ := Prod.mk.inj (Option.some.inj h)
    obtain ⟨m, hm⟩ := recordCompletion_eq (E := E) { σ with
      alloc := { σ.alloc with nextThread := σ.alloc.nextThread + 1 }
      threads := σ.threads.insert σ.alloc.nextThread
        ⟨σ.alloc.nextThread, .finished, [], callee, ∅, parent⟩
      finished := σ.finished.insert σ.alloc.nextThread } callee
    refine ⟨⟨σ.alloc.nextThread, .finished, [], callee, ∅, parent⟩, none, ?_, rfl, rfl, rfl,
      by simp [htr]⟩
    rw [hm]
    clear h hm
    exact {
      threads := fun y ↦ by grind
      frames := fun k ↦ rfl
      finished := fun y ↦ by grind
      scopes := rfl
      alloc := ⟨Nat.le_succ _, le_rfl, le_rfl, le_rfl⟩
      fresh := ⟨rfl, Nat.lt_succ_self _⟩
      status := rfl
      stack := rfl
      children := rfl
      parent := hp
      frame := by simp
      tables := ⟨rfl, rfl⟩ }
  · obtain ⟨rfl, rfl⟩ := Prod.mk.inj (Option.some.inj h)
    refine ⟨⟨σ.alloc.nextThread, .runnable, [σ.alloc.nextFrame], callee, ∅, parent⟩,
      some (σ.newFrame E.program callee), ?_, rfl, rfl, rfl, by simp [htr]⟩
    clear h
    exact {
      threads := fun y ↦ by
        change (σ.threads.insert σ.alloc.nextThread
          ⟨σ.alloc.nextThread, .runnable, [σ.alloc.nextFrame], callee, ∅, parent⟩)[y]? = _
        grind
      frames := fun k ↦ by
        change (σ.store.frames.insert σ.alloc.nextFrame (σ.newFrame E.program callee))[k]? = _
        grind [newFrame]
      finished := fun y ↦ by simp [writeFrame]
      scopes := rfl
      alloc := ⟨Nat.le_succ _, Nat.le_succ _, le_rfl, le_rfl⟩
      fresh := ⟨rfl, Nat.lt_succ_self _⟩
      status := rfl
      stack := rfl
      children := rfl
      parent := hp
      frame := by
        rintro _ ⟨⟩
        exact ⟨⟨rfl, Nat.lt_succ_self _⟩, rfl, hlt, rfl, rfl⟩
      tables := ⟨rfl, rfl⟩ }

theorem rebound_bindHandle (top : Top σ x t f fr) (name : String) (c : ThreadId) :
    Rebound σ (Engine.bindHandle σ x f name c) x t f fr
      (fr.handles.insert name σ.alloc.nextHandle)
      (t.handleChildren.insert σ.alloc.nextHandle c) where
  threads := fun y ↦ by
    have hx := top.thread
    grind [Engine.bindHandle, modifyThread, modifyFrame]
  frames := fun k ↦ by
    have hf := top.frame
    grind [Engine.bindHandle, modifyThread, modifyFrame]
  finished := rfl
  scopes := rfl
  alloc := ⟨le_rfl, le_rfl, le_rfl, Nat.le_succ _⟩
  tables := ⟨rfl, rfl⟩

theorem Rebound.ready {hs : BTreeMap String HandleId} {cs : BTreeMap HandleId ThreadId}
    (h : Rebound σ σ' x t f fr hs cs) (top : Top σ x t f fr) (hrun : t.status = .runnable)
    (hpc : fr.pc < (P.function fr.function).body.length) : Ready P σ' x f :=
  ⟨⟨_, h.hasThread.mpr (.inl ⟨rfl, rfl⟩), hrun, top.head⟩,
    _, h.hasFrame.mpr (.inl ⟨rfl, rfl⟩), hpc⟩

theorem Top.started {u : ThreadState} {new : Option Frame} (top : Top σ x t f fr)
    (hw : Wf P σ) (h : Started P σ σ' u new) : Top σ' x t f fr :=
  ⟨h.old hw top.thread, top.head, h.oldFrame hw top.frame⟩

theorem Started.not_child {u : ThreadState} {new : Option Frame} (hw : Wf P σ)
    (h : Started P σ σ' u new) {v : ThreadState} {k : HandleId} (hv : σ'.HasThread y v) :
    ¬ v.HasChild k u.id := by
  intro hk
  rcases h.hasThread.mp hv with ⟨rfl, rfl⟩ | ⟨-, hv⟩
  · rw [ThreadState.HasChild, h.children] at hk
    simp at hk
  · obtain ⟨-, w, hwc, -⟩ := hw.handles.child y v k u.id hv hk
    exact h.not_old hw hwc

theorem Wf.spawn (hw : Wf E.program σ) (top : Top σ x t f fr) (hrun : t.status = .runnable)
    (hpc : fr.pc < (E.program.function fr.function).body.length) {callee : FunctionId}
    (hlt : callee < E.program.functions.length) {name : String} {c : ThreadId}
    (h : E.createThread σ callee none = some (c, σ₁)) :
    Wf E.program ((Engine.bindHandle σ₁ x f name c).advance x) := by
  obtain ⟨u, new, hst, rfl, -, hp, -⟩ := createThread_started hlt (by simp) h
  have top₁ := top.started hw hst
  have hre := rebound_bindHandle top₁ name u.id
  have hw₂ := (hw.start hst).bind top₁ hrun hre ⟨rfl, Nat.lt_succ_self _⟩
    (hst.hasThread.mpr (.inl ⟨rfl, rfl⟩)) hp fun y v k hv ↦ hst.not_child hw hv
  exact hw₂.quiet (hre.ready top₁ hrun hpc).quiet_advance

/-- The members of a scope that is being opened. -/
structure Members (P : SemProgram) (σ σ' : MachineState) (s : ScopeId)
    (remaining : BTreeSet ThreadId) : Prop where
  wf : Wf P σ'
  scopes : σ'.scopes = σ.scopes
  scope_lt : s < σ'.alloc.nextScope
  old : ∀ y u, σ.HasThread y u → σ'.HasThread y u
  oldFrame : ∀ g gr, σ.HasFrame g gr → σ'.HasFrame g gr
  new : ∀ y u, σ'.HasThread y u → σ.HasThread y u ∨
    (u.parentScope = some s ∧ u.handleChildren = ∅ ∧ ∀ r, u.status ≠ .blocked r)
  remaining : ∀ y, y ∈ remaining ↔
    ∃ u, σ'.HasThread y u ∧ u.parentScope = some s ∧ u.status ≠ .finished

theorem Wf.createMembers (gs : List FunctionId) {s : ScopeId} {r r' : BTreeSet ThreadId}
    {σ₀ : MachineState} (hgs : gs.all (· < E.program.functions.length) = true)
    (hno : σ.scopes[s]? = none) (hm : Members E.program σ₀ σ s r)
    (h : E.createMembers s σ r gs = some (σ', r')) : Members E.program σ₀ σ' s r' := by
  induction gs generalizing σ r with
  | nil =>
      obtain ⟨rfl, rfl⟩ := Prod.mk.inj (Option.some.inj h)
      exact hm
  | cons callee gs ih =>
      simp only [List.all_cons, Bool.and_eq_true, decide_eq_true_eq] at hgs
      rw [Engine.createMembers] at h
      cases hc : E.createThread σ callee (some s) with
      | none =>
          rw [hc] at h
          cases h
      | some p =>
          obtain ⟨c, σ₁⟩ := p
          rw [hc] at h
          have hwσ := hm.wf
          have hpar : ∀ s', some s = some s' → s' < σ.alloc.nextScope ∧
              σ.scopes[s']? = none := by
            rintro _ ⟨⟩
            exact ⟨hm.scope_lt, hno⟩
          obtain ⟨u, new, hst, rfl, -, hp, -⟩ := createThread_started hgs.1 hpar hc
          refine ih hgs.2 (by rwa [hst.scopes]) ?_ h
          have hlive : (σ₁.threads[u.id]?.map Engine.isLive).getD false =
              decide (u.status ≠ .finished) := by
            rw [show σ₁.threads[u.id]? = some u from hst.hasThread.mpr (.inl ⟨rfl, rfl⟩)]
            rfl
          refine ⟨hwσ.start hst, hst.scopes.trans hm.scopes,
            hm.scope_lt.trans_le hst.alloc.scope, fun y v hv ↦ hst.old hwσ (hm.old y v hv),
            fun g gr hg ↦ hst.oldFrame hwσ (hm.oldFrame g gr hg), ?_, ?_⟩
          · intro y v hv
            rcases hst.hasThread.mp hv with ⟨rfl, rfl⟩ | ⟨-, hv⟩
            · refine .inr ⟨hp, hst.children, fun q ↦ ?_⟩
              rw [hst.status]
              split_ifs <;> simp
            · exact hm.new y v hv
          · intro y
            have hold := hm.remaining y
            rw [hlive]
            constructor
            · intro hy
              by_cases hyu : y = u.id
              · subst hyu
                refine ⟨u, hst.hasThread.mpr (.inl ⟨rfl, rfl⟩), hp, fun hf ↦ ?_⟩
                simp only [hf, ne_eq, not_true_eq_false, decide_false, if_neg,
                  Bool.false_eq_true, not_false_eq_true] at hy
                obtain ⟨v, hv, -⟩ := hold.mp hy
                exact hst.not_old hwσ hv
              · have hy' : y ∈ r := by
                  split_ifs at hy
                  · rw [Std.ExtTreeSet.mem_insert] at hy
                    exact hy.resolve_left fun he ↦ hyu (Nat.compare_eq_eq.mp he).symm
                  · exact hy
                obtain ⟨v, hv, hrest⟩ := hold.mp hy'
                exact ⟨v, hst.old hwσ hv, hrest⟩
            · rintro ⟨v, hv, hpv, hf⟩
              rcases hst.hasThread.mp hv with ⟨rfl, rfl⟩ | ⟨-, hv⟩
              · rw [if_pos (by simpa using hf)]
                exact Std.ExtTreeSet.mem_insert_self
              · have hy := hold.mpr ⟨v, hv, hpv, hf⟩
                split_ifs
                · exact Std.ExtTreeSet.mem_insert.mpr (.inr hy)
                · exact hy

/-- The id of a scope that is about to be opened is fresh. -/
theorem Wf.fresh_scope (hw : Wf P σ) : σ.scopes[σ.alloc.nextScope]? = none := by
  cases hs : σ.scopes[σ.alloc.nextScope]? with
  | none => rfl
  | some sc => exact absurd (hw.scopes.scope_id _ sc hs).2 (Nat.lt_irrefl _)

theorem Wf.reserveScope (hw : Wf P σ) :
    Wf P { σ with alloc := { σ.alloc with nextScope := σ.alloc.nextScope + 1 } } :=
  hw.quiet (.of_store rfl rfl rfl rfl rfl rfl rfl ⟨le_rfl, le_rfl, Nat.le_succ _, le_rfl⟩
    (fun _ ↦ rfl) (fun _ ↦ rfl) (fun _ ↦ rfl) fun _ ↦ rfl)

theorem Wf.members (hw : Wf E.program σ) {gs : List FunctionId} {r : BTreeSet ThreadId}
    (hgs : gs.all (· < E.program.functions.length) = true)
    (h : E.createMembers σ.alloc.nextScope
      { σ with alloc := { σ.alloc with nextScope := σ.alloc.nextScope + 1 } } ∅ gs =
        some (σ', r)) : Members E.program σ σ' σ.alloc.nextScope r := by
  have hnone : Members E.program σ
      { σ with alloc := { σ.alloc with nextScope := σ.alloc.nextScope + 1 } } σ.alloc.nextScope
        ∅ := by
    refine ⟨hw.reserveScope, rfl, Nat.lt_succ_self _, fun _ _ ↦ id, fun _ _ ↦ id,
      fun _ _ ↦ .inl, fun y ↦ ?_⟩
    simp only [Std.ExtTreeSet.not_mem_empty, false_iff, not_exists, not_and]
    intro u hu hp _
    exact absurd (hw.scopes.parent_lt y u _ hu hp) (Nat.lt_irrefl _)
  exact Wf.createMembers gs hgs (by exact hw.fresh_scope) hnone h

end Starts

section Joins

theorem rebound_drop (top : Top σ x t f fr) (name : String) (k : HandleId) :
    Rebound σ ((σ.modifyFrame f fun fr ↦ { fr with handles := fr.handles.erase name }).modifyThread
      x fun t ↦ { t with handleChildren := t.handleChildren.erase k }) x t f fr
      (fr.handles.erase name) (t.handleChildren.erase k) where
  threads := fun y ↦ by
    have hx := top.thread
    grind [modifyThread, modifyFrame]
  frames := fun k ↦ by
    have hf := top.frame
    grind [modifyThread, modifyFrame]
  finished := rfl
  scopes := rfl
  alloc := .refl _
  tables := ⟨rfl, rfl⟩

theorem removed_reclaim (c : ThreadId) : Removed σ (Engine.reclaim σ c) (· = c) where
  kept := fun y hy ↦ by grind [Engine.reclaim]
  gone_none := fun y hy ↦ by grind [Engine.reclaim]
  finished := fun y ↦ by grind [Engine.reclaim]
  frames := rfl
  scopes := rfl
  alloc := rfl
  tables := ⟨rfl, rfl⟩

/-- A finished child whose handle has been dropped can be reclaimed. -/
theorem Wf.reclaim_dropped (hw : Wf P σ) (top : Top σ x t f fr)
    {hs : BTreeMap String HandleId} {k : HandleId} {c : ThreadId}
    (h : Rebound σ σ₁ x t f fr hs (t.handleChildren.erase k)) (hw' : Wf P σ')
    (hq : σ'.threads = σ₁.threads) (hc : t.HasChild k c) (hf : σ.status c = some .finished) :
    Wf P (Engine.reclaim σ' c) := by
  refine hw'.remove (removed_reclaim c) ?_ ?_
  · rintro y u rfl hu
    have hst := h.status top y
    rw [hf, MachineState.status, ← hq, show σ'.threads[y]? = some u from hu] at hst
    exact Option.some.inj hst
  · rintro y u l d hu hl rfl
    rw [HasThread, hq] at hu
    rcases h.hasThread.mp hu with ⟨rfl, rfl⟩ | ⟨hy, hu⟩
    · rw [ThreadState.HasChild, Std.ExtTreeMap.getElem?_erase] at hl
      split_ifs at hl with hlk
      obtain ⟨-, he⟩ := hw.handles.child_inj y t l y t k d top.thread hl top.thread hc
      exact hlk (by simp [he])
    · exact hy (hw.handles.child_inj y u l x t k d hu hl top.thread hc).1

theorem Wf.consumeJoin (hw : Wf P σ) (top : Top σ x t f fr) (hrun : t.status = .runnable)
    (hpc : fr.pc < (P.function fr.function).body.length) {name : String} {k : HandleId}
    {c : ThreadId} (hk : fr.HasHandle name k) (hc : t.HasChild k c) (hf : c ∈ σ.finished) :
    Wf P ((Engine.consumeJoin σ x f name k c).advance x) := by
  have hre := rebound_drop top name k
  have hw₁ := hw.unbind top hrun hre hk
  have hfin := (hw.stack.finished_set c).mp hf
  have hw₂ := hw.reclaim_dropped top hre hw₁ rfl hc hfin
  have hne : x ≠ c := by
    rintro rfl
    rw [top.status, hrun] at hfin
    cases hfin
  have hr := hre.ready top hrun hpc
  refine hw₂.quiet (Ready.quiet_advance (f := f) ⟨?_, hr.frame⟩)
  obtain ⟨u, hu, hrest⟩ := hr.thread
  exact ⟨u, (removed_reclaim c).hasThread.mpr ⟨hne, hu⟩, hrest⟩

end Joins

end ConcIR
