import ConcIR.Machine.Lifetimes
import ConcIR.Petri.Moves

/-!
# Records that come and go

Completions, new threads, calls, returns and reclaimed threads, on both sides.
-/

namespace ConcIR

open MachineState

namespace Petri

variable {E : Engine} {P : SemProgram} {out : Set ThreadId} {σ σ' σ₁ : MachineState}
  {m m' m₁ : NetState} {x y c : ThreadId} {t u : ThreadState} {f g : FrameId} {fr gr : Frame}
  {r : BlockReason} {k k' : PlaceKey} {tok tok' : NetToken}

section Bookkeeping

/-- Only completions, reached statements and counters change. -/
theorem Corr.book (h : Corr P out σ m)
    (hσ : σ' = { σ with
      completedFunctions := σ'.completedFunctions, completedScopes := σ'.completedScopes
      reached := σ'.reached, alloc := σ'.alloc })
    (hm : m'.marking = m.marking)
    (hst : m'.store = { m.store with
      completedFunctions := σ'.completedFunctions, completedScopes := σ'.completedScopes
      reached := m'.store.reached, alloc := σ'.alloc })
    (hreached : ∀ f pc, pc < (P.function f).body.length →
      ((f, pc) ∈ m'.store.reached ↔ (f, pc) ∈ σ'.reached)) : Corr P out σ' m' := by
  have ht : σ'.threads = σ.threads := by rw [hσ]
  have hs : σ'.store = σ.store := by rw [hσ]
  have hsc : σ'.scopes = σ.scopes := by rw [hσ]
  have hr := h.records
  refine h.congr ?_ (fun k _ ↦ by rw [hm])
    (fun y _ ↦ .of_eq ht (by rw [hs]) (fun c ↦ by rw [sends, sends, hs]) (by rw [hσ]))
    ⟨?_, ?_, ?_, ?_, ?_, ?_, hreached, ?_⟩
    (fun y u hu ↦ ⟨u, by rwa [HasThread, ← ht], fun g hg ↦ hg⟩)
    (fun s sc hs ↦ ⟨sc, by rwa [HasScope, ← hsc], rfl, rfl⟩)
  · rw [hm, hs]
    exact h.cells
  · rw [hst, hs]
    exact hr.frames
  · rw [hst, hs, ht]
    exact hr.thread
  · rw [hst, hs, hsc]
    exact hr.scope
  · rw [hst, show σ'.finished = σ.finished by rw [hσ]]
    exact hr.finished
  · rw [hst]
  · rw [hst]
  · rw [hst]

theorem Corr.recordCompletion (h : Corr E.program out σ m) (func : FunctionId) :
    Corr E.program out (E.recordCompletion σ func) (recordCompletion E m func) := by
  have hr := h.records
  rw [Engine.recordCompletion, Petri.recordCompletion]
  by_cases h0 : E.monitor.maxFor func = 0
  · simpa only [h0, if_true] using h
  · simp only [h0, if_false]
    refine h.book rfl rfl ?_ hr.reached
    simp only [hr.completedFunctions, hr.completedScopes, hr.alloc]

theorem Corr.completeStatement (h : Corr P out σ m) (key : FunctionId × ℕ) :
    Corr P out { σ with completedScopes := σ.completedScopes.insert key }
      { m with store := { m.store with completedScopes := m.store.completedScopes.insert key } } := by
  have hr := h.records
  refine h.book rfl rfl ?_ hr.reached
  simp only [hr.completedFunctions, hr.completedScopes, hr.alloc]

theorem Corr.setAlloc (h : Corr P out σ m) (a : Alloc) :
    Corr P out { σ with alloc := a } { m with store := { m.store with alloc := a } } := by
  have hr := h.records
  refine h.book rfl rfl ?_ hr.reached
  simp only [hr.completedFunctions, hr.completedScopes]

theorem mem_insert_key {s s' : StmtSet} {key q : FunctionId × ℕ} (h : q ∈ s ↔ q ∈ s') :
    q ∈ s.insert key ↔ q ∈ s'.insert key := by
  rw [Std.ExtTreeSet.mem_insert, Std.ExtTreeSet.mem_insert, h]

theorem Corr.markReached (h : Corr P out σ m) (f : FunctionId) (pc : ℕ) :
    Corr P out (σ.markReached f pc)
      { m with store := { m.store with reached := m.store.reached.insert (f, pc) } } := by
  have hr := h.records
  refine h.book rfl rfl ?_ fun fn i hi ↦ mem_insert_key (hr.reached fn i hi)
  simp only [MachineState.markReached, hr.completedFunctions, hr.completedScopes, hr.alloc]

/-- The end of a body counts as reached in the net alone. -/
theorem Corr.markEnd (h : Corr P out σ m) (f : FunctionId) :
    Corr P out σ { m with store := { m.store with
      reached := m.store.reached.insert (f, (P.function f).body.length) } } := by
  have hr := h.records
  refine h.book rfl rfl ?_ fun fn i hi ↦ ?_
  · simp only [hr.completedFunctions, hr.completedScopes, hr.alloc]
  · rw [Std.ExtTreeSet.mem_insert, or_iff_right, hr.reached fn i hi]
    intro he
    rw [compareLex_eq_eq] at he
    have hfn : f = fn := Nat.compare_eq_eq.mp he.1
    have hlen : (P.function f).body.length = i := Nat.compare_eq_eq.mp he.2
    exact absurd hi (by rw [← hfn, hlen]; exact lt_irrefl i)

end Bookkeeping

section Starting

/-- A thread without a token may as well be out. -/
theorem Corr.undrop (h : Corr P out σ m) (hx : ∀ k tok, ¬ Seat σ x k tok)
    (hfree : ∀ s sc, σ.HasScope s sc →
      sc.owner ≠ x ∧ ∀ t, σ.HasThread x t → sc.ownerFrame ∉ t.stack) :
    Corr P (insert x out) σ m where
  cells := h.cells
  seats := by
    intro k hk
    refine ⟨(h.seats k hk).1, fun tok ↦ ((h.seats k hk).2 tok).trans ?_⟩
    refine exists_congr fun y ↦ and_congr_left fun hs ↦ ?_
    rw [Set.mem_insert_iff, not_or, iff_and_self]
    exact fun _ hyx ↦ hx k tok (hyx ▸ hs)
  records := h.records
  apart := h.apart
  free := by
    intro s sc y hsc hy
    rcases Set.mem_insert_iff.mp hy with rfl | hy
    · exact hfree s sc hsc
    · exact h.free s sc y hsc hy

theorem Cells.of_tables {marking : Marking} (h : Cells σ.store marking) (ht : SameTables σ σ') :
    Cells σ'.store marking := by
  intro k hk
  rw [h k hk, ht.store]
  cases k <;> rfl

theorem Wf.frame_of_mem (hw : Wf P σ) (hx : σ.HasThread x t) (hf : f ∈ t.stack) :
    ∃ fr, σ.HasFrame f fr := by
  have hc := hw.stack.stack_frame x t f hx hf
  rw [Std.ExtTreeMap.contains_eq_isSome_getElem?] at hc
  exact Option.isSome_iff_exists.mp hc

theorem Wf.frame_of_scope (hw : Wf P σ) {s : ScopeId} {sc : ScopeState} (hs : σ.HasScope s sc) :
    ∃ fr, σ.HasFrame sc.ownerFrame fr := by
  obtain ⟨t, ht, hhead, -⟩ := hw.scopes.owner s sc hs
  exact Wf.frame_of_mem hw ht (List.mem_of_head? hhead)

/-- A new thread, which is out until it is given a token. -/
theorem Corr.start (h : Corr P out σ m) (hw : Wf P σ) {new : Option Frame}
    (hst : Started P σ σ₁ u new) (hm : m₁.marking = m.marking) (hr : Records P σ₁ m₁.store) :
    Corr P (insert u.id out) σ₁ m₁ := by
  have hnone : ∀ t, ¬ σ.HasThread u.id t := fun t ↦ hst.not_old hw
  have howner : ∀ s sc, σ.HasScope s sc → sc.owner ≠ u.id := by
    rintro s sc hs he
    obtain ⟨t, ht, -⟩ := hw.scopes.owner s sc hs
    exact hnone t (he ▸ ht)
  have h₁ : Corr P (insert u.id out) σ m := by
    refine h.undrop (fun k tok hs ↦ ?_) fun s sc hs ↦ ⟨howner s sc hs, fun t ht ↦ ?_⟩
    · obtain ⟨t, f, fr, top, -⟩ := hs.binding
      exact hnone t top.thread
    · exact absurd ht (hnone t)
  refine h₁.rebuild (by rw [hm]; exact h.cells.of_tables hst.tables) (fun k _ ↦ by rw [hm])
    (fun y hy k tok ↦ Unmoved.seat ⟨?_, fun c v ↦ by rw [hst.tables.sends],
      fun r n ↦ by rw [hst.tables.semQueue]⟩) hr ?_ ?_
  · have hyu : y ≠ u.id := fun he ↦ hy (Set.mem_insert_iff.mpr (.inl he))
    rw [Petri.spot, Petri.spot, hst.threads, if_neg hyu]
    cases ht : σ.threads[y]? with
    | none => rfl
    | some t =>
        rw [Option.map_some, Option.map_some]
        cases hf : t.stack.head? with
        | none => rfl
        | some g =>
            obtain ⟨gr, hgr⟩ := Wf.frame_of_mem hw ht (List.mem_of_head? hf)
            rw [Option.bind_some, Option.bind_some, hst.frames, if_neg (hst.frame_ne hw hgr)]
  · exact fun x t y u f ↦ (hw.start hst).stack.disjoint x t y u f
  · intro s sc y hs hy
    rw [HasScope, hst.scopes] at hs
    obtain ⟨hne, hold⟩ := h₁.free s sc y hs hy
    refine ⟨hne, fun t ht hmem ↦ ?_⟩
    rcases hst.hasThread.mp ht with ⟨rfl, rfl⟩ | ⟨-, ht⟩
    · obtain ⟨gr, hgr⟩ := Wf.frame_of_scope hw hs
      obtain ⟨new', hn, he⟩ := hst.mem_stack.mp hmem
      exact hst.frame_ne hw hgr (by rw [hn, Option.map_some, he])
    · exact hold t ht hmem

theorem isLive_eq (h : Corr P out σ m) (hw : Wf P σ) (ht : σ.HasThread x t) :
    isLive m x = Engine.isLive t := by
  have hiff := hw.stack.finished_set x
  rw [status, show σ.threads[x]? = some t from ht, Option.map_some, Option.some.injEq] at hiff
  rw [Std.ExtTreeSet.mem_iff_contains] at hiff
  rw [isLive, Engine.isLive, h.records.finished]
  by_cases hf : t.status = .finished
  · simp [hiff.mpr hf, hf]
  · simp [Bool.eq_false_iff.mpr (mt hiff.mp hf), hf]

theorem threads_eq_map (h : Corr P out σ m) :
    m.store.threads = σ.threads.map fun _ t ↦ netThread σ.store.frames t := by
  ext1 y
  rw [Std.ExtTreeMap.getElem?_map, h.records.thread]

/-- Threads are counted alike. -/
theorem countP_threads (h : Corr P out σ m) (p : ThreadId × NetThread → Bool)
    (q : ThreadId × ThreadState → Bool)
    (hpq : ∀ y t, σ.HasThread y t → p (y, netThread σ.store.frames t) = q (y, t)) :
    m.store.threads.toList.countP p = σ.threads.toList.countP q := by
  rw [threads_eq_map h, Std.ExtTreeMap.toList_map, List.countP_map]
  refine List.countP_congr fun z hz ↦ ?_
  rw [Function.comp_apply, hpq z.1 z.2 (Std.ExtTreeMap.mem_toList_iff_getElem?_eq_some.mp hz)]

theorem Wf.fresh_thread (hw : Wf P σ) : σ.threads[σ.alloc.nextThread]? = none := by
  cases ht : σ.threads[σ.alloc.nextThread]? with
  | none => rfl
  | some t => exact absurd (hw.stack.thread_id _ t ht).2 (lt_irrefl _)

/-- Records stay as they are when fresh ids are bound. -/
theorem Records.start (h : Corr P out σ m) (hw : Wf P σ) {new : Option Frame}
    (hst : Started P σ σ₁ u new)
    (hf : m₁.store.frames = σ₁.store.frames)
    (ht : ∀ y : ThreadId, m₁.store.threads[y]? =
      if y = u.id then some (netThread σ₁.store.frames u) else m.store.threads[y]?)
    (hsc : m₁.store.scopes = m.store.scopes) (hfin : m₁.store.finished = σ₁.finished)
    (hcf : m₁.store.completedFunctions = σ₁.completedFunctions)
    (hcs : m₁.store.completedScopes = σ₁.completedScopes)
    (hre : m₁.store.reached = m.store.reached) (hre' : σ₁.reached = σ.reached)
    (hal : m₁.store.alloc = σ₁.alloc) : Records P σ₁ m₁.store := by
  have hr := h.records
  have hold : ∀ g gr, σ.HasFrame g gr → σ₁.store.frames[g]? = σ.store.frames[g]? :=
    fun g gr hg ↦ by rw [hst.frames, if_neg (hst.frame_ne hw hg)]
  refine ⟨hf, fun y ↦ ?_, fun s ↦ ?_, hfin, hcf, hcs, fun fn pc hpc ↦ ?_, hal⟩
  · rw [ht, hst.threads]
    split_ifs with hy
    · rfl
    · rw [hr.thread]
      cases hty : σ.threads[y]? with
      | none => rfl
      | some t =>
          refine congrArg some (netThread_congr fun g hg ↦ ?_).symm
          obtain ⟨gr, hgr⟩ := Wf.frame_of_mem hw hty (List.mem_of_head? hg)
          rw [hold g gr hgr]
  · rw [hsc, hst.scopes, hr.scope]
    cases hs : σ.scopes[s]? with
    | none => rfl
    | some sc =>
        obtain ⟨gr, hgr⟩ := Wf.frame_of_scope hw hs
        exact congrArg some (netScope_congr (by rw [hold _ gr hgr])).symm
  · rw [hre, hre']
    exact hr.reached fn pc hpc

/-- Both engines record a completion in the same way. -/
theorem recordCompletion_both (E : Engine) (cf₀ : BTreeMap FunctionId ℕ) (func : FunctionId) :
    ∃ cf, (∀ τ : MachineState, τ.completedFunctions = cf₀ →
      E.recordCompletion τ func = { τ with completedFunctions := cf }) ∧
      ∀ n : NetState, n.store.completedFunctions = cf₀ →
        recordCompletion E n func = { n with store := { n.store with completedFunctions := cf } } := by
  by_cases h0 : E.monitor.maxFor func = 0
  · refine ⟨cf₀, fun τ hτ ↦ ?_, fun n hn ↦ ?_⟩
    · simp only [Engine.recordCompletion, h0, if_true, ← hτ]
    · simp only [Petri.recordCompletion, h0, if_true, ← hn]
  · refine ⟨cf₀.insert func (if cf₀[func]?.getD 0 < E.monitor.maxFor func
      then cf₀[func]?.getD 0 + 1 else cf₀[func]?.getD 0), fun τ hτ ↦ ?_, fun n hn ↦ ?_⟩
    · simp only [Engine.recordCompletion, if_neg h0, hτ]
    · simp only [Petri.recordCompletion, if_neg h0, hn]

theorem setPc_self (hf : σ.HasFrame f fr) : σ.setPc f fr.pc = σ := by
  have : σ.store.frames.modify f (fun gr ↦ { gr with pc := fr.pc }) = σ.store.frames := by
    ext1 g
    rw [Std.ExtTreeMap.getElem?_modify]
    split_ifs with hg
    · rw [← Nat.compare_eq_eq.mp hg, show σ.store.frames[f]? = some fr from hf, Option.map_some]
    · rfl
  rw [MachineState.setPc, MachineState.modifyFrame, this]

/-- A thread is given the token of the statement it stands at. -/
theorem Corr.enter (h : Corr P (insert x out) σ m) (hx : x ∉ out) (top : Top σ x t f fr)
    (hrun : t.status = .runnable) :
    Corr P out σ (Petri.placeControl m (.control fr.function fr.pc) x f) := by
  have := h.placeControl hx top hrun fr.pc
  rwa [setPc_self top.frame] at this

/-- Both engines create the same thread, or neither does. -/
theorem Corr.createThread (h : Corr E.program out σ m) (hw : Wf E.program σ)
    (hout : ∀ y ∈ out, ∃ t, σ.HasThread y t) {func : FunctionId}
    (hlt : func < E.program.functions.length) {parent : Option ScopeId}
    (hp : ∀ s, parent = some s → s < σ.alloc.nextScope ∧ σ.scopes[s]? = none) :
    match E.createThread σ func parent with
    | none => createThread E m func parent = .ok none
    | some (c, σ₁) => ∃ m₁, createThread E m func parent = .ok (some (c, m₁)) ∧
        Corr E.program out σ₁ m₁ := by
  have hr := h.records
  have hcount : (m.store.threads.toList.countP fun p ↦ isLive m p.1) =
      σ.threads.toList.countP fun p ↦ Engine.isLive p.2 :=
    countP_threads h _ _ fun y t ht ↦ isLive_eq h hw ht
  cases hc : E.createThread σ func parent with
  | none =>
      rw [Engine.createThread] at hc
      split_ifs at hc with hlim
      simp only [Petri.createThread, hcount, hlim, if_true]
  | some p =>
      obtain ⟨c, σ₁⟩ := p
      obtain ⟨u, new, hst, rfl, hentry, hpar, htr⟩ := createThread_started hlt hp hc
      simp only
      have hnew : u.id ∉ out := fun hmem ↦ by
        obtain ⟨t, ht⟩ := hout _ hmem
        exact hst.not_old hw ht
      rw [Engine.createThread] at hc
      split_ifs at hc with hlim htr'
      · obtain ⟨hid, hσ⟩ := Prod.mk.inj (Option.some.inj hc)
        obtain ⟨cf, hmach, hnet⟩ := recordCompletion_both E σ.completedFunctions func
        rw [hmach] at hσ
        swap
        · rfl
        subst hσ
        have hu : u = ⟨σ.alloc.nextThread, .finished, [], func, ∅, parent⟩ := by
          have := hst.threads u.id
          rw [if_pos rfl, ← hid] at this
          simpa using this.symm
        rw [Petri.createThread, hcount, if_neg hlim]
        simp only [htr', if_true]
        refine ⟨_, by rw [hr.alloc, hid], ?_⟩
        rw [hnet]
        · refine Corr.drop (h.start hw hst ?_ (.start h hw hst ?_ (fun y ↦ ?_) ?_ ?_ ?_ ?_ ?_ ?_
            ?_)) fun k tok hs ↦ ?_
          · rfl
          · exact hr.frames
          · change (m.store.threads.insert u.id _)[y]? = _
            rw [Std.ExtTreeMap.getElem?_insert]
            simp only [Nat.compare_eq_eq, @eq_comm _ _ y]
            rw [hu]
            rfl
          · rfl
          · rw [hr.finished, hid]
          · rfl
          · exact hr.completedScopes
          · rfl
          · rfl
          · rw [hid]
          · obtain ⟨t, f, fr, top, -⟩ := hs.binding
            rcases hst.hasThread.mp top.thread with ⟨-, rfl⟩ | ⟨hne, -⟩
            · have := top.head
              rw [hu] at this
              cases this
            · exact hne rfl
        · exact hr.completedFunctions
      · obtain ⟨hid, hσ⟩ := Prod.mk.inj (Option.some.inj hc)
        have hplace : hasPlace E (.control func 0) = true :=
          hasPlace_iff.mpr (control_mem_places hlt (Nat.zero_le _))
        have hu : u = ⟨u.id, .runnable, [σ.alloc.nextFrame], func, ∅, parent⟩ := by
          have := hst.threads u.id
          rw [if_pos rfl, ← hσ, hid] at this
          simpa [writeFrame, newFrame] using this.symm
        have hf : σ₁.store.frames =
            σ.store.frames.insert σ.alloc.nextFrame (σ.newFrame E.program func) := by
          rw [← hσ]
          rfl
        have top : Top σ₁ u.id u σ.alloc.nextFrame (σ.newFrame E.program func) := by
          refine ⟨hst.hasThread.mpr (.inl ⟨rfl, rfl⟩), by rw [hu]; rfl, ?_⟩
          rw [HasFrame, hf, Std.ExtTreeMap.getElem?_insert_self]
        rw [Petri.createThread, hcount, if_neg hlim]
        simp only [htr', hplace, if_true, Bool.false_eq_true, if_false]
        refine ⟨_, by rw [hr.alloc, hid], ?_⟩
        refine Corr.enter (h.start hw hst ?_ (.start h hw hst ?_ (fun y ↦ ?_) ?_ ?_ ?_ ?_ ?_ ?_
          ?_)) hnew top (by rw [hu])
        · rfl
        · rw [hf, ← hr.frames]
          rfl
        · change (m.store.threads.insert u.id _)[y]? = _
          rw [Std.ExtTreeMap.getElem?_insert]
          simp only [Nat.compare_eq_eq, @eq_comm _ _ y]
          rw [hu]
          rfl
        · rfl
        · rw [← hσ]
          exact hr.finished
        · rw [← hσ]
          exact hr.completedFunctions
        · rw [← hσ]
          exact hr.completedScopes
        · rfl
        · rw [← hσ]
          rfl
        · rw [← hσ, hid]
          rfl

/-- Both engines create the same members of a scope, or neither does. -/
theorem Corr.createMembers (gs : List FunctionId) (h : Corr E.program out σ m)
    (hw : Wf E.program σ) (hout : ∀ y ∈ out, ∃ t, σ.HasThread y t)
    (hgs : gs.all (· < E.program.functions.length) = true) {s : ScopeId}
    (hlt : s < σ.alloc.nextScope) (hno : σ.scopes[s]? = none) (r : BTreeSet ThreadId) :
    match E.createMembers s σ r gs with
    | none => createMembers E s m r gs = .ok none
    | some (σ₁, r₁) => ∃ m₁, createMembers E s m r gs = .ok (some (m₁, r₁)) ∧
        Corr E.program out σ₁ m₁ := by
  induction gs generalizing σ m r with
  | nil => exact ⟨m, rfl, h⟩
  | cons func gs ih =>
      simp only [List.all_cons, Bool.and_eq_true, decide_eq_true_eq] at hgs
      have hpar : ∀ s', some s = some s' → s' < σ.alloc.nextScope ∧ σ.scopes[s']? = none := by
        rintro _ ⟨⟩
        exact ⟨hlt, hno⟩
      have hone := h.createThread hw hout hgs.1 hpar
      rw [Engine.createMembers, Petri.createMembers]
      cases hc : E.createThread σ func (some s) with
      | none =>
          rw [hc] at hone
          simp only at hone ⊢
          rw [hone]
          rfl
      | some p =>
          obtain ⟨c, σ₁⟩ := p
          rw [hc] at hone
          obtain ⟨m₁, hm₁, h₁⟩ := hone
          obtain ⟨u, new, hst, rfl, -, -, -⟩ := createThread_started hgs.1 hpar hc
          have hw₁ := hw.start hst
          have hu : σ₁.HasThread u.id u := hst.hasThread.mpr (.inl ⟨rfl, rfl⟩)
          have hlive : (σ₁.threads[u.id]?.map Engine.isLive).getD false = isLive m₁ u.id := by
            rw [isLive_eq h₁ hw₁ hu, show σ₁.threads[u.id]? = some u from hu]
            rfl
          have := ih h₁ hw₁ (fun y hy ↦ (hout y hy).imp fun t ↦ hst.old hw) hgs.2
            (hlt.trans_le hst.alloc.scope) (by rwa [hst.scopes])
            (if isLive m₁ u.id then r.insert u.id else r)
          simp only [hm₁, hlive]
          exact this

theorem withinBound_eq (h : Corr E.program out σ m) (hw : Wf E.program σ) (func : FunctionId) :
    withinBound E m func = E.withinFunctionBound σ func := by
  rw [withinBound, Engine.withinFunctionBound]
  cases (E.function func).bound with
  | none => rfl
  | some bound =>
      simp only
      refine congrArg (fun n : ℕ ↦ decide (n < (max bound 0).toNat)) ?_
      refine countP_threads h _ _ fun y t ht ↦ ?_
      simp only
      rw [isLive_eq h hw ht]
      cases hlive : Engine.isLive t with
      | false => rfl
      | true =>
          have hne : t.stack ≠ [] := fun he ↦ by
            have := (hw.stack.finished_stack y t ht).mpr he
            simp [Engine.isLive, this] at hlive
          obtain ⟨fr, hfr, hfn⟩ := hw.stack.bottom y t _ ht (List.getLast?_eq_some_getLast hne)
          rw [List.getLast?_eq_some_getLast hne, Option.bind_some,
            show σ.store.frames[t.stack.getLast hne]? = some fr from hfr, Option.map_some, hfn]
          simp [netThread]

end Starting

section Calling

/-- A call, whose thread is out until it stands in the new activation. -/
theorem Corr.push (h : Corr P out σ m) (hw : Wf P σ) (hx : x ∈ out) (top : Top σ x t f fr)
    (hrun : t.status = .runnable) {new : Frame} (hp : Pushed P σ σ' x t fr new)
    (hm : m'.marking = m.marking) (hr : Records P σ' m'.store) : Corr P out σ' m' := by
  refine h.rebuild (by rw [hm]; exact h.cells.of_tables hp.tables) (fun k _ ↦ by rw [hm])
    (fun y hy k tok ↦ Unmoved.seat ⟨?_, fun c v ↦ by rw [hp.tables.sends],
      fun r n ↦ by rw [hp.tables.semQueue]⟩) hr ?_ ?_
  · have hyx : y ≠ x := fun he ↦ hy (he ▸ hx)
    rw [Petri.spot, Petri.spot, hp.threads, if_neg hyx]
    cases ht : σ.threads[y]? with
    | none => rfl
    | some u =>
        rw [Option.map_some, Option.map_some]
        cases hg : u.stack.head? with
        | none => rfl
        | some g =>
            rw [Option.bind_some, Option.bind_some, hp.frames,
              if_neg (hp.ne_new_of_mem hw ht (List.mem_of_head? hg))]
  · exact fun x t y u f ↦ (hw.push top hrun hp).stack.disjoint x t y u f
  · intro s sc y hs hy
    rw [HasScope, hp.scopes] at hs
    obtain ⟨hne, hold⟩ := h.free s sc y hs hy
    refine ⟨hne, fun u hu hmem ↦ ?_⟩
    rcases hp.hasThread.mp hu with ⟨rfl, rfl⟩ | ⟨-, hu⟩
    · obtain ⟨gr, hgr⟩ := Wf.frame_of_scope hw hs
      rcases List.mem_cons.mp hmem with he | hmem
      · exact hp.ne_new hw hgr he
      · exact hold t top.thread hmem
    · exact hold u hu hmem

/-- The running activation is dropped. -/
theorem Corr.popFrame (h : Corr P out σ m) (hx : x ∈ out) (top : Top σ x t f fr)
    (hrun : t.status = .runnable) {rest : List FrameId} (hst : t.stack = f :: rest) :
    Corr P out (Engine.popFrame σ x f) (popFrame m x f) := by
  have hu := unwound_popFrame top hrun hst
  have hr := h.records
  have hframe : ∀ g, g ≠ f →
      (Engine.popFrame σ x f).store.frames[g]? = σ.store.frames[g]? := fun g hg ↦ by
    rw [hu.frames, if_neg hg]
  have hhead : ∀ y u g, y ≠ x → σ.HasThread y u → u.stack.head? = some g → g ≠ f := by
    rintro y v g hyx hv hg rfl
    exact hyx (h.apart y v x t g hv top.thread (List.mem_of_head? hg) top.mem)
  refine h.congr (h.cells.of_tables hu.tables) (fun _ _ ↦ rfl)
    (fun y hy ↦ ⟨?_, fun c v ↦ by rw [hu.tables.sends], fun r n ↦ by rw [hu.tables.semQueue]⟩)
    ⟨?_, fun y ↦ ?_, fun s ↦ (hr.scope s).trans ?_, hr.finished, hr.completedFunctions,
      hr.completedScopes, hr.reached, hr.alloc⟩ (fun y v hv ↦ ?_)
    (fun s sc hs ↦ ⟨sc, hs, rfl, rfl⟩)
  · have hyx : y ≠ x := fun he ↦ hy (he ▸ hx)
    rw [Petri.spot, Petri.spot, hu.threads, if_neg hyx]
    cases ht : σ.threads[y]? with
    | none => rfl
    | some v =>
        rw [Option.map_some, Option.map_some]
        cases hg : v.stack.head? with
        | none => rfl
        | some g => rw [Option.bind_some, Option.bind_some, hframe g (hhead y v g hyx ht hg)]
  · exact congrArg (·.erase f) hr.frames
  · change (m.store.threads.modify x fun t ↦ { t with stack := t.stack.tail })[y]? = _
    rw [Std.ExtTreeMap.getElem?_modify, hu.threads]
    simp only [Nat.compare_eq_eq, @eq_comm _ x]
    split_ifs with hyx
    · rw [hr.thread, show σ.threads[x]? = some t from top.thread]
      simp [netThread, hrun, hst]
    · rw [hr.thread]
      cases ht : σ.threads[y]? with
      | none => rfl
      | some v =>
          exact congrArg some (netThread_congr fun g hg ↦ by
            rw [hframe g (hhead y v g hyx ht hg)]).symm
  · change _ = (σ.scopes[s]?).map _
    cases hs : σ.scopes[s]? with
    | none => rfl
    | some sc =>
        have hne : sc.ownerFrame ≠ f := fun he ↦
          (h.free s sc x hs hx).2 t top.thread (he ▸ top.mem)
        exact congrArg some (netScope_congr (by rw [hframe _ hne])).symm
  · rcases hu.hasThread.mp hv with ⟨rfl, rfl⟩ | ⟨-, hv⟩
    · exact ⟨t, top.thread, fun g hg ↦ by rw [hst]; exact List.mem_cons_of_mem f hg⟩
    · exact ⟨v, hv, fun g hg ↦ hg⟩

/-- A thread without activations is finished. -/
theorem Corr.setFinished (h : Corr P out σ m) (hx : x ∈ out) (ht : σ.HasThread x t)
    (hrun : t.status = .runnable) :
    Corr P out { σ.setStatus x .finished with finished := σ.finished.insert x }
      { m with store := { m.store with finished := m.store.finished.insert x } } := by
  have hr := h.records
  have hth : ∀ y : ThreadId, (σ.setStatus x .finished).threads[y]? =
      if y = x then some { t with status := .finished } else σ.threads[y]? := fun y ↦ by
    rw [MachineState.setStatus, getElem?_modifyThread]
    split_ifs with hyx
    · rw [hyx, show σ.threads[x]? = some t from ht, Option.map_some]
    · rfl
  refine h.congr h.cells (fun _ _ ↦ rfl)
    (fun y hy ↦ ⟨?_, fun _ _ ↦ Iff.rfl, fun _ _ ↦ Iff.rfl⟩)
    ⟨hr.frames, fun y ↦ (hr.thread y).trans ?_, hr.scope, ?_, hr.completedFunctions,
      hr.completedScopes, hr.reached, hr.alloc⟩ (fun y v hv ↦ ?_)
    (fun s sc hs ↦ ⟨sc, hs, rfl, rfl⟩)
  · have hyx : y ≠ x := fun he ↦ hy (he ▸ hx)
    have := hth y
    rw [if_neg hyx] at this
    simp only [Petri.spot, this]
    rfl
  · refine Eq.trans ?_ (congrArg (Option.map _) (hth y)).symm
    split_ifs with hyx
    · rw [hyx, show σ.threads[x]? = some t from ht, Option.map_some, Option.map_some]
      simp [netThread, hrun]
    · rfl
  · exact congrArg (·.insert x) hr.finished
  · rw [HasThread, hth] at hv
    split_ifs at hv with hyx
    · obtain rfl := Option.some.inj hv
      exact ⟨t, hyx ▸ ht, fun g hg ↦ hg⟩
    · exact ⟨v, hv, fun g hg ↦ hg⟩

theorem not_seat_of_finished (ht : σ.HasThread x t) (hf : t.status = .finished) :
    ¬ Seat σ x k tok := by
  rintro (⟨top, hrun⟩ | ⟨top, hb, -⟩)
  · rw [← Option.some.inj (ht.symm.trans top.thread), hf] at hrun
    cases hrun
  · rw [← Option.some.inj (ht.symm.trans top.thread), hf] at hb
    cases hb

/-- Finished threads are reclaimed. -/
theorem Corr.remove (h : Corr P out σ m) {gone : ThreadId → Prop} (hrem : Removed σ σ' gone)
    (hgone : ∀ y t, gone y → σ.HasThread y t → t.status = .finished)
    (hm : m'.marking = m.marking) (hr : Records P σ' m'.store) : Corr P out σ' m' := by
  have hthread : ∀ y u, σ'.HasThread y u → σ.HasThread y u := fun y u hu ↦
    (hrem.hasThread.mp hu).2
  refine h.rebuild (by rw [hm]; exact h.cells.of_tables hrem.tables) (fun k _ ↦ by rw [hm])
    (fun y _ k tok ↦ ?_) hr
    (fun x t y u f hx hy ↦ h.apart x t y u f (hthread x t hx) (hthread y u hy))
    (fun s sc y hs hy ↦ ?_)
  · by_cases hy : gone y
    · constructor
      · intro hs
        obtain ⟨t, f, fr, top, -⟩ := hs.binding
        exact absurd hy (hrem.hasThread.mp top.thread).1
      · intro hs
        obtain ⟨t, f, fr, top, -⟩ := hs.binding
        exact absurd hs (not_seat_of_finished top.thread (hgone y t hy top.thread))
    · refine Unmoved.seat ⟨?_, fun c v ↦ by rw [hrem.tables.sends],
        fun r n ↦ by rw [hrem.tables.semQueue]⟩
      rw [Petri.spot, Petri.spot, hrem.kept y hy, hrem.frames]
  · rw [HasScope, hrem.scopes] at hs
    obtain ⟨hne, hst⟩ := h.free s sc y hs hy
    exact ⟨hne, fun t ht ↦ hst t (hthread y t ht)⟩

end Calling

end Petri

end ConcIR
