import ConcIR.Machine.Domains
import ConcIR.Petri.Records

/-!
# The initial marking

Both engines begin with the same store and the same entry thread.
-/

namespace ConcIR

open MachineState

namespace Petri

variable {E : Engine} {P : SemProgram} {σ : MachineState} {m : NetState}

section Store

/-- What initialising resources puts into mutexes and semaphores. -/
def Fresh (P : SemProgram) (s : Store) : Prop :=
  (∀ (r : ResourceId) st, s.mutexes[r]? = some st → st = .free) ∧
    ∀ (r : ResourceId) n, s.semaphores[r]? = some n → n = (P.resource r).permits

theorem Fresh.initResource {s : Store} (h : Fresh P s) (r : ResourceId) :
    Fresh P (initResource s r (P.resource r)) := by
  rw [MachineState.initResource]
  cases (P.resource r).kind with
  | var => cases (P.resource r).init <;> exact h
  | atomic => cases (P.resource r).init <;> exact h
  | mutex =>
      refine ⟨fun q st hq ↦ ?_, h.2⟩
      rw [Std.ExtTreeMap.getElem?_insert] at hq
      split_ifs at hq
      · exact (Option.some.inj hq).symm
      · exact h.1 q st hq
  | semaphore =>
      refine ⟨h.1, fun q n hq ↦ ?_⟩
      rw [Std.ExtTreeMap.getElem?_insert] at hq
      split_ifs at hq with he
      · obtain rfl := Nat.compare_eq_eq.mp he
        exact (Option.some.inj hq).symm
      · exact h.2 q n hq
  | _ => exact h

theorem fresh_initResources (P : SemProgram) : Fresh P (initResources P) := by
  rw [initResources]
  induction P.resources.length with
  | zero => exact ⟨fun r st h ↦ by simp [Store.empty] at h, fun r n h ↦ by simp [Store.empty] at h⟩
  | succ n ih =>
      rw [List.range_succ, List.foldl_append]
      exact ih.initResource n

/-- The resource places hold the initial cells. -/
theorem cells_initial (E : Engine) : Cells (initResources E.program) (initialMarking E) := by
  obtain ⟨hs, -⟩ := ConcIR.Cells.stores (σ := bare E.program) (cells_initResources E.program) rfl
  obtain ⟨hv, ha, -⟩ := inits_initResources E.program
  obtain ⟨hm, hse⟩ := fresh_initResources E.program
  have hch := (cells_initResources E.program).channel_empty
  intro k hk
  unfold initialMarking
  cases k with
  | var r =>
      have hc : (initResources E.program).vars.contains r = _ := hs.vars r
      rw [hasPlace_cell (k := .var r) rfl, ← hc, cellTokens,
        Std.ExtTreeMap.contains_eq_isSome_getElem?]
      cases hr : (initResources E.program).vars[r]? with
      | none => rfl
      | some v => simp only [Option.isSome_some, if_true, hv r v hr]
  | atomic r =>
      have hc : (initResources E.program).atomics.contains r = _ := hs.atomics r
      rw [hasPlace_cell (k := .atomic r) rfl, ← hc, cellTokens,
        Std.ExtTreeMap.contains_eq_isSome_getElem?]
      cases hr : (initResources E.program).atomics[r]? with
      | none => rfl
      | some v => simp only [Option.isSome_some, if_true, ha r v hr]
  | mutex r =>
      have hc : (initResources E.program).mutexes.contains r = _ := hs.mutexes r
      rw [hasPlace_cell (k := .mutex r) rfl, ← hc, cellTokens,
        Std.ExtTreeMap.contains_eq_isSome_getElem?]
      cases hr : (initResources E.program).mutexes[r]? with
      | none => rfl
      | some st =>
          obtain rfl := hm r st hr
          rfl
  | semaphore r =>
      have hc : (initResources E.program).semaphores.contains r = _ := hs.semaphores r
      rw [hasPlace_cell (k := .semaphore r) rfl, ← hc, cellTokens,
        Std.ExtTreeMap.contains_eq_isSome_getElem?]
      cases hr : (initResources E.program).semaphores[r]? with
      | none => rfl
      | some n =>
          obtain rfl := hse r n hr
          rfl
  | channel r =>
      have hc : (initResources E.program).channels.contains r = _ := hs.channels r
      rw [hasPlace_cell (k := .channel r) rfl, ← hc, cellTokens,
        Std.ExtTreeMap.contains_eq_isSome_getElem?]
      cases hr : (initResources E.program).channels[r]? with
      | none => rfl
      | some ch =>
          obtain rfl := hch r ch hr
          rfl
  | _ => exact absurd rfl hk

end Store

section Entry

/-- The net before its first thread. -/
def bareNet (E : Engine) : NetState where
  marking := initialMarking E
  store :=
    { frames := ∅, threads := ∅, scopes := ∅, finished := ∅, completedFunctions := ∅
      completedScopes := ∅, reached := ∅, alloc := ⟨0, 0, 0, 0⟩ }

theorem corr_bare (E : Engine) : Corr E.program ∅ (bare E.program) (bareNet E) where
  cells := cells_initial E
  seats := by
    intro k hk
    have hnil : initialMarking E k = [] := by
      unfold initialMarking
      cases k <;> first | exact ite_self [] | cases hk
    change (initialMarking E k).Nodup ∧ ∀ tok, tok ∈ initialMarking E k ↔ _
    rw [hnil]
    refine ⟨List.nodup_nil, fun tok ↦ ⟨fun h ↦ (by cases h), ?_⟩⟩
    rintro ⟨x, -, hs⟩
    obtain ⟨t, f, fr, top, -⟩ := hs.binding
    have := top.thread
    rw [HasThread, show (bare E.program).threads = ∅ from rfl] at this
    cases this
  records := by
    have hf : (initResources E.program).frames = ∅ := (cells_initResources E.program).frames
    exact ⟨hf.symm, fun x ↦ by simp [bare, bareNet], fun s ↦ by simp [bare, bareNet], rfl, rfl,
      rfl, fun f pc _ ↦ by simp [bare, bareNet], rfl⟩
  apart := fun x t y u f hx ↦ absurd hx (by simp [bare])
  free := fun s sc x hs ↦ absurd hs (by simp [bare])

/-- What the interpreter starts from, with the entry thread in place. -/
theorem started_of_initial (h : E.initial = .ok σ) :
    ∃ u new, Started E.program (bare E.program) σ u new := by
  obtain ⟨u, new, hst, -⟩ := started_initial E.program
  rw [Engine.initial] at h
  obtain rfl := Except.ok.inj h
  refine ⟨u, new, ?_⟩
  split_ifs
  · exact ⟨hst.threads, hst.frames, hst.finished, hst.scopes, hst.alloc, hst.fresh, hst.status,
      hst.stack, hst.children, hst.parent, hst.frame, ⟨hst.tables.store, hst.tables.semWaiters⟩⟩
  · exact hst

/-- The entry thread as both engines begin with it. -/
theorem initial_eq (h : E.initial = .ok σ) : ∃ cf,
    (∀ n : NetState, n.store.completedFunctions = ∅ → recordCompletion E n E.program.entry =
      { n with store := { n.store with completedFunctions := cf } }) ∧
    σ = if (E.program.function E.program.entry).isTransparentNobody then
      { bare E.program with
        threads := (∅ : BTreeMap ThreadId ThreadState).insert 0
          ⟨0, .finished, [], E.program.entry, ∅, none⟩
        finished := (∅ : BTreeSet ThreadId).insert 0
        completedFunctions := cf
        alloc := ⟨1, 0, 0, 0⟩ }
    else
      { bare E.program with
        store := { initResources E.program with
          frames := (initResources E.program).frames.insert 0
            ((bare E.program).newFrame E.program E.program.entry) }
        threads := (∅ : BTreeMap ThreadId ThreadState).insert 0
          ⟨0, .runnable, [0], E.program.entry, ∅, none⟩
        alloc := ⟨1, 1, 0, 0⟩ } := by
  have herase : ∀ cf : BTreeMap FunctionId ℕ, (∀ g, g ≠ E.program.entry → cf[g]? = none) →
      cf.erase E.program.entry = ∅ := by
    intro cf hcf
    ext1 g
    rw [Std.ExtTreeMap.getElem?_erase]
    split_ifs with hg
    · rfl
    · exact hcf g fun he ↦ hg (he ▸ Nat.compare_eq_eq.mpr rfl)
  have hinsert : ∀ g, g ≠ E.program.entry →
      ((∅ : BTreeMap FunctionId ℕ).insert E.program.entry 1)[g]? = none := by
    intro g hg
    rw [Std.ExtTreeMap.getElem?_insert, if_neg fun he ↦ hg (Nat.compare_eq_eq.mp he).symm]
    rfl
  rw [Engine.initial] at h
  rw [← Except.ok.inj h, MachineState.initial]
  by_cases hmax : E.monitor.maxFor E.program.entry = 0
  · refine ⟨∅, fun n hn ↦ ?_, ?_⟩
    · rw [recordCompletion, if_pos hmax, ← hn]
    · rw [if_pos hmax]
      split_ifs
      · rw [herase _ hinsert]
        rfl
      · rw [herase _ fun g _ ↦ rfl]
        rfl
  · refine ⟨(∅ : BTreeMap FunctionId ℕ).insert E.program.entry 1, fun n hn ↦ ?_, ?_⟩
    · have hone : (if 0 < E.monitor.maxFor E.program.entry then 0 + 1 else 0) = 1 :=
        if_pos (Nat.pos_of_ne_zero hmax)
      rw [recordCompletion, if_neg hmax, hn]
      exact congrArg (fun k ↦ ({ n with store := { n.store with
        completedFunctions := (∅ : BTreeMap FunctionId ℕ).insert E.program.entry k } } : NetState)) hone
    · rw [if_neg hmax]
      rfl

/-- Both engines start, and from corresponding states. -/
theorem corr_initial (h : E.initial = .ok σ) :
    ∃ m, initial E = .ok m ∧ Corr E.program ∅ σ m := by
  have hw := wf_bare E.program
  have hb := corr_bare E
  obtain ⟨u, new, hst⟩ := started_of_initial h
  obtain ⟨cf, hrec, hσ⟩ := initial_eq h
  have hu := hst.threads u.id
  rw [if_pos rfl, show u.id = 0 from hst.fresh.1] at hu
  by_cases htr : (E.program.function E.program.entry).isTransparentNobody = true
  · rw [if_pos htr] at hσ
    subst hσ
    obtain rfl : u = ⟨0, .finished, [], E.program.entry, ∅, none⟩ := by simpa using hu.symm
    refine ⟨_, by rw [initial, Engine.function, if_pos htr, hrec _ rfl], ?_⟩
    refine Corr.drop (hb.start hw hst rfl (.start hb hw hst ?_ (fun y ↦ ?_) rfl rfl rfl rfl rfl rfl
      rfl)) fun k tok hs ↦ ?_
    · exact ((cells_initResources E.program).frames).symm
    · change ((∅ : BTreeMap ThreadId NetThread).insert 0 _)[y]? = _
      rw [Std.ExtTreeMap.getElem?_insert]
      simp only [Nat.compare_eq_eq, @eq_comm _ 0 y]
      rfl
    · obtain ⟨t, f, fr, top, -⟩ := hs.binding
      rcases hst.hasThread.mp top.thread with ⟨-, rfl⟩ | ⟨hne, -⟩
      · cases top.head
      · exact hne rfl
  · rw [if_neg htr] at hσ
    rw [hσ] at hu
    obtain rfl : u = ⟨0, .runnable, [0], E.program.entry, ∅, none⟩ := by simpa using hu.symm
    have hplace : hasPlace E (.control E.program.entry 0) = true :=
      hasPlace_iff.mpr (control_mem_places E.program.entry_lt (Nat.zero_le _))
    have hf : (initResources E.program).frames = ∅ := (cells_initResources E.program).frames
    refine ⟨_, by rw [initial, Engine.function, if_neg htr, if_pos hplace], ?_⟩
    have hframe : σ.HasFrame 0 ((bare E.program).newFrame E.program E.program.entry) := by
      rw [MachineState.HasFrame, hσ]
      exact Std.ExtTreeMap.getElem?_insert_self
    have top : Top σ 0 ⟨0, .runnable, [0], E.program.entry, ∅, none⟩ 0
        ((bare E.program).newFrame E.program E.program.entry) :=
      ⟨hst.hasThread.mpr (.inl ⟨rfl, rfl⟩), rfl, hframe⟩
    subst hσ
    refine Corr.enter ?_ (Set.notMem_empty 0) top rfl
    · refine hb.start hw hst rfl (.start hb hw hst ?_ (fun y ↦ ?_) rfl rfl rfl rfl rfl rfl rfl)
      · rw [hf]
        rfl
      · change (((∅ : BTreeMap ThreadId NetThread).insert 0 _).modify 0 _)[y]? = _
        rw [Std.ExtTreeMap.getElem?_modify, Std.ExtTreeMap.getElem?_insert_self,
          Std.ExtTreeMap.getElem?_insert]
        simp only [Nat.compare_eq_eq, @eq_comm _ 0 y]
        split_ifs <;> rfl

end Entry

end Petri

end ConcIR
