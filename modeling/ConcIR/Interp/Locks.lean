import ConcIR.Interp.Flow
import ConcIR.Sem.Accesses

/-!
# What the lock checks say about runs

Where the lock checks find nothing, a thread that gives a mutex back or waits with it is the one
that holds it, and a thread that has ended holds none. Whoever executes a function holds what it
requires, and whoever accesses a protected Var holds its lock, in every run.
-/

namespace ConcIR

open Ast Lower MachineState Validate

variable {E : Engine} {p : Program} {σ : MachineState} {x y : ThreadId} {t : ThreadState}
  {f : FrameId} {fr : Frame} {r : ResourceId}

theorem control_owner :
    (control σ).owner r = some x ↔ σ.store.mutexes[r]? = some (.held x) := by
  change σ.store.mutexes[r]?.bind MutexState.owner = some x ↔ _
  cases hr : σ.store.mutexes[r]? with
  | none => exact ⟨nofun, nofun⟩
  | some s =>
      cases s with
      | free => exact ⟨nofun, nofun⟩
      | held y =>
          constructor
          · intro h
            rw [Option.some.inj h]
          · intro h
            exact congrArg some (MutexState.held.inj (Option.some.inj h))

theorem control_place (h : σ.HasFrame f fr) : (control σ).place f = some fr.at := by
  change σ.store.frames[f]?.map Frame.at = some fr.at
  rw [show σ.store.frames[f]? = some fr from h]
  rfl

section Owners

/-- What is held or needed where an activation stands is held by the thread, unless it waits. -/
theorem held_of_needs {H : FrameId → Finset ResourceId}
    (hown : Control.Owned (needs p) E.program.code (control σ) H) (hx : σ.HasThread x t)
    (hg : f ∈ t.stack) (hfr : σ.HasFrame f fr)
    (hrest : ¬Control.Resting E.program.code (control σ) x r) (hr : r ∈ H f ∪ needs p fr.function) :
    σ.store.mutexes[r]? = some (.held x) := by
  have hmem : f ∈ (control σ).stack x := by
    rw [control_stack hx]
    exact hg
  exact control_owner.mp ((hown.owner x r).mpr
    ⟨hown.held_of_needs hmem (control_place hfr) hr, hrest⟩)

variable [FloatArith]

/-- The mutexes that are held are those of the activations, as the ways through their bodies have
it. -/
theorem owned_of_reachable (h : Disciplined p) (hP : lowerProgram p = .ok E.program)
    (hσ : E.interpreter.Reachable σ) : ∃ H, Control.Traced E.program.code (control σ) H ∧
      Control.Owned (needs p) E.program.code (control σ) H := by
  obtain ⟨H, htraced, howned⟩ := (sound_of_reachable hσ (needs p)).held
  exact ⟨H, htraced, howned (h.balanced hP)⟩

/-- A thread that holds a mutex has not ended. -/
theorem owner_live (hσ : E.interpreter.Reachable σ) {H : FrameId → Finset ResourceId}
    (hown : Control.Owned (needs p) E.program.code (control σ) H)
    (hr : σ.store.mutexes[r]? = some (.held x)) :
    ∃ t, σ.HasThread x t ∧ t.status ≠ .finished := by
  obtain ⟨⟨g, hg, -⟩, -⟩ := (hown.owner x r).mp (control_owner.mpr hr)
  cases hx : σ.threads[x]? with
  | none =>
      rw [(control_absent hx).1] at hg
      cases hg
  | some t =>
      rw [control_stack (show σ.HasThread x t from hx)] at hg
      refine ⟨t, hx, fun hfin ↦ ?_⟩
      have hempty := ((wf_of_reachable hσ).1.stack.finished_stack x t hx).mp hfin
      rw [hempty] at hg
      cases hg

/-- Where the lock checks find nothing, a thread that is about to give a mutex back holds it, and
so does one that is about to wait with it. Each mutex that is held is held by a thread that has
not ended. -/
theorem mutexes_owned (h : Disciplined p) (hP : lowerProgram p = .ok E.program)
    (hσ : E.interpreter.Reachable σ) :
    (∀ x t f fr (r : ResourceId), Top σ x t f fr → t.status = .runnable →
      E.program.opAt fr.function fr.pc = some (.mutexUnlock r) →
        σ.store.mutexes[r]? = some (.held x)) ∧
    (∀ x t f fr cv (r : ResourceId), Top σ x t f fr → t.status = .runnable →
      E.program.opAt fr.function fr.pc = some (.condvarWait cv r) →
        σ.store.mutexes[r]? = some (.held x)) ∧
    ∀ (r : ResourceId) (x : ThreadId), σ.store.mutexes[r]? = some (.held x) →
      ∃ t, σ.HasThread x t ∧ t.status ≠ .finished := by
  obtain ⟨H, htraced, hown⟩ := owned_of_reachable h hP hσ
  have hadmits : ∀ x t f fr, Top σ x t f fr →
      (SemOp.action (E.program.opAt fr.function fr.pc)).Admits (needs p) (needs p fr.function)
        (H f) :=
    fun x t f fr top ↦ (h.balanced hP).admits _ _ _ (htraced f fr.at top.control.place)
  have hawake : ∀ x t f fr r, Top σ x t f fr → t.status = .runnable →
      ¬Control.Resting E.program.code (control σ) x r := by
    intro x t f fr r top hrun
    refine Control.not_resting ?_
    rw [control_waiting top.thread, hrun]
    rfl
  refine ⟨fun x t f fr r top hrun hop ↦ ?_, fun x t f fr cv r top hrun hop ↦ ?_, fun r x hr ↦ ?_⟩
  · have hadm := hadmits x t f fr top
    rw [hop] at hadm
    exact held_of_needs hown top.thread top.mem top.frame (hawake x t f fr r top hrun)
      (Finset.mem_union_left _ hadm)
  · have hadm := hadmits x t f fr top
    rw [hop] at hadm
    exact held_of_needs hown top.thread top.mem top.frame (hawake x t f fr r top hrun) hadm
  · exact owner_live hσ hown hr

/-- The thread is blocked on a mutex that the other one holds. -/
def WaitsFor (σ : MachineState) (x y : ThreadId) : Prop :=
  ∃ t r, σ.HasThread x t ∧ t.status = .blocked (.lock r) ∧ σ.store.mutexes[r]? = some (.held y)

/-- Where the lock checks find nothing, the holders of mutexes lead from each thread that has not
ended to one that is not blocked on a held mutex, or into a cycle. No mutex is lost with a thread
that has ended. -/
theorem waits_end (h : Disciplined p) (hP : lowerProgram p = .ok E.program)
    (hσ : E.interpreter.Reachable σ) (hx : σ.HasThread x t) (hlive : t.status ≠ .finished) :
    ∃ y u, Relation.ReflTransGen (WaitsFor σ) x y ∧ σ.HasThread y u ∧ u.status ≠ .finished ∧
      (Relation.TransGen (WaitsFor σ) y y ∨ ∀ z, ¬WaitsFor σ y z) := by
  obtain ⟨H, -, hown⟩ := owned_of_reachable h hP hσ
  have hthread : ∀ y, Relation.ReflTransGen (WaitsFor σ) x y →
      ∃ u, σ.HasThread y u ∧ u.status ≠ .finished := by
    intro y hy
    rcases Relation.ReflTransGen.cases_tail hy with rfl | ⟨z, -, v, r, -, -, hr⟩
    · exact ⟨t, hx, hlive⟩
    · exact owner_live hσ hown hr
  have hfin : {y | Relation.ReflTransGen (WaitsFor σ) x y}.Finite := by
    apply (List.finite_toSet σ.threads.keys).subset
    intro y hy
    obtain ⟨u, hu, -⟩ := hthread y hy
    apply Std.ExtTreeMap.mem_keys.mpr
    rw [Std.ExtTreeMap.mem_iff_isSome_getElem?, show σ.threads[y]? = some u from hu]
    rfl
  obtain ⟨y, hy, hend⟩ := Control.exists_stop_or_cycle hfin
  obtain ⟨u, hu, hulive⟩ := hthread y hy
  exact ⟨y, u, hy, hu, hulive, hend⟩

end Owners

section Guards

/-- The activation is one of the thread, which is not at a wait on a condition variable. -/
structure Executing (P : SemProgram) (σ : MachineState) (x : ThreadId) (g : FrameId) (gr : Frame) :
    Prop where
  frame : σ.HasFrame g gr
  awake : ∃ t f fr, Top σ x t f fr ∧ g ∈ t.stack ∧
    ∀ cv lk, P.opAt fr.function fr.pc ≠ some (.condvarWait cv lk)

/-- An activation of the thread stands at a statement that accesses the cell. -/
def Accesses (P : SemProgram) (σ : MachineState) (x : ThreadId) (r : ResourceId) : Prop :=
  ∃ g gr op, Executing P σ x g gr ∧ P.opAt gr.function gr.pc = some op ∧ r ∈ op.accesses

theorem action_eq_wait {op : Option SemOp} (h : SemOp.action op = .wait r) :
    ∃ cv, op = some (.condvarWait cv r) := by
  cases op with
  | none => cases h
  | some op =>
      cases op with
      | condvarWait cv lk => exact ⟨cv, by rw [Control.Action.wait.inj h]⟩
      | _ => cases h

theorem Executing.held {H : FrameId → Finset ResourceId} {g : FrameId} {gr : Frame}
    (hown : Control.Owned (needs p) E.program.code (control σ) H)
    (h : Executing E.program σ x g gr) (hr : r ∈ H g ∪ needs p gr.function) :
    σ.store.mutexes[r]? = some (.held x) := by
  obtain ⟨t, f, fr, top, hg, hnowait⟩ := h.awake
  apply held_of_needs hown top.thread hg h.frame _ hr
  apply top.control.not_resting
  intro hact
  obtain ⟨cv, hwait⟩ := action_eq_wait hact
  exact hnowait cv r hwait

/-- The lock of a protected Var is a resource. -/
theorem exists_lock {var lock : String} (h : protectionMap p var = some lock) :
    ∃ lk, Known p lk ∧ canonical p lk = lock := by
  obtain ⟨m, -, hentry⟩ := List.mem_flatMap.mp (lastValue_mem h)
  obtain ⟨z, -, hentry⟩ := List.mem_filterMap.mp hentry
  obtain ⟨v, -, hentry⟩ := Option.bind_eq_some_iff.mp hentry
  obtain ⟨lock', hlock, heq⟩ := Option.bind_eq_some_iff.mp hentry
  obtain ⟨-, rfl⟩ := Prod.mk.inj (Option.some.inj heq)
  obtain ⟨⟨owner, rs⟩, hq, rfl⟩ := Option.map_eq_some_iff.mp hlock
  obtain ⟨howner, hrs, -⟩ := lookupResource_mem hq
  exact exists_known howner hrs

variable [FloatArith] {rs : Resource} {owner m : Module} {mid : ModuleId} {lock : String}
  {fn : Function} {k : FunctionId}

/-- Where the lock checks find nothing, whoever executes a function holds the locks that it requires,
in every run. A function that requires a lock is executed by one thread at a time. -/
theorem required_held (h : Disciplined p) (hP : lowerProgram p = .ok E.program)
    (hσ : E.interpreter.Reachable σ) (hk : (functions p)[k]? = some (m, mid, fn))
    (hlock : lock ∈ fn.locks.requiresHeld) :
    (∃ lk, canonical p lk = canonicalFrom p m.name lock ∧
      ∀ x g gr, Executing E.program σ x g gr → gr.function = k →
        σ.store.mutexes[lk]? = some (.held x)) ∧
    ∀ x y g g' gr gr', Executing E.program σ x g gr → Executing E.program σ y g' gr' →
      gr.function = k → gr'.function = k → x = y := by
  obtain ⟨H, -, hown⟩ := owned_of_reachable h hP hσ
  obtain ⟨hm, hfn⟩ := mem_functions hk
  have hentry : canonicalFrom p m.name lock ∈ entryHeld p m fn := by
    rw [(h.names_required (List.mem_of_getElem? hm) hfn).1, List.mem_toFinset]
    exact List.mem_map.mpr ⟨lock, hlock, rfl⟩
  obtain ⟨lk, hlk, hcanon⟩ := ((h.tracks_entry hk).mem _).mp hentry
  have hheld : ∀ x g gr, Executing E.program σ x g gr → gr.function = k →
      σ.store.mutexes[lk]? = some (.held x) := by
    intro x g gr hexec hgr
    subst hgr
    exact hexec.held hown (Finset.mem_union_right _ hlk)
  refine ⟨⟨lk, hcanon, hheld⟩, fun x y g g' gr gr' hx hy hgr hgr' ↦ ?_⟩
  have heq := (hheld x g gr hx hgr).symm.trans (hheld y g' gr' hy hgr')
  exact MutexState.held.inj (Option.some.inj heq)

/-- Where the lock checks find nothing, whoever accesses a protected Var holds its lock, in every
run. No two threads ever access it at the same time. -/
theorem vars_guarded (h : Disciplined p)
    (hdiscard : ∀ m ∈ p.modules, ∀ rs ∈ m.resources, rs.name ≠ "_")
    (hP : lowerProgram p = .ok E.program) (hσ : E.interpreter.Reachable σ)
    (hat : ResourceAt p r owner mid rs) (hvar : resKind rs = .ok .var)
    (hguard : protectionMap p (canonical p r) = some lock) :
    (∃ lk, canonical p lk = lock ∧
      ∀ x, Accesses E.program σ x r → σ.store.mutexes[lk]? = some (.held x)) ∧
    ∀ x y, Accesses E.program σ x r → Accesses E.program σ y r → x = y := by
  obtain ⟨lk, hlk, hcanon⟩ := exists_lock hguard
  obtain ⟨H, htraced, hown⟩ := owned_of_reachable h hP hσ
  have hheld : ∀ x, Accesses E.program σ x r → σ.store.mutexes[lk]? = some (.held x) := by
    rintro x ⟨g, gr, op, hexec, hop, hacc⟩
    cases hk : (functions p)[gr.function]? with
    | none =>
        rw [opAt_none hP hk] at hop
        cases hop
    | some z =>
        obtain ⟨m, mid', fn⟩ := z
        obtain ⟨res, l, slots, hres, hlike, hbody, -⟩ := body_of_lower h.names.unique hP hk
        obtain ⟨hm, hfn⟩ := mem_functions hk
        obtain ⟨s, hs, hlow⟩ := hbody.of_opAt hop
        have hkind := kindOf_of_resourceAt hres hlike hat hvar
        obtain ⟨name, hname, hrname⟩ :=
          seen_of_accesses h.names hdiscard hres hlike hm hkind hlow hacc
        obtain ⟨_, _, _, -, -, -, hcan⟩ := Names.canonical h.names hres hlike hm
          (⟨hrname, hkind⟩ : Names l _ .var name r)
        obtain ⟨⟨is, hpath, hall, -⟩, -⟩ :=
          h.at_of_arrives hP hk (htraced g gr.at (control_place hexec.frame))
        have hne : fn.body ≠ [] := List.ne_nil_of_mem (List.mem_of_getElem? hs)
        obtain ⟨fnPath, hsilent⟩ := h.locks m (List.mem_of_getElem? hm) fn hfn hne
        -- the check has seen the access on this path
        have hlock : lock ∈ holding p m fn (entryHeld p m fn) is := by
          by_contra hnot
          exact checkHeld_eq_nil.mp hsilent.access gr.pc s _ ⟨is, hpath, hs, mem_accessNeeds.mpr
            ⟨name, hname, lock, by rw [hcan]; exact hguard, rfl⟩, hnot⟩
        rw [← hcanon, hall.mem_iff h.names hlk] at hlock
        exact hexec.held hown hlock
  refine ⟨⟨lk, hcanon, hheld⟩, fun x y hx hy ↦ ?_⟩
  have heq := (hheld x hx).symm.trans (hheld y hy)
  exact MutexState.held.inj (Option.some.inj heq)

end Guards

section Raised

/-- Two threads raise a flag, with a function that needs its lock. -/
def raised : Program := ⟨"raised", "1", [flagModule [
  plain "main" [⟨"s1", .spawn "worker" [] "h"⟩, ⟨"s2", .mutexLock "m"⟩,
    ⟨"s3", .func "raise" [] none⟩, ⟨"s4", .mutexUnlock "m"⟩, ⟨"s5", .join "h"⟩, ⟨"s6", .ret none⟩] [],
  plain "worker" [⟨"s1", .mutexLock "m"⟩, ⟨"s2", .func "raise" [] none⟩, ⟨"s3", .mutexUnlock "m"⟩,
    ⟨"s4", .ret none⟩] [],
  plain "raise" [⟨"s1", .writeShared "v" "true"⟩, ⟨"s2", .ret none⟩] ["m"]]], "core::main"⟩

theorem disciplined_raised : Disciplined raised where
  names := ⟨by decide, by decide, by decide⟩
  locks m hm f hf hbody := silent_of_checkLocks (by decide +kernel) hm hf hbody
  effects := by decide
  returns := by
    have hall : ∀ m ∈ raised.modules, ∀ f ∈ m.functions, checkReturnPaths m f "f" = [] := by decide
    exact fun m hm f hf _ ↦ ⟨"f", hall m hm f hf⟩
  entry := by
    have hentry : ∀ q ∈ raised.lookupFunction "" raised.entry, q.2.locks.requiresHeld = [] := by
      decide
    exact fun m f h ↦ hentry (m, f) h
  started := by
    have hall : ∀ m ∈ raised.modules, ∀ f ∈ m.functions, ∀ s ∈ f.body, ∀ name ∈ s.op.startedFuncs,
        ∀ q ∈ raised.lookupFunction m.name name, q.2.locks.requiresHeld = [] := by decide
    exact fun m hm f hf s hs name hname owner g h ↦ hall m hm f hf s hs name hname (owner, g) h
  keeps := by
    have hall : ∀ m ∈ raised.modules, ∀ f ∈ m.functions, ∀ s ∈ f.body, ∀ r ∈ s.op.isLockRelease,
        canonicalFrom raised m.name r ∉ entryHeld raised m f := by decide
    exact fun m hm f hf s hs r h ↦ hall m hm f hf s hs r (by rw [h]; rfl)

theorem mutexes_owned_raised : ∃ P σ t, lowerProgram raised = .ok P ∧
    (smallSystem P).run [0, 1] = some σ ∧ σ.store.mutexes[0]? = some (.held 1) ∧ σ.HasThread 1 t ∧
      t.status ≠ .finished := by
  have hrun : shown raised [0, 1] (Option MutexState) (·.store.mutexes[0]?) =
      some (some (.held 1)) := by decide
  obtain ⟨P, σ, hP, hσ, hheld⟩ := exists_shown hrun
  obtain ⟨-, -, howner⟩ := @mutexes_owned (smallEngine P) raised σ .unused disciplined_raised hP
    (TransitionSystem.reachable_of_run hσ)
  obtain ⟨t, ht, hlive⟩ := howner 0 1 hheld
  exact ⟨P, σ, t, hP, hσ, hheld, ht, hlive⟩

/-- The entry waits for the second thread. -/
theorem waits_end_raised : ∃ P σ y u, lowerProgram raised = .ok P ∧
    (smallSystem P).run [0, 1, 0] = some σ ∧ Relation.ReflTransGen (WaitsFor σ) 0 y ∧
      σ.HasThread y u ∧ u.status ≠ .finished ∧
        (Relation.TransGen (WaitsFor σ) y y ∨ ∀ z, ¬WaitsFor σ y z) := by
  have hrun : shown raised [0, 1, 0] (Option ThreadStatus) (fun σ ↦ σ.threads[0]?.map (·.status)) =
      some (some (.blocked (.lock 0))) := by decide
  obtain ⟨P, σ, hP, hσ, hview⟩ := exists_shown hrun
  obtain ⟨t, ht, hstatus⟩ := Option.map_eq_some_iff.mp hview
  have hlive : t.status ≠ .finished := by
    rw [hstatus]
    nofun
  obtain ⟨y, u, hend⟩ := @waits_end (smallEngine P) raised σ 0 t .unused disciplined_raised hP
    (TransitionSystem.reachable_of_run hσ) ht hlive
  exact ⟨P, σ, y, u, hP, hσ, hend⟩

/-- The second thread has called the function with the lock that it holds. -/
theorem raising : ∃ P σ fr, lowerProgram raised = .ok P ∧ (smallSystem P).run [0, 1, 1] = some σ ∧
    Executing P σ 1 2 fr ∧ fr.function = 2 ∧ Accesses P σ 1 1 := by
  have hrun : (lowerProgram raised).toOption.bind (fun P ↦ ((smallSystem P).run [0, 1, 1]).map
      fun σ ↦ (σ.threads[1]?.map (·.stack), σ.store.frames[2]?.map (fun fr ↦ (fr.function, fr.pc)),
        (P.opAt 2 0).map (·.accesses))) = some (some [2, 1], some (2, 0), some [1]) := by decide
  obtain ⟨P, hP, h⟩ := exists_lowered hrun
  obtain ⟨σ, hσ, hview⟩ := Option.map_eq_some_iff.mp h
  obtain ⟨hthread, hview⟩ := Prod.mk.inj hview
  obtain ⟨hframe, hop⟩ := Prod.mk.inj hview
  obtain ⟨t, ht, hstack⟩ := Option.map_eq_some_iff.mp hthread
  obtain ⟨fr, hfr, hat⟩ := Option.map_eq_some_iff.mp hframe
  obtain ⟨op, hop, hcells⟩ := Option.map_eq_some_iff.mp hop
  obtain ⟨hfn, hpc⟩ := Prod.mk.inj hat
  have hopAt : P.opAt fr.function fr.pc = some op := by
    rw [hfn, hpc]
    exact hop
  have top : Top σ 1 t 2 fr := ⟨ht, by rw [hstack]; rfl, hfr⟩
  have hexec : Executing P σ 1 2 fr := by
    refine ⟨hfr, t, 2, fr, top, top.mem, fun cv lk hwait ↦ ?_⟩
    rw [hopAt] at hwait
    rw [Option.some.inj hwait] at hcells
    cases hcells
  refine ⟨P, σ, fr, hP, hσ, hexec, hfn, 2, fr, op, hexec, hopAt, ?_⟩
  rw [hcells]
  exact List.mem_singleton_self 1

theorem required_held_raised : ∃ P σ lk, lowerProgram raised = .ok P ∧
    (smallSystem P).run [0, 1, 1] = some σ ∧ canonical raised lk = "core::m" ∧
      σ.store.mutexes[lk]? = some (.held 1) := by
  obtain ⟨P, σ, fr, hP, hσ, hexec, hfn, -⟩ := raising
  obtain ⟨⟨lk, hlk, hheld⟩, -⟩ := @required_held (smallEngine P) raised σ .unused _ 0 "m" _ 2
    disciplined_raised hP (TransitionSystem.reachable_of_run hσ) rfl (List.mem_singleton_self _)
  exact ⟨P, σ, lk, hP, hσ, hlk, hheld 1 2 fr hexec hfn⟩

theorem vars_guarded_raised : ∃ P σ lk, lowerProgram raised = .ok P ∧
    (smallSystem P).run [0, 1, 1] = some σ ∧ Accesses P σ 1 1 ∧ canonical raised lk = "core::m" ∧
      σ.store.mutexes[lk]? = some (.held 1) := by
  obtain ⟨P, σ, fr, hP, hσ, -, -, haccess⟩ := raising
  obtain ⟨⟨lk, hlk, hheld⟩, -⟩ := @vars_guarded (smallEngine P) raised σ 1 .unused _ _ 0 "core::m"
    disciplined_raised (by decide) hP (TransitionSystem.reachable_of_run hσ) rfl rfl (by decide)
  exact ⟨P, σ, lk, hP, hσ, haccess, hlk, hheld 1 haccess⟩

end Raised

end ConcIR
