import ConcIR.Interp.Waits
import ConcIR.Trace.Runs

/-!
# Traces matched by operation and resource

In this mode an event is a step of any thread, and an event that nothing matches is
excused while some candidate has a single thread. The candidates are runs with exactly
the matched events; whether an excuse is what it is meant to be, work after the last
join, depends on whether one of them has started a thread at all.
-/

namespace ConcIR.Trace

open MachineState

/-- The statements that start or await threads. -/
def forksOrJoins : SemOp → Bool
  | .spawn _ _ | .scope _ | .join _ => true
  | _ => false

def isUnlock : SemOp → Bool
  | .mutexUnlock _ => true
  | _ => false

section Definitions

variable (P : SemProgram) (o : Options)

/-- A transition that is an event in the given modes. -/
def emits (attemptAll silentSpawn : Bool) (e : Transition MachineState) : Bool :=
  match statementOf P e with
  | none => false
  | some s =>
      isObservable s.op && !(silentSpawn && forksOrJoins s.op) &&
        if attemptAll || eventAtAttempt s.op then threadRunnable e.before e.thread
        else movedOn e.before e.after e.thread

/-- A transition that may be taken without an event. -/
def silent (e : Transition MachineState) : Bool :=
  !emits P o.attemptEvents o.opResource e ||
    (o.lenientUnlock && ((statementOf P e).map (·.op)).any isUnlock)

/-- The statement of the transition matches the target. -/
def matchesAt (target : Target) (e : Transition MachineState) : Bool :=
  match e.before.currentFrame e.thread with
  | none => false
  | some fr => statementMatches P fr.function fr.pc target

/-- The run emits exactly the given events, up to silent transitions. -/
inductive Follows : List (Transition MachineState) → List TraceEvent → Prop
  | nil : Follows [] []
  | silent {es evs e} (h : Follows es evs) (hs : silent P o e = true) : Follows (es ++ [e]) evs
  | event {es evs e ev} (h : Follows es evs) (he : emits P o.attemptEvents true e = true)
      (hm : matchesAt P (.opRes ev.op ev.resource) e = true) : Follows (es ++ [e]) (evs ++ [ev])

/-- The threads a run has started. -/
def started (es : List (Transition MachineState)) : List ThreadId :=
  es.flatMap fun e ↦ newThreads e.before e.after

/-- The thread has finished, and its record may be gone. -/
def Over (σ : MachineState) (y : ThreadId) : Prop :=
  ∀ t, σ.threads[y]? = some t → t.status = .finished

variable [FloatArith]

/-- The check has read the events of `done` and matched those of `ms`; the others were
excused. -/
inductive Checked : List TraceEvent → List TraceEvent → Checking → Prop
  | start {σ} (h : (engine P).initial = .ok σ) : Checked [] [] (.start σ)
  | matched {done ms c c' ev n k} (h : Checked done ms c)
      (hc : checkEvent P o n k c ev = .ok c') (hm : c'.postJoinMainOps = c.postJoinMainOps) :
      Checked (done ++ [ev]) (ms ++ [ev]) c'
  | excused {done ms c c' ev n k} (h : Checked done ms c)
      (hc : checkEvent P o n k c ev = .ok c') (hm : c'.postJoinMainOps ≠ c.postJoinMainOps) :
      Checked (done ++ [ev]) ms c'

/-- The event is recorded as work of the entry thread instead of being reported. -/
def Excused (c : Checking) (ev : TraceEvent) : Prop :=
  ∃ n k c', checkEvent P o n k c ev = .ok c' ∧ c'.postJoinMainOps ≠ c.postJoinMainOps

/-- A candidate that comes from a run with exactly the matched events which has started
threads and has seen all of them finish. -/
def AfterLastJoin (ms : List TraceEvent) (x : Candidate) : Prop :=
  ∃ es, (engine P).interpreter.Run es x.1 ∧ Follows P o es ms ∧ started es ≠ [] ∧
    ∀ y ∈ started es, Over x.1 y

/-- Every event of the trace that is excused is excused by such a candidate. -/
def ExcusesSound (trace : List TraceEvent) : Prop :=
  ∀ done ev rest ms c, trace = done ++ ev :: rest → Checked P o done ms c →
    Excused P o c ev → ∃ x ∈ silentExpand P o c.frontier, AfterLastJoin P o ms x

end Definitions

section Births

variable [FloatArith] {P : SemProgram} {σ : MachineState} {es : List (Transition MachineState)}

omit [FloatArith] in
theorem mem_newThreads {σ τ : MachineState} {y : ThreadId} :
    y ∈ newThreads σ τ ↔ y ∈ τ.threads ∧ y ∉ σ.threads := by
  rw [newThreads, List.mem_filter, Std.ExtTreeMap.mem_keys, Bool.not_eq_true',
    ← Bool.not_eq_true, Std.ExtTreeMap.contains_iff_mem]

/-- The threads of a state are the entry thread and threads that were started, and ids
have been handed out exactly if some were. -/
structure Accounted (es : List (Transition MachineState)) (σ : MachineState) : Prop where
  threads : ∀ y, y ∈ σ.threads → y = 0 ∨ y ∈ started es
  pos : ∀ y ∈ started es, 0 < y
  next : 1 ≤ σ.alloc.nextThread
  iff : 1 < σ.alloc.nextThread ↔ started es ≠ []

omit [FloatArith] in
theorem started_concat (es : List (Transition MachineState)) (e : Transition MachineState) :
    started (es ++ [e]) = started es ++ newThreads e.before e.after := by
  simp [started]

omit [FloatArith] in
theorem accounted_initial (h : (engine P).initial = .ok σ) : Accounted [] σ := by
  obtain rfl := Except.ok.inj h
  have hthreads : ∀ y, y ∈ (MachineState.initial P).threads → y = 0 := by
    intro y hy
    rw [MachineState.initial] at hy
    split_ifs at hy
    all_goals
      rcases Std.ExtTreeMap.mem_insert.mp hy with hy | hy
      · exact (compare_eq_iff_eq.mp hy).symm
      · exact absurd hy Std.ExtTreeMap.not_mem_empty
  have hnext : (MachineState.initial P).alloc.nextThread = 1 := by
    rw [MachineState.initial]
    split_ifs <;> rfl
  have hnone : ¬1 < (MachineState.initial P).alloc.nextThread := hnext.not_gt
  exact ⟨fun y hy ↦ .inl (hthreads y hy), fun y hy ↦ absurd hy List.not_mem_nil, hnext.ge,
    iff_of_false hnone (not_not_intro rfl)⟩

theorem accounted_of_run (h : (engine P).interpreter.Run es σ) : Accounted es σ := by
  induction h with
  | start h => exact accounted_initial h
  | @step es σ τ x hrun hs ih =>
      have hw : Wf P σ := (wf_of_reachable (E := engine P) hrun.reachable).1
      have hmem : ∀ y, y ∈ newThreads σ τ ↔ y ∈ τ.threads ∧ y ∉ σ.threads := fun y ↦
        mem_newThreads
      rcases (fires_of_takes (E := engine P) hw hs).births with hb | hb
      · have hnil : newThreads σ τ = [] := by
          refine List.eq_nil_iff_forall_not_mem.mpr fun y hy ↦ ?_
          exact ((hmem y).mp hy).2 (hb.threads y ((hmem y).mp hy).1)
        have hst : started (es ++ [⟨σ, x, τ⟩]) = started es := by
          rw [started_concat, hnil, List.append_nil]
        refine ⟨?_, ?_, ?_, ?_⟩
        · intro y hy
          rw [hst]
          exact ih.threads y (hb.threads y hy)
        · rw [hst]
          exact ih.pos
        · exact hb.nextThread ▸ ih.next
        · rw [hst, hb.nextThread]
          exact ih.iff
      · have hfresh : σ.alloc.nextThread ∉ σ.threads := by
          intro hin
          obtain ⟨t, ht⟩ := Option.isSome_iff_exists.mp
            (Std.ExtTreeMap.mem_iff_isSome_getElem?.mp hin)
          exact absurd (hw.stack.thread_id _ t ht).2 (lt_irrefl _)
        have hfirst : σ.alloc.nextThread ∈ newThreads σ τ := (hmem _).mpr ⟨hb.first, hfresh⟩
        refine ⟨?_, ?_, ?_, ?_⟩
        · intro y hy
          rw [started_concat]
          by_cases hold : y ∈ σ.threads
          · rcases ih.threads y hold with rfl | hold
            · exact .inl rfl
            · exact .inr (List.mem_append_left _ hold)
          · exact .inr (List.mem_append_right _ ((hmem y).mpr ⟨hy, hold⟩))
        · intro y hy
          rw [started_concat] at hy
          rcases List.mem_append.mp hy with hy | hy
          · exact ih.pos y hy
          · obtain ⟨hin, hnot⟩ := (hmem y).mp hy
            have hge := (hb.threads y hin).resolve_left hnot
            exact ih.next.trans hge
        · exact ih.next.trans hb.nextThread.le
        · refine iff_of_true (ih.next.trans_lt hb.nextThread) ?_
          rw [started_concat]
          exact List.append_ne_nil_of_right_ne_nil _ (List.ne_nil_of_mem hfirst)

end Births

section Rounds

variable [FloatArith] {P : SemProgram} {o : Options} {σ : MachineState} {x y : Candidate}
  {done ms : List TraceEvent} {c c' : Checking} {ev : TraceEvent} {n k : ℕ}

/-- How the checker reads a step in any mode. -/
theorem modes_of_mem {st : Step MachineState} (h : st ∈ stepsOf P σ) : ∃ x,
    (engine P).interpreter.Takes σ x st.state ∧
      (∀ a s, eventCapable P a s σ st = emits P a s ⟨σ, x, st.state⟩) ∧
      takenSilently P o σ st = silent P o ⟨σ, x, st.state⟩ ∧
      ∀ target, matchesTarget P target st = matchesAt P target ⟨σ, x, st.state⟩ := by
  obtain ⟨en, hen, hst⟩ := mem_stepsOf.mp h
  obtain ⟨x, f, fr, hfr, hl⟩ := successors_label hen hst
  have hop : opOf P st = (statementOf P ⟨σ, x, st.state⟩).map (·.op) := by
    rw [opOf, hl, statementOf, hfr]
    rfl
  have hthread : st.label.thread = some x := by rw [hl]; rfl
  have hphase : st.label.origin.phase = .statement := by rw [hl]; rfl
  have hcap : ∀ a s, eventCapable P a s σ st = emits P a s ⟨σ, x, st.state⟩ := by
    intro a s
    rw [eventCapable, emits, hop, hphase]
    cases statementOf P ⟨σ, x, st.state⟩ with
    | none => rfl
    | some stmt =>
        simp only [Option.map_some, threadAdvanced, attempts, hthread]
        cases stmt.op <;> cases a <;> cases s <;> rfl
  refine ⟨x, takes_iff.mpr ⟨st, h, hthread, rfl⟩, hcap, ?_, ?_⟩
  · rw [takenSilently, capable, lenientSkippable, hop, hphase, silent, hcap]
    cases statementOf P ⟨σ, x, st.state⟩ with
    | none =>
        cases emits P o.attemptEvents o.opResource ⟨σ, x, st.state⟩ <;>
          cases o.lenientUnlock <;> rfl
    | some stmt =>
        simp only [Option.map_some, Option.any_some]
        cases hstmt : stmt.op <;>
          cases emits P o.attemptEvents o.opResource ⟨σ, x, st.state⟩ <;>
            cases o.lenientUnlock <;> rfl
  · intro target
    rw [matchesTarget, hl, matchesAt, hfr]
    rfl

/-- The candidate is the end of a run with exactly the matched events. -/
def Matched (P : SemProgram) (o : Options) (ms : List TraceEvent) (x : Candidate) : Prop :=
  ∃ es, (engine P).interpreter.Run es x.1 ∧ Follows P o es ms

theorem Matched.silent (h : Matched P o ms x) (hy : y ∈ silentSteps P o x) : Matched P o ms y := by
  obtain ⟨es, hrun, hf⟩ := h
  obtain ⟨st, hmem, rfl⟩ := List.mem_map.mp hy
  obtain ⟨hst, hsil⟩ := List.mem_filter.mp hmem
  obtain ⟨tid, htake, -, hread, -⟩ := modes_of_mem (o := o) hst
  exact ⟨_, hrun.step htake, hf.silent (hread ▸ hsil)⟩

theorem Matched.silentExpand {xs : List Candidate} (h : ∀ x ∈ xs, Matched P o ms x) :
    ∀ y ∈ silentExpand P o xs, Matched P o ms y := by
  rw [Trace.silentExpand, silentClosure]
  exact Worklist.forall_expand h fun _ hx _ hy ↦ hx.silent hy

/-- An unmatched event is excused by keeping the candidates with a single thread. -/
theorem checkOpResource_cases {target : Target}
    (h : checkOpResource P o n k c ev target = .ok c') :
    (c'.postJoinMainOps = c.postJoinMainOps ∧ ∀ y ∈ c'.frontier, ∃ x ∈ c.frontier,
      ∃ st ∈ stepsOf P x.1, eventCapable P o.attemptEvents true x.1 st = true ∧
        matchesTarget P target st = true ∧ y = follow P x st) ∨
    (c'.postJoinMainOps ≠ c.postJoinMainOps ∧ ∀ y ∈ c'.frontier, y ∈ c.frontier) := by
  rw [checkOpResource] at h
  simp only at h
  split_ifs at h
  · obtain rfl := Except.ok.inj h
    refine .inr ⟨fun heq ↦ ?_, fun y hy ↦ (List.mem_filter.mp hy).1⟩
    have hlen := congrArg List.length heq
    simp at hlen
  · obtain rfl := Except.ok.inj h
    refine .inl ⟨rfl, fun y hy ↦ ?_⟩
    obtain ⟨⟨x, st⟩, hmem, rfl⟩ := List.mem_map.mp (Worklist.firsts_subset _ hy)
    obtain ⟨hoff, hmatch⟩ := List.mem_filter.mp hmem
    obtain ⟨x', hx', hst⟩ := List.mem_flatMap.mp hoff
    obtain ⟨st', hst', heq⟩ := List.mem_map.mp hst
    obtain ⟨rfl, rfl⟩ := Prod.mk.inj heq
    obtain ⟨hst', hcap⟩ := List.mem_filter.mp hst'
    exact ⟨x', hx', st', hst', (Bool.and_eq_true_iff.mp hcap).1, hmatch, rfl⟩

theorem checkEvent_opResource (ho : o.opResource = true)
    (h : checkEvent P o n k c ev = .ok c') : checkOpResource P o n k
      { c with frontier := silentExpand P o c.frontier } ev (.opRes ev.op ev.resource) =
        .ok c' := by
  have htarget : targetOf o ev = .opRes ev.op ev.resource := if_pos ho
  rw [checkEvent] at h
  simp only [htarget] at h
  split at h
  · cases h
  · split at h
    · cases h
    · exact h

/-- Every candidate is a run with exactly the matched events. -/
theorem Checked.matched_frontier (h : Checked P o done ms c) (ho : o.opResource = true) :
    ∀ x ∈ c.frontier, Matched P o ms x := by
  induction h with
  | start hi =>
      intro x hx
      obtain rfl := List.mem_singleton.mp hx
      exact ⟨[], .start hi, .nil⟩
  | @matched done ms c c' ev n k h hc hm ih =>
      rcases checkOpResource_cases (checkEvent_opResource ho hc) with ⟨-, hf⟩ | ⟨hne, -⟩
      · intro y hy
        obtain ⟨x, hx, st, hst, hcap, hmatch, rfl⟩ := hf y hy
        obtain ⟨es, hrun, hfol⟩ := Matched.silentExpand ih x hx
        obtain ⟨tid, htake, hemit, -, hread⟩ := modes_of_mem (o := o) hst
        exact ⟨_, hrun.step htake, hfol.event (hemit _ _ ▸ hcap) (hread _ ▸ hmatch)⟩
      · exact absurd hm hne
  | @excused done ms c c' ev n k h hc hm ih =>
      rcases checkOpResource_cases (checkEvent_opResource ho hc) with ⟨heq, -⟩ | ⟨-, hf⟩
      · exact absurd heq hm
      · exact fun y hy ↦ Matched.silentExpand ih y (hf y hy)

/-- A candidate has come to the end of its concurrency exactly if its state has handed
out thread ids and only finished threads are left besides the entry thread. -/
theorem Matched.afterLastJoin_iff (h : Matched P o ms x) : AfterLastJoin P o ms x ↔
    1 < x.1.alloc.nextThread ∧ ∀ y t, y ≠ 0 → x.1.threads[y]? = some t → t.status = .finished := by
  constructor
  · rintro ⟨es, hrun, -, hne, hover⟩
    have ha := accounted_of_run hrun
    refine ⟨ha.iff.mpr hne, fun y t hy ht ↦ ?_⟩
    have hin : y ∈ x.1.threads := Std.ExtTreeMap.mem_iff_isSome_getElem?.mpr (by rw [ht]; rfl)
    exact hover y ((ha.threads y hin).resolve_left hy) t ht
  · rintro ⟨hnext, hfin⟩
    obtain ⟨es, hrun, hf⟩ := h
    have ha := accounted_of_run hrun
    exact ⟨es, hrun, hf, ha.iff.mp hnext, fun y hy t ht ↦ hfin y t (ha.pos y hy).ne' ht⟩

end Rounds

section Solo

/-- One thread that takes a mutex and gives it back. -/
def solo : SemProgram where
  moduleNames := ["m"]
  functions :=
    [⟨0, "main", false, true, none, none, [],
      [⟨"s0", .mutexLock 0⟩, ⟨"s1", .mutexUnlock 0⟩], none⟩]
  resources := [⟨0, "lk", .mutex, none, 0, 0, none⟩]
  entry := 0
  unsupported := []
  entry_lt := by decide
  functions_ok := by decide
  resources_ok := by decide

end Solo

end ConcIR.Trace
