import ConcIR.Interp.Activation
import ConcIR.Trace.Runs

/-!
# A conformant trace is the trace of a run

Every candidate the checker carries is the end of a run that has emitted exactly the
events read so far, with the tags that run has given out.
-/

namespace ConcIR.Trace

open MachineState

variable [FloatArith] {P : SemProgram} {debug : Bool} {done : List TraceEvent}
  {x y : Candidate} {tag sid : String} {tid : ThreadId}

/-- The candidate is the end of a run whose events are those of `done`. -/
def Tracks (P : SemProgram) (done : List TraceEvent) (x : Candidate) : Prop :=
  ∃ es, (engine P).interpreter.Run es x.1 ∧ x.2 = Tags.bind (∅ : Tags) (births P es) ∧
    List.Forall₂ Explains done (observe P entryBirth es)

theorem tracks_start {σ : MachineState} (h : (engine P).initial = .ok σ) :
    Tracks P [] (σ, entryTags) :=
  ⟨[], .start h, rfl, .nil⟩

omit [FloatArith] in
@[simp] theorem capable_strict (σ : MachineState) (st : Step MachineState) :
    capable P (.strict debug) σ st = eventCapable P false false σ st := rfl

omit [FloatArith] in
theorem takenSilently_strict (σ : MachineState) (st : Step MachineState) :
    takenSilently P (.strict debug) σ st = !eventCapable P false false σ st := by
  rw [takenSilently, capable_strict]
  cases eventCapable P false false σ st <;> rfl

/-- A silent step extends the run by a transition that emits nothing. -/
theorem exists_silent (hy : y ∈ silentSteps P (.strict debug) x) : ∃ tid,
    (engine P).interpreter.Takes x.1 tid y.1 ∧ eventOf P ⟨x.1, tid, y.1⟩ = none ∧
      y.2 = x.2.bind (created P ⟨x.1, tid, y.1⟩) := by
  obtain ⟨st, hst, rfl⟩ := List.mem_map.mp hy
  obtain ⟨hst, hsil⟩ := List.mem_filter.mp hst
  obtain ⟨tid, hr⟩ := reads_of_mem hst
  refine ⟨tid, takes_iff.mpr ⟨st, hst, hr.thread, rfl⟩, ?_, ?_⟩
  · rw [takenSilently_strict, hr.capable, Bool.not_eq_true'] at hsil
    exact Option.isSome_eq_false_iff.mp hsil |> Option.isNone_iff_eq_none.mp
  · rw [follow, hr.tags]

omit [FloatArith] in
theorem observe_silent {es : List (Transition MachineState)} {e : Transition MachineState}
    (he : eventOf P e = none) :
    observe P entryBirth (es ++ [e]) = observe P entryBirth es := by
  rw [observe_concat, observation, he]
  exact List.append_nil _

/-- Silent steps keep the events and the tags. -/
theorem Tracks.silent (h : Tracks P done x) (hy : y ∈ silentSteps P (.strict debug) x) :
    Tracks P done y ∧ y.2 = x.2 := by
  obtain ⟨es, hrun, htags, hev⟩ := h
  obtain ⟨tid, hs, he, hy2⟩ := exists_silent hy
  have hw : Wf P x.1 := (wf_of_reachable (E := engine P) hrun.reachable).1
  have hnil : created P ⟨x.1, tid, y.1⟩ = [] := created_of_silent hw hs he
  refine ⟨⟨es ++ [⟨x.1, tid, y.1⟩], hrun.step hs, ?_, ?_⟩, ?_⟩
  · rw [births_concat, bind_append, ← htags, hy2]
  · rw [observe_silent he]
    exact hev
  · rw [hy2, hnil]
    rfl

theorem Tracks.closure {xs : List Candidate} (h : ∀ x ∈ xs, Tracks P done x) :
    ∀ y ∈ silentExpand P (.strict debug) xs, Tracks P done y := by
  rw [silentExpand, silentClosure]
  exact Worklist.forall_expand h fun _ hx _ hy ↦ (hx.silent hy).1

theorem Tracks.closure_tags (h : Tracks P done x) :
    ∀ y ∈ (silentClosure P (.strict debug) [x]).found, Tracks P done y ∧ y.2 = x.2 := by
  rw [silentClosure]
  refine Worklist.forall_expand ?_ ?_
  · intro y hy
    obtain rfl := List.mem_singleton.mp hy
    exact ⟨h, rfl⟩
  · rintro y ⟨hy, htags⟩ z hz
    obtain ⟨hz, hzt⟩ := hy.silent hz
    exact ⟨hz, hzt.trans htags⟩

/-- A step that emits an event of the acting thread extends the trace by that event. -/
theorem Tracks.hit {ev : TraceEvent} (h : Tracks P done x) (htag : x.2[ev.tag]? = some tid)
    {r : Candidate × FunctionId} (hr : r ∈ hits P (.strict debug) tid (.sid ev.sid) x) :
    Tracks P (done ++ [ev]) r.1 := by
  obtain ⟨es, hrun, htags, hev⟩ := h
  obtain ⟨st, hmem, rfl⟩ := List.mem_map.mp hr
  obtain ⟨hst, hcond⟩ := List.mem_filter.mp hmem
  rw [Bool.and_eq_true, Bool.and_eq_true, decide_eq_true_eq] at hcond
  obtain ⟨⟨hcap, hthread⟩, hmatch⟩ := hcond
  obtain ⟨tid', hreads⟩ := reads_of_mem hst
  obtain rfl : tid' = tid := Option.some.inj (hreads.thread.symm.trans hthread)
  rw [capable_strict, hreads.capable, Option.isSome_iff_exists] at hcap
  obtain ⟨sid, hsid⟩ := hcap
  have hsid' : sid = ev.sid := by
    have hat := (hreads.sid ev.sid).mp hmatch
    rw [eventOf] at hsid
    cases hs : statementOf P ⟨x.1, tid', st.state⟩ with
    | none => simp [hs] at hsid
    | some s =>
        rw [hs] at hsid hat
        simp only at hsid
        split_ifs at hsid
        exact (Option.some.inj hsid).symm.trans (Option.some.inj hat)
  refine ⟨es ++ [⟨x.1, tid', st.state⟩],
    hrun.step (takes_iff.mpr ⟨st, hst, hreads.thread, rfl⟩), ?_, ?_⟩
  · rw [births_concat, bind_append, ← htags, follow, hreads.tags]
  · rw [observe_concat, observation, hsid]
    refine List.rel_append hev (.cons ⟨?_, hsid'⟩ .nil)
    rw [← getElem?_entryTags_bind, ← htags]
    exact htag

theorem Tracks.advance {ev : TraceEvent} {out : List (Candidate × FunctionId)}
    (h : Tracks P done x) (htag : x.2[ev.tag]? = some tid)
    (hout : advance P (.strict debug) x tid (.sid ev.sid) = .ok out) :
    ∀ r ∈ out, Tracks P (done ++ [ev]) r.1 := by
  rw [Trace.advance] at hout
  split_ifs at hout
  obtain rfl := Except.ok.inj hout
  intro r hr
  obtain ⟨y, hy, hr⟩ := List.mem_flatMap.mp (Worklist.firsts_subset _ hr)
  obtain ⟨hty, htags⟩ := h.closure_tags y hy
  exact hty.hit (by rw [htags, htag]) hr

section Rounds

omit [FloatArith] in
theorem Checking.report_status (c : Checking) (n : ℕ) (status : String) (i : Option ℕ)
    (expected : List String) (got detail : Option String) :
    (c.report P n status i expected got detail).status = status := rfl

variable (n k : ℕ) (c : Checking) (ev : TraceEvent) {c' : Checking}

/-- A round of the strict mode complains about the event, or looks its tag up. -/
theorem checkEvent_strict :
    (∃ r, checkEvent P (.strict debug) n k c ev = .error r ∧ r.status ≠ "conformant") ∨
      checkEvent P (.strict debug) n k c ev = checkTagged P (.strict debug) n k
        { c with frontier := silentExpand P (.strict debug) c.frontier } ev (.sid ev.sid) := by
  have hop : ¬(Options.strict debug).opResource = true := Bool.false_ne_true
  have htarget : targetOf (.strict debug) ev = .sid ev.sid := if_neg hop
  rw [checkEvent]
  simp only [htarget, if_neg hop]
  split
  case _ =>
    refine .inl ⟨_, rfl, ?_⟩
    rw [Checking.report_status]
    decide
  case _ =>
    split
    case _ =>
      refine .inl ⟨_, rfl, ?_⟩
      rw [Checking.report_status]
      decide
    case _ => exact .inr rfl

/-- Looking the tag up complains, or goes on with what every candidate that knows the
tag makes of the event. -/
theorem checkTagged_cases (o : Options) (target : Target) :
    (∃ r, checkTagged P o n k c ev target = .error r ∧ r.status ≠ "conformant" ∧
      oks (attemptsOf P o c.frontier ev.tag target) = []) ∨
    oks (attemptsOf P o c.frontier ev.tag target) ≠ [] ∧
      ∃ c', checkTagged P o n k c ev target = .ok c' ∧ c'.frontier = Worklist.firsts
        Candidate.key ((oks (attemptsOf P o c.frontier ev.tag target)).map (·.1)) := by
  rw [checkTagged]
  generalize attemptsOf P o c.frontier ev.tag target = results
  split
  case _ hnone =>
    refine .inl ⟨_, rfl, ?_, ?_⟩
    · rw [Checking.report_status]
      decide
    · rw [List.isEmpty_iff.mp hnone]
      rfl
  case _ =>
    generalize oks results = next
    simp only
    split
    case _ hnone =>
      refine .inl ⟨_, rfl, ?_, List.isEmpty_iff.mp hnone⟩
      rw [Checking.report_status]
      decide
    case _ hsome => exact .inr ⟨mt List.isEmpty_iff.mpr hsome, _, rfl, rfl⟩

variable {n k c ev}

/-- The candidates after an event are runs that have emitted it. -/
theorem tracks_checkEvent (h : ∀ x ∈ c.frontier, Tracks P done x)
    (hc : checkEvent P (.strict debug) n k c ev = .ok c') :
    (∀ x ∈ c'.frontier, Tracks P (done ++ [ev]) x) ∧ c'.frontier ≠ [] := by
  rcases checkEvent_strict n k c ev with ⟨r, hr, -⟩ | hr
  · rw [hc] at hr
    cases hr
  · rcases checkTagged_cases n k _ ev (.strict debug) (.sid ev.sid) with ⟨r, hr', -⟩ | ⟨hne, c₁, hr', hf⟩
    · rw [hr', hc] at hr
      cases hr
    · rw [hr', hc] at hr
      obtain rfl := Except.ok.inj hr
      rw [hf]
      constructor
      · intro x hx
        obtain ⟨r, hr, rfl⟩ := List.mem_map.mp (Worklist.firsts_subset _ hx)
        obtain ⟨res, hres, hr⟩ := List.mem_flatMap.mp hr
        obtain ⟨y, hy, hya⟩ := List.mem_filterMap.mp hres
        obtain ⟨tid, htag, rfl⟩ := Option.map_eq_some_iff.mp hya
        split at hr
        case _ out hout => exact (Tracks.closure h y hy).advance htag hout r hr
        case _ => cases hr
      · obtain ⟨r, hr⟩ := List.exists_mem_of_ne_nil _ hne
        obtain ⟨y, hy, -⟩ : ∃ y ∈ Worklist.firsts Candidate.key _, y.key = r.1.key :=
          Worklist.exists_mem_firsts (List.mem_map_of_mem hr)
        exact List.ne_nil_of_mem hy

theorem checkEvent_status {r : Conformance}
    (hc : checkEvent P (.strict debug) n k c ev = .error r) : r.status ≠ "conformant" := by
  rcases checkEvent_strict n k c ev with ⟨r', hr, hst⟩ | hr
  · obtain rfl := Except.error.inj (hc.symm.trans hr)
    exact hst
  · rcases checkTagged_cases n k _ ev (.strict debug) (.sid ev.sid) with ⟨r', hr', hst, -⟩ | ⟨-, c₁, hr', -⟩
    · obtain rfl := Except.error.inj (hc.symm.trans (hr.trans hr'))
      exact hst
    · cases hc.symm.trans (hr.trans hr')

end Rounds

theorem checkFrom_status {n k : ℕ} {c : Checking} {rest : List TraceEvent} {r : Conformance}
    (hc : checkFrom P (.strict debug) n k c rest = .error r) : r.status ≠ "conformant" := by
  induction rest generalizing k c with
  | nil => cases hc
  | cons ev rest ih =>
      rw [checkFrom] at hc
      split at hc
      case _ r' hev =>
        obtain rfl := Except.error.inj hc
        exact checkEvent_status hev
      case _ => exact ih hc

theorem tracks_checkFrom {n k : ℕ} {c c' : Checking} {rest : List TraceEvent}
    (h : ∀ x ∈ c.frontier, Tracks P done x) (hne : c.frontier ≠ [])
    (hc : checkFrom P (.strict debug) n k c rest = .ok c') :
    (∀ x ∈ c'.frontier, Tracks P (done ++ rest) x) ∧ c'.frontier ≠ [] := by
  induction rest generalizing k c done with
  | nil =>
      obtain rfl := Except.ok.inj hc
      rw [List.append_nil]
      exact ⟨h, hne⟩
  | cons ev rest ih =>
      rw [checkFrom] at hc
      split at hc
      case _ => cases hc
      case _ c₁ hev =>
        obtain ⟨h₁, hne₁⟩ := tracks_checkEvent h hev
        rw [List.append_cons]
        exact ih h₁ hne₁ hc

/-- A trace reported conformant in strict mode is, event by event, the sequence of
observable events of a run of the interpreter, and each event's tag is the one its
thread was most recently started under. -/
theorem conformEvents_sound {trace : List TraceEvent}
    (h : (conformEvents P (.strict debug) trace).status = "conformant") :
    ∃ es σ, (engine P).interpreter.Run es σ ∧
      List.Forall₂ Explains trace (observe P entryBirth es) := by
  rw [conformEvents] at h
  split at h
  case _ => exact absurd h (by decide : "error" ≠ "conformant")
  case _ σ hσ =>
    split at h
    case _ r hr => exact absurd h (checkFrom_status hr)
    case _ c hc =>
      have hstart : ∀ x ∈ (Checking.start σ).frontier, Tracks P [] x := by
        intro x hx
        obtain rfl := List.mem_singleton.mp hx
        exact tracks_start hσ
      obtain ⟨htracks, hne⟩ := tracks_checkFrom hstart (List.cons_ne_nil _ _) hc
      obtain ⟨x, hx⟩ := List.exists_mem_of_ne_nil _ hne
      obtain ⟨es, hrun, -, hev⟩ := htracks x hx
      exact ⟨es, x.1, hrun, hev⟩

/-- A trace of the hand-over program, with the second event by the spawned thread. -/
def handoverTrace : List TraceEvent :=
  [⟨"t0", "s0", "spawn", "m::receiver"⟩, ⟨"ts0", "s0", "channel_recv", "m::c"⟩,
    ⟨"t0", "s1", "channel_send", "m::c"⟩, ⟨"t0", "s2", "join", ""⟩]

omit [FloatArith] in
theorem conformEvents_sound_handover : ∃ es σ,
    (@Engine.interpreter (engine handover) .unused).Run es σ ∧
      List.Forall₂ Explains handoverTrace (observe handover entryBirth es) :=
  @conformEvents_sound .unused handover false handoverTrace (by decide +kernel)

end ConcIR.Trace
