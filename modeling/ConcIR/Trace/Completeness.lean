import ConcIR.Petri.Places
import ConcIR.Trace.Soundness

/-!
# The trace of a run is found conformant

The checker keeps one candidate for every state key, and looks a tag up in what that
candidate last gave it out for. It follows a run as long as tags are not given out again
while a thread still uses them, and states that are merged can go on alike.
-/

namespace ConcIR.Trace

open MachineState

section Statement

variable (P : SemProgram)

/-- The events a run emits, each with the tag its thread was started under. -/
def Emitted (es : List (Transition MachineState)) (trace : List (String × String)) : Prop :=
  List.Forall₂ (fun ev ob ↦ (ev.1, ob.thread) ∈ ob.births ∧ ev.2 = ob.sid) trace
    (observe P entryBirth es)

/-- No tag is given to another thread before the last event of the thread that has it. -/
def OwnTags (es : List (Transition MachineState)) : Prop :=
  ∀ ob ∈ observe P entryBirth es, ∀ tag, (tag, ob.thread) ∈ ob.births →
    ob.births.latest tag = some ob.thread

variable [FloatArith]

/-- The run `es` can be continued, in at most `n` steps, with the events of `rest`. -/
def GoesOn (es : List (Transition MachineState)) (n : ℕ) (rest : List TraceEvent) : Prop :=
  ∃ es' σ', es'.length ≤ n ∧ (engine P).interpreter.Run (es ++ es') σ' ∧
    List.Forall₂ Explains rest (observe P (births P es) es')

/-- Two runs with the same events that end in states with one key can be continued alike. -/
def MergeSafe : Prop :=
  ∀ done es₁ σ₁ es₂ σ₂, (engine P).interpreter.Run es₁ σ₁ → (engine P).interpreter.Run es₂ σ₂ →
    List.Forall₂ Explains done (observe P entryBirth es₁) →
      List.Forall₂ Explains done (observe P entryBirth es₂) → σ₁.stateKey = σ₂.stateKey →
        ∀ n rest, GoesOn P es₁ n rest → GoesOn P es₂ n rest

/-- The searches for the events, from the `k`th of `m` on, stay below the limit on visited
states. -/
def WithinLimit (o : Options) (m : ℕ) : ℕ → Checking → List TraceEvent → Prop
  | _, _, [] => True
  | k, c, ev :: rest =>
      (∀ x ∈ silentExpand P o c.frontier, (silentClosure P o [x]).visited.length ≤ maxVisited) ∧
        match checkEvent P o m k c ev with
        | .ok c' => WithinLimit o m (k + 1) c' rest
        | .error _ => True

instance (o : Options) (m k : ℕ) (c : Checking) (trace : List TraceEvent) :
    Decidable (WithinLimit P o m k c trace) :=
  match trace with
  | [] => .isTrue trivial
  | ev :: rest =>
      have : Decidable (match checkEvent P o m k c ev with
          | .ok c' => WithinLimit P o m (k + 1) c' rest
          | .error _ => True) :=
        match checkEvent P o m k c ev with
        | .ok c' => instDecidableWithinLimit o m (k + 1) c' rest
        | .error _ => .isTrue trivial
      inferInstanceAs (Decidable (_ ∧ _))

end Statement

section Following

variable [FloatArith] {P : SemProgram} {debug : Bool} {done rest : List TraceEvent}
  {x y : Candidate} {ev : TraceEvent} {n : ℕ}

/-- The candidate is the end of a run with the events `done` that goes on with `rest`. -/
def CanFollow (P : SemProgram) (done : List TraceEvent) (x : Candidate) (n : ℕ)
    (rest : List TraceEvent) : Prop :=
  ∃ es, (engine P).interpreter.Run es x.1 ∧ x.2 = Tags.bind (∅ : Tags) (births P es) ∧
    List.Forall₂ Explains done (observe P entryBirth es) ∧ GoesOn P es n rest

theorem CanFollow.tracks (h : CanFollow P done x n rest) : Tracks P done x := by
  obtain ⟨es, hrun, htags, hev, -⟩ := h
  exact ⟨es, hrun, htags, hev⟩

theorem CanFollow.merge (hsafe : MergeSafe P) (h : CanFollow P done x n rest)
    (hy : Tracks P done y) (hkey : y.key = x.key) : CanFollow P done y n rest := by
  obtain ⟨es, hrun, -, hev, hgo⟩ := h
  obtain ⟨es', hrun', htags, hev'⟩ := hy
  exact ⟨es', hrun', htags, hev', hsafe done es x.1 es' y.1 hrun hrun' hev hev' hkey.symm n rest hgo⟩

omit [FloatArith] in
theorem run_unique {T : TransitionSystem MachineState} {es : List (Transition MachineState)}
    {σ τ : MachineState} (h : T.Run es σ) (h' : T.Run es τ) : σ = τ := by
  cases h with
  | start hi =>
      generalize hes : ([] : List (Transition MachineState)) = es' at h'
      cases h' with
      | start hi' => exact Except.ok.inj (hi.symm.trans hi')
      | step _ _ => exact absurd hes.symm (List.append_ne_nil_of_right_ne_nil _ (List.cons_ne_nil _ _))
  | step _ _ => exact h'.last.2.2

/-- The next step of a run that goes on with an event is silent or emits the event. -/
theorem CanFollow.next (debug : Bool) (h : CanFollow P done x n (ev :: rest)) :
    (∃ m < n, ∃ y ∈ silentSteps P (.strict debug) x, CanFollow P done y m (ev :: rest)) ∨
      ∃ tid, x.2[ev.tag]? = some tid ∧ ∃ r ∈ hits P (.strict debug) tid (.sid ev.sid) x,
        CanFollow P (done ++ [ev]) r.1 n rest := by
  obtain ⟨es, hrun, htags, hev, es', σ', hlen, hrun', hobs⟩ := h
  cases es' with
  | nil => cases hobs
  | cons e es' =>
      have happ : es ++ e :: es' = (es ++ [e]) ++ es' := List.append_cons es e es'
      have hstep : (engine P).interpreter.Run (es ++ [e]) e.after :=
        hrun'.take ⟨es', happ.symm⟩
      obtain ⟨hbefore, htake, -⟩ := hstep.last
      obtain ⟨σ, tid, τ⟩ := e
      obtain rfl : σ = x.1 := run_unique hbefore hrun
      obtain ⟨st, hst, hthread, rfl⟩ := takes_iff.mp htake
      obtain ⟨tid', hreads⟩ := reads_of_mem hst
      obtain rfl : tid' = tid := Option.some.inj (hreads.thread.symm.trans hthread)
      have htags' : (follow P x st).2 =
          Tags.bind (∅ : Tags) (births P (es ++ [⟨x.1, tid', st.state⟩])) := by
        rw [births_concat, bind_append, ← htags, follow, hreads.tags]
      rw [List.length_cons] at hlen
      rw [happ] at hrun'
      rw [observe, observation] at hobs
      rw [← births_concat] at hobs
      cases hsid : eventOf P ⟨x.1, tid', st.state⟩ with
      | none =>
          rw [hsid] at hobs
          refine .inl ⟨es'.length, hlen, follow P x st, ?_, _, hstep, htags', ?_, es', σ', le_rfl,
            hrun', hobs⟩
          · refine List.mem_map_of_mem (List.mem_filter.mpr ⟨hst, ?_⟩)
            rw [takenSilently_strict, hreads.capable, hsid]
            rfl
          · rw [observe_silent hsid]
            exact hev
      | some sid =>
          rw [hsid] at hobs
          cases hobs with
          | cons hexp hobs =>
              have htid : x.2[ev.tag]? = some tid' := by
                rw [htags, getElem?_entryTags_bind]
                exact hexp.thread
              have hmatch : matchesTarget P (.sid ev.sid) st = true := by
                refine (hreads.sid ev.sid).mpr ?_
                rw [eventOf] at hsid
                cases hs : statementOf P ⟨x.1, tid', st.state⟩ with
                | none => simp [hs] at hsid
                | some s =>
                    rw [hs] at hsid
                    simp only at hsid
                    split_ifs at hsid
                    exact congrArg some ((Option.some.inj hsid).trans hexp.sid)
              refine .inr ⟨tid', htid, (follow P x st, st.label.origin.function), ?_, _, hstep,
                htags', ?_, es', σ', by omega, hrun', hobs⟩
              · refine List.mem_map.mpr ⟨st, List.mem_filter.mpr ⟨hst, ?_⟩, rfl⟩
                rw [capable_strict, hreads.capable, hsid, hmatch, hthread]
                simp
              · rw [observe_concat, observation, hsid]
                exact List.rel_append hev (.cons hexp .nil)

/-- The tag of the next event is known. -/
theorem CanFollow.tag (h : CanFollow P done x n (ev :: rest)) : ∃ tid, x.2[ev.tag]? = some tid := by
  induction n using Nat.strong_induction_on generalizing x with
  | _ n ih =>
      rcases h.next false with ⟨m, hm, y, hy, hcan⟩ | ⟨tid, htid, -⟩
      · rw [← (h.tracks.silent hy).2]
        exact ih m hm hcan
      · exact ⟨tid, htid⟩

end Following

section Rounds

variable [FloatArith] {P : SemProgram} {debug : Bool} {done rest : List TraceEvent}
  {x : Candidate} {ev : TraceEvent} {n : ℕ} {tid : ThreadId}

/-- The search for the next event of a candidate that can follow it finds it, and a
candidate that follows the rest of the trace. -/
theorem exists_hit (hsafe : MergeSafe P) (htag : x.2[ev.tag]? = some tid)
    (h : CanFollow P done x n (ev :: rest))
    (hlim : (silentClosure P (.strict debug) [x]).visited.length ≤ maxVisited) :
    ∃ y ∈ (silentClosure P (.strict debug) [x]).found,
      ∃ r ∈ hits P (.strict debug) tid (.sid ev.sid) y, CanFollow P (done ++ [ev]) r.1 n rest := by
  obtain ⟨hstart, hclosed⟩ := Worklist.closed_expand hlim
  -- by induction on the steps that are left, among the candidates found
  have hfound : ∀ m ≤ n, ∀ y ∈ (silentClosure P (.strict debug) [x]).found,
      CanFollow P done y m (ev :: rest) → ∃ y ∈ (silentClosure P (.strict debug) [x]).found,
        ∃ r ∈ hits P (.strict debug) tid (.sid ev.sid) y,
          CanFollow P (done ++ [ev]) r.1 n rest := by
    intro m
    induction m using Nat.strong_induction_on with
    | _ m ih =>
        intro hm y hy hcan
        rcases hcan.next debug with ⟨k, hk, z, hz, hcan⟩ | ⟨tid', htid, r, hr, hcan⟩
        · obtain ⟨z', hz', hkey⟩ := hclosed y hy z hz
          have htrack := (Tracks.closure_tags h.tracks z' hz').1
          exact ih k hk (by omega) z' hz' (hcan.merge hsafe htrack hkey)
        · have htags := (Tracks.closure_tags h.tracks y hy).2
          obtain rfl : tid' = tid := by
            rw [htags, htag] at htid
            exact (Option.some.inj htid).symm
          obtain ⟨es, hrun, ht, hev, es', σ', hlen, hgo⟩ := hcan
          exact ⟨y, hy, r, hr, es, hrun, ht, hev, es', σ', hlen.trans hm, hgo⟩
  exact hfound n le_rfl x (hstart List.mem_cons_self) h

/-- A statement that is matched by a step that emits an event is known. -/
theorem known_of_hit {y : Candidate} {target : Target} {r : Candidate × FunctionId}
    (hr : r ∈ hits P (.strict debug) tid target y) : known P target = true := by
  obtain ⟨st, hmem, -⟩ := List.mem_map.mp hr
  obtain ⟨-, hcond⟩ := List.mem_filter.mp hmem
  rw [Bool.and_eq_true, Bool.and_eq_true] at hcond
  obtain ⟨⟨hcap, -⟩, hmatch⟩ := hcond
  rw [capable_strict, eventCapable] at hcap
  cases hop : opOf P st with
  | none => simp [hop] at hcap
  | some op =>
      have hobs : isObservable op = true := by
        by_contra hnot
        simp [hop, hnot] at hcap
      obtain ⟨idx, hidx, hat⟩ := Option.bind_eq_some_iff.mp hop
      rw [matchesTarget, hidx] at hmatch
      refine List.any_eq_true.mpr ⟨_, List.mem_range.mpr (SemProgram.lt_of_opAt hat), ?_⟩
      refine List.any_eq_true.mpr ⟨idx, List.mem_range.mpr (SemProgram.opAt_lt hat), ?_⟩
      rw [hat, Option.any_some, hobs, Bool.true_and]
      exact hmatch

theorem advance_ok (hsafe : MergeSafe P) (htag : x.2[ev.tag]? = some tid)
    (h : CanFollow P done x n (ev :: rest))
    (hlim : (silentClosure P (.strict debug) [x]).visited.length ≤ maxVisited) :
    ∃ out, advance P (.strict debug) x tid (.sid ev.sid) = .ok out ∧
      ∃ r ∈ out, CanFollow P (done ++ [ev]) r.1 n rest := by
  obtain ⟨y, hy, r, hr, hcan⟩ := exists_hit hsafe htag h hlim
  obtain ⟨r', hr', hkey⟩ : ∃ r' ∈ Worklist.firsts (fun h : Candidate × FunctionId ↦
      Candidate.key h.1) ((silentClosure P (.strict debug) [x]).found.flatMap
        (hits P (.strict debug) tid (.sid ev.sid))), Candidate.key r'.1 = Candidate.key r.1 :=
    Worklist.exists_mem_firsts (List.mem_flatMap.mpr ⟨y, hy, hr⟩)
  have hout : advance P (.strict debug) x tid (.sid ev.sid) = .ok (Worklist.firsts
      (fun h : Candidate × FunctionId ↦ Candidate.key h.1)
        ((silentClosure P (.strict debug) [x]).found.flatMap
          (hits P (.strict debug) tid (.sid ev.sid)))) := by
    rw [advance]
    exact if_neg (mt List.isEmpty_iff.mp (List.ne_nil_of_mem hr'))
  exact ⟨_, hout, r', hr', hcan.merge hsafe (h.tracks.advance htag hout r' hr') hkey⟩

/-- A round on the plain event that a candidate can follow goes on with a candidate that
follows the rest. -/
theorem checkEvent_ok {c : Checking} (hsafe : MergeSafe P) (hplain : ev.op = "") (m k : ℕ)
    (hc : ∀ x ∈ c.frontier, Tracks P done x) (hx : x ∈ c.frontier)
    (h : CanFollow P done x n (ev :: rest))
    (hlim : ∀ x ∈ silentExpand P (.strict debug) c.frontier,
      (silentClosure P (.strict debug) [x]).visited.length ≤ maxVisited) :
    ∃ c', checkEvent P (.strict debug) m k c ev = .ok c' ∧
      ∃ y ∈ c'.frontier, CanFollow P (done ++ [ev]) y n rest := by
  have hin : x ∈ silentExpand P (.strict debug) c.frontier := Worklist.subset_expand _ hx
  obtain ⟨tid, htag⟩ := h.tag
  obtain ⟨out, hout, r, hr, hcan⟩ := advance_ok hsafe htag h (hlim x hin)
  have hknown : known P (.sid ev.sid) = true := by
    obtain ⟨y, -, r, hr, -⟩ := exists_hit hsafe htag h (hlim x hin)
    exact known_of_hit hr
  have hround : checkEvent P (.strict debug) m k c ev = checkTagged P (.strict debug) m k
      { c with frontier := silentExpand P (.strict debug) c.frontier } ev (.sid ev.sid) := by
    have htarget : targetOf (.strict debug) ev = .sid ev.sid := if_neg Bool.false_ne_true
    have hop : (Options.strict debug).opResource = false := rfl
    rw [checkEvent]
    simp only [htarget, hknown, hplain, hop, ne_eq, not_true_eq_false, decide_false,
      Bool.and_false, Bool.false_and, Bool.not_true, Bool.false_eq_true, if_false]
  have hmem : r ∈ oks (attemptsOf P (.strict debug) (silentExpand P (.strict debug) c.frontier)
      ev.tag (.sid ev.sid)) := by
    refine List.mem_flatMap.mpr ⟨.ok out, List.mem_filterMap.mpr ⟨x, hin, ?_⟩, hr⟩
    rw [htag, Option.map_some, hout]
  rcases checkTagged_cases m k { c with frontier := silentExpand P (.strict debug) c.frontier } ev
      (.strict debug) (.sid ev.sid) with ⟨-, -, -, hnone⟩ | ⟨-, c', hc', hf⟩
  · rw [hnone] at hmem
    exact absurd hmem List.not_mem_nil
  · rw [← hround] at hc'
    obtain ⟨y, hy, hkey⟩ : ∃ y ∈ c'.frontier, y.key = r.1.key := by
      rw [hf]
      exact Worklist.exists_mem_firsts (List.mem_map_of_mem hmem)
    exact ⟨c', hc', y, hy, hcan.merge hsafe ((tracks_checkEvent hc hc').1 y hy) hkey⟩

theorem checkFrom_ok {c : Checking} (hsafe : MergeSafe P) (m k : ℕ)
    (hplain : ∀ ev ∈ rest, ev.op = "") (hc : ∀ x ∈ c.frontier, Tracks P done x)
    (hx : x ∈ c.frontier) (h : CanFollow P done x n rest)
    (hlim : WithinLimit P (.strict debug) m k c rest) :
    ∃ c', checkFrom P (.strict debug) m k c rest = .ok c' := by
  induction rest generalizing k c done x with
  | nil => exact ⟨c, rfl⟩
  | cons ev rest ih =>
      obtain ⟨c', hc', y, hy, hcan⟩ :=
        checkEvent_ok hsafe (hplain ev List.mem_cons_self) m k hc hx h hlim.1
      have hlim' : WithinLimit P (.strict debug) m (k + 1) c' rest := by
        have hround := hlim.2
        rw [hc'] at hround
        exact hround
      obtain ⟨c'', hc''⟩ := ih (k + 1) (fun e he ↦ hplain e (List.mem_cons_of_mem ev he))
        (tracks_checkEvent hc hc').1 hy hcan hlim'
      refine ⟨c'', ?_⟩
      rw [checkFrom, hc']
      exact hc''

end Rounds

section Claim

variable [FloatArith] {P : SemProgram} {es : List (Transition MachineState)} {σ : MachineState}
  {trace : List (String × String)}

omit [FloatArith] in
/-- With tags that are their threads' own, the events of the trace explain those of the
run. -/
theorem explains_of_emitted (h : Emitted P es trace) (hown : OwnTags P es) :
    List.Forall₂ Explains (plainTrace trace) (observe P entryBirth es) := by
  rw [Emitted] at h
  rw [OwnTags] at hown
  rw [plainTrace]
  generalize observe P entryBirth es = obs at h hown
  induction h with
  | nil => exact .nil
  | @cons ev ob trace obs hev _ ih =>
      refine .cons ⟨?_, hev.2.symm⟩ (ih fun ob' hob' ↦ hown ob' (List.mem_cons_of_mem ob hob'))
      exact hown ob List.mem_cons_self ev.1 hev.1

end Claim

section Relay

/-- A program in which two threads are started under one tag: the entry function and the
function it spawns both spawn at a statement `s1`. -/
def relay : SemProgram where
  moduleNames := ["m"]
  functions :=
    [⟨0, "main", false, true, none, none, [], [⟨"s1", .spawn 1 "h"⟩], none⟩,
      ⟨0, "f", false, true, none, none, [],
        [⟨"s1", .spawn 2 "h"⟩, ⟨"s2", .mutexLock 0⟩], none⟩,
      ⟨0, "g", false, true, none, none, [], [⟨"s1", .nop⟩], none⟩]
  resources := [⟨0, "gate", .mutex, none, 0, 0, none⟩]
  entry := 0
  unsupported := []
  entry_lt := by decide
  functions_ok := by decide
  resources_ok := by decide

def relayTrace : List (String × String) := [("t0", "s1"), ("ts1", "s1"), ("ts1", "s2")]

instance (P : SemProgram) (es : List (Transition MachineState)) (trace : List (String × String)) :
    Decidable (Emitted P es trace) :=
  inferInstanceAs (Decidable (List.Forall₂ _ trace (observe P entryBirth es)))

end Relay

section Taker

/-- One thread that takes a mutex. -/
def taker : SemProgram where
  moduleNames := ["m"]
  functions := [⟨0, "main", false, true, none, none, [], [⟨"s0", .mutexLock 0⟩], none⟩]
  resources := [⟨0, "slot", .mutex, none, 0, 0, none⟩]
  entry := 0
  unsupported := []
  entry_lt := by decide
  functions_ok := by decide
  resources_ok := by decide

def takerSystem : TransitionSystem MachineState := @Engine.interpreter (engine taker) .unused

/-- A run that goes on with the step of a number. -/
theorem trace_concat {T : TransitionSystem MachineState} {is : List ℕ} {i : ℕ} {x : ThreadId}
    {es : List (Transition MachineState)} {σ : MachineState} {en : Enabled MachineState}
    {st : Step MachineState} (h : T.trace is = some (es, σ)) (hen : T.successors σ = .ok en)
    (hst : en.steps[i]? = some st) (hx : st.label.thread = some x) :
    T.trace (is ++ [i]) = some (es ++ [⟨σ, x, st.state⟩], st.state) := by
  rw [TransitionSystem.trace] at h ⊢
  cases hi : T.initial with
  | error e => rw [hi] at h; cases h
  | ok s =>
      rw [hi] at h
      simp only at h ⊢
      rw [List.foldl_append, List.foldl_cons, List.foldl_nil, h]
      simp only [Option.bind_some, hen, hst, hx, Option.map_some]

/-- Its only run, of two steps. -/
theorem run_taker {es : List (Transition MachineState)} {σ : MachineState}
    (h : takerSystem.Run es σ) :
    ∃ k ∈ List.range 3, takerSystem.trace (List.replicate k 0) = some (es, σ) := by
  have hsteps : ∀ k ∈ List.range 3, (takerSystem.trace (List.replicate k 0)).all
      (fun r ↦ decide ((@stepsOf .unused taker r.2).length + k ≤ 2) &&
        decide ((@stepsOf .unused taker r.2).length ≤ 1)) = true := by decide +kernel
  induction h with
  | start hi =>
      refine ⟨0, List.mem_range.mpr (by omega), ?_⟩
      rw [List.replicate_zero, TransitionSystem.trace, hi]
      rfl
  | @step es σ τ x _ htake ih =>
      obtain ⟨k, hk, htr⟩ := ih
      obtain ⟨en, hen, st, hst, hx, rfl⟩ := htake
      have hcount := hsteps k hk
      rw [htr, Option.all_some, Bool.and_eq_true, decide_eq_true_eq, decide_eq_true_eq] at hcount
      have hsteps' : @stepsOf .unused taker σ = en.steps := by
        have hen' : (@Engine.successors .unused (engine taker) σ) = .ok en := hen
        unfold stepsOf
        rw [hen']
      rw [hsteps'] at hcount
      have hpos : 0 < en.steps.length := List.length_pos_of_mem hst
      have hget : en.steps[0]? = some st := by
        obtain ⟨i, hi⟩ := List.getElem?_of_mem hst
        have hlt := (List.getElem?_eq_some_iff.mp hi).1
        obtain rfl : i = 0 := by omega
        exact hi
      refine ⟨k + 1, List.mem_range.mpr (by omega), ?_⟩
      rw [List.replicate_succ']
      exact trace_concat htr hen hget hx

/-- Its three states have different keys. -/
theorem mergeSafe_taker : @MergeSafe taker .unused := by
  have hkeys : ∀ k ∈ List.range 3, ∀ n ∈ List.range 3,
      (takerSystem.trace (List.replicate k 0)).all (fun r ↦
        (takerSystem.trace (List.replicate n 0)).all fun q ↦
          decide (r.2.stateKey = q.2.stateKey → k = n)) = true := by decide +kernel
  intro done es₁ σ₁ es₂ σ₂ h₁ h₂ _ _ hkey n rest hgo
  obtain ⟨k₁, hk₁, htr₁⟩ := run_taker h₁
  obtain ⟨k₂, hk₂, htr₂⟩ := run_taker h₂
  have hkk := hkeys k₁ hk₁ k₂ hk₂
  rw [htr₁, htr₂, Option.all_some, Option.all_some, decide_eq_true_eq] at hkk
  obtain rfl := hkk hkey
  obtain ⟨rfl, -⟩ := Prod.mk.inj (Option.some.inj (htr₁.symm.trans htr₂))
  exact hgo

end Taker

end ConcIR.Trace
