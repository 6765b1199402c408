import ConcIR.Interp.Activation

/-!
# Channel histories

The sends that were tried on a channel in a run, with the values they had then, and the
sends and receives that were completed, in order.
-/

namespace ConcIR

open MachineState

variable {E : Engine} {P : SemProgram} {σ σ' : MachineState} {x y : ThreadId} {c : ResourceId}

/-- The value a thread last tried to send. -/
def lastAttempt (attempts : List (ThreadId × Value)) (y : ThreadId) : Option Value :=
  (attempts.reverse.find? (·.1 = y)).map (·.2)

structure ChannelLog where
  attempts : List (ThreadId × Value)
  sent : List (ThreadId × Option Value)
  received : List (ThreadId × Option Value)

namespace Engine

variable [FloatArith] (E)

/-- What a completed receive obtained: what its destination holds afterwards, or the
head of the queue if the value is discarded. -/
def obtained (c : ResourceId) (e : Transition MachineState) (y : ThreadId) : Option Value :=
  match E.receiving c e.before y with
  | none => none
  | some .discard => (e.before.buffer c).head?
  | some dst => (e.before.currentFrameId y).bind (e.after.read · dst)

/-- A send counts as tried when its thread executes it for the first time; a completed
send carries the value it was tried with. -/
def record (c : ResourceId) (log : ChannelLog) (e : Transition MachineState) : ChannelLog :=
  let attempts := log.attempts ++ ((E.attempt c e.before e.thread).map (e.thread, ·)).toList
  { attempts
    sent := log.sent ++
      (E.sendersDone c e.before e.after).map fun y ↦ (y, lastAttempt attempts y)
    received := log.received ++
      (E.receiversDone c e.before e.after).map fun y ↦ (y, E.obtained c e y) }

def channelLog (c : ResourceId) (es : List (Transition MachineState)) : ChannelLog :=
  es.foldl (E.record c) ⟨[], [], []⟩

theorem channelLog_concat (c : ResourceId) (es : List (Transition MachineState))
    (e : Transition MachineState) :
    E.channelLog c (es ++ [e]) = E.record c (E.channelLog c es) e := by
  rw [channelLog, List.foldl_append]
  rfl

end Engine

section Attempts

theorem lastAttempt_concat (as : List (ThreadId × Value)) (x y : ThreadId) (v : Value) :
    lastAttempt (as ++ [(x, v)]) y = if x = y then some v else lastAttempt as y := by
  rw [lastAttempt, List.reverse_append]
  by_cases h : x = y <;> simp [h, lastAttempt]

theorem perm_cons_filter {l : List PendingSend} {p : PendingSend}
    (hl : (l.map (·.thread)).Nodup) (hp : p ∈ l) :
    l.Perm (p :: l.filter (·.thread ≠ p.thread)) := by
  induction l with
  | nil => cases hp
  | cons q l ih =>
      rw [List.map_cons, List.nodup_cons] at hl
      rcases List.mem_cons.mp hp with rfl | hp
      · rw [List.filter_cons_of_neg (by simp), List.filter_eq_self.mpr]
        intro r hr
        have hne : r.thread ≠ p.thread := fun he ↦ hl.1 (he ▸ List.mem_map_of_mem hr)
        simpa using hne
      · have hne : q.thread ≠ p.thread := fun he ↦ hl.1 (he ▸ List.mem_map_of_mem hp)
        rw [List.filter_cons_of_pos (by simpa using hne)]
        exact ((ih hl.2 hp).cons q).trans (List.Perm.swap p q _)

end Attempts

section Histories

variable [FloatArith]

/-- The record of a run fits the state it ends in. -/
structure Recorded (E : Engine) (c : ResourceId) (log : ChannelLog) (σ : MachineState) :
    Prop where
  /-- A waiting send carries the value it was first tried with. -/
  pending : ∀ p ∈ σ.sends c, lastAttempt log.attempts p.thread = some p.value
  /-- A send that was tried has been completed once or waits. -/
  attempts : (log.attempts.map fun a ↦ (a.1, some a.2)).Perm
    (log.sent ++ (σ.sends c).map fun p ↦ (p.thread, some p.value))
  order : (E.program.resource c).capacity ≠ 0 →
    log.received.map (·.2) ++ (σ.buffer c).map some = log.sent.map (·.2)

omit [FloatArith] in
/-- A thread that tries a send has none waiting. -/
theorem Wf.not_pending (hw : Wf P σ) (hx : σ.status x = some .runnable) {p : PendingSend}
    (hp : p ∈ σ.sends c) : x ≠ p.thread := fun he ↦ by
  have hb := hw.mem_sends c hp
  rw [← he, hx] at hb
  cases hb

theorem attempt_runnable {v : Value} (h : E.attempt c σ x = some v) :
    σ.status x = some .runnable := by
  rw [Engine.attempt] at h
  split_ifs at h with hx
  exact hx

variable {log : ChannelLog}

/-- A first try changes what is known of no other thread. -/
theorem Recorded.pending_concat (hr : Recorded E c log σ) (hw : Wf E.program σ) {v : Value}
    (hat : E.attempt c σ x = some v) {p : PendingSend} (hp : p ∈ σ.sends c) :
    lastAttempt (log.attempts ++ [(x, v)]) p.thread = some p.value := by
  rw [lastAttempt_concat, if_neg (hw.not_pending (attempt_runnable hat) hp), hr.pending p hp]

omit [FloatArith] in
theorem Recorded.attempts_concat (hr : Recorded E c log σ) (x : ThreadId) (v : Value) :
    ((log.attempts ++ [(x, v)]).map fun a ↦ (a.1, some a.2)).Perm
      (log.sent ++ [(x, some v)] ++ (σ.sends c).map fun p ↦ (p.thread, some p.value)) := by
  rw [List.map_append, List.append_assoc]
  refine (hr.attempts.append_right _).trans ?_
  rw [List.append_assoc]
  exact List.perm_append_comm.append_left _

omit [FloatArith] in
theorem Recorded.attempts_done (hr : Recorded E c log σ) (hw : Wf E.program σ) {v : Value}
    (hp : ⟨y, v⟩ ∈ σ.sends c) : (log.attempts.map fun a ↦ (a.1, some a.2)).Perm
      (log.sent ++ [(y, some v)] ++
        ((σ.sends c).filter (·.thread ≠ y)).map fun p ↦ (p.thread, some p.value)) := by
  refine hr.attempts.trans ?_
  rw [List.append_assoc]
  exact ((perm_cons_filter (hw.regs.sends_nodup c) hp).map _).append_left _

theorem Recorded.step (hr : Recorded E c log σ) (hw : Wf E.program σ)
    (h : ChannelStep E c σ x σ') : Recorded E c (E.record c log ⟨σ, x, σ'⟩) σ' := by
  cases h with
  | idle hsends hbuffer hat hs hr' =>
      have hrec : E.record c log ⟨σ, x, σ'⟩ = log := by simp [Engine.record, hat, hs, hr']
      rw [hrec]
      refine ⟨?_, ?_, ?_⟩
      · rw [hsends]
        exact hr.pending
      · rw [hsends]
        exact hr.attempts
      · rw [hbuffer]
        exact hr.order
  | @suspend v hsends hbuffer hat hs hr' =>
      have hrec : E.record c log ⟨σ, x, σ'⟩ =
          ⟨log.attempts ++ [(x, v)], log.sent, log.received⟩ := by
        simp [Engine.record, hat, hs, hr']
      rw [hrec]
      refine ⟨?_, ?_, ?_⟩
      · intro p hp
        rw [hsends] at hp
        rcases List.mem_append.mp hp with hp | hp
        · exact hr.pending_concat hw hat hp
        · obtain rfl := List.mem_singleton.mp hp
          rw [lastAttempt_concat, if_pos rfl]
      · rw [hsends, List.map_append, List.map_append, ← List.append_assoc]
        exact hr.attempts.append_right _
      · rw [hbuffer]
        exact hr.order
  | @enqueue v hcap hsends hbuffer hat hs hr' =>
      have hrec : E.record c log ⟨σ, x, σ'⟩ =
          ⟨log.attempts ++ [(x, v)], log.sent ++ [(x, some v)], log.received⟩ := by
        simp [Engine.record, hat, hs, hr', lastAttempt_concat]
      rw [hrec]
      refine ⟨?_, ?_, fun _ ↦ ?_⟩
      · rw [hsends]
        exact fun p ↦ hr.pending_concat hw hat
      · rw [hsends]
        exact hr.attempts_concat x v
      · rw [hbuffer, List.map_append, List.map_append, ← List.append_assoc, hr.order hcap]
        rfl
  | @resume v hcap hp hsends hbuffer hat hs hr' =>
      have hlast := hr.pending ⟨x, v⟩ hp
      have hrec : E.record c log ⟨σ, x, σ'⟩ =
          ⟨log.attempts, log.sent ++ [(x, some v)], log.received⟩ := by
        simp [Engine.record, hat, hs, hr', hlast]
      rw [hrec]
      refine ⟨?_, ?_, fun _ ↦ ?_⟩
      · rw [hsends]
        exact fun p hp ↦ hr.pending p (List.mem_filter.mp hp).1
      · rw [hsends]
        exact hr.attempts_done hw hp
      · rw [hbuffer, List.map_append, List.map_append, ← List.append_assoc, hr.order hcap]
        rfl
  | @dequeue v dst hcap hsends hbuffer hdst hread hat hs hr' =>
      have hobt : E.obtained c ⟨σ, x, σ'⟩ x = some v := by
        simp only [Engine.obtained, hdst]
        cases dst with
        | discard => rw [hbuffer, List.head?_cons]
        | _ => exact hread (by simp)
      have hrec : E.record c log ⟨σ, x, σ'⟩ =
          ⟨log.attempts, log.sent, log.received ++ [(x, some v)]⟩ := by
        simp [Engine.record, hat, hs, hr', hobt]
      rw [hrec]
      refine ⟨?_, ?_, fun _ ↦ ?_⟩
      · rw [hsends]
        exact hr.pending
      · rw [hsends]
        exact hr.attempts
      · rw [← hr.order hcap, hbuffer, List.map_append, List.append_assoc]
        rfl
  | @give v y dst hcap hsends hbuffer hxy hdst hread hat hs hr' =>
      have hrec : E.record c log ⟨σ, x, σ'⟩ = ⟨log.attempts ++ [(x, v)],
          log.sent ++ [(x, some v)], log.received ++ [(y, E.obtained c ⟨σ, x, σ'⟩ y)]⟩ := by
        simp [Engine.record, hat, hs, hr', lastAttempt_concat]
      rw [hrec]
      refine ⟨?_, ?_, fun hne ↦ absurd hcap hne⟩
      · rw [hsends]
        exact fun p ↦ hr.pending_concat hw hat
      · rw [hsends]
        exact hr.attempts_concat x v
  | @take v y dst hcap hp hsends hbuffer hxy hdst hread hat hs hr' =>
      have hlast := hr.pending ⟨y, v⟩ hp
      have hrec : E.record c log ⟨σ, x, σ'⟩ = ⟨log.attempts, log.sent ++ [(y, some v)],
          log.received ++ [(x, E.obtained c ⟨σ, x, σ'⟩ x)]⟩ := by
        simp [Engine.record, hat, hs, hr', hlast]
      rw [hrec]
      refine ⟨?_, ?_, fun hne ↦ absurd hcap hne⟩
      · rw [hsends]
        exact fun p hp ↦ hr.pending p (List.mem_filter.mp hp).1
      · rw [hsends]
        exact hr.attempts_done hw hp

theorem recorded_of_run {es : List (Transition MachineState)}
    (h : E.interpreter.Run es σ) (c : ResourceId) : Recorded E c (E.channelLog c es) σ := by
  induction h with
  | start hs =>
      obtain ⟨hsends, -, hbuffer, -⟩ := queues_initial hs
      exact ⟨by simp [hsends], by simp [hsends, Engine.channelLog],
        by simp [hbuffer, Engine.channelLog]⟩
  | @step es s t x hrun hs ih =>
      obtain ⟨hw, hl⟩ := wf_of_reachable hrun.reachable
      rw [E.channelLog_concat]
      exact ih.step hw ((fires_of_takes hw hs).channelStep hw hl)

/-- A buffered channel is a queue without loss or duplication. -/
structure BufferedFifo (E : Engine) (c : ResourceId) (log : ChannelLog) (σ : MachineState) :
    Prop where
  /-- What was received and what is queued is what completed sends were tried with. -/
  order : log.received.map (·.2) ++ (σ.buffer c).map some = log.sent.map (·.2)
  /-- Every send that was tried has been completed once, with the value of its first try,
  or waits with that value. -/
  attempts : (log.attempts.map fun a ↦ (a.1, some a.2)).Perm
    (log.sent ++ (σ.sends c).map fun p ↦ (p.thread, some p.value))
  pending : ∀ p ∈ σ.sends c, lastAttempt log.attempts p.thread = some p.value
  capacity : (σ.buffer c).length ≤ (E.program.resource c).capacity

theorem bufferedFifo_of_run {es : List (Transition MachineState)}
    (h : E.interpreter.Run es σ) (hc : 1 ≤ (E.program.resource c).capacity) :
    BufferedFifo E c (E.channelLog c es) σ := by
  have hr := recorded_of_run h c
  exact ⟨hr.order (Nat.ne_of_gt hc), hr.attempts, hr.pending,
    (wf_of_reachable h.reachable).1.stores.capacity c⟩

omit [FloatArith] in
/-- The producer has queued one value and waits with the other. -/
theorem bufferedFifo_of_run_pipeline : ∃ es σ, pipelineSystem.trace [0, 1, 1, 0, 1] =
    some (es, σ) ∧ BufferedFifo pipelineEngine 0
      (@Engine.channelLog pipelineEngine .unused 0 es) σ := by
  have hrun : (pipelineSystem.trace [0, 1, 1, 0, 1]).isSome = true := by decide
  obtain ⟨⟨es, σ⟩, htr⟩ := Option.isSome_iff_exists.mp hrun
  exact ⟨es, σ, htr, @bufferedFifo_of_run pipelineEngine σ 0 .unused es
    (TransitionSystem.run_of_trace htr) (by decide)⟩

/-- What the sends and receives completed in a step have to do with each other. -/
inductive Paired (E : Engine) (c : ResourceId) (attempts : List (ThreadId × Value))
    (e : Transition MachineState) : Prop
  | nobody (hs : E.sendersDone c e.before e.after = [])
      (hr : E.receiversDone c e.before e.after = [])
  /-- One sender and one receiver go past their statements, and the receiver stores the
  value that the send was first tried with. -/
  | pair {y z : ThreadId} {v : Value} {dst : SlotRef} (hyz : y ≠ z)
      (hs : E.sendersDone c e.before e.after = [y])
      (hr : E.receiversDone c e.before e.after = [z])
      (hv : lastAttempt attempts y = some v) (hdst : E.receiving c e.before z = some dst)
      (hread : dst ≠ .discard →
        (e.before.currentFrameId z).bind (e.after.read · dst) = some v)

structure Rendezvous (E : Engine) (c : ResourceId) (es : List (Transition MachineState))
    (σ : MachineState) : Prop where
  buffer : σ.buffer c = []
  waiting : σ.sends c = [] ∨ σ.recvs c = []
  paired : ∀ es₁ e, es₁ ++ [e] <+: es → Paired E c (E.channelLog c (es₁ ++ [e])).attempts e

theorem Recorded.paired (hr : Recorded E c log σ) (hc : (E.program.resource c).capacity = 0)
    (h : ChannelStep E c σ x σ') :
    Paired E c (E.record c log ⟨σ, x, σ'⟩).attempts ⟨σ, x, σ'⟩ := by
  cases h with
  | idle _ _ _ hs hr' => exact .nobody hs hr'
  | suspend _ _ _ hs hr' => exact .nobody hs hr'
  | enqueue hcap | resume hcap | dequeue hcap => exact absurd hc hcap
  | @give v y dst _ _ _ hxy hdst hread hat hs hr' =>
      refine .pair hxy.symm hs hr' ?_ hdst hread
      simp only [Engine.record, hat, Option.map_some, Option.toList_some]
      rw [lastAttempt_concat, if_pos rfl]
  | @take v y dst _ hp _ _ hxy hdst hread hat hs hr' =>
      refine .pair hxy hs hr' ?_ hdst hread
      simp only [Engine.record, hat, Option.map_none, Option.toList_none, List.append_nil]
      exact hr.pending ⟨y, v⟩ hp

theorem rendezvous_of_run {es : List (Transition MachineState)}
    (h : E.interpreter.Run es σ) (hc : (E.program.resource c).capacity = 0) :
    Rendezvous E c es σ := by
  obtain ⟨hw, -⟩ := wf_of_reachable h.reachable
  refine ⟨?_, hw.stores.rendezvous c hc, fun es₁ e hp ↦ ?_⟩
  · have hcap := hw.stores.capacity c
    rw [hc] at hcap
    exact List.eq_nil_of_length_eq_zero (Nat.le_zero.mp hcap)
  · obtain ⟨hrun, htake, -⟩ := (h.take hp).last
    obtain ⟨hw₁, hl₁⟩ := wf_of_reachable hrun.reachable
    rw [E.channelLog_concat]
    exact (recorded_of_run hrun c).paired hc ((fires_of_takes hw₁ htake).channelStep hw₁ hl₁)

omit [FloatArith] in
theorem rendezvous_of_run_handover : ∃ es σ, handoverSystem.trace [0, 1, 0] = some (es, σ) ∧
    @Rendezvous .unused handoverEngine 0 es σ := by
  have hrun : (handoverSystem.trace [0, 1, 0]).isSome = true := by decide
  obtain ⟨⟨es, σ⟩, htr⟩ := Option.isSome_iff_exists.mp hrun
  exact ⟨es, σ, htr, @rendezvous_of_run handoverEngine σ 0 .unused es
    (TransitionSystem.run_of_trace htr) (by decide)⟩

end Histories

end ConcIR
