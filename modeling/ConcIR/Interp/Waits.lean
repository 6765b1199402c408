import ConcIR.Interp.Steps

/-!
# Wait registration

A blocked thread is entered once in the table of its block reason and nowhere else;
every other thread is in no table. The statement a blocked thread stands at is one
that blocks for its reason.
-/

namespace ConcIR

open MachineState

variable {E : Engine} {P : SemProgram} {σ : MachineState} {x : ThreadId}

/-- How often a thread is entered in the table that belongs to a block reason. -/
def MachineState.entries (σ : MachineState) (x : ThreadId) : BlockReason → ℕ
  | .channelSend c => (σ.sends c).countP (·.thread = x)
  | .channelRecv c => (σ.recvs c).count x
  | .condvar cv lk => (σ.waiters cv).count (x, lk)
  | .semaphore r => (σ.semQueue r).countP (·.1 = x)
  | .scope s => if (σ.scopes[s]?.map (·.owner)) = some x then 1 else 0
  | .lock _ | .join _ => 0

/-- The statement is one that blocks for the reason, in an activation. -/
def SemOp.blocksFor (fr : Frame) : SemOp → BlockReason → Prop
  | .mutexLock r, reason => reason = .lock r
  | .condvarWait cv lk, reason => reason = .condvar cv lk ∨ reason = .lock lk
  | .channelSend c _, reason => reason = .channelSend c
  | .channelRecv c _, reason => reason = .channelRecv c
  | .semaphoreAcquire r _, reason => reason = .semaphore r
  | .scope _, reason => ∃ s, reason = .scope s
  | .join name, reason => ∃ h, fr.HasHandle name h ∧ reason = .join h
  | _, _ => False

structure WaitsRegistered (P : SemProgram) (σ : MachineState) : Prop where
  /-- One entry for the reason of a blocked thread, and no other entry at all. -/
  entries : ∀ x r, σ.entries x r =
    if r.tabled = true ∧ σ.status x = some (.blocked r) then 1 else 0
  /-- The scope a thread waits for is its own, and members of it remain. -/
  scope : ∀ x s, σ.status x = some (.blocked (.scope s)) →
    ∃ sc, σ.HasScope s sc ∧ sc.owner = x ∧ sc.remaining ≠ ∅
  /-- The handle a thread waits for leads to a child that has not finished. -/
  join : ∀ x t h, σ.HasThread x t → t.status = .blocked (.join h) →
    ∃ c u, t.HasChild h c ∧ σ.HasThread c u ∧ u.status ≠ .finished
  statement : ∀ x t r, σ.HasThread x t → t.status = .blocked r →
    ∃ f fr op, t.stack.head? = some f ∧ σ.HasFrame f fr ∧
      P.opAt fr.function fr.pc = some op ∧ op.blocksFor fr r
  finished : ∀ x t, σ.HasThread x t → (t.status = .finished ↔ t.stack = [])
  finished_set : ∀ x, x ∈ σ.finished ↔ σ.status x = some .finished

section Counting

variable {α : Type} {l : List α}

theorem countP_key_eq_ite {β : Type} [DecidableEq β] (key : α → β) (hl : (l.map key).Nodup)
    (b : β) : l.countP (fun a ↦ key a = b) = if ∃ a ∈ l, key a = b then 1 else 0 := by
  have hmap : l.countP (fun a ↦ key a = b) = (l.map key).count b := by
    rw [List.count, List.countP_map]
    exact List.countP_congr fun a _ ↦ by simp
  simp only [hmap, hl.count, List.mem_map]

end Counting

section Registered

/-- Entries count registrations. -/
theorem Regs.entries_eq (h : Regs σ) (x : ThreadId) (r : BlockReason) :
    σ.entries x r = 1 ∧ σ.registered x r ∨ σ.entries x r = 0 ∧ ¬σ.registered x r := by
  cases r with
  | channelSend c =>
      simp only [entries, registered, countP_key_eq_ite _ (h.sends_nodup c)]
      split_ifs with hx <;> simp [hx]
  | channelRecv c =>
      simp only [entries, registered, (h.recvs_nodup c).count]
      split_ifs with hx <;> simp [hx]
  | condvar cv lk =>
      simp only [entries, registered, (h.waiters_nodup cv).count]
      split_ifs with hx <;> simp [hx]
  | semaphore r =>
      have hiff : (∃ n, (x, n) ∈ σ.semQueue r) ↔ ∃ w ∈ σ.semQueue r, w.1 = x := by
        constructor
        · rintro ⟨n, hn⟩
          exact ⟨_, hn, rfl⟩
        · rintro ⟨⟨y, n⟩, hn, rfl⟩
          exact ⟨n, hn⟩
      simp only [entries, registered, hiff, countP_key_eq_ite _ (h.queue_nodup r)]
      split_ifs with hx <;> simp [hx]
  | scope s =>
      simp only [entries, registered, Option.map_eq_some_iff]
      split_ifs with hx <;> simp [hx]
  | lock r => simp [entries, registered]
  | join k => simp [entries, registered]

theorem Regs.entries (h : Regs σ) (x : ThreadId) (r : BlockReason) : σ.entries x r =
    if r.tabled = true ∧ σ.status x = some (.blocked r) then 1 else 0 := by
  cases ht : r.tabled with
  | true =>
      have hiff := h.iff x r ht
      rcases h.entries_eq x r with ⟨hn, hr⟩ | ⟨hn, hr⟩
      · rw [hn, if_pos ⟨rfl, hiff.mp hr⟩]
      · rw [hn, if_neg fun hs ↦ hr (hiff.mpr hs.2)]
  | false =>
      rw [if_neg fun hs ↦ Bool.false_ne_true hs.1]
      cases r <;> first | rfl | cases ht

theorem Waits.blocksFor {fr : Frame} {r : BlockReason} {op : SemOp} (h : Waits σ x fr r op) :
    op.blocksFor fr r := by
  cases r with
  | lock r =>
      rcases h with rfl | ⟨cv, rfl⟩
      · rfl
      · exact .inr rfl
  | channelSend c =>
      obtain ⟨e, rfl⟩ := h
      rfl
  | channelRecv c =>
      obtain ⟨dst, rfl⟩ := h
      rfl
  | condvar cv lk =>
      obtain rfl := h
      exact .inl rfl
  | semaphore r =>
      obtain ⟨n, rfl, -⟩ := h
      rfl
  | join k =>
      obtain ⟨name, rfl, hname⟩ := h
      exact ⟨k, hname, rfl⟩
  | scope s =>
      obtain ⟨funcs, rfl⟩ := h
      exact ⟨s, rfl⟩

theorem Wf.waitsRegistered (hw : Wf P σ) (hl : Live σ) : WaitsRegistered P σ where
  entries := hw.regs.entries
  scope x s hx := by
    obtain ⟨sc, hsc, ho⟩ := (hw.regs.iff x (.scope s) rfl).mpr hx
    exact ⟨sc, hsc, ho, hl.scope s sc hsc⟩
  join x t h ht hb := by
    obtain ⟨f, fr, op, hhead, hfr, -, name, -, hname⟩ := hw.code.blocked x t _ ht hb
    obtain ⟨c, hc⟩ := hw.handles.bound x t f fr name h ht (List.mem_of_mem_head? hhead) hfr hname
    obtain ⟨-, u, hu, -⟩ := hw.handles.child x t h c ht hc
    have hfin := hl.join x t h c ht hb hc
    rw [MachineState.status, show σ.threads[c]? = some u from hu] at hfin
    exact ⟨c, u, hc, hu, fun hs ↦ hfin (congrArg some hs)⟩
  statement x t r ht hb := by
    obtain ⟨f, fr, op, hhead, hfr, hop, hwaits⟩ := hw.code.blocked x t r ht hb
    exact ⟨f, fr, op, hhead, hfr, hop, hwaits.blocksFor⟩
  finished := hw.stack.finished_stack
  finished_set := hw.stack.finished_set

end Registered

section Reachable

variable [FloatArith]

/-- Wait registrations are exact in every reachable state of the interpreter. -/
theorem waitsRegistered_of_reachable (h : E.interpreter.Reachable σ) :
    WaitsRegistered E.program σ := by
  obtain ⟨hw, hl⟩ := wf_of_reachable h
  exact hw.waitsRegistered hl

end Reachable

section Pipeline

/-- Two values pass through a channel with room for one. -/
def pipeline : SemProgram where
  moduleNames := ["m"]
  functions :=
    [⟨0, "main", false, true, none, none, [], [⟨"s0", .spawn 1 "p"⟩, ⟨"s1", .channelRecv 0 .discard⟩,
      ⟨"s2", .channelRecv 0 .discard⟩, ⟨"s3", .join "p"⟩], none⟩,
    ⟨0, "producer", false, true, none, none, [], [⟨"s0", .channelSend 0 (.lit (.int 1))⟩,
      ⟨"s1", .channelSend 0 (.lit (.int 2))⟩], none⟩]
  resources := [⟨0, "c", .channel, some (.primitive "Int"), 1, 0, none⟩]
  entry := 0
  unsupported := []
  entry_lt := by decide
  functions_ok := by decide
  resources_ok := by decide

def pipelineEngine : Engine := ⟨pipeline, ⟨4, 4, 100, 100, 100⟩, .unbounded⟩

/-- Arithmetic for programs that compute with no floats. -/
abbrev FloatArith.unused : FloatArith where
  add a _ := a
  sub a _ := a
  mul a _ := a
  div a _ := a
  rem a _ := a
  neg a := a
  partialCmp _ _ := none

def pipelineSystem : TransitionSystem MachineState :=
  @Engine.interpreter pipelineEngine FloatArith.unused

/-- The producer waits for room for its second value. -/
theorem waitsRegistered_of_reachable_pipeline : ∃ σ,
    pipelineSystem.run [0, 1, 1] = some σ ∧
      σ.status 1 = some (.blocked (.channelSend 0)) ∧ WaitsRegistered pipeline σ := by
  have hrun : (pipelineSystem.run [0, 1, 1]).map (·.status 1) =
      some (some (.blocked (.channelSend 0))) := by decide
  obtain ⟨σ, hσ, hs⟩ := Option.map_eq_some_iff.mp hrun
  exact ⟨σ, hσ, hs, @waitsRegistered_of_reachable pipelineEngine σ .unused
    (TransitionSystem.reachable_of_run hσ)⟩

end Pipeline

end ConcIR
