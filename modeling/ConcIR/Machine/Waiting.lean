import ConcIR.Machine.Quiet

/-!
# Blocking and waking

A thread starts or stops waiting: its status and its entry in the table of its
reason change together, and nobody else's do.
-/

namespace ConcIR

variable {P : SemProgram} {σ σ' : MachineState} {x : ThreadId} {st : ThreadStatus}

namespace MachineState

theorem sameThreads_setStatus {s : ThreadStatus} (hx : σ.status x = some s)
    (hs : s ≠ .finished) (hst : st ≠ .finished) : SameThreads σ (σ.setStatus x st) := by
  intro y
  rw [setStatus, getElem?_modifyThread]
  split_ifs with hy
  · subst hy
    obtain ⟨t, ht, rfl⟩ := Option.map_eq_some_iff.mp hx
    simp [ht, ThreadState.skel, hs, hst]
  · rfl

section Tables

theorem registered_pushSend {c : ResourceId} (hc : σ.store.channels.contains c = true)
    (p : PendingSend) (y : ThreadId) (q : BlockReason) :
    (σ.pushSend c p).registered y q ↔
      σ.registered y q ∨ (y = p.thread ∧ q = .channelSend c) := by
  cases q with
  | channelSend d =>
      simp only [registered, sends_pushSend hc]
      split_ifs with h
      · simp [h, eq_comm, or_and_right, exists_or]
      · simp [h]
  | channelRecv d => simp [registered]
  | _ => exact (or_iff_left (by simp)).symm

theorem registered_pushRecv {c : ResourceId} (hc : σ.store.channels.contains c = true)
    (x y : ThreadId) (q : BlockReason) :
    (σ.pushRecv c x).registered y q ↔ σ.registered y q ∨ (y = x ∧ q = .channelRecv c) := by
  cases q with
  | channelSend d => simp [registered]
  | channelRecv d =>
      simp only [registered, recvs_pushRecv hc]
      split_ifs with h <;> simp [h]
  | _ => exact (or_iff_left (by simp)).symm

theorem registered_pushWaiter {cv : ResourceId} (hc : σ.store.condvars.contains cv = true)
    (x : ThreadId) (lk : ResourceId) (y : ThreadId) (q : BlockReason) :
    (σ.modifyWaiters cv (· ++ [(x, lk)])).registered y q ↔
      σ.registered y q ∨ (y = x ∧ q = .condvar cv lk) := by
  cases q with
  | condvar d lk' =>
      simp only [registered, waiters_modifyWaiters hc]
      split_ifs with h <;> simp [h]
  | _ => exact (or_iff_left (by simp)).symm

theorem registered_pushSemWaiter (r : ResourceId) (x : ThreadId) (n : ℤ) (y : ThreadId)
    (q : BlockReason) : (σ.pushSemWaiter r (x, n)).registered y q ↔
      σ.registered y q ∨ (y = x ∧ q = .semaphore r) := by
  cases q with
  | semaphore d =>
      simp only [registered, semQueue_pushSemWaiter]
      split_ifs with h <;> simp [h, exists_or]
  | _ => exact (or_iff_left (by simp)).symm

theorem registered_dropSend (c : ResourceId) (x y : ThreadId) (q : BlockReason) :
    (σ.dropSend c x).registered y q ↔
      σ.registered y q ∧ ¬ (y = x ∧ q = .channelSend c) := by
  cases q with
  | channelSend d =>
      simp only [registered, sends_dropSend]
      split_ifs with h <;> grind
  | channelRecv d => simp [registered]
  | _ => exact (and_iff_left (by simp)).symm

theorem registered_dropRecv (c : ResourceId) (x y : ThreadId) (q : BlockReason) :
    (σ.dropRecv c x).registered y q ↔
      σ.registered y q ∧ ¬ (y = x ∧ q = .channelRecv c) := by
  cases q with
  | channelSend d => simp [registered]
  | channelRecv d =>
      simp only [registered, recvs_dropRecv]
      split_ifs with h <;> grind
  | _ => exact (and_iff_left (by simp)).symm

theorem registered_dropWaiter {cv : ResourceId} (hc : σ.store.condvars.contains cv = true)
    (w : ThreadId × ResourceId) (y : ThreadId) (q : BlockReason) :
    (σ.modifyWaiters cv (·.filter (· ≠ w))).registered y q ↔
      σ.registered y q ∧ ¬ (y = w.1 ∧ q = .condvar cv w.2) := by
  cases q with
  | condvar d lk =>
      simp only [registered, waiters_modifyWaiters hc]
      split_ifs with h <;> grind
  | _ => exact (and_iff_left (by simp)).symm

theorem registered_dropSemWaiter (r : ResourceId) (x y : ThreadId) (q : BlockReason) :
    (σ.dropSemWaiter r x).registered y q ↔
      σ.registered y q ∧ ¬ (y = x ∧ q = .semaphore r) := by
  cases q with
  | semaphore d =>
      simp only [registered, semQueue_dropSemWaiter]
      split_ifs with h <;> grind
  | _ => exact (and_iff_left (by simp)).symm

end Tables

end MachineState

/-- The tables are right for thread `x` to have status `st`, and unchanged for the
other threads. -/
structure Retabled (P : SemProgram) (σ σ' : MachineState) (x : ThreadId) (st : ThreadStatus) :
    Prop where
  threads : σ'.threads = σ.threads
  frames : σ'.store.frames = σ.store.frames
  finished : σ'.finished = σ.finished
  alloc : AllocLe σ.alloc σ'.alloc
  others : ∀ y, y ≠ x → ∀ r, σ'.registered y r ↔ σ.registered y r
  own : ∀ r, σ'.registered x r ↔ r.tabled = true ∧ st = .blocked r
  queue : ∀ y, y ≠ x → ∀ r n, (y, n) ∈ σ.semQueue r → (y, n) ∈ σ'.semQueue r
  sends_nodup : ∀ c, ((σ'.sends c).map (·.thread)).Nodup
  recvs_nodup : ∀ c, (σ'.recvs c).Nodup
  waiters_nodup : ∀ cv, (σ'.waiters cv).Nodup
  queue_nodup : ∀ r, ((σ'.semQueue r).map Prod.fst).Nodup
  scopes : Scopes σ'
  stores : Stores P σ'

/-- Give a thread the status its table entries are right for. -/
theorem Wf.restatus (hw : Wf P σ) (h : Retabled P σ σ' x st) {s : ThreadStatus}
    (hx : σ.status x = some s) (hs : s ≠ .finished) (hst : st ≠ .finished)
    (hwait : ∀ r, st = .blocked r → ∃ t f fr op, σ.HasThread x t ∧ t.stack.head? = some f ∧
      σ.HasFrame f fr ∧ P.opAt fr.function fr.pc = some op ∧ Waits σ' x fr r op) :
    Wf P (σ'.setStatus x st) := by
  have hx' : σ'.status x = some s := by rw [← hx, MachineState.status, h.threads]; rfl
  have hsame : SameThreads σ' (σ'.setStatus x st) :=
    MachineState.sameThreads_setStatus hx' hs hst
  have hthr : SameThreads σ (σ'.setStatus x st) := fun y ↦ by rw [hsame y, h.threads]
  have hfr : SameFrames σ (σ'.setStatus x st) := fun f ↦ by
    rw [show (σ'.setStatus x st).store = σ'.store from rfl, h.frames]
  have hreg : ∀ y r, (σ'.setStatus x st).registered y r ↔ σ'.registered y r := by
    intro y r
    cases r <;> rfl
  constructor
  · exact hw.stack.congr hthr hfr h.finished h.alloc
  · refine ⟨?_, h.sends_nodup, h.recvs_nodup, h.waiters_nodup, h.queue_nodup⟩
    intro y r hr
    rw [hreg, MachineState.status_setStatus]
    split_ifs with hy
    · subst hy
      rw [h.own, hx']
      simp [hr]
    · rw [h.others y hy, hw.regs.iff y r hr, MachineState.status, MachineState.status, h.threads]
  · constructor
    · intro f fr hf
      exact hw.code.pc_le f fr (by rwa [MachineState.HasFrame, ← h.frames])
    · intro y t r ht hb
      rw [MachineState.HasThread, MachineState.setStatus, MachineState.getElem?_modifyThread,
        h.threads] at ht
      split_ifs at ht with hy
      · subst hy
        obtain ⟨t₀, ht₀, rfl⟩ := Option.map_eq_some_iff.mp ht
        obtain ⟨t₁, f, fr, op, ht₁, hhead, hf, hop, hwt⟩ := hwait r hb
        obtain rfl : t₀ = t₁ := Option.some.inj (ht₀.symm.trans ht₁)
        exact ⟨f, fr, op, hhead, (congrArg (·[f]?) h.frames).trans hf, hop, hwt⟩
      · obtain ⟨f, fr, op, hhead, hf, hop, hwt⟩ := hw.code.blocked y t r ht hb
        refine ⟨f, fr, op, hhead, (congrArg (·[f]?) h.frames).trans hf, hop, ?_⟩
        cases r with
        | semaphore q =>
            obtain ⟨n, hn, hq⟩ := hwt
            exact ⟨n, hn, h.queue y hy q n hq⟩
        | _ => exact hwt
  · refine hw.handles.congr hthr hfr ⟨?_, ?_⟩ h.alloc
    · intro y t t' ht ht'
      rw [MachineState.HasThread, MachineState.setStatus, MachineState.getElem?_modifyThread,
        h.threads, ht] at ht'
      split_ifs at ht' <;> rw [← Option.some.inj ht']
    · intro f fr fr' hf hf'
      rw [MachineState.HasFrame, show (σ'.setStatus x st).store = σ'.store from rfl,
        h.frames] at hf'
      rw [Option.some.inj (hf.symm.trans hf')]
  · exact h.scopes.congr hsame rfl (.refl _)
  · exact { h.stores with }

theorem BlockReason.ne_of_untabled {r : BlockReason} (hr : r.tabled = false) (q : BlockReason)
    (hq : q.tabled = true) : ThreadStatus.blocked r ≠ .blocked q := by
  rintro ⟨⟩
  rw [hr] at hq
  cases hq

section Entries

variable (hw : Wf P σ)

include hw

theorem Wf.not_registered {s : ThreadStatus} (hx : σ.status x = some s)
    (hs : ∀ r, r.tabled = true → s ≠ .blocked r) (r : BlockReason) : ¬ σ.registered x r := by
  by_cases hr : r.tabled = true
  · rw [hw.regs.iff x r hr, hx]
    simpa using hs r hr
  · cases r <;> simp_all [BlockReason.tabled, MachineState.registered]

/-- Registered for one reason only. -/
theorem Wf.registered_iff {r : BlockReason} (hx : σ.status x = some (.blocked r))
    (q : BlockReason) : σ.registered x q ↔ q.tabled = true ∧ q = r := by
  by_cases hq : q.tabled = true
  · rw [hw.regs.iff x q hq, hx]
    simp [hq, eq_comm]
  · cases q <;> simp_all [BlockReason.tabled, MachineState.registered]

theorem Wf.scopes_of_eq (ht : σ'.threads = σ.threads) (hs : σ'.scopes = σ.scopes)
    (ha : σ'.alloc = σ.alloc) : Scopes σ' :=
  hw.scopes.congr (fun y ↦ by rw [ht]) hs (by rw [ha]; exact .refl _)

/-- No entry, and a status that comes without one. -/
theorem Retabled.same {s : ThreadStatus} (hx : σ.status x = some s)
    (hs : ∀ r, r.tabled = true → s ≠ .blocked r)
    (hst : ∀ r, r.tabled = true → st ≠ .blocked r) : Retabled P σ σ x st where
  threads := rfl
  frames := rfl
  finished := rfl
  alloc := .refl _
  others := fun _ _ _ ↦ Iff.rfl
  own := fun r ↦ by
    have := hw.not_registered hx hs r
    have := hst r
    tauto
  queue := fun _ _ _ _ h ↦ h
  sends_nodup := hw.regs.sends_nodup
  recvs_nodup := hw.regs.recvs_nodup
  waiters_nodup := hw.regs.waiters_nodup
  queue_nodup := hw.regs.queue_nodup
  scopes := hw.scopes
  stores := hw.stores

theorem Retabled.pushSend {c : ResourceId} {v : Value} (hx : σ.status x = some .runnable)
    (hc : σ.store.channels.contains c = true)
    (hr : (P.resource c).capacity = 0 → σ.recvs c = [])
    (hv : ∀ ty, (P.resource c).ty = some ty → withinType ty v = true) :
    Retabled P σ (σ.pushSend c ⟨x, v⟩) x (.blocked (.channelSend c)) := by
  have hno := hw.not_registered hx (by simp)
  have hreg := MachineState.registered_pushSend hc ⟨x, v⟩
  have hs := MachineState.sends_pushSend hc ⟨x, v⟩
  refine ⟨rfl, rfl, rfl, .refl _, ?_, ?_, fun _ _ _ _ h ↦ h, ?_, ?_, hw.regs.waiters_nodup,
    hw.regs.queue_nodup, hw.scopes_of_eq rfl rfl rfl, ?_⟩
  · intro y hy r
    simp [hreg, hy]
  · intro r
    simp only [hreg, hno, false_or, true_and, ThreadStatus.blocked.injEq]
    grind [BlockReason.tabled]
  · intro d
    rw [hs]
    split_ifs with hd
    · have hnd := hno (.channelSend d)
      rw [List.map_append]
      exact (hw.regs.sends_nodup d).append (List.nodup_singleton _)
        (by simpa [MachineState.registered] using hnd)
    · exact hw.regs.sends_nodup d
  · intro d
    simpa using hw.regs.recvs_nodup d
  · refine { hw.stores with
      channels := fun d ↦ ?_, capacity := fun d ↦ ?_, rendezvous := fun d hd ↦ ?_
      payload := fun d p ty hp hty ↦ ?_ }
    · exact (MachineState.contains_modifyChannel c d _).trans (hw.stores.channels d)
    · simpa using hw.stores.capacity d
    · by_cases hdc : d = c
      · subst hdc
        exact .inr (by simpa using hr hd)
      · simpa [hs, hdc] using hw.stores.rendezvous d hd
    · rw [hs] at hp
      split_ifs at hp with hdc
      · subst hdc
        rcases List.mem_append.mp hp with hp | hp
        · exact hw.stores.payload d p ty hp hty
        · obtain rfl := List.mem_singleton.mp hp
          exact hv ty hty
      · exact hw.stores.payload d p ty hp hty

theorem Retabled.pushRecv {c : ResourceId} (hx : σ.status x = some .runnable)
    (hc : σ.store.channels.contains c = true)
    (hr : (P.resource c).capacity = 0 → σ.sends c = []) :
    Retabled P σ (σ.pushRecv c x) x (.blocked (.channelRecv c)) := by
  have hno := hw.not_registered hx (by simp)
  have hreg := MachineState.registered_pushRecv hc x
  have hs := MachineState.recvs_pushRecv hc x
  refine ⟨rfl, rfl, rfl, .refl _, ?_, ?_, fun _ _ _ _ h ↦ h, ?_, ?_, hw.regs.waiters_nodup,
    hw.regs.queue_nodup, hw.scopes_of_eq rfl rfl rfl, ?_⟩
  · intro y hy r
    simp [hreg, hy]
  · intro r
    simp only [hreg, hno, false_or, true_and, ThreadStatus.blocked.injEq]
    grind [BlockReason.tabled]
  · intro d
    simpa using hw.regs.sends_nodup d
  · intro d
    rw [hs]
    split_ifs with hd
    · have hnd := hno (.channelRecv d)
      exact (hw.regs.recvs_nodup d).append (List.nodup_singleton _)
        (by simpa [MachineState.registered] using hnd)
    · exact hw.regs.recvs_nodup d
  · refine { hw.stores with
      channels := fun d ↦ ?_, capacity := fun d ↦ ?_, rendezvous := fun d hd ↦ ?_
      payload := fun d p ty hp hty ↦ ?_ }
    · exact (MachineState.contains_modifyChannel c d _).trans (hw.stores.channels d)
    · simpa using hw.stores.capacity d
    · by_cases hdc : d = c
      · subst hdc
        exact .inl (by simpa using hr hd)
      · simpa [hs, hdc] using hw.stores.rendezvous d hd
    · exact hw.stores.payload d p ty (by simpa using hp) hty

theorem Retabled.pushWaiter {cv lk : ResourceId} (hx : σ.status x = some .runnable)
    (hc : σ.store.condvars.contains cv = true) :
    Retabled P σ (σ.modifyWaiters cv (· ++ [(x, lk)])) x (.blocked (.condvar cv lk)) := by
  have hno := hw.not_registered hx (by simp)
  have hreg := MachineState.registered_pushWaiter hc x lk
  refine ⟨rfl, rfl, rfl, .refl _, ?_, ?_, fun _ _ _ _ h ↦ h, hw.regs.sends_nodup,
    hw.regs.recvs_nodup, ?_, hw.regs.queue_nodup, hw.scopes_of_eq rfl rfl rfl,
    { hw.stores with
      condvars := fun d ↦ (MachineState.contains_modifyWaiters cv d _).trans
        (hw.stores.condvars d) }⟩
  · intro y hy r
    simp [hreg, hy]
  · intro r
    simp only [hreg, hno, false_or, true_and, ThreadStatus.blocked.injEq]
    grind [BlockReason.tabled]
  · intro d
    rw [MachineState.waiters_modifyWaiters hc]
    split_ifs with hd
    · have hnd := hno (.condvar d lk)
      exact (hw.regs.waiters_nodup d).append (List.nodup_singleton _)
        (by simpa [MachineState.registered] using hnd)
    · exact hw.regs.waiters_nodup d

theorem Retabled.pushSemWaiter {r : ResourceId} {n : ℤ} (hx : σ.status x = some .runnable) :
    Retabled P σ (σ.pushSemWaiter r (x, n)) x (.blocked (.semaphore r)) := by
  have hno := hw.not_registered hx (by simp)
  have hreg := MachineState.registered_pushSemWaiter (σ := σ) r x n
  refine ⟨rfl, rfl, rfl, .refl _, ?_, ?_, ?_, hw.regs.sends_nodup, hw.regs.recvs_nodup,
    hw.regs.waiters_nodup, ?_, hw.scopes_of_eq rfl rfl rfl, { hw.stores with }⟩
  · intro y hy q
    simp [hreg, hy]
  · intro q
    simp only [hreg, hno, false_or, true_and, ThreadStatus.blocked.injEq]
    grind [BlockReason.tabled]
  · intro y _ q m hm
    rw [MachineState.semQueue_pushSemWaiter]
    split_ifs
    · exact List.mem_append_left _ hm
    · exact hm
  · intro d
    rw [MachineState.semQueue_pushSemWaiter]
    split_ifs with hd
    · have hnd := hno (.semaphore d)
      rw [List.map_append]
      exact (hw.regs.queue_nodup d).append (List.nodup_singleton _)
        (by simpa [MachineState.registered] using hnd)
    · exact hw.regs.queue_nodup d

theorem Retabled.dropSend {c : ResourceId} (hx : σ.status x = some (.blocked (.channelSend c)))
    (hst : ∀ r, r.tabled = true → st ≠ .blocked r) :
    Retabled P σ (σ.dropSend c x) x st := by
  have hiff := hw.registered_iff hx
  have hreg := MachineState.registered_dropSend (σ := σ) c x
  have hs := MachineState.sends_dropSend (σ := σ) c x
  refine ⟨rfl, rfl, rfl, .refl _, ?_, ?_, fun _ _ _ _ h ↦ h, ?_, ?_, hw.regs.waiters_nodup,
    hw.regs.queue_nodup, hw.scopes_of_eq rfl rfl rfl, ?_⟩
  · intro y hy r
    simp [hreg, hy]
  · intro r
    have := hst r
    rw [hreg, hiff]
    tauto
  · intro d
    rw [hs]
    split_ifs
    · exact (hw.regs.sends_nodup d).sublist (List.filter_sublist.map _)
    · exact hw.regs.sends_nodup d
  · intro d
    simpa using hw.regs.recvs_nodup d
  · refine { hw.stores with
      channels := fun d ↦ ?_, capacity := fun d ↦ ?_, rendezvous := fun d hd ↦ ?_
      payload := fun d p ty hp hty ↦ ?_ }
    · exact (MachineState.contains_modifyChannel c d _).trans (hw.stores.channels d)
    · simpa using hw.stores.capacity d
    · rcases hw.stores.rendezvous d hd with h | h
      · exact .inl (by rw [hs, h]; simp)
      · exact .inr (by simpa using h)
    · refine hw.stores.payload d p ty ?_ hty
      rw [hs] at hp
      split_ifs at hp
      · exact List.mem_of_mem_filter hp
      · exact hp

theorem Retabled.dropRecv {c : ResourceId} (hx : σ.status x = some (.blocked (.channelRecv c)))
    (hst : ∀ r, r.tabled = true → st ≠ .blocked r) :
    Retabled P σ (σ.dropRecv c x) x st := by
  have hiff := hw.registered_iff hx
  have hreg := MachineState.registered_dropRecv (σ := σ) c x
  have hs := MachineState.recvs_dropRecv (σ := σ) c x
  refine ⟨rfl, rfl, rfl, .refl _, ?_, ?_, fun _ _ _ _ h ↦ h, ?_, ?_, hw.regs.waiters_nodup,
    hw.regs.queue_nodup, hw.scopes_of_eq rfl rfl rfl, ?_⟩
  · intro y hy r
    simp [hreg, hy]
  · intro r
    have := hst r
    rw [hreg, hiff]
    tauto
  · intro d
    simpa using hw.regs.sends_nodup d
  · intro d
    rw [hs]
    split_ifs
    · exact (hw.regs.recvs_nodup d).filter _
    · exact hw.regs.recvs_nodup d
  · refine { hw.stores with
      channels := fun d ↦ ?_, capacity := fun d ↦ ?_, rendezvous := fun d hd ↦ ?_
      payload := fun d p ty hp hty ↦ ?_ }
    · exact (MachineState.contains_modifyChannel c d _).trans (hw.stores.channels d)
    · simpa using hw.stores.capacity d
    · rcases hw.stores.rendezvous d hd with h | h
      · exact .inl (by simpa using h)
      · exact .inr (by rw [hs, h]; simp)
    · exact hw.stores.payload d p ty (by simpa using hp) hty

theorem Retabled.dropWaiter {cv : ResourceId} {w : ThreadId × ResourceId}
    (hc : σ.store.condvars.contains cv = true)
    (hx : σ.status w.1 = some (.blocked (.condvar cv w.2)))
    (hst : ∀ r, r.tabled = true → st ≠ .blocked r) :
    Retabled P σ (σ.modifyWaiters cv (·.filter (· ≠ w))) w.1 st := by
  have hiff := hw.registered_iff hx
  have hreg := MachineState.registered_dropWaiter hc w
  refine ⟨rfl, rfl, rfl, .refl _, ?_, ?_, fun _ _ _ _ h ↦ h, hw.regs.sends_nodup,
    hw.regs.recvs_nodup, ?_, hw.regs.queue_nodup, hw.scopes_of_eq rfl rfl rfl,
    { hw.stores with
      condvars := fun d ↦ (MachineState.contains_modifyWaiters cv d _).trans
        (hw.stores.condvars d) }⟩
  · intro y hy r
    rw [hreg]
    simp [hy]
  · intro r
    have := hst r
    rw [hreg, hiff]
    tauto
  · intro d
    rw [MachineState.waiters_modifyWaiters hc]
    split_ifs
    · exact (hw.regs.waiters_nodup d).filter _
    · exact hw.regs.waiters_nodup d

theorem Retabled.dropSemWaiter {r : ResourceId}
    (hx : σ.status x = some (.blocked (.semaphore r)))
    (hst : ∀ q, q.tabled = true → st ≠ .blocked q) :
    Retabled P σ (σ.dropSemWaiter r x) x st := by
  have hiff := hw.registered_iff hx
  have hreg := MachineState.registered_dropSemWaiter (σ := σ) r x
  refine ⟨rfl, rfl, rfl, .refl _, ?_, ?_, ?_, hw.regs.sends_nodup, hw.regs.recvs_nodup,
    hw.regs.waiters_nodup, ?_, hw.scopes_of_eq rfl rfl rfl, { hw.stores with }⟩
  · intro y hy q
    simp [hreg, hy]
  · intro q
    have := hst q
    rw [hreg, hiff]
    tauto
  · intro y hy q m hm
    rw [MachineState.semQueue_dropSemWaiter]
    split_ifs
    · exact List.mem_filter.mpr ⟨hm, by simpa using hy⟩
    · exact hm
  · intro d
    rw [MachineState.semQueue_dropSemWaiter]
    split_ifs
    · exact (hw.regs.queue_nodup d).sublist (List.filter_sublist.map _)
    · exact hw.regs.queue_nodup d

end Entries

end ConcIR
