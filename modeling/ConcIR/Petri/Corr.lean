import ConcIR.Machine.Frames
import ConcIR.Petri.Places

/-!
# Machine states and markings

Which marking shows a machine state. Every cell of the store is the token of a place,
every thread that is not finished has one token, and the records are the same. In the
middle of a step some threads have been taken out of the marking.
-/

namespace ConcIR

open MachineState

namespace Petri

/-- The place of the threads that are blocked for a reason at a statement. -/
def waitPlace (fn : FunctionId) (pc : ℕ) : BlockReason → PlaceKey
  | .lock r => .lockWait r
  | .channelSend c => .channelSend c
  | .channelRecv c => .channelRecv c
  | .condvar cv _ => .condvar cv
  | .semaphore r => .semWait r
  | .join _ => .joinWait fn pc
  | .scope _ => .scopeWait fn pc

/-- The token of a waiting thread carries what the tables hold of it. -/
inductive WaitToken (σ : MachineState) (x : ThreadId) (f : FrameId) :
    BlockReason → NetToken → Prop
  | lock (r) : WaitToken σ x f (.lock r) (.lockWait x f)
  | send (c v) (h : ⟨x, v⟩ ∈ σ.sends c) : WaitToken σ x f (.channelSend c) (.sendWait x f v)
  | recv (c) : WaitToken σ x f (.channelRecv c) (.recvWait x f)
  | condvar (cv lk) : WaitToken σ x f (.condvar cv lk) (.condvarWait x f lk)
  | semaphore (r n) (h : (x, n) ∈ σ.semQueue r) :
      WaitToken σ x f (.semaphore r) (.semWait x f n)
  | join (k) : WaitToken σ x f (.join k) (.joinWait x f)
  | scope (s) : WaitToken σ x f (.scope s) (.scopeWait x f)

/-- The place that a thread is in, and its token there. -/
inductive Seat (σ : MachineState) (x : ThreadId) : PlaceKey → NetToken → Prop
  | control {t : ThreadState} {f : FrameId} {fr : Frame} (top : Top σ x t f fr)
      (hrun : t.status = .runnable) : Seat σ x (.control fr.function fr.pc) (.control x f)
  | wait {t : ThreadState} {f : FrameId} {fr : Frame} {r : BlockReason} {tok : NetToken}
      (top : Top σ x t f fr) (hb : t.status = .blocked r) (hw : WaitToken σ x f r tok) :
      Seat σ x (waitPlace fr.function fr.pc r) tok

/-- The record of a thread. -/
def netThread (frames : BTreeMap FrameId Frame) (t : ThreadState) : NetThread where
  entryFunction := t.entryFunction
  stack := t.stack
  handleChildren := t.handleChildren
  parentScope := t.parentScope
  blockedAt := match t.status with
    | .blocked r => (t.stack.head?.bind (frames[·]?)).map fun fr ↦ waitPlace fr.function fr.pc r
    | _ => none

def netScope (frames : BTreeMap FrameId Frame) (sc : ScopeState) : NetScope where
  id := sc.id
  owner := sc.owner
  ownerFrame := sc.ownerFrame
  ownerSid := (frames[sc.ownerFrame]?.map (·.pc)).getD 0
  remaining := sc.remaining

/-- The tokens of a data place: one for the cell of its resource. -/
def cellTokens (s : Store) : PlaceKey → List NetToken
  | .var r => (s.vars[r]?).toList.map .data
  | .atomic r => (s.atomics[r]?).toList.map .data
  | .mutex r => (s.mutexes[r]?).toList.map .mutex
  | .semaphore r => (s.semaphores[r]?).toList.map fun n ↦ .data (.int n)
  | .channel c => (s.channels[c]?).toList.map fun ch ↦ .data (.array ch.buffer)
  | _ => []

/-- The data places hold the cells of the store. -/
def Cells (s : Store) (marking : Marking) : Prop :=
  ∀ k, k.cell ≠ none → marking k = cellTokens s k

/-- The other places hold the tokens of the threads that are not `out`, each once. -/
def Seated (out : Set ThreadId) (σ : MachineState) (marking : Marking) : Prop :=
  ∀ k, k.cell = none →
    (marking k).Nodup ∧ ∀ tok, tok ∈ marking k ↔ ∃ x, x ∉ out ∧ Seat σ x k tok

structure Records (P : SemProgram) (σ : MachineState) (s : NetStore) : Prop where
  frames : s.frames = σ.store.frames
  thread : ∀ x : ThreadId, s.threads[x]? = (σ.threads[x]?).map (netThread σ.store.frames)
  scope : ∀ k : ScopeId, s.scopes[k]? = (σ.scopes[k]?).map (netScope σ.store.frames)
  finished : s.finished = σ.finished
  completedFunctions : s.completedFunctions = σ.completedFunctions
  completedScopes : s.completedScopes = σ.completedScopes
  /-- Reaching the end of a body is recorded by the net only. -/
  reached : ∀ f pc, pc < (P.function f).body.length →
    ((f, pc) ∈ s.reached ↔ (f, pc) ∈ σ.reached)
  alloc : s.alloc = σ.alloc

/-- The marking shows the machine state, apart from the threads that are `out`. -/
structure Corr (P : SemProgram) (out : Set ThreadId) (σ : MachineState) (m : NetState) :
    Prop where
  cells : Cells σ.store m.marking
  seats : Seated out σ m.marking
  records : Records P σ m.store
  apart : ∀ x t y u f, σ.HasThread x t → σ.HasThread y u → f ∈ t.stack → f ∈ u.stack → x = y
  /-- A thread that is out owns no scope. -/
  free : ∀ s sc x, σ.HasScope s sc → x ∈ out →
    sc.owner ≠ x ∧ ∀ t, σ.HasThread x t → sc.ownerFrame ∉ t.stack

variable {P : SemProgram} {out : Set ThreadId} {σ σ' σ₁ : MachineState} {m : NetState}
  {x y : ThreadId} {t u : ThreadState} {f g : FrameId} {fr gr : Frame} {r : BlockReason}
  {k k' : PlaceKey} {tok tok' : NetToken}

section Seats

@[simp] theorem cell_waitPlace (fn : FunctionId) (pc : ℕ) (r : BlockReason) :
    (waitPlace fn pc r).cell = none := by
  cases r <;> rfl

theorem WaitToken.binding (h : WaitToken σ x f r tok) : tok.binding = some (x, f) := by
  cases h <;> rfl

theorem Seat.cell (h : Seat σ x k tok) : k.cell = none := by
  cases h with
  | control top hrun => rfl
  | wait top hb hw => exact cell_waitPlace _ _ _

/-- A token tells whose it is, and of which activation. -/
theorem Seat.binding (h : Seat σ x k tok) :
    ∃ t f fr, Top σ x t f fr ∧ tok.binding = some (x, f) := by
  cases h with
  | control top hrun => exact ⟨_, _, _, top, rfl⟩
  | wait top hb hw => exact ⟨_, _, _, top, hw.binding⟩

theorem Seat.owner (h : Seat σ x k tok) (h' : Seat σ₁ y k' tok) : x = y := by
  obtain ⟨t, f, fr, -, hx⟩ := h.binding
  obtain ⟨u, g, gr, -, hy⟩ := h'.binding
  exact (Prod.mk.inj (Option.some.inj (hx.symm.trans hy))).1

theorem top_unique (h : Top σ x t f fr) (h' : Top σ x u g gr) : t = u ∧ f = g ∧ fr = gr := by
  obtain rfl : t = u := Option.some.inj (h.thread.symm.trans h'.thread)
  obtain rfl : f = g := Option.some.inj (h.head.symm.trans h'.head)
  exact ⟨rfl, rfl, Option.some.inj (h.frame.symm.trans h'.frame)⟩

theorem WaitToken.unique (hs : ∀ c, ((σ.sends c).map (·.thread)).Nodup)
    (hq : ∀ q, ((σ.semQueue q).map Prod.fst).Nodup) (h : WaitToken σ x f r tok)
    (h' : WaitToken σ x f r tok') : tok' = tok := by
  cases h with
  | send c v h =>
      cases h' with
      | send _ v' h' =>
          have := List.inj_on_of_nodup_map (hs c) h h' rfl
          rw [(PendingSend.mk.inj this).2]
  | semaphore q n h =>
      cases h' with
      | semaphore _ n' h' =>
          have := List.inj_on_of_nodup_map (hq q) h h' rfl
          rw [(Prod.mk.inj this).2]
  | lock q => cases h'; rfl
  | recv c => cases h'; rfl
  | condvar cv lk => cases h'; rfl
  | join l => cases h'; rfl
  | scope s => cases h'; rfl

/-- A thread has one token at most. -/
theorem Seat.unique (hw : Regs σ) (h : Seat σ x k tok) (h' : Seat σ x k' tok') :
    k' = k ∧ tok' = tok := by
  cases h with
  | @control t f fr top hrun =>
      cases h' with
      | @control u g gr top' hrun' =>
          obtain ⟨rfl, rfl, rfl⟩ := top_unique top top'
          exact ⟨rfl, rfl⟩
      | @wait u g gr r _ top' hb hw' =>
          obtain ⟨rfl, rfl, rfl⟩ := top_unique top top'
          rw [hrun] at hb
          cases hb
  | @wait t f fr r _ top hb hwt =>
      cases h' with
      | @control u g gr top' hrun =>
          obtain ⟨rfl, rfl, rfl⟩ := top_unique top top'
          rw [hrun] at hb
          cases hb
      | @wait u g gr r' _ top' hb' hwt' =>
          obtain ⟨rfl, rfl, rfl⟩ := top_unique top top'
          obtain rfl : r = r' := ThreadStatus.blocked.inj (hb.symm.trans hb')
          exact ⟨rfl, hwt.unique hw.sends_nodup hw.queue_nodup hwt'⟩

/-- A thread that is not finished has a token. -/
theorem exists_seat (hw : Wf P σ) (ht : σ.HasThread x t) (hlive : t.status ≠ .finished) :
    ∃ k tok, Seat σ x k tok := by
  have hne : t.stack ≠ [] := fun h ↦ hlive ((hw.stack.finished_stack x t ht).mpr h)
  obtain ⟨f, hf⟩ : ∃ f, t.stack.head? = some f := by
    cases hst : t.stack with
    | nil => exact absurd hst hne
    | cons f fs => exact ⟨f, rfl⟩
  have hc := hw.stack.stack_frame x t f ht (List.mem_of_head? hf)
  obtain ⟨fr, hfr⟩ := Option.isSome_iff_exists.mp
    ((Std.ExtTreeMap.isSome_getElem?_eq_contains).trans hc)
  have top : Top σ x t f fr := ⟨ht, hf, hfr⟩
  cases hst : t.status with
  | finished => exact absurd hst hlive
  | runnable => exact ⟨_, _, .control top hst⟩
  | blocked r =>
      have hreg : ∀ hr : r.tabled = true, σ.registered x r := fun hr ↦
        (hw.regs.iff x r hr).mpr (by rw [top.status, hst])
      cases r with
      | lock q => exact ⟨_, _, .wait top hst (.lock q)⟩
      | channelSend c =>
          obtain ⟨⟨_, v⟩, hp, rfl⟩ := hreg rfl
          exact ⟨_, _, .wait top hst (.send c v hp)⟩
      | channelRecv c => exact ⟨_, _, .wait top hst (.recv c)⟩
      | condvar cv lk => exact ⟨_, _, .wait top hst (.condvar cv lk)⟩
      | semaphore q =>
          obtain ⟨n, hn⟩ := hreg rfl
          exact ⟨_, _, .wait top hst (.semaphore q n hn)⟩
      | join l => exact ⟨_, _, .wait top hst (.join l)⟩
      | scope s => exact ⟨_, _, .wait top hst (.scope s)⟩

/-- Where a thread stands: its status, its stack, and the statement of its head. -/
def spot (σ : MachineState) (x : ThreadId) :
    Option (ThreadStatus × List FrameId × Option (FunctionId × ℕ)) :=
  σ.threads[x]?.map fun t ↦ (t.status, t.stack,
    (t.stack.head?.bind (σ.store.frames[·]?)).map fun fr ↦ (fr.function, fr.pc))

/-- Nothing that the token of the thread shows has changed. -/
structure Unmoved (σ σ' : MachineState) (x : ThreadId) : Prop where
  spot : spot σ' x = spot σ x
  sends : ∀ c v, ⟨x, v⟩ ∈ σ'.sends c ↔ ⟨x, v⟩ ∈ σ.sends c
  queue : ∀ r n, (x, n) ∈ σ'.semQueue r ↔ (x, n) ∈ σ.semQueue r

theorem Unmoved.symm (h : Unmoved σ σ' x) : Unmoved σ' σ x :=
  ⟨h.spot.symm, fun c v ↦ (h.sends c v).symm, fun r n ↦ (h.queue r n).symm⟩

theorem spot_of_top (top : Top σ x t f fr) :
    spot σ x = some (t.status, t.stack, some (fr.function, fr.pc)) := by
  rw [Petri.spot, show σ.threads[x]? = some t from top.thread, Option.map_some, top.head,
    Option.bind_some, show σ.store.frames[f]? = some fr from top.frame, Option.map_some]

theorem exists_top_of_spot {st : ThreadStatus} {fs : List FrameId} {fn : FunctionId} {pc : ℕ}
    (h : spot σ x = some (st, f :: fs, some (fn, pc))) :
    ∃ t fr, Top σ x t f fr ∧ t.status = st ∧ fr.function = fn ∧ fr.pc = pc := by
  obtain ⟨t, ht, he⟩ := Option.map_eq_some_iff.mp h
  simp only [Prod.mk.injEq] at he
  obtain ⟨rfl, hst, he⟩ := he
  rw [hst, List.head?_cons, Option.bind_some] at he
  obtain ⟨fr, hfr, he⟩ := Option.map_eq_some_iff.mp he
  obtain ⟨rfl, rfl⟩ := Prod.mk.inj he
  exact ⟨t, fr, ⟨ht, by rw [hst, List.head?_cons], hfr⟩, rfl, rfl, rfl⟩

theorem top_of_spot_eq (h : spot σ' x = spot σ x) (top : Top σ x t f fr) :
    ∃ t' fr', Top σ' x t' f fr' ∧ t'.status = t.status ∧ fr'.function = fr.function ∧
      fr'.pc = fr.pc := by
  obtain ⟨fs, hst⟩ : ∃ fs, t.stack = f :: fs := by
    cases hst : t.stack with
    | nil => exact absurd top.head (by simp [hst])
    | cons g gs =>
        have := top.head
        rw [hst, List.head?_cons] at this
        exact ⟨gs, by rw [Option.some.inj this]⟩
  have hspot : spot σ' x = some (t.status, f :: fs, some (fr.function, fr.pc)) := by
    rw [h, spot_of_top top, hst]
  exact exists_top_of_spot hspot

theorem Unmoved.top (h : Unmoved σ σ' x) (top : Top σ x t f fr) :
    ∃ t' fr', Top σ' x t' f fr' ∧ t'.status = t.status ∧ fr'.function = fr.function ∧
      fr'.pc = fr.pc := top_of_spot_eq h.spot top

theorem Unmoved.seat_of (h : Unmoved σ σ' x) (hs : Seat σ x k tok) : Seat σ' x k tok := by
  cases hs with
  | control top hrun =>
      obtain ⟨t', fr', top', hst, hfn, hpc⟩ := h.top top
      rw [← hfn, ← hpc]
      exact .control top' (hst.trans hrun)
  | wait top hb hw =>
      obtain ⟨t', fr', top', hst, hfn, hpc⟩ := h.top top
      rw [← hfn, ← hpc]
      refine .wait top' (hst.trans hb) ?_
      cases hw with
      | send c v hv => exact .send c v ((h.sends c v).mpr hv)
      | semaphore q n hn => exact .semaphore q n ((h.queue q n).mpr hn)
      | lock q => exact .lock q
      | recv c => exact .recv c
      | condvar cv lk => exact .condvar cv lk
      | join l => exact .join l
      | scope s => exact .scope s

theorem Unmoved.seat (h : Unmoved σ σ' x) : Seat σ' x k tok ↔ Seat σ x k tok :=
  ⟨h.symm.seat_of, h.seat_of⟩

/-- The same tokens are due in every place. -/
theorem Seated.congr (h : Seated out σ m.marking)
    (hs : ∀ y, y ∉ out → ∀ k tok, Seat σ' y k tok ↔ Seat σ y k tok) :
    Seated out σ' m.marking := by
  intro k hk
  refine ⟨(h k hk).1, fun tok ↦ ((h k hk).2 tok).trans ?_⟩
  exact exists_congr fun y ↦ and_congr_right fun hy ↦ (hs y hy k tok).symm

end Seats

end Petri

end ConcIR
