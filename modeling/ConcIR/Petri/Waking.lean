import ConcIR.Petri.Firing

/-!
# Both engines agree on the resumption of a waiting thread

The interpreter resumes a blocked thread itself; in the net a transition of the resource
takes the token of the thread out of the place it waits in.
-/

namespace ConcIR

open MachineState

namespace Petri

variable {E : Engine} {P : SemProgram} {out : Set ThreadId} {σ σ' σ₁ : MachineState}
  {m m' m₁ : NetState} {x y : ThreadId} {t u : ThreadState} {f g : FrameId} {fr gr : Frame}
  {r c : ResourceId} {v : Value} {tok : NetToken} {op : SemOp}

section Tokens

theorem find?_of_nodup {α β : Type} [DecidableEq β] {l : List α} {key : α → β} {a : α}
    (hnd : (l.map key).Nodup) (ha : a ∈ l) : l.find? (key · = key a) = some a := by
  induction l with
  | nil => cases ha
  | cons b l ih =>
      rw [List.map_cons, List.nodup_cons] at hnd
      rcases List.mem_cons.mp ha with rfl | hmem
      · rw [List.find?_cons_of_pos (by simp)]
      · have hne : key b ≠ key a := fun he ↦ hnd.1 (he ▸ List.mem_map_of_mem hmem)
        rw [List.find?_cons_of_neg (by simpa using hne), ih hnd.2 hmem]

/-- The token of a blocked thread is in the place of its reason. -/
theorem Corr.waitToken_mem (h : Corr P out σ m) (hx : x ∉ out) (top : Top σ x t f fr)
    {r : BlockReason} (hb : t.status = .blocked r) (hwt : WaitToken σ x f r tok) :
    tok ∈ m.marking (waitPlace fr.function fr.pc r) :=
  ((h.seats _ (cell_waitPlace _ _ _)).2 _).mpr ⟨x, hx, .wait top hb hwt⟩

/-- A token is put behind the statement its thread stands at. -/
theorem wakeToken_eq (h : Corr E.program out σ m) (top : Top σ x t f fr)
    (hop : E.program.opAt fr.function fr.pc = some op) : wakeToken E m x f =
      fired ((Petri.placeControl m (.control fr.function (fr.pc + 1)) x f).unblock x) := by
  have hnext : hasPlace E (.control fr.function (fr.pc + 1)) = true :=
    hasPlace_iff.mpr (control_mem_places (E.program.lt_of_opAt hop) (SemProgram.opAt_lt hop))
  rw [wakeToken, putControlNext, h.records.frames, show σ.store.frames[f]? = some fr from top.frame]
  simp only [hnext, if_true]
  rfl

end Tokens

section Resume

variable (h : Corr E.program ∅ σ m) (hw : Wf E.program σ) (top : Top σ x t f fr)

include h hw top

theorem agrees_resumeLock (hb : t.status = .blocked (.lock r)) :
    Agrees E.program (E.resumeOp σ x f fr (.lock r)) [fireLockWait E m (.lockWait x f) r] := by
  obtain ⟨u, g, gr, op, top', -, hop, -⟩ := hw.blocked_thread (x := x) (r := .lock r) (by
    rw [top.status, hb])
  obtain ⟨-, -, rfl⟩ := top_unique top top'
  have hmem : .lockWait x f ∈ m.marking (.lockWait r) :=
    h.waitToken_mem (Set.notMem_empty x) top hb (.lock r)
  simp only [Engine.resumeOp, fireLockWait, NetToken.binding, Cells.readMutex h.cells]
  by_cases hm : σ.store.mutexes[r]? = some .free
  · have h₁ : Corr E.program (insert x ∅) (σ.setMutex r (.held x))
        ((m.takeToken (.lockWait r) (.lockWait x f)).setMutex (.mutex r) (.held x)) :=
      (h.takeWait hw (Set.notMem_empty x) top hb (by simp) (.lock r)).setMutex r (.held x)
    have top₁ : Top (σ.setMutex r (.held x)) x t f fr := ⟨top.thread, top.head, top.frame⟩
    rw [if_pos hm, if_neg (not_not.mpr hm), if_neg (not_not.mpr hmem),
      wakeToken_eq h₁ top₁ hop]
    exact .only (h₁.complete (Set.notMem_empty x) top₁)
  · rw [if_neg hm, if_pos hm]
    exact .off

theorem agrees_resumeSemaphore (hb : t.status = .blocked (.semaphore r)) {n : ℤ}
    (hq : (x, n) ∈ σ.semQueue r) :
    Agrees E.program (E.resumeOp σ x f fr (.semaphore r)) [fireSemGrant E m (.semWait x f n) r] := by
  obtain ⟨u, g, gr, op, top', -, hop, hwaits⟩ :=
    hw.blocked_thread (x := x) (r := .semaphore r) (by rw [top.status, hb])
  obtain ⟨-, -, rfl⟩ := top_unique top top'
  have hmem : .semWait x f n ∈ m.marking (.semWait r) :=
    h.waitToken_mem (Set.notMem_empty x) top hb (.semaphore r n hq)
  obtain ⟨k, rfl, -⟩ := hwaits
  obtain ⟨k, hk⟩ := hw.semaphore (SemProgram.opAt_ok hop)
  have hfind : ((σ.semWaiters[r]?).getD []).find? (·.1 = x) = some (x, n) :=
    find?_of_nodup (hw.regs.queue_nodup r) hq
  simp only [Engine.resumeOp, Engine.resumeSemaphore, fireSemGrant, hfind, hk, Option.getD_some,
    Cells.readInt h.cells]
  by_cases hlt : k < n
  · rw [if_pos hlt, if_pos hlt]
    exact .off
  · have h₁ : Corr E.program (insert x ∅) (σ.setSemaphore r (k - n))
        ((m.takeToken (.semWait r) (.semWait x f n)).setData (.semaphore r) (.int (k - n))) :=
      (h.takeWait hw (Set.notMem_empty x) top hb (by simp) (.semaphore r n hq)).setSemaphore r _
    have top₁ : Top (σ.setSemaphore r (k - n)) x t f fr := ⟨top.thread, top.head, top.frame⟩
    have top₂ : Top ((σ.setSemaphore r (k - n)).dropSemWaiter r x) x t f fr :=
      ⟨top.thread, top.head, top.frame⟩
    rw [if_neg hlt, if_neg hlt, if_neg (not_not.mpr hmem), wakeToken_eq h₁ top₁ hop]
    exact .only ((h₁.dropSemWaiter (Set.mem_insert x ∅) r).complete (Set.notMem_empty x) top₂)

theorem agrees_resumeSend (hb : t.status = .blocked (.channelSend c)) (hp : ⟨x, v⟩ ∈ σ.sends c)
    (hcap : (E.program.resource c).capacity ≠ 0) :
    Agrees E.program (E.resumeOp σ x f fr (.channelSend c))
      [fireBufferDeliver E m (.sendWait x f v) c] := by
  obtain ⟨u, g, gr, op, top', -, hop, hwaits⟩ :=
    hw.blocked_thread (x := x) (r := .channelSend c) (by rw [top.status, hb])
  obtain ⟨-, -, rfl⟩ := top_unique top top'
  have hmem : .sendWait x f v ∈ m.marking (.channelSend c) :=
    h.waitToken_mem (Set.notMem_empty x) top hb (.send c v hp)
  obtain ⟨e, rfl⟩ := hwaits
  obtain ⟨ch, hch⟩ := exists_cell (hw.stores.channels c) (SemProgram.opAt_ok hop)
  obtain ⟨hse, -, -⟩ := views_of_channel hch
  have hnd : (ch.pendingSend.map PendingSend.thread).Nodup := hse ▸ hw.regs.sends_nodup c
  have hfind : ch.pendingSend.find? (·.thread = x) = some ⟨x, v⟩ :=
    find?_of_nodup hnd (hse ▸ hp)
  have hok : payloadOk E c v = true := resourceTypeOk_iff.mpr fun ty hty ↦
    hw.stores.payload c _ ty hp hty
  have htake : Corr E.program (insert x ∅) σ (m.takeToken (.channelSend c) (.sendWait x f v)) :=
    h.takeWait hw (Set.notMem_empty x) top hb (by simp) (.send c v hp)
  simp only [Engine.resumeOp, Engine.resumeSend, fireBufferDeliver, hfind, hcap, if_false, hch,
    Cells.readArray h.cells, Option.map_some, Option.getD_some, hok, Bool.not_true,
    Bool.false_eq_true]
  by_cases hlt : ch.buffer.length < (E.program.resource c).capacity
  · have harr : (m.takeToken (.channelSend c) (.sendWait x f v)).readArray (.channel c) =
        some ch.buffer := by
      rw [Cells.readArray htake.cells c, hch, Option.map_some]
    have hch₁ : (σ.dropSend c x).store.channels[c]? =
        some { ch with pendingSend := ch.pendingSend.filter (·.thread ≠ x) } := by
      simp only [dropSend, modifyChannel, Std.ExtTreeMap.getElem?_modify, hch, Nat.compare_eq_eq,
        if_true, Option.map_some]
    have h₁ : Corr E.program (insert x ∅) ((σ.dropSend c x).pushBuffer c v)
        ((m.takeToken (.channelSend c) (.sendWait x f v)).setData (.channel c)
          (.array (ch.buffer ++ [v]))) :=
      (htake.dropSend (Set.mem_insert x ∅) c).setBuffer hch₁ fun _ ↦ rfl
    have top₁ : Top ((σ.dropSend c x).pushBuffer c v) x t f fr :=
      ⟨top.thread, top.head, top.frame⟩
    rw [if_pos hlt, if_neg (not_le.mpr hlt), if_neg (not_not.mpr hmem), harr,
      removeSend_eq_dropSend (hw.regs.sends_nodup c)]
    simp only [wakeToken_eq h₁ top₁ hop]
    exact .only (h₁.complete (Set.notMem_empty x) top₁)
  · rw [if_neg hlt, if_pos (not_lt.mp hlt)]
    exact .off

theorem agrees_resumeRecv (hb : t.status = .blocked (.channelRecv c))
    (hcap : (E.program.resource c).capacity ≠ 0) :
    Agrees E.program (E.resumeOp σ x f fr (.channelRecv c))
      [fireBufferRecv E m (.recvWait x f) c] := by
  obtain ⟨u, g, gr, op, top', -, hop, hwaits⟩ :=
    hw.blocked_thread (x := x) (r := .channelRecv c) (by rw [top.status, hb])
  obtain ⟨-, -, rfl⟩ := top_unique top top'
  have hmem : .recvWait x f ∈ m.marking (.channelRecv c) :=
    h.waitToken_mem (Set.notMem_empty x) top hb (.recv c)
  obtain ⟨dst, rfl⟩ := hwaits
  have hok := SemProgram.opAt_ok hop
  simp only [opOk, Bool.and_eq_true] at hok
  obtain ⟨ch, hch⟩ := exists_cell (hw.stores.channels c) hok.1
  simp only [Engine.resumeOp, Engine.resumeRecv, fireBufferRecv, hcap, if_false, hch,
    Cells.readArray h.cells, Option.map_some, Option.getD_some, top.recvDstOf hop]
  cases hbuf : ch.buffer with
  | nil => exact .off
  | cons v rest =>
      have hpop : Corr E.program ∅ (σ.popBuffer c) (m.setData (.channel c) (.array rest)) := by
        have := h.setBuffer hch (F := fun ch ↦ { ch with buffer := ch.buffer.tail }) fun _ ↦ rfl
        rwa [hbuf] at this
      have hw₁ : Wf E.program (σ.popBuffer c) := hw.quiet (hw.quiet_popBuffer c)
      have top₁ : Top (σ.popBuffer c) x t f fr := ⟨top.thread, top.head, top.frame⟩
      have htake := hpop.takeWait hw₁ (Set.notMem_empty x) top₁ hb (by simp) (.recv c)
      have hcomm : ((E.tryWriteDst σ f dst v).map fun σ ↦
          Engine.complete ((σ.popBuffer c).dropRecv c x) x) =
          (E.tryWriteDst (σ.popBuffer c) f dst v).map fun σ ↦
            Engine.complete (σ.dropRecv c x) x := by
        rw [tryWriteDst_popBuffer, Option.map_map]
        rfl
      have hwrite := htake.writeDst hw₁.stores hok.2 f v
      simp only [hcomm]
      rw [if_neg (not_not.mpr hmem)]
      change Agrees _ _ [deliver E ((m.setData (.channel c) (.array rest)).takeToken
        (waitPlace fr.function fr.pc (.channelRecv c)) (.recvWait x f)) f v >>= _]
      rw [deliver_eq htake top₁.frame hop]
      cases ho : E.tryWriteDst (σ.popBuffer c) f dst v with
      | none =>
          rw [ho] at hwrite
          rw [hwrite]
          exact .off
      | some σ₁ =>
          rw [ho] at hwrite
          obtain ⟨m₁, hm, h₁⟩ := hwrite
          obtain ⟨u, gr, top₂, -, hfn, hpc⟩ := top_of_spot_eq (spot_tryWriteDst ho) top₁
          have hop₂ : E.program.opAt gr.function gr.pc = some (.channelRecv c dst) := by
            rw [hfn, hpc, hop]
          have top₃ : Top (σ₁.dropRecv c x) x u f gr := ⟨top₂.thread, top₂.head, top₂.frame⟩
          rw [hm]
          change Agrees _ _ [wakeToken E m₁ x f]
          rw [wakeToken_eq h₁ top₂ hop₂]
          exact .only ((h₁.dropRecv c x).complete (Set.notMem_empty x) top₃)

omit h top in
/-- The defensive pairing of a rendezvous is never taken. -/
theorem resumeSend_unbuffered (hx : σ.status x = some (.blocked (.channelSend c)))
    (hcap : (E.program.resource c).capacity = 0) : E.resumeSend σ x f fr c = .ok .empty := by
  obtain ⟨p, hp, -⟩ := (hw.regs.iff x (.channelSend c) rfl).mpr hx
  rw [Engine.resumeSend]
  cases hch : σ.store.channels[c]? with
  | none => rfl
  | some ch =>
      obtain ⟨hse, hre, -⟩ := views_of_channel hch
      have hnil : ch.pendingRecv = [] := by
        rcases hw.stores.rendezvous c hcap with hs | hr
        · simp [hs] at hp
        · rwa [← hre]
      simp only [hcap, if_true, hnil]
      split <;> rfl

omit h top in
theorem resumeRecv_unbuffered (hx : σ.status x = some (.blocked (.channelRecv c)))
    (hcap : (E.program.resource c).capacity = 0) : E.resumeRecv σ x f fr c = .ok .empty := by
  have hmem : x ∈ σ.recvs c := (hw.regs.iff x (.channelRecv c) rfl).mpr hx
  rw [Engine.resumeRecv]
  cases hch : σ.store.channels[c]? with
  | none => rfl
  | some ch =>
      obtain ⟨hse, hre, -⟩ := views_of_channel hch
      have hnil : ch.pendingSend = [] := by
        rcases hw.stores.rendezvous c hcap with hs | hr
        · rwa [← hse]
        · simp [hr] at hmem
      simp only [hcap, if_true, hnil]

theorem agrees_resume {r : BlockReason} (hb : t.status = .blocked r)
    (hwt : WaitToken σ x f r tok) : Agrees E.program (E.resumeOp σ x f fr r)
      ((wakeOps E.program r).map (fireWait E m tok)) := by
  have hx : σ.status x = some (.blocked r) := by rw [top.status, hb]
  cases hwt with
  | lock r => exact agrees_resumeLock h hw top hb
  | semaphore r n hq => exact agrees_resumeSemaphore h hw top hb hq
  | send c v hp =>
      rw [wakeOps]
      split_ifs with hcap
      · rw [Engine.resumeOp, resumeSend_unbuffered hw hx hcap]
        exact .stay (by simp)
      · exact agrees_resumeSend h hw top hb hp hcap
  | recv c =>
      rw [wakeOps]
      split_ifs with hcap
      · rw [Engine.resumeOp, resumeRecv_unbuffered hw hx hcap]
        exact .stay (by simp)
      · exact agrees_resumeRecv h hw top hb hcap
  | condvar cv lk => exact .stay (by simp [wakeOps])
  | join k => exact .stay (by simp [wakeOps])
  | scope s => exact .stay (by simp [wakeOps])

end Resume

end Petri

end ConcIR
