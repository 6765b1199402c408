import ConcIR.Interp.State

/-!
# Views of a machine state

What an update does to a lookup, one lemma for each update and view.
-/

namespace ConcIR

abbrev ThreadState.HasChild (t : ThreadState) (h : HandleId) (c : ThreadId) : Prop :=
  t.handleChildren[h]? = some c

abbrev Frame.HasHandle (fr : Frame) (name : String) (h : HandleId) : Prop :=
  fr.handles[name]? = some h

namespace MachineState

variable (σ : MachineState)

abbrev HasThread (x : ThreadId) (t : ThreadState) : Prop := σ.threads[x]? = some t

abbrev HasFrame (f : FrameId) (fr : Frame) : Prop := σ.store.frames[f]? = some fr

abbrev HasScope (s : ScopeId) (sc : ScopeState) : Prop := σ.scopes[s]? = some sc

def status (x : ThreadId) : Option ThreadStatus := σ.threads[x]?.map (·.status)

def sends (c : ResourceId) : List PendingSend :=
  (σ.store.channels[c]?.map (·.pendingSend)).getD []

def recvs (c : ResourceId) : List ThreadId :=
  (σ.store.channels[c]?.map (·.pendingRecv)).getD []

def buffer (c : ResourceId) : List Value := (σ.store.channels[c]?.map (·.buffer)).getD []

def waiters (cv : ResourceId) : List (ThreadId × ResourceId) :=
  (σ.store.condvars[cv]?.map (·.waiters)).getD []

def semQueue (r : ResourceId) : List (ThreadId × ℤ) := σ.semWaiters[r]?.getD []

section Threads

theorem getElem?_modifyThread (tid x : ThreadId) (f : ThreadState → ThreadState) :
    (σ.modifyThread tid f).threads[x]? =
      if x = tid then σ.threads[x]?.map f else σ.threads[x]? := by
  grind [modifyThread]

theorem status_setStatus (tid x : ThreadId) (st : ThreadStatus) :
    (σ.setStatus tid st).status x = if x = tid then (σ.status x).map (fun _ ↦ st)
      else σ.status x := by
  grind [setStatus, modifyThread, status]

theorem getElem?_modifyFrame (fid f : FrameId) (g : Frame → Frame) :
    (σ.modifyFrame fid g).store.frames[f]? =
      if f = fid then σ.store.frames[f]?.map g else σ.store.frames[f]? := by
  grind [modifyFrame]

end Threads

section Records

@[simp] theorem advance_records (x : ThreadId) :
    (σ.advance x).threads = σ.threads ∧ (σ.advance x).scopes = σ.scopes ∧
      (σ.advance x).alloc = σ.alloc := by
  rw [advance]
  cases σ.currentFrameId x <;> exact ⟨rfl, rfl, rfl⟩

@[simp] theorem writeDst_records (k : FrameId) (dst : SlotRef) (v : Value) :
    (σ.writeDst k dst v).threads = σ.threads ∧ (σ.writeDst k dst v).scopes = σ.scopes ∧
      (σ.writeDst k dst v).alloc = σ.alloc := by
  cases dst <;> exact ⟨rfl, rfl, rfl⟩

end Records

section Tables

variable {σ}

theorem sends_modifyChannel (c d : ResourceId) (f : ChannelState → ChannelState) :
    (σ.modifyChannel c f).sends d = if d = c then
      (σ.store.channels[c]?.map fun ch ↦ (f ch).pendingSend).getD [] else σ.sends d := by
  grind [modifyChannel, sends]

theorem recvs_modifyChannel (c d : ResourceId) (f : ChannelState → ChannelState) :
    (σ.modifyChannel c f).recvs d = if d = c then
      (σ.store.channels[c]?.map fun ch ↦ (f ch).pendingRecv).getD [] else σ.recvs d := by
  grind [modifyChannel, recvs]

theorem buffer_modifyChannel (c d : ResourceId) (f : ChannelState → ChannelState) :
    (σ.modifyChannel c f).buffer d = if d = c then
      (σ.store.channels[c]?.map fun ch ↦ (f ch).buffer).getD [] else σ.buffer d := by
  grind [modifyChannel, buffer]

@[simp] theorem contains_modifyChannel (c d : ResourceId) (f : ChannelState → ChannelState) :
    (σ.modifyChannel c f).store.channels.contains d = σ.store.channels.contains d := by
  grind [modifyChannel]

theorem sends_pushSend {c : ResourceId} (hc : σ.store.channels.contains c = true)
    (p : PendingSend) (d : ResourceId) :
    (σ.pushSend c p).sends d = if d = c then σ.sends d ++ [p] else σ.sends d := by
  grind [pushSend, sends_modifyChannel, sends]

@[simp] theorem pushSend_views (c : ResourceId) (p : PendingSend) (d : ResourceId) :
    (σ.pushSend c p).recvs d = σ.recvs d ∧ (σ.pushSend c p).buffer d = σ.buffer d := by
  grind [pushSend, recvs_modifyChannel, buffer_modifyChannel, recvs, buffer]

theorem recvs_pushRecv {c : ResourceId} (hc : σ.store.channels.contains c = true)
    (x : ThreadId) (d : ResourceId) :
    (σ.pushRecv c x).recvs d = if d = c then σ.recvs d ++ [x] else σ.recvs d := by
  grind [pushRecv, recvs_modifyChannel, recvs]

@[simp] theorem pushRecv_views (c : ResourceId) (x : ThreadId) (d : ResourceId) :
    (σ.pushRecv c x).sends d = σ.sends d ∧ (σ.pushRecv c x).buffer d = σ.buffer d := by
  grind [pushRecv, sends_modifyChannel, buffer_modifyChannel, sends, buffer]

theorem sends_dropSend (c : ResourceId) (x : ThreadId) (d : ResourceId) :
    (σ.dropSend c x).sends d =
      if d = c then (σ.sends d).filter (·.thread ≠ x) else σ.sends d := by
  grind [dropSend, sends_modifyChannel, sends]

@[simp] theorem dropSend_views (c : ResourceId) (x : ThreadId) (d : ResourceId) :
    (σ.dropSend c x).recvs d = σ.recvs d ∧ (σ.dropSend c x).buffer d = σ.buffer d := by
  grind [dropSend, recvs_modifyChannel, buffer_modifyChannel, recvs, buffer]

theorem recvs_dropRecv (c : ResourceId) (x : ThreadId) (d : ResourceId) :
    (σ.dropRecv c x).recvs d = if d = c then (σ.recvs d).filter (· ≠ x) else σ.recvs d := by
  grind [dropRecv, recvs_modifyChannel, recvs]

@[simp] theorem dropRecv_views (c : ResourceId) (x : ThreadId) (d : ResourceId) :
    (σ.dropRecv c x).sends d = σ.sends d ∧ (σ.dropRecv c x).buffer d = σ.buffer d := by
  grind [dropRecv, sends_modifyChannel, buffer_modifyChannel, sends, buffer]

theorem buffer_pushBuffer {c : ResourceId} (hc : σ.store.channels.contains c = true)
    (v : Value) (d : ResourceId) :
    (σ.pushBuffer c v).buffer d = if d = c then σ.buffer d ++ [v] else σ.buffer d := by
  grind [pushBuffer, buffer_modifyChannel, buffer]

@[simp] theorem pushBuffer_views (c : ResourceId) (v : Value) (d : ResourceId) :
    (σ.pushBuffer c v).sends d = σ.sends d ∧ (σ.pushBuffer c v).recvs d = σ.recvs d := by
  grind [pushBuffer, sends_modifyChannel, recvs_modifyChannel, sends, recvs]

theorem buffer_popBuffer (c d : ResourceId) :
    (σ.popBuffer c).buffer d = if d = c then (σ.buffer d).tail else σ.buffer d := by
  grind [popBuffer, buffer_modifyChannel, buffer]

@[simp] theorem popBuffer_views (c d : ResourceId) :
    (σ.popBuffer c).sends d = σ.sends d ∧ (σ.popBuffer c).recvs d = σ.recvs d := by
  grind [popBuffer, sends_modifyChannel, recvs_modifyChannel, sends, recvs]

theorem waiters_modifyWaiters {cv : ResourceId} (hc : σ.store.condvars.contains cv = true)
    (f : List (ThreadId × ResourceId) → List (ThreadId × ResourceId)) (d : ResourceId) :
    (σ.modifyWaiters cv f).waiters d = if d = cv then f (σ.waiters d) else σ.waiters d := by
  grind [modifyWaiters, waiters]

@[simp] theorem contains_modifyWaiters (cv d : ResourceId)
    (f : List (ThreadId × ResourceId) → List (ThreadId × ResourceId)) :
    (σ.modifyWaiters cv f).store.condvars.contains d = σ.store.condvars.contains d := by
  grind [modifyWaiters]

theorem semQueue_pushSemWaiter (r : ResourceId) (w : ThreadId × ℤ) (d : ResourceId) :
    (σ.pushSemWaiter r w).semQueue d =
      if d = r then σ.semQueue d ++ [w] else σ.semQueue d := by
  grind [pushSemWaiter, semQueue]

theorem semQueue_dropSemWaiter (r : ResourceId) (x : ThreadId) (d : ResourceId) :
    (σ.dropSemWaiter r x).semQueue d =
      if d = r then (σ.semQueue d).filter (·.1 ≠ x) else σ.semQueue d := by
  grind [dropSemWaiter, semQueue]

end Tables

end MachineState

end ConcIR
