import ConcIR.Machine.Tables

/-!
# What a step does to a channel

Which threads go past a send or a receive in a step, what is queued and what is taken.
-/

namespace ConcIR

open MachineState

variable {E : Engine} {P : SemProgram} {σ σ' σ₁ : MachineState} {x y : ThreadId}
  {t u : ThreadState} {f g : FrameId} {fr gr : Frame} {op : SemOp} {c : ResourceId}

/-- A thread goes past the statement it stood at. -/
def passed (σ σ' : MachineState) (y : ThreadId) : Bool :=
  decide (σ'.status y = some .runnable) &&
    decide ((σ'.currentFrame y).map (fun fr ↦ (fr.id, fr.pc)) =
      (σ.currentFrame y).map fun fr ↦ (fr.id, fr.pc + 1))

/-- The value in a destination of an activation. -/
def MachineState.read (σ : MachineState) (f : FrameId) : SlotRef → Option Value
  | .localSlot slot => (σ.store.frames[f]?).bind (·.locals[slot]?)
  | .shared r => σ.store.readShared r
  | .discard => none

namespace Engine

variable (E)

/-- The expression of the send on the channel that a thread stands at. -/
def sending (c : ResourceId) (σ : MachineState) (y : ThreadId) : Option LExpr :=
  match E.statement σ y with
  | some (.channelSend d e) => if d = c then some e else none
  | _ => none

/-- The destination of the receive from the channel that a thread stands at. -/
def receiving (c : ResourceId) (σ : MachineState) (y : ThreadId) : Option SlotRef :=
  match E.statement σ y with
  | some (.channelRecv d dst) => if d = c then some dst else none
  | _ => none

/-- The threads that complete a send on the channel in a step. -/
def sendersDone (c : ResourceId) (σ σ' : MachineState) : List ThreadId :=
  σ.threads.keys.filter fun y ↦ (E.sending c σ y).isSome && passed σ σ' y

/-- The threads that complete a receive from the channel in a step. -/
def receiversDone (c : ResourceId) (σ σ' : MachineState) : List ThreadId :=
  σ.threads.keys.filter fun y ↦ (E.receiving c σ y).isSome && passed σ σ' y

variable [FloatArith]

/-- The value of the send that a runnable thread tries in a step. -/
def attempt (c : ResourceId) (σ : MachineState) (x : ThreadId) : Option Value :=
  if σ.status x = some .runnable then
    (E.sending c σ x).bind fun e ↦ (σ.currentFrame x).bind fun fr ↦ (E.evalIn σ fr e).toOption
  else none

end Engine

/-- What a step of thread `x` does to a channel. -/
inductive ChannelStep [FloatArith] (E : Engine) (c : ResourceId) (σ : MachineState)
    (x : ThreadId) (σ' : MachineState) : Prop
  | idle (hsends : σ'.sends c = σ.sends c) (hbuffer : σ'.buffer c = σ.buffer c)
      (hat : E.attempt c σ x = none) (hs : E.sendersDone c σ σ' = [])
      (hr : E.receiversDone c σ σ' = [])
  | suspend {v : Value} (hsends : σ'.sends c = σ.sends c ++ [⟨x, v⟩])
      (hbuffer : σ'.buffer c = σ.buffer c)
      (hat : E.attempt c σ x = some v) (hs : E.sendersDone c σ σ' = [])
      (hr : E.receiversDone c σ σ' = [])
  | enqueue {v : Value} (hcap : (E.program.resource c).capacity ≠ 0)
      (hsends : σ'.sends c = σ.sends c)
      (hbuffer : σ'.buffer c = σ.buffer c ++ [v])
      (hat : E.attempt c σ x = some v) (hs : E.sendersDone c σ σ' = [x])
      (hr : E.receiversDone c σ σ' = [])
  | resume {v : Value} (hcap : (E.program.resource c).capacity ≠ 0) (hp : ⟨x, v⟩ ∈ σ.sends c)
      (hsends : σ'.sends c = (σ.sends c).filter (·.thread ≠ x))
      (hbuffer : σ'.buffer c = σ.buffer c ++ [v])
      (hat : E.attempt c σ x = none) (hs : E.sendersDone c σ σ' = [x])
      (hr : E.receiversDone c σ σ' = [])
  | dequeue {v : Value} {dst : SlotRef} (hcap : (E.program.resource c).capacity ≠ 0)
      (hsends : σ'.sends c = σ.sends c)
      (hbuffer : σ.buffer c = v :: σ'.buffer c) (hdst : E.receiving c σ x = some dst)
      (hread : dst ≠ .discard → (σ.currentFrameId x).bind (σ'.read · dst) = some v)
      (hat : E.attempt c σ x = none) (hs : E.sendersDone c σ σ' = [])
      (hr : E.receiversDone c σ σ' = [x])
  /-- The thread sends to a waiting receiver. -/
  | give {v : Value} {y : ThreadId} {dst : SlotRef} (hcap : (E.program.resource c).capacity = 0)
      (hsends : σ'.sends c = σ.sends c) (hbuffer : σ'.buffer c = σ.buffer c) (hxy : y ≠ x)
      (hdst : E.receiving c σ y = some dst)
      (hread : dst ≠ .discard → (σ.currentFrameId y).bind (σ'.read · dst) = some v)
      (hat : E.attempt c σ x = some v) (hs : E.sendersDone c σ σ' = [x])
      (hr : E.receiversDone c σ σ' = [y])
  /-- The thread receives from a waiting sender. -/
  | take {v : Value} {y : ThreadId} {dst : SlotRef} (hcap : (E.program.resource c).capacity = 0)
      (hp : ⟨y, v⟩ ∈ σ.sends c) (hsends : σ'.sends c = (σ.sends c).filter (·.thread ≠ y))
      (hbuffer : σ'.buffer c = σ.buffer c) (hxy : y ≠ x)
      (hdst : E.receiving c σ x = some dst)
      (hread : dst ≠ .discard → (σ.currentFrameId x).bind (σ'.read · dst) = some v)
      (hat : E.attempt c σ x = none) (hs : E.sendersDone c σ σ' = [y])
      (hr : E.receiversDone c σ σ' = [x])

section Passing

theorem passed_iff (top : Top σ y u g gr) : passed σ σ' y = true ↔
    σ'.status y = some .runnable ∧
      ∃ gr', σ'.currentFrame y = some gr' ∧ gr'.id = gr.id ∧ gr'.pc = gr.pc + 1 := by
  rw [passed, Bool.and_eq_true, decide_eq_true_eq, decide_eq_true_eq, top.currentFrame,
    Option.map_some, Option.map_eq_some_iff]
  simp

theorem passed_frame (hw : Wf P σ) (hw' : Wf P σ') (top : Top σ y u g gr)
    (h : passed σ σ' y = true) : ∃ gr', σ'.HasFrame g gr' ∧ gr'.pc = gr.pc + 1 := by
  obtain ⟨-, gr', hcur, hid, hpc⟩ := (passed_iff top).mp h
  obtain ⟨k, -, hk⟩ := Option.bind_eq_some_iff.mp hcur
  have hkid := (hw'.stack.frame_id k gr' hk).1
  have hgid := (hw.stack.frame_id g gr top.frame).1
  rw [show k = g by rw [← hkid, hid, hgid]] at hk
  exact ⟨gr', hk, hpc⟩

theorem top_of_statement {σ : MachineState} (h : E.statement σ y = some op) :
    ∃ u g gr, Top σ y u g gr ∧ E.program.opAt gr.function gr.pc = some op := by
  obtain ⟨gr, hcur, hop⟩ := Option.bind_eq_some_iff.mp h
  obtain ⟨g, hid, hgr⟩ := Option.bind_eq_some_iff.mp hcur
  obtain ⟨u, hu, hhead⟩ := Option.bind_eq_some_iff.mp hid
  exact ⟨u, g, gr, ⟨hu, hhead, hgr⟩, hop⟩

theorem sending_iff {e : LExpr} : E.sending c σ y = some e ↔
    E.statement σ y = some (.channelSend c e) := by
  rw [Engine.sending]
  split
  case _ d e' hs =>
    rw [hs]
    split_ifs with hd
    · simp [hd]
    · simp [hd]
  case _ hne =>
    constructor
    · intro h
      cases h
    · intro h
      exact absurd h (hne c e)

theorem receiving_iff {dst : SlotRef} : E.receiving c σ y = some dst ↔
    E.statement σ y = some (.channelRecv c dst) := by
  rw [Engine.receiving]
  split
  case _ d e' hs =>
    rw [hs]
    split_ifs with hd
    · simp [hd]
    · simp [hd]
  case _ hne =>
    constructor
    · intro h
      cases h
    · intro h
      exact absurd h (hne c dst)

theorem filter_eq_singleton {α : Type} {l : List α} (hl : l.Nodup) {p : α → Bool} {a : α}
    (ha : a ∈ l) (hp : p a = true) (hno : ∀ b ∈ l, b ≠ a → p b = false) : l.filter p = [a] := by
  refine ((List.perm_ext_iff_of_nodup (hl.filter p) (List.nodup_singleton a)).mpr
    fun b ↦ ?_).eq_singleton
  rw [List.mem_filter, List.mem_singleton]
  constructor
  · rintro ⟨hbl, hpb⟩
    by_contra hne
    rw [hno b hbl hne] at hpb
    cases hpb
  · rintro rfl
    exact ⟨ha, hp⟩

theorem done_eq_singleton (hx : σ.HasThread x t) {p : ThreadId → Bool} (hp : p x = true)
    (hno : ∀ y, y ≠ x → p y = false) : σ.threads.keys.filter p = [x] := by
  refine filter_eq_singleton Std.ExtTreeMap.nodup_keys ?_ hp fun y _ ↦ hno y
  rw [Std.ExtTreeMap.mem_keys, Std.ExtTreeMap.mem_iff_isSome_getElem?,
    show σ.threads[x]? = some t from hx]
  rfl

theorem done_eq_nil {p : ThreadId → Bool} (hno : ∀ y, p y = false) :
    σ.threads.keys.filter p = [] :=
  List.filter_eq_nil_iff.mpr fun y _ ↦ by simp [hno y]

theorem passed_of (top : Top σ x t f fr) (gr : Frame)
    (hst : σ'.status x = some .runnable) (hcur : σ'.currentFrameId x = some f)
    (hf : σ'.HasFrame f gr) (hid : gr.id = fr.id) (hpc : gr.pc = fr.pc + 1) :
    passed σ σ' x = true := by
  refine (passed_iff top).mpr ⟨hst, gr, ?_, hid, hpc⟩
  rw [MachineState.currentFrame, hcur]
  exact hf

theorem passed_advance (top : Top σ x t f fr) (hst : σ₁.status x = some .runnable)
    (hcur : σ₁.currentFrameId x = some f) (hf : σ₁.store.frames[f]? = some gr)
    (hid : gr.id = fr.id) (hpc : gr.pc = fr.pc) : passed σ (σ₁.advance x) x = true := by
  refine passed_of top gr.next ?_ ?_ ?_ hid (congrArg (· + 1) hpc)
  · rw [status_advance, hst]
  · rw [currentFrameId_congr (advance_records σ₁ x).1, hcur]
  · rw [HasFrame, frames_advance, hcur, if_pos rfl, hf]
    rfl

theorem not_passed_of_frame (hw : Wf P σ) (hw' : Wf P σ') (top : Top σ y u g gr)
    (hf : σ'.store.frames[g]? = σ.store.frames[g]?) : passed σ σ' y = false := by
  refine Bool.eq_false_iff.mpr fun h ↦ ?_
  obtain ⟨gr', hgr', hpc⟩ := passed_frame hw hw' top h
  rw [HasFrame, hf, show σ.store.frames[g]? = some gr from top.frame] at hgr'
  rw [← Option.some.inj hgr'] at hpc
  omega

/-- Both parties of a handshake go past their statements. -/
theorem passed_handshake (hw : Wf P σ) (top : Top σ x t f fr) (hrun : t.status = .runnable)
    (topy : Top σ y u g gr) (hxy : y ≠ x) (hth : σ₁.threads = σ.threads) {fr₁ gr₁ : Frame}
    (hf : σ₁.store.frames[f]? = some fr₁) (hfid : fr₁.id = fr.id) (hfpc : fr₁.pc = fr.pc)
    (hg : σ₁.store.frames[g]? = some gr₁) (hgid : gr₁.id = gr.id) (hgpc : gr₁.pc = gr.pc) :
    passed σ ((Engine.complete σ₁ y).advance x) x = true ∧
      passed σ ((Engine.complete σ₁ y).advance x) y = true := by
  have hgf := hw.top_ne top topy.thread hxy topy.mem
  have hcx := (currentFrameId_congr hth x).trans top.currentFrameId
  have hcy := (currentFrameId_congr hth y).trans topy.currentFrameId
  have hstatus : ∀ z, σ₁.status z = σ.status z := fun z ↦ by rw [status, status, hth]
  constructor
  · refine passed_advance top ?_ ((currentFrameId_complete y x).trans hcx)
      (?_ : _ = some fr₁) hfid hfpc
    · rw [status_complete, if_neg hxy.symm, hstatus, top.status, hrun]
    · rw [frames_complete, hcy, if_neg fun he ↦ hgf (Option.some.inj he), hf]
  · refine passed_of topy gr₁.next ?_ ?_ ?_ hgid (congrArg (· + 1) hgpc)
    · rw [status_handshake, if_pos rfl, hstatus, topy.status]
      rfl
    · rw [currentFrameId_congr (advance_records _ x).1, currentFrameId_complete, hcy]
    · rw [HasFrame, frames_handshake hcx hcy hgf.symm, if_pos (.inr rfl), hg]
      rfl

/-- Nobody else does. -/
theorem not_passed_handshake (hw : Wf P σ) (hw' : Wf P ((Engine.complete σ₁ y).advance x))
    (top : Top σ x t f fr) (topy : Top σ y u g gr) (hxy : y ≠ x)
    (hth : σ₁.threads = σ.threads)
    (helse : ∀ k : FrameId, k ≠ f → k ≠ g → σ₁.store.frames[k]? = σ.store.frames[k]?)
    {z : ThreadId} (hzx : z ≠ x) (hzy : z ≠ y) (hz : E.statement σ z = some op) :
    passed σ ((Engine.complete σ₁ y).advance x) z = false := by
  obtain ⟨w, k, kr, topz, -⟩ := top_of_statement hz
  have hkf := hw.top_ne top topz.thread hzx topz.mem
  have hkg := hw.top_ne topy topz.thread hzy topz.mem
  refine not_passed_of_frame hw hw' topz ?_
  rw [frames_handshake ((currentFrameId_congr hth x).trans top.currentFrameId)
    ((currentFrameId_congr hth y).trans topy.currentFrameId)
    (hw.top_ne top topy.thread hxy topy.mem).symm, if_neg (not_or.mpr ⟨hkf, hkg⟩),
    helse k hkf hkg]

theorem sendersDone_eq_nil (h : ∀ y e, E.statement σ y = some (.channelSend c e) →
    passed σ σ' y = false) : E.sendersDone c σ σ' = [] := by
  refine done_eq_nil fun y ↦ ?_
  cases hs : E.sending c σ y with
  | none => rfl
  | some e => simp [h y e (sending_iff.mp hs)]

theorem receiversDone_eq_nil (h : ∀ y dst, E.statement σ y = some (.channelRecv c dst) →
    passed σ σ' y = false) : E.receiversDone c σ σ' = [] := by
  refine done_eq_nil fun y ↦ ?_
  cases hs : E.receiving c σ y with
  | none => rfl
  | some dst => simp [h y dst (receiving_iff.mp hs)]

theorem sendersDone_eq_one {e : LExpr} (hy : E.statement σ y = some (.channelSend c e))
    (hp : passed σ σ' y = true) (h : ∀ z e, z ≠ y → E.statement σ z = some (.channelSend c e) →
      passed σ σ' z = false) : E.sendersDone c σ σ' = [y] := by
  obtain ⟨u, g, gr, topy, -⟩ := top_of_statement hy
  refine done_eq_singleton topy.thread (by simp [sending_iff.mpr hy, hp]) fun z hz ↦ ?_
  cases hs : E.sending c σ z with
  | none => rfl
  | some e => simp [h z e hz (sending_iff.mp hs)]

theorem receiversDone_eq_one {dst : SlotRef}
    (hy : E.statement σ y = some (.channelRecv c dst)) (hp : passed σ σ' y = true)
    (h : ∀ z dst, z ≠ y → E.statement σ z = some (.channelRecv c dst) →
      passed σ σ' z = false) : E.receiversDone c σ σ' = [y] := by
  obtain ⟨u, g, gr, topy, -⟩ := top_of_statement hy
  refine done_eq_singleton topy.thread (by simp [receiving_iff.mpr hy, hp]) fun z hz ↦ ?_
  cases hs : E.receiving c σ z with
  | none => rfl
  | some dst => simp [h z dst hz (receiving_iff.mp hs)]

variable [FloatArith]

/-- A thread that goes past a send in another thread's step is its rendezvous partner. -/
theorem ActivationStep.sender (hw : Wf E.program σ) (hw' : Wf E.program σ')
    (h : ActivationStep E σ x σ') (hxy : y ≠ x) {e : LExpr}
    (hs : E.statement σ y = some (.channelSend c e)) (hp : passed σ σ' y = true) :
    (E.program.resource c).capacity = 0 ∧ (∃ dst, E.statement σ x = some (.channelRecv c dst)) ∧
      σ.status y = some (.blocked (.channelSend c)) := by
  obtain ⟨u, g, gr, topy, hop⟩ := top_of_statement hs
  obtain ⟨gr', hgr', hpc⟩ := passed_frame hw hw' topy hp
  obtain ⟨gr₁, hgr₁, ht⟩ := h.foreign y u g gr topy.thread hxy topy.mem topy.frame
  obtain rfl : gr' = gr₁ := Option.some.inj (hgr'.symm.trans hgr₁)
  have hsame : ∀ {z v}, Top σ z v g gr → z = y ∧ v = u := by
    intro z v topz
    obtain rfl := hw.stack.disjoint z v y u g topz.thread topy.thread topz.mem topy.mem
    exact ⟨rfl, Option.some.inj (topz.thread.symm.trans topy.thread)⟩
  cases ht with
  | same => omega
  | received _ _ _ _ _ _ hop' =>
      rw [hop] at hop'
      cases hop'
  | @sent z v c' dst e' _ _ _ top hopx hcap topz hz hop' =>
      obtain ⟨rfl, -⟩ : c = c' ∧ e = e' := by simpa using hop.symm.trans hop'
      obtain ⟨rfl, rfl⟩ := hsame topz
      exact ⟨hcap, ⟨dst, top.statement.trans hopx⟩, by rw [topz.status, hz]⟩
  | joined hj =>
      have := hop.symm.trans hj.op
      cases this
  | scope _ _ _ _ hop' =>
      rw [hop] at hop'
      cases hop'

/-- A thread that goes past a receive in another thread's step is its rendezvous
partner. -/
theorem ActivationStep.receiver (hw : Wf E.program σ) (hw' : Wf E.program σ')
    (h : ActivationStep E σ x σ') (hxy : y ≠ x) {dst : SlotRef}
    (hs : E.statement σ y = some (.channelRecv c dst)) (hp : passed σ σ' y = true) :
    (E.program.resource c).capacity = 0 ∧ (∃ e, E.statement σ x = some (.channelSend c e)) ∧
      σ.status y = some (.blocked (.channelRecv c)) := by
  obtain ⟨u, g, gr, topy, hop⟩ := top_of_statement hs
  obtain ⟨gr', hgr', hpc⟩ := passed_frame hw hw' topy hp
  obtain ⟨gr₁, hgr₁, ht⟩ := h.foreign y u g gr topy.thread hxy topy.mem topy.frame
  obtain rfl : gr' = gr₁ := Option.some.inj (hgr'.symm.trans hgr₁)
  have hsame : ∀ {z v}, Top σ z v g gr → z = y ∧ v = u := by
    intro z v topz
    obtain rfl := hw.stack.disjoint z v y u g topz.thread topy.thread topz.mem topy.mem
    exact ⟨rfl, Option.some.inj (topz.thread.symm.trans topy.thread)⟩
  cases ht with
  | same => omega
  | @received z v c' e _ _ _ _ dst' top hopx hcap _ topz hz hop' =>
      obtain ⟨rfl, -⟩ : c = c' ∧ dst = dst' := by simpa using hop.symm.trans hop'
      obtain ⟨rfl, rfl⟩ := hsame topz
      exact ⟨hcap, ⟨e, top.statement.trans hopx⟩, by rw [topz.status, hz]⟩
  | sent _ _ _ _ _ hop' =>
      rw [hop] at hop'
      cases hop'
  | joined hj =>
      have := hop.symm.trans hj.op
      cases this
  | scope _ _ _ _ hop' =>
      rw [hop] at hop'
      cases hop'

end Passing

section Stepping

variable [FloatArith]

/-- The other threads stand where they stood, if the step is no receive. -/
theorem ActivationStep.no_sender (hw : Wf E.program σ) (hw' : Wf E.program σ')
    (h : ActivationStep E σ x σ')
    (hx : (E.program.resource c).capacity ≠ 0 ∨
      ∀ dst, E.statement σ x ≠ some (.channelRecv c dst)) (y : ThreadId) (e : LExpr)
    (hyx : y ≠ x) (hs : E.statement σ y = some (.channelSend c e)) :
    passed σ σ' y = false := by
  refine Bool.eq_false_iff.mpr fun hp ↦ ?_
  obtain ⟨hcap, ⟨dst, hdst⟩, -⟩ := h.sender hw hw' hyx hs hp
  rcases hx with hx | hx
  · exact hx hcap
  · exact hx dst hdst

theorem ActivationStep.no_receiver (hw : Wf E.program σ) (hw' : Wf E.program σ')
    (h : ActivationStep E σ x σ')
    (hx : (E.program.resource c).capacity ≠ 0 ∨
      ∀ e, E.statement σ x ≠ some (.channelSend c e)) (y : ThreadId) (dst : SlotRef)
    (hyx : y ≠ x) (hs : E.statement σ y = some (.channelRecv c dst)) :
    passed σ σ' y = false := by
  refine Bool.eq_false_iff.mpr fun hp ↦ ?_
  obtain ⟨hcap, ⟨e, he⟩, -⟩ := h.receiver hw hw' hyx hs hp
  rcases hx with hx | hx
  · exact hx hcap
  · exact hx e he

theorem attempt_eq {e : LExpr} {v : Value} (top : Top σ x t f fr)
    (hrun : t.status = .runnable)
    (hop : E.program.opAt fr.function fr.pc = some (.channelSend c e))
    (hv : E.evalIn σ fr e = .ok v) : E.attempt c σ x = some v := by
  rw [Engine.attempt, if_pos (by rw [top.status, hrun]),
    sending_iff.mpr (top.statement.trans hop), Option.bind_some, top.currentFrame,
    Option.bind_some, hv]
  rfl

theorem attempt_none (h : σ.status x = some .runnable →
    ∀ e, E.statement σ x ≠ some (.channelSend c e)) : E.attempt c σ x = none := by
  rw [Engine.attempt]
  split_ifs with hst
  · cases hs : E.sending c σ x with
    | none => rfl
    | some e => exact absurd (sending_iff.mp hs) (h hst e)
  · rfl

/-- A step of a thread that stands at no statement about the channel. -/
theorem ChannelStep.of_other (hw : Wf E.program σ) (hw' : Wf E.program σ')
    (h : ActivationStep E σ x σ') (hsends : σ'.sends c = σ.sends c)
    (hbuffer : σ'.buffer c = σ.buffer c)
    (hs : ∀ e, E.statement σ x ≠ some (.channelSend c e))
    (hr : ∀ dst, E.statement σ x ≠ some (.channelRecv c dst)) : ChannelStep E c σ x σ' := by
  refine .idle hsends hbuffer (attempt_none fun _ ↦ hs) (sendersDone_eq_nil fun y e hy ↦ ?_)
    (receiversDone_eq_nil fun y dst hy ↦ ?_)
  · by_cases hyx : y = x
    · exact absurd (hyx ▸ hy) (hs e)
    · exact h.no_sender hw hw' (.inr hr) y e hyx hy
  · by_cases hyx : y = x
    · exact absurd (hyx ▸ hy) (hr dst)
    · exact h.no_receiver hw hw' (.inr hs) y dst hyx hy

theorem ChannelStep.of_marked {fn : FunctionId} {pc : ℕ}
    (h : ChannelStep E c (σ.markReached fn pc) x σ') : ChannelStep E c σ x σ' := by
  cases h with
  | idle hsends hbuffer hat hs hr => exact .idle hsends hbuffer hat hs hr
  | suspend hsends hbuffer hat hs hr => exact .suspend hsends hbuffer hat hs hr
  | enqueue hcap hsends hbuffer hat hs hr => exact .enqueue hcap hsends hbuffer hat hs hr
  | resume hcap hp hsends hbuffer hat hs hr => exact .resume hcap hp hsends hbuffer hat hs hr
  | dequeue hcap hsends hbuffer hdst hread hat hs hr =>
      exact .dequeue hcap hsends hbuffer hdst hread hat hs hr
  | give hcap hsends hbuffer hxy hdst hread hat hs hr =>
      exact .give hcap hsends hbuffer hxy hdst hread hat hs hr
  | take hcap hp hsends hbuffer hxy hdst hread hat hs hr =>
      exact .take hcap hp hsends hbuffer hxy hdst hread hat hs hr

end Stepping

section Reading

theorem read_advance (σ : MachineState) (x : ThreadId) (f : FrameId) (dst : SlotRef) :
    (σ.advance x).read f dst = σ.read f dst := by
  cases dst with
  | localSlot slot =>
      rw [MachineState.read, MachineState.read, frames_advance]
      split_ifs
      · cases σ.store.frames[f]? <;> rfl
      · rfl
  | shared r =>
      rw [MachineState.read, MachineState.read, (SameTables.advance (.refl σ) x).store]
      rfl
  | discard => rfl

theorem read_complete (σ : MachineState) (x : ThreadId) (f : FrameId) (dst : SlotRef) :
    (Engine.complete σ x).read f dst = σ.read f dst := by
  rw [Engine.complete, read_advance]
  cases dst <;> rfl

theorem read_writeDst {dst : SlotRef} {v : Value} (hf : σ.HasFrame f fr)
    (hd : dst ≠ .discard) : (σ.writeDst f dst v).read f dst = some v := by
  cases dst with
  | localSlot slot =>
      rw [MachineState.read, frames_writeDst, if_pos rfl, hf]
      simp [Frame.put]
  | shared r =>
      simp only [MachineState.read, writeDst, Store.readShared, Store.writeShared]
      split_ifs with hr
      · simp
      · rw [Bool.not_eq_true, Std.ExtTreeMap.contains_eq_isSome_getElem?,
          Option.isSome_eq_false_iff, Option.isNone_iff_eq_none] at hr
        simp [hr]
  | discard => exact absurd rfl hd

end Reading

section Classifying

theorem channels_advance (σ : MachineState) (x : ThreadId) :
    (σ.advance x).store.channels = σ.store.channels := by
  rw [(SameTables.advance (.refl σ) x).store]

theorem channels_writeDst (σ : MachineState) (k : FrameId) (dst : SlotRef) (v : Value) :
    (σ.writeDst k dst v).store.channels = σ.store.channels := by
  cases dst with
  | shared r =>
      simp only [writeDst, Store.writeShared]
      split_ifs <;> rfl
  | _ => rfl

theorem views_congr (h : σ'.store.channels = σ.store.channels) (c : ResourceId) :
    σ'.sends c = σ.sends c ∧ σ'.recvs c = σ.recvs c ∧ σ'.buffer c = σ.buffer c := by
  simp only [sends, recvs, buffer, h, and_self]

variable [FloatArith]

theorem Local.channels (h : Local E σ x f fr op σ') (hs : ∀ d e, op ≠ .channelSend d e)
    (hr : ∀ d dst, op ≠ .channelRecv d dst) : σ'.store.channels = σ.store.channels := by
  cases h with
  | send d e v => exact absurd rfl (hs d e)
  | recv d dst v => exact absurd rfl (hr d dst)
  | read r dst v σ₁ _ hw | load r dst v σ₁ _ hw =>
      rw [channels_advance, tryWriteDst_eq hw, channels_writeDst]
  | cas r e d dst exp des old σ₁ _ _ _ _ hw =>
      rw [channels_advance]
      split_ifs
      · exact (congrArg (·.store.channels) (tryWriteDst_eq hw)).trans (channels_writeDst _ _ _ _)
      · rw [tryWriteDst_eq hw, channels_writeDst]
  | assign target e v => rw [channels_advance, channels_writeDst]
  | skipCall k args dst _ =>
      rw [channels_advance, (SameTables.recordCompletion (E := E) (.refl σ) k).store]
  | goto | branch | switch => rfl
  | _ => exact channels_advance _ x

theorem Local.channelStep (hw : Wf E.program σ) (hw' : Wf E.program σ')
    (hact : ActivationStep E σ x σ') (top : Top σ x t f fr) (hrun : t.status = .runnable)
    (hop : E.program.opAt fr.function fr.pc = some op) (h : Local E σ x f fr op σ') :
    ChannelStep E c σ x σ' := by
  have hst := top.statement.trans hop
  have hok := SemProgram.opAt_ok hop
  by_cases hs : ∃ e, op = .channelSend c e
  · obtain ⟨e, rfl⟩ := hs
    cases h with
    | send _ _ v hv _ hcap _ =>
        have hc : σ.store.channels.contains c = true := by
          rw [hw.stores.channels]
          exact hok
        have hvw := views_congr (channels_advance (σ.pushBuffer c v) x) c
        have hp : passed σ ((σ.pushBuffer c v).advance x) x = true :=
          passed_advance top (top.status.trans (by rw [hrun])) top.currentFrameId top.frame rfl rfl
        refine .enqueue (v := v) hcap ?_ ?_ (attempt_eq top hrun hop hv)
          (sendersDone_eq_one hst hp fun y e hy ↦ hact.no_sender hw hw' (.inl hcap) y e hy)
          (receiversDone_eq_nil fun y dst hy ↦ ?_)
        · rw [hvw.1, (pushBuffer_views c v c).1]
        · rw [hvw.2.2, buffer_pushBuffer hc, if_pos rfl]
        · refine hact.no_receiver hw hw' (.inl hcap) y dst (fun hyx ↦ ?_) hy
          rw [hyx, hst] at hy
          cases hy
  by_cases hr : ∃ dst, op = .channelRecv c dst
  · obtain ⟨dst, rfl⟩ := hr
    cases h with
    | recv _ _ v vs σ₁ hcap hb hwr =>
        have heq := tryWriteDst_eq hwr
        have hth := (tryWriteDst_records hwr).1
        have hfr : σ₁.store.frames[f]? = some (fr.put dst v) := by
          rw [heq, frames_writeDst, if_pos rfl, show σ.store.frames[f]? = some fr from top.frame]
          rfl
        have hp : passed σ ((σ₁.popBuffer c).advance x) x = true := by
          refine passed_advance top ?_ ((currentFrameId_congr hth x).trans top.currentFrameId)
            hfr ?_ ?_
          · rw [← hrun, ← top.status]
            exact congrArg (fun m ↦ m[x]?.map ThreadState.status) hth
          · cases dst <;> rfl
          · cases dst <;> rfl
        have hvw := views_congr (channels_advance (σ₁.popBuffer c) x) c
        have hvw₁ := views_congr (channels_writeDst σ f dst v) c
        refine .dequeue (v := v) hcap ?_ ?_ (receiving_iff.mpr hst) (fun hd ↦ ?_)
          (attempt_none fun _ e he ↦ ?_) (sendersDone_eq_nil fun y e hy ↦ ?_)
          (receiversDone_eq_one hst hp fun y dst' hyx hy ↦
            hact.no_receiver hw hw' (.inl hcap) y dst' hyx hy)
        · rw [hvw.1, (popBuffer_views c c).1, heq, hvw₁.1]
        · rw [hvw.2.2, buffer_popBuffer, if_pos rfl, heq, hvw₁.2.2, hb, List.tail_cons]
        · rw [top.currentFrameId, Option.bind_some, read_advance]
          change σ₁.read f dst = some v
          rw [heq, read_writeDst top.frame hd]
        · rw [hst] at he
          cases he
        · refine hact.no_sender hw hw' (.inl hcap) y e (fun hyx ↦ ?_) hy
          rw [hyx, hst] at hy
          cases hy
  -- The statement is about another channel, or about none.
  have hviews : σ'.sends c = σ.sends c ∧ σ'.buffer c = σ.buffer c := by
    by_cases hsend : ∃ d e, op = .channelSend d e
    · obtain ⟨d, e, rfl⟩ := hsend
      cases h with
      | send _ _ v _ _ _ _ =>
          have hdc : c ≠ d := fun hdc ↦ hs ⟨e, by rw [hdc]⟩
          have hd : σ.store.channels.contains d = true := by
            rw [hw.stores.channels]
            exact hok
          have hvw := views_congr (channels_advance (σ.pushBuffer d v) x) c
          exact ⟨by rw [hvw.1, (pushBuffer_views d v c).1],
            by rw [hvw.2.2, buffer_pushBuffer hd, if_neg hdc]⟩
    by_cases hrecv : ∃ d dst, op = .channelRecv d dst
    · obtain ⟨d, dst, rfl⟩ := hrecv
      cases h with
      | recv _ _ v vs σ₁ _ _ hwr =>
          have hdc : c ≠ d := fun hdc ↦ hr ⟨dst, by rw [hdc]⟩
          have hvw := views_congr (channels_advance (σ₁.popBuffer d) x) c
          have hvw₁ := views_congr (channels_writeDst σ f dst v) c
          rw [hvw.1, hvw.2.2, (popBuffer_views d c).1, buffer_popBuffer, if_neg hdc,
            tryWriteDst_eq hwr]
          exact ⟨hvw₁.1, hvw₁.2.2⟩
    have hvw := views_congr (h.channels (fun d e he ↦ hsend ⟨d, e, he⟩)
      fun d dst hd ↦ hrecv ⟨d, dst, hd⟩) c
    exact ⟨hvw.1, hvw.2.2⟩
  refine .of_other hw hw' hact hviews.1 hviews.2 (fun e he ↦ hs ⟨e, ?_⟩) fun dst hd ↦ hr ⟨dst, ?_⟩
  · exact Option.some.inj (hst.symm.trans he)
  · exact Option.some.inj (hst.symm.trans hd)

theorem Blocks.channelStep (hw : Wf E.program σ) {r : BlockReason}
    (hw' : Wf E.program (σ'.block x r)) (hact : ActivationStep E σ x (σ'.block x r))
    (top : Top σ x t f fr) (hrun : t.status = .runnable)
    (hop : E.program.opAt fr.function fr.pc = some op) (h : Blocks E σ x fr op r σ') :
    ChannelStep E c σ x (σ'.block x r) := by
  have hst := top.statement.trans hop
  have hok := SemProgram.opAt_ok hop
  -- No activation changes, so nobody goes past a statement.
  have hno : ∀ y op, E.statement σ y = some op → passed σ (σ'.block x r) y = false := by
    intro y op hy
    obtain ⟨u, g, gr, topy, -⟩ := top_of_statement hy
    exact not_passed_of_frame hw hw' topy (congrArg (·[g]?) h.frames)
  have hs : E.sendersDone c σ (σ'.block x r) = [] := sendersDone_eq_nil fun y _ hy ↦ hno y _ hy
  have hr : E.receiversDone c σ (σ'.block x r) = [] :=
    receiversDone_eq_nil fun y _ hy ↦ hno y _ hy
  have hidle : ∀ (hsends : σ'.sends c = σ.sends c) (hbuffer : σ'.buffer c = σ.buffer c)
      (hnot : ∀ e, op ≠ .channelSend c e), ChannelStep E c σ x (σ'.block x r) :=
    fun hsends hbuffer hnot ↦ .idle hsends hbuffer
      (attempt_none fun _ e he ↦ hnot e (Option.some.inj (hst.symm.trans he))) hs hr
  cases h with
  | send d e v hv _ _ _ =>
      have hd : σ.store.channels.contains d = true := by
        rw [hw.stores.channels]
        exact hok
      by_cases hdc : c = d
      · subst hdc
        refine .suspend ?_ (pushSend_views c ⟨x, v⟩ c).2 (attempt_eq top hrun hop hv) hs hr
        exact (sends_pushSend hd ⟨x, v⟩ c).trans (if_pos rfl)
      · refine hidle ((sends_pushSend hd ⟨x, v⟩ c).trans (if_neg hdc))
          (pushSend_views d ⟨x, v⟩ c).2 fun e' he ↦ hdc ?_
        exact (SemOp.channelSend.inj he).1.symm
  | recv d dst _ _ => exact hidle (pushRecv_views d x c).1 (pushRecv_views d x c).2 (by simp)
  | _ => exact hidle rfl rfl (by simp)

theorem Pairs.channelStep (hw : Wf E.program σ) (hw' : Wf E.program σ')
    (hact : ActivationStep E σ x σ') (top : Top σ x t f fr) (hrun : t.status = .runnable)
    (hop : E.program.opAt fr.function fr.pc = some op) (h : Pairs E σ x f fr op σ') :
    ChannelStep E c σ x σ' := by
  have hst := top.statement.trans hop
  cases h with
  | send d e v y u g gr dst σ₁ hv _ hcap hy topy hopy hwr =>
      have heq := tryWriteDst_eq hwr
      have hth : (σ₁.dropRecv d y).threads = σ.threads := (tryWriteDst_records hwr).1
      have hb := hw.mem_recvs d hy
      have hxy : y ≠ x := by
        rintro rfl
        rw [top.status, hrun] at hb
        cases hb
      have hgf := hw.waiting_ne hrun top hb topy
      have helse : ∀ k : FrameId, k ≠ f → k ≠ g →
          (σ₁.dropRecv d y).store.frames[k]? = σ.store.frames[k]? := fun k _ hkg ↦ by
        rw [heq]
        exact writeDst_elsewhere hkg dst v
      have hff : (σ₁.dropRecv d y).store.frames[f]? = some fr := by
        rw [heq]
        exact (writeDst_elsewhere hgf.symm dst v).trans top.frame
      have hgg : (σ₁.dropRecv d y).store.frames[g]? = some (gr.put dst v) := by
        rw [heq]
        refine (frames_writeDst σ g dst v g).trans ?_
        rw [if_pos rfl, show σ.store.frames[g]? = some gr from topy.frame]
        rfl
      obtain ⟨hpx, hpy⟩ := passed_handshake hw top hrun topy hxy hth hff rfl rfl hgg
        (by cases dst <;> rfl) (by cases dst <;> rfl)
      have hch : ((Engine.complete (σ₁.dropRecv d y) y).advance x).store.channels =
          (σ₁.dropRecv d y).store.channels := by
        rw [channels_advance, Engine.complete, channels_advance]
        rfl
      have hvw := views_congr hch c
      have hvw₁ := views_congr (channels_writeDst σ g dst v) c
      have hsends : ((Engine.complete (σ₁.dropRecv d y) y).advance x).sends c = σ.sends c := by
        rw [hvw.1, (dropRecv_views d y c).1, heq, hvw₁.1]
      have hbuffer : ((Engine.complete (σ₁.dropRecv d y) y).advance x).buffer c =
          σ.buffer c := by
        rw [hvw.2.2, (dropRecv_views d y c).2, heq, hvw₁.2.2]
      by_cases hdc : d = c
      · subst hdc
        have hsy := topy.statement.trans hopy
        refine .give (v := v) hcap hsends hbuffer hxy (receiving_iff.mpr hsy) (fun hd ↦ ?_)
          (attempt_eq top hrun hop hv)
          (sendersDone_eq_one hst hpx fun z e' hzx hz ↦ ?_)
          (receiversDone_eq_one hsy hpy fun z dst' hzy hz ↦ ?_)
        · rw [topy.currentFrameId, Option.bind_some, read_advance, read_complete]
          change σ₁.read g dst = some v
          rw [heq, read_writeDst topy.frame hd]
        · refine not_passed_handshake hw hw' top topy hxy hth helse hzx (fun hzy ↦ ?_) hz
          rw [hzy, hsy] at hz
          cases hz
        · refine not_passed_handshake hw hw' top topy hxy hth helse (fun hzx ↦ ?_) hzy hz
          rw [hzx, hst] at hz
          cases hz
      · refine .of_other hw hw' hact hsends hbuffer (fun e' he ↦ hdc ?_) fun dst' hd ↦ ?_
        · exact (SemOp.channelSend.inj (Option.some.inj (hst.symm.trans he))).1
        · cases Option.some.inj (hst.symm.trans hd)
  | recv d dst p σ₁ hcap hp hwr =>
      have heq := tryWriteDst_eq hwr
      have hth : (σ₁.dropSend d p.thread).threads = σ.threads := (tryWriteDst_records hwr).1
      have hb := hw.mem_sends d hp
      obtain ⟨u, g, gr, opy, topy, -, hopy, e, rfl⟩ := hw.blocked_thread hb
      have hxy : p.thread ≠ x := fun he ↦ by
        rw [he, top.status, hrun] at hb
        cases hb
      have hgf := hw.waiting_ne hrun top hb topy
      have helse : ∀ k : FrameId, k ≠ f → k ≠ g →
          (σ₁.dropSend d p.thread).store.frames[k]? = σ.store.frames[k]? := fun k hkf _ ↦ by
        rw [heq]
        exact writeDst_elsewhere hkf dst p.value
      have hff : (σ₁.dropSend d p.thread).store.frames[f]? = some (fr.put dst p.value) := by
        rw [heq]
        refine (frames_writeDst σ f dst p.value f).trans ?_
        rw [if_pos rfl, show σ.store.frames[f]? = some fr from top.frame]
        rfl
      have hgg : (σ₁.dropSend d p.thread).store.frames[g]? = some gr := by
        rw [heq]
        exact (writeDst_elsewhere hgf dst p.value).trans topy.frame
      obtain ⟨hpx, hpy⟩ := passed_handshake hw top hrun topy hxy hth hff
        (by cases dst <;> rfl) (by cases dst <;> rfl) hgg rfl rfl
      have hch : ((Engine.complete (σ₁.dropSend d p.thread) p.thread).advance x).store.channels =
          (σ₁.dropSend d p.thread).store.channels := by
        rw [channels_advance, Engine.complete, channels_advance]
        rfl
      have hvw := views_congr hch c
      have hvw₁ := views_congr (channels_writeDst σ f dst p.value) c
      have hbuffer : ((Engine.complete (σ₁.dropSend d p.thread) p.thread).advance x).buffer c =
          σ.buffer c := by
        rw [hvw.2.2, (dropSend_views d p.thread c).2, heq, hvw₁.2.2]
      by_cases hdc : d = c
      · subst hdc
        have hsy := topy.statement.trans hopy
        refine .take (v := p.value) hcap hp ?_ hbuffer hxy (receiving_iff.mpr hst) (fun hd ↦ ?_)
          (attempt_none fun _ e' he ↦ ?_)
          (sendersDone_eq_one hsy hpy fun z e' hzy hz ↦ ?_)
          (receiversDone_eq_one hst hpx fun z dst' hzx hz ↦ ?_)
        · rw [hvw.1, sends_dropSend, if_pos rfl, heq, hvw₁.1]
        · rw [top.currentFrameId, Option.bind_some, read_advance, read_complete]
          change σ₁.read f dst = some p.value
          rw [heq, read_writeDst top.frame hd]
        · rw [hst] at he
          cases he
        · refine not_passed_handshake hw hw' top topy hxy hth helse (fun hzx ↦ ?_) hzy hz
          rw [hzx, hst] at hz
          cases hz
        · refine not_passed_handshake hw hw' top topy hxy hth helse hzx (fun hzy ↦ ?_) hz
          rw [hzy, hsy] at hz
          cases hz
      · refine .of_other hw hw' hact ?_ hbuffer (fun e' he ↦ ?_) fun dst' hd ↦ hdc ?_
        · rw [hvw.1, sends_dropSend, if_neg (Ne.symm hdc), heq, hvw₁.1]
        · cases Option.some.inj (hst.symm.trans he)
        · exact (SemOp.channelRecv.inj (Option.some.inj (hst.symm.trans hd))).1
  | notify cv w _ =>
      have hvw := views_congr (σ := σ) (channels_advance ((σ.modifyWaiters cv
        (·.filter (· ≠ w))).block w.1 (.lock w.2)) x) c
      exact .of_other hw hw' hact hvw.1 hvw.2.2 (by simp [hst]) (by simp [hst])
  | notifyAll cv =>
      have hch : ((σ.waiters cv).foldl (fun σ w ↦ σ.block w.1 (.lock w.2))
          (σ.modifyWaiters cv fun _ ↦ [])).store.channels = σ.store.channels := by
        rw [notifyAll_frames]
        rfl
      have hvw := views_congr ((channels_advance _ x).trans hch) c
      exact .of_other hw hw' hact hvw.1 hvw.2.2 (by simp [hst]) (by simp [hst])

theorem Resumes.channelStep (hw : Wf E.program σ) (hw' : Wf E.program (Engine.complete σ' x))
    (hact : ActivationStep E σ x (Engine.complete σ' x)) (top : Top σ x t f fr)
    {r : BlockReason} (hb : t.status = .blocked r) (h : Resumes E σ x f fr r σ') :
    ChannelStep E c σ x (Engine.complete σ' x) := by
  have hx : σ.status x = some (.blocked r) := by rw [top.status, hb]
  obtain ⟨u, g, gr, op, top', -, hop, hwt⟩ := hw.blocked_thread hx
  obtain rfl : t = u := Option.some.inj (top.thread.symm.trans top'.thread)
  obtain rfl : f = g := Option.some.inj (top.head.symm.trans top'.head)
  obtain rfl : fr = gr := Option.some.inj (top.frame.symm.trans top'.frame)
  have hst := top.statement.trans hop
  have hat : E.attempt c σ x = none := attempt_none fun hr ↦ by
    rw [hx] at hr
    cases hr
  have hvw := views_congr (channels_advance (σ'.setRunnable x) x) c
  have hp : ∀ {fr₁ : Frame}, σ'.store.frames[f]? = some fr₁ → fr₁.id = fr.id → fr₁.pc = fr.pc →
      passed σ (Engine.complete σ' x) x = true := by
    intro fr₁ hf hid hpc
    refine passed_advance top ?_ ?_ hf hid hpc
    · rw [setRunnable, status_setStatus, if_pos rfl, status, h.threads,
        show σ.threads[x]? = some t from top.thread]
      rfl
    · exact (currentFrameId_setStatus _ _ _).trans
        ((currentFrameId_congr h.threads x).trans top.currentFrameId)
  have hother : ∀ (hsends : σ'.sends c = σ.sends c) (hbuffer : σ'.buffer c = σ.buffer c)
      (hs : ∀ e, op ≠ .channelSend c e) (hr : ∀ dst, op ≠ .channelRecv c dst),
      ChannelStep E c σ x (Engine.complete σ' x) := by
    intro hsends hbuffer hs hr
    exact .of_other hw hw' hact (hvw.1.trans hsends) (hvw.2.2.trans hbuffer)
      (fun e he ↦ hs e (Option.some.inj (hst.symm.trans he)))
      fun dst hd ↦ hr dst (Option.some.inj (hst.symm.trans hd))
  cases h with
  | lock r _ =>
      rcases hwt with rfl | ⟨cv, rfl⟩
      · exact hother rfl rfl (by simp) (by simp)
      · exact hother rfl rfl (by simp) (by simp)
  | semaphore r n k _ _ _ =>
      obtain ⟨m, rfl, -⟩ := hwt
      exact hother rfl rfl (by simp) (by simp)
  | send d v hmem hcap _ =>
      obtain ⟨e, rfl⟩ := hwt
      have hd : σ.store.channels.contains d = true := by
        rw [hw.stores.channels]
        exact SemProgram.opAt_ok hop
      have hdrop : (σ.dropSend d x).store.channels.contains d = true :=
        (contains_modifyChannel d d _).trans hd
      have hsends : ∀ c, ((σ.dropSend d x).pushBuffer d v).sends c =
          if c = d then (σ.sends c).filter (·.thread ≠ x) else σ.sends c := fun c ↦ by
        rw [(pushBuffer_views d v c).1, sends_dropSend]
      have hbuffer : ∀ c, ((σ.dropSend d x).pushBuffer d v).buffer c =
          if c = d then σ.buffer c ++ [v] else σ.buffer c := fun c ↦ by
        rw [buffer_pushBuffer hdrop, (dropSend_views d x c).2]
      by_cases hdc : d = c
      · subst hdc
        refine .resume (v := v) hcap hmem ?_ ?_ hat (sendersDone_eq_one hst
          (hp top.frame rfl rfl) fun y e hy ↦ hact.no_sender hw hw' (.inl hcap) y e hy)
          (receiversDone_eq_nil fun y dst hy ↦ ?_)
        · exact hvw.1.trans ((hsends d).trans (if_pos rfl))
        · exact hvw.2.2.trans ((hbuffer d).trans (if_pos rfl))
        · refine hact.no_receiver hw hw' (.inl hcap) y dst (fun hyx ↦ ?_) hy
          rw [hyx, hst] at hy
          cases hy
      · exact hother ((hsends c).trans (if_neg (Ne.symm hdc)))
          ((hbuffer c).trans (if_neg (Ne.symm hdc)))
          (fun e' he ↦ hdc (SemOp.channelSend.inj he).1) (by simp)
  | recv d dst v vs σ₁ hop' hcap hb' hwr =>
      obtain ⟨dst', rfl⟩ := hwt
      obtain ⟨-, rfl⟩ : d = d ∧ dst' = dst := by simpa using hop.symm.trans hop'
      have heq := tryWriteDst_eq hwr
      have hvw₁ := fun c ↦ views_congr (channels_writeDst σ f dst' v) c
      have hsends : ∀ c, ((σ₁.popBuffer d).dropRecv d x).sends c = σ.sends c := fun c ↦ by
        rw [(dropRecv_views d x c).1, (popBuffer_views d c).1, heq, (hvw₁ c).1]
      have hbuffer : ∀ c, ((σ₁.popBuffer d).dropRecv d x).buffer c =
          if c = d then (σ.buffer c).tail else σ.buffer c := fun c ↦ by
        rw [(dropRecv_views d x c).2, buffer_popBuffer, heq, (hvw₁ c).2.2]
      by_cases hdc : d = c
      · subst hdc
        have hfr : σ₁.store.frames[f]? = some (fr.put dst' v) := by
          rw [heq, frames_writeDst, if_pos rfl, show σ.store.frames[f]? = some fr from top.frame]
          rfl
        refine .dequeue (v := v) hcap (hvw.1.trans (hsends d)) ?_ (receiving_iff.mpr hst)
          (fun hd ↦ ?_) hat (sendersDone_eq_nil fun y e hy ↦ ?_)
          (receiversDone_eq_one hst (hp hfr (by cases dst' <;> rfl) (by cases dst' <;> rfl))
            fun y dst hyx hy ↦ hact.no_receiver hw hw' (.inl hcap) y dst hyx hy)
        · rw [hb', show (Engine.complete ((σ₁.popBuffer d).dropRecv d x) x).buffer d = vs from
            hvw.2.2.trans ((hbuffer d).trans (by rw [if_pos rfl, hb', List.tail_cons]))]
        · rw [top.currentFrameId, Option.bind_some, read_complete]
          change σ₁.read f dst' = some v
          rw [heq, read_writeDst top.frame hd]
        · refine hact.no_sender hw hw' (.inl hcap) y e (fun hyx ↦ ?_) hy
          rw [hyx, hst] at hy
          cases hy
      · exact hother (hsends c) ((hbuffer c).trans (if_neg (Ne.symm hdc))) (by simp)
          fun dst hd ↦ hdc (SemOp.channelRecv.inj hd).1

theorem Executes.channelStep (hw : Wf E.program σ) (hw' : Wf E.program σ')
    (top : Top σ x t f fr) (hrun : t.status = .runnable)
    (hop : E.program.opAt fr.function fr.pc = some op) (h : Executes E σ x t f fr op σ') :
    ChannelStep E c σ x σ' := by
  have hst := top.statement.trans hop
  have hact := h.activationStep hw top hrun hop
  cases h with
  | done h => exact h.channelStep hw hw' hact top hrun hop
  | block h => exact h.channelStep hw hw' hact top hrun hop
  | pair h => exact h.channelStep hw hw' hact top hrun hop
  | create h =>
      have ht := h.tables hop
      refine .of_other hw hw' hact (ht.sends c) (ht.buffer c) (fun e he ↦ ?_) fun dst hd ↦ ?_
      · obtain rfl := Option.some.inj (hst.symm.trans he)
        cases h
      · obtain rfl := Option.some.inj (hst.symm.trans hd)
        cases h
  | ret he _ h =>
      subst he
      have hvw := views_congr (hw.cells_applyReturn top hrun h).2.2.1 c
      exact .of_other hw hw' hact hvw.1 hvw.2.2 (by simp [hst]) (by simp [hst])

theorem Fires.channelStep (hw : Wf E.program σ) (hl : Live σ) (h : Fires E x σ σ') :
    ChannelStep E c σ x σ' := by
  have hw' := (h.wf hw hl).1
  have hact := h.activationStep hw
  cases h with
  | @exec t f fr op _ top hrun hop h =>
      have hw₁ : Wf E.program (σ.markReached fr.function fr.pc) :=
        hw.quiet (quiet_markReached _ _)
      have top₁ : Top (σ.markReached fr.function fr.pc) x t f fr :=
        ⟨top.thread, top.head, top.frame⟩
      exact (h.channelStep hw₁ hw' top₁ hrun hop).of_marked
  | endOfBody top hrun hop h =>
      have hst := top.statement.trans hop
      have hvw := views_congr (hw.cells_applyReturn top hrun h).2.2.1 c
      exact .of_other hw hw' hact hvw.1 hvw.2.2 (by simp [hst]) (by simp [hst])
  | resume top hb h => exact h.channelStep hw hw' hact top hb

end Classifying

end ConcIR
