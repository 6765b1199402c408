import ConcIR.Runtime.Wakeups

/-!
# The generated channel against the interpreter's

When no thread can go on, every blocked operation is one the interpreter would block as
well, unless a send at capacity 0 has waited again.
-/

namespace ConcIR

namespace Runtime

open Channel

variable {T : Type} {cap : ℕ} {programs : List (List (ChannelOp T))} {s : Channel T} {i : ℕ}
  {t : ChannelThread T} {es : List (ChannelStep T)}

/-- A send at capacity 0 returns only after its value was received. -/
def ReturnsDelivered (es : List (ChannelStep T)) : Prop :=
  ∀ es₁ e es₂, es = es₁ ++ e :: es₂ → e.event = .ret → Delivered es₁ e.thread

theorem ReturnsDelivered.concat (h : ReturnsDelivered es) {e : ChannelStep T}
    (he : e.event = .ret → Delivered es e.thread) : ReturnsDelivered (es ++ [e]) := by
  intro es₁ e' es₂ heq hret
  rcases List.eq_nil_or_concat es₂ with rfl | ⟨es₂, e₂, rfl⟩
  · obtain ⟨rfl, hee⟩ := List.append_inj' heq rfl
    obtain rfl := List.singleton_inj.mp hee
    exact he hret
  · rw [List.concat_eq_append, ← List.cons_append, ← List.append_assoc] at heq
    obtain ⟨rfl, -⟩ := List.append_inj' heq rfl
    exact h es₁ e' es₂ rfl hret

/-- What holds after every run. -/
structure Invariant (cap : ℕ) (es : List (ChannelStep T)) (s : Channel T) : Prop where
  waits : Waits cap s
  served : Served cap s
  fifo : Fifo es s
  drains : cap = 0 → Drains es s
  returns : ReturnsDelivered es

theorem invariant_new (cap : ℕ) (programs : List (List (ChannelOp T))) :
    Invariant cap [] (.new programs) where
  waits := waits_new cap programs
  served := ⟨fun _ h ↦ absurd rfl h, fun h ↦ absurd rfl h⟩
  fifo := rfl
  drains := by
    intro _
    refine ⟨rfl, fun p hp ↦ (by cases hp), List.nodup_nil, fun i t ht hd ↦ ?_⟩
    rw [Channel.new, List.getElem?_map] at ht
    obtain ⟨ops, -, rfl⟩ := Option.map_eq_some_iff.mp ht
    cases hd
  returns := by
    intro es₁ e es₂ heq
    cases es₁ <;> cases heq

theorem Invariant.step (h : Invariant cap es s) (ht : s.threads[i]? = some t)
    (hs : i ∉ s.sendCv) (hr : i ∉ s.recvCv) {ev : Event T} {s' : Channel T}
    (hst : Took cap s i t ev s') : Invariant cap (es ++ [⟨s, i, ev⟩]) s' where
  waits := h.waits.step ht hs hr hst
  served := h.served.step h.waits (h.waits.step ht hs hr hst) ht hst
  fifo := h.fifo.step hst
  drains := by
    rintro rfl
    exact (h.drains rfl).step h.waits h.fifo ht hst
  returns := by
    refine h.returns.concat fun hret ↦ ?_
    cases hst with
    | ret hops hp hb =>
        have hd := h.drains ((h.waits.cap_eq ht).2 hp)
        rw [(hd.last i t ht hp).delivered_iff]
        rw [List.map_eq_nil_iff.mp (h.fifo.awaiting.trans hb)]
        exact List.not_mem_nil
    | _ => cases hret

theorem ChannelRun.invariant (h : ChannelRun cap programs es s) : Invariant cap es s := by
  induction h with
  | start => exact invariant_new cap programs
  | step _ hst ih =>
      obtain ⟨hs, hr, t, ht, htook⟩ := took_of_steps hst
      exact ih.step ht hs hr htook

/-- Sends only wait for their value to be taken at capacity 0. -/
theorem ChannelRun.cap_of_waitsAgain (h : ChannelRun cap programs es s) {e : ChannelStep T}
    (he : e ∈ es) (hwa : e.WaitsAgain) : cap = 0 := by
  induction h with
  | start => cases he
  | step hrun hst ih =>
      rcases List.mem_append.mp he with he | he
      · exact ih he
      · obtain rfl := List.mem_singleton.mp he
        obtain ⟨t, ht, hp⟩ := Option.map_eq_some_iff.mp hwa.1
        exact (hrun.invariant.waits.cap_eq ht).2 hp

section Quiescent

/-- A thread inside a wait of a send is in the wait set. -/
theorem Invariant.mem_sendCv (h : Invariant cap es s) (hq : s.Quiescent cap)
    (ht : s.threads[i]? = some t) (hp : t.point = .full ∨ t.point = .drain) : i ∈ s.sendCv := by
  have hplaced := h.waits.placed i t ht
  have hops : t.ops ≠ [] := by
    intro hnil
    rw [ChannelThread.Placed, hnil] at hplaced
    rcases hp with hp | hp <;> rw [hp] at hplaced <;> exact hplaced
  by_contra hs
  have hr : i ∉ s.recvCv := by
    intro hi
    obtain ⟨u, hu, he⟩ := h.waits.recvAt i hi
    obtain rfl := Option.some.inj (ht.symm.trans hu)
    rw [he] at hp
    rcases hp with hp | hp <;> cases hp
  exact steps_ne_nil ht hops hs hr (hq i)

theorem Invariant.mem_recvCv (h : Invariant cap es s) (hq : s.Quiescent cap)
    (ht : s.threads[i]? = some t) (hp : t.point = .empty) : i ∈ s.recvCv := by
  have hplaced := h.waits.placed i t ht
  have hops : t.ops ≠ [] := by
    intro hnil
    rw [ChannelThread.Placed, hnil, hp] at hplaced
    exact hplaced
  by_contra hr
  have hs : i ∉ s.sendCv := by
    intro hi
    obtain ⟨u, hu, he⟩ := h.waits.sendAt i hi
    obtain rfl := Option.some.inj (ht.symm.trans hu)
    rw [hp] at he
    rcases he with he | he <;> cases he
  exact steps_ne_nil ht hops hs hr (hq i)

/-- No send waits while there is room. -/
theorem Invariant.full_of_sendCv (h : Invariant cap es s) (hq : s.Quiescent cap) (hc : cap ≠ 0)
    (hs : s.sendCv ≠ []) : cap ≤ s.buffer.length := by
  have hle := h.served.senders hc hs
  have hcount : s.countAt .full ≤ s.sendCv.length := countP_le_length fun j u hu hp ↦
    h.mem_sendCv hq hu (.inl (of_decide_eq_true hp))
  omega

/-- No receive waits while there is a value. -/
theorem Invariant.buffer_of_recvCv (h : Invariant cap es s) (hq : s.Quiescent cap)
    (hr : s.recvCv ≠ []) : s.buffer = [] := by
  have hle := h.served.receivers hr
  have hcount : s.countAt .empty ≤ s.recvCv.length := countP_le_length fun j u hu hp ↦
    h.mem_recvCv hq hu (of_decide_eq_true hp)
  exact List.eq_nil_of_length_eq_zero (by omega)

/-- The blocked sends at capacity 0 all still have their value in the buffer exactly if
no wake-up was used up. -/
theorem Invariant.delivered_iff (h : Invariant 0 es s) (hq : s.Quiescent 0) :
    (∀ i ∈ s.sendCv, ¬ Delivered es i) ↔ ∀ e ∈ es, ¬ e.WaitsAgain := by
  have hd := h.drains rfl
  have hlen : ((awaiting es).map (·.1)).length = s.buffer.length := by
    rw [← h.fifo.awaiting, List.length_map, List.length_map]
  have hsub : (awaiting es).map (·.1) ⊆ s.sendCv := by
    intro i hi
    obtain ⟨p, hp, rfl⟩ := List.mem_map.mp hi
    obtain ⟨t, ht, hpt⟩ := hd.owner p hp
    exact h.mem_sendCv hq ht (.inr hpt)
  have hiff (i : ℕ) (hi : i ∈ s.sendCv) :
      ¬ Delivered es i ↔ i ∈ (awaiting es).map (·.1) := by
    obtain ⟨t, ht, hp⟩ := h.waits.sendAt i hi
    have hdrain := hp.resolve_left fun hf ↦ (h.waits.cap_eq ht).1 hf rfl
    rw [(hd.last i t ht hdrain).delivered_iff, not_not]
  have hcount := hd.count
  rw [← waitedAgain_eq_zero]
  constructor
  · intro hall
    have hle : s.sendCv.length ≤ ((awaiting es).map (·.1)).length :=
      (h.waits.sendNodup.subperm fun i hi ↦ (hiff i hi).mp (hall i hi)).length_le
    omega
  · intro hzero i hi
    have hperm := (hd.nodup.subperm hsub).perm_of_length_le (by omega)
    exact (hiff i hi).mpr (hperm.mem_iff.mpr hi)

end Quiescent

section Interpreter

variable {enc : T → Value} {E : Engine} {c : ResourceId} {σ : MachineState}

theorem Invariant.resumeSend (h : Invariant cap es s) (hq : s.Quiescent cap)
    (hm : Mirrors cap enc es s E c σ) (hi : i ∈ s.sendCv) (f : FrameId) (fr : Frame) :
    E.resumeSend σ i f fr c = .ok .empty := by
  simp only [Engine.resumeSend, hm.cell, hm.capacity]
  cases hfind : (s.model cap enc es).pendingSend.find? (·.thread = i) with
  | none => rfl
  | some p =>
      by_cases hc : cap = 0
      · subst hc
        have hmem := List.mem_of_find?_eq_some hfind
        have hbuf : s.buffer ≠ [] := by
          intro hnil
          have haw := List.map_eq_nil_iff.mp (h.fifo.awaiting.trans hnil)
          rw [Channel.model, if_pos rfl, haw] at hmem
          cases hmem
        have hrecv : s.recvCv = [] := by_contra fun hr ↦ hbuf (h.buffer_of_recvCv hq hr)
        have hpend : (s.model 0 enc es).pendingRecv = [] := hrecv
        simp only [if_true, hpend]
      · have hfull := h.full_of_sendCv hq hc (List.ne_nil_of_mem hi)
        have hlen : (s.model cap enc es).buffer.length = s.buffer.length := by
          rw [Channel.model, if_neg hc, List.length_map]
        simp only [hc, if_false, hlen, not_lt.mpr hfull]

theorem Invariant.resumeRecv (h : Invariant cap es s) (hq : s.Quiescent cap)
    (hm : Mirrors cap enc es s E c σ) (hi : i ∈ s.recvCv) (f : FrameId) (fr : Frame) :
    E.resumeRecv σ i f fr c = .ok .empty := by
  have hbuf := h.buffer_of_recvCv hq (List.ne_nil_of_mem hi)
  simp only [Engine.resumeRecv, hm.cell, hm.capacity]
  by_cases hc : cap = 0
  · have haw := List.map_eq_nil_iff.mp (h.fifo.awaiting.trans hbuf)
    have hpend : (s.model cap enc es).pendingSend = [] := by
      rw [Channel.model, haw]
      exact if_pos hc
    simp only [hc, if_true, hc ▸ hpend]
  · have hmodel : (s.model cap enc es).buffer = [] := by
      rw [Channel.model, if_neg hc, hbuf]
      rfl
    simp only [hc, if_false, hmodel]

end Interpreter

/-- The channel behaves as the interpreter's in every run in which no woken send at
capacity 0 finds a value in the buffer, and whenever a run with such a send comes to rest
it does not. -/
theorem channel_agrees (cap : ℕ) (programs : List (List (ChannelOp T))) (enc : T → Value)
    (es : List (ChannelStep T)) (s : Channel T) (h : ChannelRun cap programs es s) :
    ((∀ e ∈ es, ¬ e.WaitsAgain) → Agrees cap enc es s) ∧
      (s.Quiescent cap → Agrees cap enc es s → ∀ e ∈ es, ¬ e.WaitsAgain) := by
  have hinv := h.invariant
  constructor
  · intro hwa
    refine ⟨hinv.fifo, hinv.returns, ?_, ?_, ?_⟩
    · rintro hq rfl
      exact (hinv.delivered_iff hq).mpr hwa
    · intro hq E c σ hm i hi f fr
      exact hinv.resumeSend hq hm hi f fr
    · intro hq E c σ hm i hi f fr
      exact hinv.resumeRecv hq hm hi f fr
  · intro hq hag e he hwa
    obtain rfl := h.cap_of_waitsAgain he hwa
    exact (hinv.delivered_iff hq).mp (hag.delivered hq rfl) e he hwa

section Crossing

/-- Two sends at capacity 0 and a receive. -/
def crossing : List (List (ChannelOp ℤ)) := [[.send 1], [.send 2], [.recv]]

def crossingState (buffer : List ℤ) (sendCv : List ℕ) (p q : Point) (r : List (ChannelOp ℤ)) :
    Channel ℤ :=
  ⟨buffer, sendCv, [], [⟨[.send 1], p⟩, ⟨[.send 2], q⟩, ⟨r, .entry⟩]⟩

def crossingSteps : List (ChannelStep ℤ) :=
  [⟨crossingState [] [] .entry .entry [.recv], 0, .pushBack 1⟩,
    ⟨crossingState [1] [0] .drain .entry [.recv], 1, .pushBack 2⟩,
    ⟨crossingState [1, 2] [0, 1] .drain .drain [.recv], 2, .popFront 1⟩,
    ⟨crossingState [2] [1] .drain .drain [], 0, .wait⟩]

theorem channelRun_crossing : ChannelRun 0 crossing crossingSteps
    (crossingState [2] [1, 0] .drain .drain []) := by
  have h₀ : ChannelRun 0 crossing [] (crossingState [] [] .entry .entry [.recv]) := .start
  have h₁ : ChannelRun 0 crossing (crossingSteps.take 1)
      (crossingState [1] [0] .drain .entry [.recv]) := .step h₀ (by decide)
  have h₂ : ChannelRun 0 crossing (crossingSteps.take 2)
      (crossingState [1, 2] [0, 1] .drain .drain [.recv]) := .step h₁ (by decide)
  have h₃ : ChannelRun 0 crossing (crossingSteps.take 3)
      (crossingState [2] [1] .drain .drain []) := .step h₂ (by decide)
  exact .step h₃ (by decide)

/-- The first value was received, and its send is blocked for good. -/
theorem not_agrees_crossing : ¬ ∀ (cap : ℕ) (programs : List (List (ChannelOp ℤ)))
    (es : List (ChannelStep ℤ)) (s : Channel ℤ), ChannelRun cap programs es s →
      Agrees cap Value.int es s := by
  intro h
  have hag := h 0 crossing crossingSteps _ channelRun_crossing
  have hq : (crossingState [2] [1, 0] .drain .drain []).Quiescent 0 := fun i ↦
    match i with
    | 0 | 1 | 2 => rfl
    | _ + 3 => rfl
  refine hag.delivered hq rfl 0 (by decide) ⟨[], 1, [(1, 2)], rfl, ?_, by decide⟩
  intro w hw
  cases List.mem_singleton.mp hw

/-- With a place in the buffer a send returns at once. -/
theorem channel_agrees_buffered : ChannelRun 1 [[.send (1 : ℤ)], [.recv]]
      [⟨⟨[], [], [], [⟨[.send 1], .entry⟩, ⟨[.recv], .entry⟩]⟩, 0, .pushBack 1⟩]
      ⟨[1], [], [], [⟨[], .entry⟩, ⟨[.recv], .entry⟩]⟩ ∧
    Agrees 1 Value.int [⟨⟨[], [], [], [⟨[.send 1], .entry⟩, ⟨[.recv], .entry⟩]⟩, 0, .pushBack 1⟩]
      ⟨[1], [], [], [⟨[], .entry⟩, ⟨[.recv], .entry⟩]⟩ := by
  have hrun : ChannelRun 1 [[.send (1 : ℤ)], [.recv]]
      [⟨⟨[], [], [], [⟨[.send 1], .entry⟩, ⟨[.recv], .entry⟩]⟩, 0, .pushBack 1⟩]
      ⟨[1], [], [], [⟨[], .entry⟩, ⟨[.recv], .entry⟩]⟩ := .step .start (by decide)
  refine ⟨hrun, (channel_agrees 1 _ Value.int _ _ hrun).1 ?_⟩
  decide

end Crossing

end Runtime

end ConcIR
