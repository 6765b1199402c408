import Mathlib.Data.List.Perm.Subperm
import ConcIR.Runtime.Channel

/-!
# Wake-ups of the generated channel

A woken thread has left the wait set and still stands inside its wait. While threads
wait for room there are at least as many woken ones as free places, and while threads
wait for a value there are at least as many woken ones as values. At capacity 0 a send
that waits again uses up a wake-up for good.
-/

namespace ConcIR

namespace Runtime

section Lists

variable {α : Type} {l : List α} {p : α → Bool} {ws : List ℕ}

theorem length_le_countP (hnd : ws.Nodup) (h : ∀ i ∈ ws, ∃ a, l[i]? = some a ∧ p a = true) :
    ws.length ≤ l.countP p := by
  rw [← List.length_findIdxs (s := 0)]
  apply (hnd.subperm ?_).length_le
  intro i hi
  obtain ⟨a, ha, hp⟩ := h i hi
  obtain ⟨hlt, rfl⟩ := List.getElem?_eq_some_iff.mp ha
  exact List.mem_findIdxs_iff_exists_getElem_pos.mpr ⟨hlt, hp⟩

theorem countP_le_length (h : ∀ i a, l[i]? = some a → p a = true → i ∈ ws) :
    l.countP p ≤ ws.length := by
  rw [← List.length_findIdxs (s := 0)]
  apply (List.nodup_findIdxs.subperm ?_).length_le
  intro i hi
  obtain ⟨hlt, hp⟩ := List.mem_findIdxs_iff_exists_getElem_pos.mp hi
  exact h i _ (List.getElem?_eq_getElem hlt) hp

end Lists

variable {T : Type} {cap : ℕ} {s s' : Channel T} {i j : ℕ} {t u : ChannelThread T}
  {ev : Event T} {es : List (ChannelStep T)} {p q : Point} {ws : List ℕ}

namespace Channel

section Threads

@[simp] theorem buffer_setThread : (s.setThread i t).buffer = s.buffer := rfl

@[simp] theorem sendCv_setThread : (s.setThread i t).sendCv = s.sendCv := rfl

@[simp] theorem recvCv_setThread : (s.setThread i t).recvCv = s.recvCv := rfl

/-- How many threads stand at a point. -/
def countAt (s : Channel T) (p : Point) : ℕ := s.threads.countP fun t ↦ t.point = p

theorem threads_setThread (ht : s.threads[i]? = some t) (u : ChannelThread T) (j : ℕ) :
    (s.setThread i u).threads[j]? = if i = j then some u else s.threads[j]? := by
  obtain ⟨hlt, -⟩ := List.getElem?_eq_some_iff.mp ht
  rw [setThread, List.getElem?_set]
  by_cases h : i = j
  · subst h
    simp [hlt]
  · simp [h]

theorem countAt_setThread (ht : s.threads[i]? = some t) (u : ChannelThread T) (p : Point) :
    (s.setThread i u).countAt p + (if t.point = p then 1 else 0) =
      s.countAt p + if u.point = p then 1 else 0 := by
  obtain ⟨hlt, rfl⟩ := List.getElem?_eq_some_iff.mp ht
  have hle : (if s.threads[i].point = p then 1 else 0) ≤ s.countAt p := by
    have := List.boole_getElem_le_countP (p := fun t : ChannelThread T ↦ decide (t.point = p)) hlt
    rw [countAt]
    simpa only [decide_eq_true_eq] using this
  rw [countAt, setThread, List.countP_set hlt]
  simp only [decide_eq_true_eq]
  change s.countAt p - _ + _ + _ = _
  omega

theorem sublist_of_mem_notifyOne {l : List ℕ} (h : ws ∈ notifyOne l) : ws.Sublist l := by
  rw [notifyOne] at h
  split_ifs at h with hl
  · rw [hl, List.mem_singleton.mp h]
  · obtain ⟨w, -, rfl⟩ := List.mem_map.mp h
    exact List.erase_sublist

/-- One waiter fewer, if there is one. -/
theorem length_of_mem_notifyOne {l : List ℕ} (h : ws ∈ notifyOne l) :
    ws.length = l.length - 1 := by
  rw [notifyOne] at h
  split_ifs at h with hl
  · rw [hl, List.mem_singleton.mp h]
    rfl
  · obtain ⟨w, hw, rfl⟩ := List.mem_map.mp h
    exact List.length_erase_of_mem hw

theorem notifyOne_ne_nil (l : List ℕ) : notifyOne l ≠ [] := by
  rw [notifyOne]
  split_ifs with hl
  · simp
  · simpa using hl

end Threads

end Channel

section Steps

open Channel

/-- What a step can do, by the operation and the loop test it starts with. -/
inductive Took (cap : ℕ) (s : Channel T) (i : ℕ) (t : ChannelThread T) :
    Event T → Channel T → Prop
  | full {v : T} {r : List (ChannelOp T)} : t.ops = .send v :: r → t.point ≠ .drain → cap ≠ 0 →
      cap ≤ s.buffer.length → Took cap s i t .wait (s.waitSend i t .full)
  | push {v : T} {r : List (ChannelOp T)} {ws : List ℕ} : t.ops = .send v :: r →
      t.point ≠ .drain → s.buffer.length < cap → ws ∈ Channel.notifyOne s.recvCv →
      Took cap s i t (.pushBack v)
        ({ s with buffer := s.buffer ++ [v], recvCv := ws }.leave i t)
  | offer {v : T} {r : List (ChannelOp T)} {ws : List ℕ} : t.ops = .send v :: r →
      t.point ≠ .drain → cap = 0 → ws ∈ Channel.notifyOne s.recvCv →
      Took cap s i t (.pushBack v)
        ({ s with buffer := s.buffer ++ [v], recvCv := ws }.waitSend i t .drain)
  | again {v : T} {r : List (ChannelOp T)} : t.ops = .send v :: r → t.point = .drain →
      s.buffer ≠ [] → Took cap s i t .wait (s.waitSend i t .drain)
  | ret {v : T} {r : List (ChannelOp T)} : t.ops = .send v :: r → t.point = .drain →
      s.buffer = [] → Took cap s i t .ret (s.leave i t)
  | empty {r : List (ChannelOp T)} : t.ops = .recv :: r → s.buffer = [] →
      Took cap s i t .wait (s.waitRecv i t)
  | pop {r : List (ChannelOp T)} {v : T} {rest : List T} {ws : List ℕ} : t.ops = .recv :: r →
      s.buffer = v :: rest → ws ∈ Channel.notifyOne s.sendCv →
      Took cap s i t (.popFront v) ({ s with buffer := rest, sendCv := ws }.leave i t)

theorem took_of_stepSend {v : T} {r : List (ChannelOp T)} (hops : t.ops = .send v :: r)
    (hp : t.point ≠ .drain) (h : (ev, s') ∈ s.stepSend cap i t v) : Took cap s i t ev s' := by
  rw [stepSend] at h
  by_cases hfull : cap ≠ 0 ∧ cap ≤ s.buffer.length
  · rw [if_pos hfull] at h
    obtain ⟨rfl, rfl⟩ := Prod.mk.inj (List.mem_singleton.mp h)
    exact .full hops hp hfull.1 hfull.2
  · rw [if_neg hfull] at h
    obtain ⟨ws, hws, he⟩ := List.mem_map.mp h
    obtain ⟨rfl, rfl⟩ := Prod.mk.inj he
    by_cases hcap : cap = 0
    · rw [if_pos hcap, drainLoop, if_neg (by simp)]
      exact .offer hops hp hcap hws
    · rw [if_neg hcap]
      exact .push hops hp (by omega) hws

theorem took_of_stepRecv {r : List (ChannelOp T)} (hops : t.ops = .recv :: r)
    (h : (ev, s') ∈ s.stepRecv i t) : Took cap s i t ev s' := by
  rw [stepRecv] at h
  cases hb : s.buffer with
  | nil =>
      rw [hb] at h
      obtain ⟨rfl, rfl⟩ := Prod.mk.inj (List.mem_singleton.mp h)
      exact .empty hops hb
  | cons v rest =>
      rw [hb] at h
      obtain ⟨ws, hws, he⟩ := List.mem_map.mp h
      obtain ⟨rfl, rfl⟩ := Prod.mk.inj he
      exact .pop hops hb hws

/-- Only a thread that is in no wait set takes a step. -/
theorem took_of_steps (h : (ev, s') ∈ s.steps cap i) : i ∉ s.sendCv ∧ i ∉ s.recvCv ∧
    ∃ t, s.threads[i]? = some t ∧ Took cap s i t ev s' := by
  rw [steps] at h
  split_ifs at h with hw
  · cases h
  · obtain ⟨hs, hr⟩ := not_or.mp hw
    cases ht : s.threads[i]? with
    | none =>
        rw [ht] at h
        cases h
    | some t =>
        refine ⟨hs, hr, t, rfl, ?_⟩
        simp only [ht] at h
        cases hops : t.ops with
        | nil =>
            rw [hops] at h
            cases h
        | cons op r =>
            rw [hops] at h
            cases op with
            | recv => exact took_of_stepRecv hops h
            | send v =>
                by_cases hp : t.point = .drain
                · simp only [hp, if_true, drainLoop] at h
                  split_ifs at h with hb
                  · obtain ⟨rfl, rfl⟩ := Prod.mk.inj (List.mem_singleton.mp h)
                    exact .ret hops hp hb
                  · obtain ⟨rfl, rfl⟩ := Prod.mk.inj (List.mem_singleton.mp h)
                    exact .again hops hp hb
                · simp only [hp, if_false] at h
                  exact took_of_stepSend hops hp h

/-- A thread with an operation left that is in no wait set can go on. -/
theorem steps_ne_nil (ht : s.threads[i]? = some t) (hops : t.ops ≠ []) (hs : i ∉ s.sendCv)
    (hr : i ∉ s.recvCv) : s.steps cap i ≠ [] := by
  rw [steps, if_neg (not_or.mpr ⟨hs, hr⟩)]
  simp only [ht]
  match hop : t.ops with
  | [] => exact absurd hop hops
  | .send v :: r =>
      by_cases hp : t.point = .drain
      · simp [hp]
      · simp only [hp, if_false, stepSend]
        by_cases hfull : cap ≠ 0 ∧ cap ≤ s.buffer.length
        · rw [if_pos hfull]
          exact List.cons_ne_nil _ _
        · rw [if_neg hfull]
          exact fun hnil ↦ notifyOne_ne_nil s.recvCv (List.map_eq_nil_iff.mp hnil)
  | .recv :: r =>
      rw [stepRecv]
      cases s.buffer with
      | nil => simp
      | cons v rest => simpa using notifyOne_ne_nil s.sendCv

end Steps

section Waits

open Channel

/-- A thread stands inside the wait of the operation it is at. -/
def ChannelThread.Placed (cap : ℕ) (t : ChannelThread T) : Prop :=
  match t.point, t.ops with
  | .entry, _ => True
  | .full, .send _ :: _ => cap ≠ 0
  | .drain, .send _ :: _ => cap = 0
  | .empty, .recv :: _ => True
  | _, _ => False

/-- The wait sets hold threads that stand in their waits. -/
structure Waits (cap : ℕ) (s : Channel T) : Prop where
  placed : ∀ (i : ℕ) (t : ChannelThread T), s.threads[i]? = some t → t.Placed cap
  sendNodup : s.sendCv.Nodup
  recvNodup : s.recvCv.Nodup
  sendAt : ∀ i ∈ s.sendCv, ∃ t : ChannelThread T, s.threads[i]? = some t ∧ (t.point = .full ∨ t.point = .drain)
  recvAt : ∀ i ∈ s.recvCv, ∃ t : ChannelThread T, s.threads[i]? = some t ∧ t.point = .empty

theorem waits_new (cap : ℕ) (programs : List (List (ChannelOp T))) :
    Waits cap (.new programs) where
  placed := by
    intro i t ht
    rw [Channel.new, List.getElem?_map] at ht
    obtain ⟨ops, -, rfl⟩ := Option.map_eq_some_iff.mp ht
    trivial
  sendNodup := List.nodup_nil
  recvNodup := List.nodup_nil
  sendAt := by
    intro i hi
    cases hi
  recvAt := by
    intro i hi
    cases hi

/-- A thread outside the wait sets moves, and the wait sets shrink. -/
theorem Waits.setThread (h : Waits cap s) (ht : s.threads[i]? = some t) (hu : u.Placed cap)
    (hs : i ∉ s'.sendCv) (hr : i ∉ s'.recvCv) (hsub : s'.sendCv.Sublist s.sendCv)
    (hrub : s'.recvCv.Sublist s.recvCv) (hth : s'.threads = s.threads) :
    Waits cap (s'.setThread i u) := by
  have hth' (j : ℕ) := threads_setThread (hth ▸ ht : s'.threads[i]? = some t) u j
  refine ⟨?_, hsub.nodup h.sendNodup, hrub.nodup h.recvNodup, ?_, ?_⟩
  · intro j v hv
    rw [hth' j] at hv
    split_ifs at hv with hj
    · obtain rfl := Option.some.inj hv
      exact hu
    · exact h.placed j v (hth ▸ hv)
  · intro j hj
    have hne : i ≠ j := fun he ↦ hs (he ▸ hj)
    rw [hth' j, if_neg hne, hth]
    exact h.sendAt j (hsub.subset hj)
  · intro j hj
    have hne : i ≠ j := fun he ↦ hr (he ▸ hj)
    rw [hth' j, if_neg hne, hth]
    exact h.recvAt j (hrub.subset hj)

theorem Waits.waitSend (h : Waits cap s) (ht : s.threads[i]? = some t)
    (hs : i ∉ s.sendCv) (hr : i ∉ s.recvCv) {v : T} {r : List (ChannelOp T)}
    (hops : t.ops = .send v :: r) (hp : p = if cap = 0 then .drain else .full) :
    Waits cap (s.waitSend i t p) := by
  have hplaced : (⟨t.ops, p⟩ : ChannelThread T).Placed cap := by
    rw [hops, hp]
    split_ifs with hc <;> exact hc
  have hset := h.setThread ht hplaced hs hr (List.Sublist.refl _) (List.Sublist.refl _) rfl
  refine ⟨hset.placed, ?_, hset.recvNodup, ?_, hset.recvAt⟩
  · exact List.nodup_append.mpr ⟨h.sendNodup, List.nodup_singleton i, by
      rintro j hj _ hi rfl
      exact hs (List.mem_singleton.mp hi ▸ hj)⟩
  · intro j hj
    rcases List.mem_append.mp hj with hj | hj
    · exact hset.sendAt j hj
    · obtain rfl := List.mem_singleton.mp hj
      refine ⟨_, (threads_setThread ht ⟨t.ops, p⟩ j).trans (if_pos rfl), ?_⟩
      rw [hp]
      split_ifs <;> simp

theorem Waits.waitRecv (h : Waits cap s) (ht : s.threads[i]? = some t)
    (hs : i ∉ s.sendCv) (hr : i ∉ s.recvCv) {r : List (ChannelOp T)}
    (hops : t.ops = .recv :: r) : Waits cap (s.waitRecv i t) := by
  have hplaced : (⟨t.ops, .empty⟩ : ChannelThread T).Placed cap := by
    rw [hops]
    trivial
  have hset := h.setThread ht hplaced hs hr (List.Sublist.refl _) (List.Sublist.refl _) rfl
  refine ⟨hset.placed, hset.sendNodup, ?_, hset.sendAt, ?_⟩
  · exact List.nodup_append.mpr ⟨h.recvNodup, List.nodup_singleton i, by
      rintro j hj _ hi rfl
      exact hr (List.mem_singleton.mp hi ▸ hj)⟩
  · intro j hj
    rcases List.mem_append.mp hj with hj | hj
    · exact hset.recvAt j hj
    · obtain rfl := List.mem_singleton.mp hj
      exact ⟨_, (threads_setThread ht ⟨t.ops, .empty⟩ j).trans (if_pos rfl), rfl⟩

/-- Which of the two waits of a send a capacity leads to. -/
theorem Waits.cap_eq (h : Waits cap s) (ht : s.threads[i]? = some t) :
    (t.point = .full → cap ≠ 0) ∧ (t.point = .drain → cap = 0) := by
  have hp := h.placed i t ht
  rcases t with ⟨ops, point⟩
  constructor <;> rintro rfl <;> cases ops with
  | nil => exact hp.elim
  | cons op r =>
      cases op with
      | send v => exact hp
      | recv => exact hp.elim

theorem Waits.step (h : Waits cap s) (ht : s.threads[i]? = some t) (hs : i ∉ s.sendCv)
    (hr : i ∉ s.recvCv) (hst : Took cap s i t ev s') : Waits cap s' := by
  cases hst with
  | full hops hp hc hl => exact h.waitSend ht hs hr hops (if_neg hc).symm
  | push hops hp hl hws =>
      have hsub := sublist_of_mem_notifyOne hws
      exact h.setThread ht trivial hs (fun hi ↦ hr (hsub.subset hi)) (List.Sublist.refl _) hsub rfl
  | @offer v r ws hops hp hc hws =>
      have hsub := sublist_of_mem_notifyOne hws
      have hw : Waits cap { s with buffer := s.buffer ++ [v], recvCv := ws } :=
        ⟨h.placed, h.sendNodup, hsub.nodup h.recvNodup, h.sendAt,
          fun j hj ↦ h.recvAt j (hsub.subset hj)⟩
      exact hw.waitSend ht hs (fun hi ↦ hr (hsub.subset hi)) hops (if_pos hc).symm
  | again hops hp hb =>
      exact h.waitSend ht hs hr hops (if_pos ((h.cap_eq ht).2 hp)).symm
  | ret hops hp hb =>
      exact h.setThread ht trivial hs hr (List.Sublist.refl _) (List.Sublist.refl _) rfl
  | empty hops hb => exact h.waitRecv ht hs hr hops
  | pop hops hb hws =>
      have hsub := sublist_of_mem_notifyOne hws
      exact h.setThread ht trivial (fun hi ↦ hs (hsub.subset hi)) hr hsub (List.Sublist.refl _) rfl

theorem Waits.length_sendCv (h : Waits cap s) (hc : cap ≠ 0) :
    s.sendCv.length ≤ s.countAt .full := by
  apply length_le_countP h.sendNodup
  intro i hi
  obtain ⟨t, ht, hp⟩ := h.sendAt i hi
  refine ⟨t, ht, decide_eq_true (hp.resolve_right fun hd ↦ ?_)⟩
  exact hc ((h.cap_eq ht).2 hd)

theorem Waits.length_recvCv (h : Waits cap s) : s.recvCv.length ≤ s.countAt .empty := by
  apply length_le_countP h.recvNodup
  intro i hi
  obtain ⟨t, ht, hp⟩ := h.recvAt i hi
  exact ⟨t, ht, decide_eq_true hp⟩

theorem Waits.point_send (h : Waits cap s) (ht : s.threads[i]? = some t) {v : T}
    {r : List (ChannelOp T)} (hops : t.ops = .send v :: r) : t.point ≠ .empty := by
  have hp := h.placed i t ht
  rw [ChannelThread.Placed, hops] at hp
  intro he
  rw [he] at hp
  exact hp

theorem Waits.point_recv (h : Waits cap s) (ht : s.threads[i]? = some t)
    {r : List (ChannelOp T)} (hops : t.ops = .recv :: r) :
    t.point ≠ .full ∧ t.point ≠ .drain := by
  have hp := h.placed i t ht
  rw [ChannelThread.Placed, hops] at hp
  constructor <;> intro he <;> rw [he] at hp <;> exact hp

end Waits

section Served

open Channel

/-- While threads wait, enough of them have been woken. -/
structure Served (cap : ℕ) (s : Channel T) : Prop where
  senders : cap ≠ 0 → s.sendCv ≠ [] →
    cap - s.buffer.length + s.sendCv.length ≤ s.countAt .full
  receivers : s.recvCv ≠ [] → s.buffer.length + s.recvCv.length ≤ s.countAt .empty

/-- A value is put into the buffer and one receiver is woken. -/
theorem Served.receivers_push (h : Served cap s) (hws : ws ∈ Channel.notifyOne s.recvCv)
    (hne : ws ≠ []) :
    s.buffer.length + 1 + ws.length ≤ s.countAt .empty := by
  have hlen := length_of_mem_notifyOne hws
  have hpos := List.length_pos_iff.mpr hne
  have hr := h.receivers (List.ne_nil_of_length_pos (by omega))
  omega

theorem Served.step (h : Served cap s) (hw : Waits cap s) (hw' : Waits cap s')
    (ht : s.threads[i]? = some t) (hst : Took cap s i t ev s') : Served cap s' := by
  cases hst with
  | full hops hp hc hl =>
      refine ⟨fun hc _ ↦ ?_, fun hr ↦ ?_⟩
      · have hle := hw'.length_sendCv hc
        have hbuf : cap - (s.waitSend i t .full).buffer.length = 0 := Nat.sub_eq_zero_of_le hl
        omega
      · have hcount := countAt_setThread ht ⟨t.ops, .full⟩ .empty
        have hrecv := h.receivers hr
        rw [if_neg (hw.point_send ht hops), if_neg (by simp)] at hcount
        exact hrecv.trans (le_of_eq hcount.symm)
  | @push v r ws hops hp hl hws =>
      refine ⟨fun hc hs ↦ ?_, fun hr ↦ ?_⟩
      · have hcount := countAt_setThread ht ⟨t.ops.tail, .entry⟩ .full
        have hsend := h.senders hc hs
        rw [if_neg (show ¬ (Point.entry = .full) by simp)] at hcount
        change cap - (s.buffer ++ [v]).length + s.sendCv.length ≤
          (s.setThread i ⟨t.ops.tail, .entry⟩).countAt .full
        rw [List.length_append, List.length_singleton]
        split_ifs at hcount <;> omega
      · have hcount := countAt_setThread ht ⟨t.ops.tail, .entry⟩ .empty
        rw [if_neg (hw.point_send ht hops), if_neg (by simp)] at hcount
        have hpush := h.receivers_push hws hr
        change (s.buffer ++ [v]).length + ws.length ≤
          (s.setThread i ⟨t.ops.tail, .entry⟩).countAt .empty
        rw [List.length_append, List.length_singleton]
        omega
  | @offer v r ws hops hp hc hws =>
      refine ⟨fun hc' _ ↦ absurd hc hc', fun hr ↦ ?_⟩
      have hcount := countAt_setThread ht ⟨t.ops, .drain⟩ .empty
      rw [if_neg (hw.point_send ht hops), if_neg (by simp)] at hcount
      have hpush := h.receivers_push hws hr
      change (s.buffer ++ [v]).length + ws.length ≤
        (s.setThread i ⟨t.ops, .drain⟩).countAt .empty
      rw [List.length_append, List.length_singleton]
      omega
  | again hops hp hb =>
      refine ⟨fun hc' _ ↦ absurd ((hw.cap_eq ht).2 hp) hc', fun hr ↦ ?_⟩
      have hcount := countAt_setThread ht ⟨t.ops, .drain⟩ .empty
      rw [if_neg (hw.point_send ht hops), if_neg (by simp)] at hcount
      exact (h.receivers hr).trans (le_of_eq hcount.symm)
  | ret hops hp hb =>
      refine ⟨fun hc' _ ↦ absurd ((hw.cap_eq ht).2 hp) hc', fun hr ↦ ?_⟩
      have hcount := countAt_setThread ht ⟨t.ops.tail, .entry⟩ .empty
      rw [if_neg (hw.point_send ht hops), if_neg (by simp)] at hcount
      exact (h.receivers hr).trans (le_of_eq hcount.symm)
  | empty hops hb =>
      refine ⟨fun hc hs ↦ ?_, fun hr ↦ ?_⟩
      · have hcount := countAt_setThread ht ⟨t.ops, .empty⟩ .full
        rw [if_neg (hw.point_recv ht hops).1, if_neg (by simp)] at hcount
        exact (h.senders hc hs).trans (le_of_eq hcount.symm)
      · have hle := hw'.length_recvCv
        have hbuf : (s.waitRecv i t).buffer.length = 0 := List.length_eq_zero_iff.mpr hb
        omega
  | @pop r v rest ws hops hb hws =>
      have hlen : s.buffer.length = rest.length + 1 := by rw [hb, List.length_cons]
      refine ⟨fun hc hs ↦ ?_, fun hr ↦ ?_⟩
      · have hcount := countAt_setThread ht ⟨t.ops.tail, .entry⟩ .full
        rw [if_neg (hw.point_recv ht hops).1, if_neg (by simp)] at hcount
        have hws' := length_of_mem_notifyOne hws
        have hpos := List.length_pos_iff.mpr (show ws ≠ [] from hs)
        have hsend := h.senders hc (List.ne_nil_of_length_pos (by omega))
        change cap - rest.length + ws.length ≤
          (s.setThread i ⟨t.ops.tail, .entry⟩).countAt .full
        omega
      · have hcount := countAt_setThread ht ⟨t.ops.tail, .entry⟩ .empty
        have hrecv := h.receivers hr
        rw [if_neg (show ¬ (Point.entry = .empty) by simp)] at hcount
        change rest.length + s.recvCv.length ≤
          (s.setThread i ⟨t.ops.tail, .entry⟩).countAt .empty
        split_ifs at hcount <;> omega

end Served

section Histories

open Channel

variable {e : ChannelStep T} {v : T}

instance (e : ChannelStep T) : Decidable e.WaitsAgain :=
  inferInstanceAs (Decidable (_ ∧ _))

/-- How often a woken send at capacity 0 waited again. -/
def waitedAgain (es : List (ChannelStep T)) : ℕ := es.countP fun e ↦ e.WaitsAgain

theorem waitedAgain_concat (es : List (ChannelStep T)) (e : ChannelStep T) :
    waitedAgain (es ++ [e]) = waitedAgain es + if e.WaitsAgain then 1 else 0 := by
  simp [waitedAgain, List.countP_append, List.countP_singleton]

theorem waitedAgain_eq_zero : waitedAgain es = 0 ↔ ∀ e ∈ es, ¬ e.WaitsAgain := by
  simp [waitedAgain, List.countP_eq_zero]

theorem waitsAgain_iff (ht : s.threads[i]? = some t) :
    (⟨s, i, ev⟩ : ChannelStep T).WaitsAgain ↔ t.point = .drain ∧ s.buffer ≠ [] := by
  simp [ChannelStep.WaitsAgain, ht]

theorem enqueued_pushBack (h : e.event = .pushBack v) :
    enqueued (es ++ [e]) = enqueued es ++ [(e.thread, v)] := by
  simp [enqueued, List.filterMap_append, h]

theorem enqueued_concat (h : ∀ v, e.event ≠ .pushBack v) : enqueued (es ++ [e]) = enqueued es := by
  rw [enqueued, List.filterMap_append]
  apply List.append_right_eq_self.mpr
  rcases e with ⟨s, i, ev⟩
  cases ev with
  | pushBack v => exact absurd rfl (h v)
  | _ => rfl

theorem received_popFront (h : e.event = .popFront v) :
    received (es ++ [e]) = received es ++ [v] := by
  simp [received, List.filterMap_append, h]

theorem received_concat (h : ∀ v, e.event ≠ .popFront v) : received (es ++ [e]) = received es := by
  rw [received, List.filterMap_append]
  apply List.append_right_eq_self.mpr
  rcases e with ⟨s, i, ev⟩
  cases ev with
  | popFront v => exact absurd rfl (h v)
  | _ => rfl

/-- Values leave in the order they were put in. -/
def Fifo (es : List (ChannelStep T)) (s : Channel T) : Prop :=
  (enqueued es).map (·.2) = received es ++ s.buffer

theorem Fifo.step (h : Fifo es s) (hst : Took cap s i t ev s') :
    Fifo (es ++ [⟨s, i, ev⟩]) s' := by
  cases hst with
  | full | again | ret | empty =>
      rw [Fifo, enqueued_concat (by simp), received_concat (by simp)]
      exact h
  | push | offer =>
      rw [Fifo, enqueued_pushBack rfl, received_concat (by simp), List.map_append, h]
      exact List.append_assoc _ _ _
  | @pop r v rest ws hops hb hws =>
      rw [Fifo, enqueued_concat (by simp), received_popFront rfl, h, hb, List.append_assoc]
      rfl

theorem Fifo.awaiting (h : Fifo es s) : (awaiting es).map (·.2) = s.buffer := by
  rw [Runtime.awaiting, List.map_drop, h, List.drop_left]

theorem Fifo.length_le (h : Fifo es s) : (received es).length ≤ (enqueued es).length := by
  have hlen := congrArg List.length h
  rw [List.length_map, List.length_append] at hlen
  omega

theorem awaiting_concat (hp : ∀ v, e.event ≠ .pushBack v) (hr : ∀ v, e.event ≠ .popFront v) :
    awaiting (es ++ [e]) = awaiting es := by
  rw [awaiting, enqueued_concat hp, received_concat hr]
  rfl

theorem awaiting_pushBack (h : Fifo es s) (he : e.event = .pushBack v) :
    awaiting (es ++ [e]) = awaiting es ++ [(e.thread, v)] := by
  rw [awaiting, enqueued_pushBack he, received_concat (by simp [he]),
    List.drop_append_of_le_length h.length_le]
  rfl

theorem awaiting_popFront (he : e.event = .popFront v) :
    awaiting (es ++ [e]) = (awaiting es).tail := by
  rw [awaiting, enqueued_concat (by simp [he]), received_popFront he, List.length_append,
    List.length_singleton, ← List.drop_drop, List.drop_one]
  rfl

/-- The value a thread last put into the buffer. -/
def LastEnqueued (es : List (ChannelStep T)) (i : ℕ) : Prop :=
  ∃ pre v post, enqueued es = pre ++ (i, v) :: post ∧ ∀ w, (i, w) ∉ post

theorem LastEnqueued.concat (h : LastEnqueued es i) (hp : ∀ v, e.event ≠ .pushBack v) :
    LastEnqueued (es ++ [e]) i := by
  rw [LastEnqueued, enqueued_concat hp]
  exact h

theorem LastEnqueued.pushBack (h : LastEnqueued es i) (he : e.event = .pushBack v)
    (hne : e.thread ≠ i) : LastEnqueued (es ++ [e]) i := by
  obtain ⟨pre, w, post, heq, hpost⟩ := h
  refine ⟨pre, w, post ++ [(e.thread, v)], ?_, fun w hw ↦ ?_⟩
  · rw [enqueued_pushBack he, heq, List.append_assoc, List.cons_append]
  · rcases List.mem_append.mp hw with hw | hw
    · exact hpost w hw
    · exact hne (Prod.mk.inj (List.mem_singleton.mp hw)).1.symm

/-- A thread whose last value was received has none left to be received. -/
theorem LastEnqueued.delivered_iff (h : LastEnqueued es i) :
    Delivered es i ↔ i ∉ (awaiting es).map (·.1) := by
  obtain ⟨pre, v, post, heq, hpost⟩ := h
  constructor
  · rintro ⟨pre', v', post', heq', hpost', hlt⟩ hmem
    obtain ⟨⟨j, w⟩, hw, rfl⟩ := List.mem_map.mp hmem
    rw [awaiting, heq', List.drop_append, List.drop_eq_nil_of_le hlt.le, List.nil_append] at hw
    obtain ⟨k, hk⟩ : ∃ k, (received es).length - pre'.length = k + 1 :=
      ⟨(received es).length - pre'.length - 1, by omega⟩
    rw [hk, List.drop_succ_cons] at hw
    exact hpost' w (List.mem_of_mem_drop hw)
  · intro hmem
    refine ⟨pre, v, post, heq, hpost, ?_⟩
    by_contra hle
    apply hmem
    refine List.mem_map.mpr ⟨(i, v), ?_, rfl⟩
    rw [awaiting, heq, List.drop_append_of_le_length (not_lt.mp hle)]
    simp

end Histories

section Drains

open Channel

/-- At capacity 0 the waiting sends are the values in the buffer and the wake-ups that
were used up. -/
structure Drains (es : List (ChannelStep T)) (s : Channel T) : Prop where
  count : s.sendCv.length = s.buffer.length + waitedAgain es
  owner : ∀ p ∈ awaiting es, ∃ t : ChannelThread T, s.threads[p.1]? = some t ∧ t.point = .drain
  nodup : ((awaiting es).map (·.1)).Nodup
  last : ∀ (i : ℕ) (t : ChannelThread T), s.threads[i]? = some t → t.point = .drain →
    LastEnqueued es i

/-- A thread that takes no part in a send moves. -/
theorem Drains.idle (h : Drains es s) (ht : s.threads[i]? = some t) {e : ChannelStep T}
    (hp : ∀ v, e.event ≠ .pushBack v) (hr : ∀ v, e.event ≠ .popFront v)
    (hc : s'.sendCv.length = s'.buffer.length + waitedAgain (es ++ [e]))
    (hth : ∀ j, s'.threads[j]? = if i = j then some u else s.threads[j]?)
    (hi : u.point = .drain → t.point = .drain)
    (howner : t.point = .drain → u.point ≠ .drain → awaiting es = []) : Drains (es ++ [e]) s' := by
  refine ⟨hc, ?_, ?_, ?_⟩
  · intro p hmem
    rw [awaiting_concat hp hr] at hmem
    obtain ⟨w, hw, hd⟩ := h.owner p hmem
    rw [hth]
    split_ifs with hip
    · subst hip
      obtain rfl := Option.some.inj (ht.symm.trans hw)
      refine ⟨u, rfl, by_contra fun hne ↦ ?_⟩
      rw [howner hd hne] at hmem
      cases hmem
    · exact ⟨w, hw, hd⟩
  · rw [awaiting_concat hp hr]
    exact h.nodup
  · intro j w hw hd
    rw [hth] at hw
    split_ifs at hw with hij
    · obtain rfl := Option.some.inj hw
      subst hij
      exact (h.last i t ht (hi hd)).concat hp
    · exact (h.last j w hw hd).concat hp

theorem Drains.step (h : Drains es s) (hw : Waits 0 s) (hf : Fifo es s)
    (ht : s.threads[i]? = some t) (hst : Took 0 s i t ev s') : Drains (es ++ [⟨s, i, ev⟩]) s' := by
  have hagain := waitedAgain_concat es ⟨s, i, ev⟩
  have hcount := h.count
  cases hst with
  | full hops hp hc hl => exact absurd rfl hc
  | push hops hp hl hws => exact absurd hl (Nat.not_lt_zero _)
  | @offer v r ws hops hp hc hws =>
      have hth (j : ℕ) := threads_setThread ht ⟨t.ops, .drain⟩ j
      rw [if_neg (by simp [waitsAgain_iff ht, hp])] at hagain
      refine ⟨?_, ?_, ?_, ?_⟩
      · change (s.sendCv ++ [i]).length = (s.buffer ++ [v]).length + _
        rw [List.length_append, List.length_append, List.length_singleton, List.length_singleton]
        omega
      · intro p hmem
        rw [awaiting_pushBack hf rfl] at hmem
        change ∃ w, (s.setThread i ⟨t.ops, .drain⟩).threads[p.1]? = some w ∧ _
        rw [hth]
        split_ifs with hip
        · exact ⟨_, rfl, rfl⟩
        · rcases List.mem_append.mp hmem with hmem | hmem
          · exact h.owner p hmem
          · exact absurd (congrArg Prod.fst (List.mem_singleton.mp hmem)).symm hip
      · rw [awaiting_pushBack hf rfl, List.map_append]
        refine List.nodup_append.mpr ⟨h.nodup, List.nodup_singleton _, ?_⟩
        rintro j hj k hk rfl
        obtain ⟨p, hmem, hpj⟩ := List.mem_map.mp hj
        obtain ⟨w, hwt, hd⟩ := h.owner p hmem
        obtain rfl : j = i := List.mem_singleton.mp hk
        rw [hpj, ht] at hwt
        exact hp (Option.some.inj hwt ▸ hd)
      · intro j w hj hd
        change (s.setThread i ⟨t.ops, .drain⟩).threads[j]? = some w at hj
        rw [hth] at hj
        split_ifs at hj with hij
        · subst hij
          exact ⟨enqueued es, v, [], enqueued_pushBack rfl, by simp⟩
        · exact (h.last j w hj hd).pushBack rfl hij
  | @again v r hops hp hb =>
      rw [if_pos ((waitsAgain_iff ht).mpr ⟨hp, hb⟩)] at hagain
      refine h.idle ht (by simp) (by simp) ?_ (threads_setThread ht ⟨t.ops, .drain⟩)
        (fun _ ↦ hp) fun _ hd ↦ absurd rfl hd
      change (s.sendCv ++ [i]).length = s.buffer.length + _
      rw [List.length_append, List.length_singleton]
      omega
  | @ret v r hops hp hb =>
      rw [if_neg (by simp [waitsAgain_iff ht, hb])] at hagain
      have hnil : awaiting es = [] := List.map_eq_nil_iff.mp (hf.awaiting.trans hb)
      refine h.idle ht (by simp) (by simp) ?_ (threads_setThread ht ⟨t.ops.tail, .entry⟩)
        (fun hd ↦ nomatch hd) fun _ _ ↦ hnil
      change s.sendCv.length = s.buffer.length + _
      omega
  | @empty r hops hb =>
      have hp := (hw.point_recv ht hops).2
      rw [if_neg (by simp [waitsAgain_iff ht, hp])] at hagain
      refine h.idle ht (by simp) (by simp) ?_ (threads_setThread ht ⟨t.ops, .empty⟩)
        (fun hd ↦ nomatch hd) fun hd _ ↦ absurd hd hp
      change s.sendCv.length = s.buffer.length + _
      omega
  | @pop r v rest ws hops hb hws =>
      have hp := (hw.point_recv ht hops).2
      have hth (j : ℕ) := threads_setThread ht ⟨t.ops.tail, .entry⟩ j
      have hlen := length_of_mem_notifyOne hws
      rw [if_neg (by simp [waitsAgain_iff ht, hp])] at hagain
      rw [hb, List.length_cons] at hcount
      refine ⟨?_, ?_, ?_, ?_⟩
      · change ws.length = rest.length + _
        omega
      · intro p hmem
        rw [awaiting_popFront rfl] at hmem
        obtain ⟨w, hwt, hd⟩ := h.owner p (List.mem_of_mem_tail hmem)
        change ∃ w, (s.setThread i ⟨t.ops.tail, .entry⟩).threads[p.1]? = some w ∧ _
        rw [hth, if_neg ?_]
        · exact ⟨w, hwt, hd⟩
        · rintro rfl
          exact hp (Option.some.inj (ht.symm.trans hwt) ▸ hd)
      · rw [awaiting_popFront rfl, List.map_tail]
        exact h.nodup.tail
      · intro j w hj hd
        change (s.setThread i ⟨t.ops.tail, .entry⟩).threads[j]? = some w at hj
        rw [hth] at hj
        split_ifs at hj with hij
        · obtain rfl := Option.some.inj hj
          cases hd
        · exact (h.last j w hj hd).concat (by simp)

end Drains

end Runtime

end ConcIR
