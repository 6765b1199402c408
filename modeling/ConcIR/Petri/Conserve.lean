import ConcIR.Interp.Waits
import ConcIR.Petri.Simulate

/-!
# Conservation of tokens

In every reachable marking a thread that is not finished owns one token, a finished one
owns none, and the places of resources hold one token each.
-/

namespace ConcIR

open MachineState

namespace Petri

variable {E : Engine} {P : SemProgram} {σ : MachineState} {m : NetState} {x : ThreadId}
  {t : ThreadState} {f : FrameId} {fr : Frame} {k : PlaceKey} {tok : NetToken}

/-- The tokens of a thread in the control and wait places, with their places. -/
def owned (E : Engine) (m : NetState) (x : ThreadId) : List (PlaceKey × NetToken) :=
  ((places E.program).filter (·.cell.isNone)).flatMap fun k ↦
    ((m.marking k).filter fun tok ↦ tok.binding.map Prod.fst = some x).map (k, ·)

/-- A token that a resource place may hold. -/
def colours (k : PlaceKey) (tok : NetToken) : Prop :=
  match k with
  | .mutex _ => ∃ s, tok = .mutex s
  | .semaphore _ => ∃ n, tok = .data (.int n)
  | .channel _ => ∃ a, tok = .data (.array a)
  | _ => ∃ v, tok = .data v

/-- The place of the only token of a thread. -/
inductive Located (m : NetState) (t : NetThread) (f : FrameId) : PlaceKey → Prop
  | control {fr : Frame} (hf : m.store.frames[f]? = some fr) (hb : t.blockedAt = none) :
      Located m t f (.control fr.function fr.pc)
  | wait {k : PlaceKey} (hk : ∀ fn pc, k ≠ .control fn pc) (hb : t.blockedAt = some k) :
      Located m t f k

structure TokensConserved (E : Engine) (m : NetState) : Prop where
  unfinished : ∀ (x : ThreadId) t, m.store.threads[x]? = some t → x ∉ m.store.finished →
    ∃ k tok f, owned E m x = [(k, tok)] ∧ t.stack.head? = some f ∧ tok.binding = some (x, f) ∧
      Located m t f k
  finished : ∀ x ∈ m.store.finished, owned E m x = []
  cell : ∀ k ∈ places E.program, k.cell ≠ none → ∃ tok, m.marking k = [tok] ∧ colours k tok
  /-- There are no tokens elsewhere. -/
  outside : ∀ k ∉ places E.program, m.marking k = []

section Lists

variable {α β : Type}

theorem nodup_eraseDups [DecidableEq α] (l : List α) : l.eraseDups.Nodup := by
  induction hn : l.length using Nat.strong_induction_on generalizing l with
  | _ n ih =>
      cases l with
      | nil => exact List.nodup_nil
      | cons a l =>
          rw [List.eraseDups_cons, List.nodup_cons]
          refine ⟨fun hmem ↦ ?_, ih _ ?_ _ rfl⟩
          · have := List.mem_eraseDups.mp hmem
            simp at this
          · rw [← hn, List.length_cons, Nat.lt_succ_iff]
            exact List.length_filter_le _ l

theorem eq_singleton_of_nodup {l : List α} {a : α} (hnd : l.Nodup) (h : ∀ b, b ∈ l ↔ b = a) :
    l = [a] := by
  cases l with
  | nil => cases (h a).mpr rfl
  | cons b l =>
      obtain rfl := (h b).mp List.mem_cons_self
      rw [List.nodup_cons] at hnd
      have hnil : l = [] := List.eq_nil_iff_forall_not_mem.mpr fun c hc ↦
        hnd.1 ((h c).mp (List.mem_cons_of_mem b hc) ▸ hc)
      rw [hnil]

end Lists

section Seats

/-- The place of a waiting thread is one of the net. -/
theorem waitPlace_mem_places (hw : Wf P σ) (top : Top σ x t f fr) {r : BlockReason}
    (hb : t.status = .blocked r) : waitPlace fr.function fr.pc r ∈ places P := by
  obtain ⟨u, g, gr, op, top', -, hop, hwaits⟩ := hw.blocked_thread (x := x) (r := r) (by
    rw [top.status, hb])
  obtain ⟨-, -, rfl⟩ := top_unique top top'
  have hok := SemProgram.opAt_ok hop
  cases r with
  | lock r =>
      have hr : hasKind P.resources r .mutex = true := by
        rcases hwaits with rfl | ⟨cv, rfl⟩
        · exact hok
        · exact (Bool.and_eq_true_iff.mp hok).2
      refine mem_places.mpr (.resource r (hasKind_lt hr) ?_)
      rw [resourcePlaces, P.resource_kind hr]
      exact List.mem_cons_self
  | channelSend c =>
      obtain ⟨e, rfl⟩ := hwaits
      refine mem_places.mpr (.resource c (hasKind_lt hok) ?_)
      simp [resourcePlaces, P.resource_kind hok, waitPlace]
  | channelRecv c =>
      obtain ⟨dst, rfl⟩ := hwaits
      have hr := (Bool.and_eq_true_iff.mp hok).1
      refine mem_places.mpr (.resource c (hasKind_lt hr) ?_)
      simp [resourcePlaces, P.resource_kind hr, waitPlace]
  | condvar cv lk =>
      obtain rfl := hwaits
      exact mem_places.mpr (.statement _ _ _ hop (by simp [stmtPlaces, waitPlace]))
  | semaphore r =>
      obtain ⟨n, rfl, -⟩ := hwaits
      exact mem_places.mpr (.statement _ _ _ hop (by simp [stmtPlaces, waitPlace]))
  | join k =>
      obtain ⟨name, rfl, -⟩ := hwaits
      exact joinWait_mem_places hop
  | scope s =>
      obtain ⟨gs, rfl⟩ := hwaits
      exact scopeWait_mem_places hop

theorem seat_mem_places (hw : Wf P σ) (hs : Seat σ x k tok) : k ∈ places P := by
  cases hs with
  | @control t f fr top hrun =>
      exact control_mem_places (hw.stack.function_lt f fr top.frame)
        (hw.code.pc_le f fr top.frame)
  | wait top hb hwt => exact waitPlace_mem_places hw top hb

variable (h : Corr E.program ∅ σ m) (hw : Wf E.program σ)

include h

/-- The tokens of a thread are the ones of its seat. -/
theorem mem_owned : (k, tok) ∈ owned E m x ↔ k ∈ places E.program ∧ Seat σ x k tok := by
  rw [owned, List.mem_flatMap]
  constructor
  · rintro ⟨k', hk', hmem⟩
    obtain ⟨tok', htok', he⟩ := List.mem_map.mp hmem
    obtain ⟨rfl, rfl⟩ := Prod.mk.inj he
    obtain ⟨hk', hcell⟩ := List.mem_filter.mp hk'
    obtain ⟨hmark, hown⟩ := List.mem_filter.mp htok'
    obtain ⟨y, -, hs⟩ := ((h.seats _ (Option.isNone_iff_eq_none.mp hcell)).2 _).mp hmark
    obtain ⟨t, f, fr, -, hbind⟩ := hs.binding
    rw [hbind] at hown
    obtain rfl : y = x := by simpa using hown
    exact ⟨hk', hs⟩
  · rintro ⟨hk, hs⟩
    obtain ⟨t, f, fr, -, hbind⟩ := hs.binding
    refine ⟨k, List.mem_filter.mpr ⟨hk, by simp [hs.cell]⟩, List.mem_map.mpr ⟨tok, ?_, rfl⟩⟩
    exact List.mem_filter.mpr ⟨((h.seats k hs.cell).2 tok).mpr ⟨x, Set.notMem_empty x, hs⟩,
      by simp [hbind]⟩

theorem nodup_owned : (owned E m x).Nodup := by
  refine List.nodup_flatMap.mpr ⟨fun k hk ↦ ?_, ?_⟩
  · have hcell := Option.isNone_iff_eq_none.mp (List.mem_filter.mp hk).2
    exact ((h.seats k hcell).1.filter _).map fun _ _ he ↦ (Prod.mk.inj he).2
  · refine ((nodup_eraseDups _).filter _).imp fun hne ↦ ?_
    intro p hp hq
    obtain ⟨_, -, rfl⟩ := List.mem_map.mp hp
    obtain ⟨_, -, he⟩ := List.mem_map.mp hq
    exact hne (Prod.mk.inj he).1.symm

include hw

theorem owned_of_seat (hs : Seat σ x k tok) : owned E m x = [(k, tok)] := by
  refine eq_singleton_of_nodup (nodup_owned h) fun ⟨k', tok'⟩ ↦ ?_
  rw [mem_owned h, Prod.mk.injEq]
  constructor
  · exact fun hs' ↦ hs.unique hw.regs hs'.2
  · rintro ⟨rfl, rfl⟩
    exact ⟨seat_mem_places hw hs, hs⟩

omit hw in
/-- The record of a thread names the place that its token is in. -/
theorem located_of_seat (hx : σ.HasThread x t) (hs : Seat σ x k tok) :
    ∃ f, t.stack.head? = some f ∧ tok.binding = some (x, f) ∧
      Located m (netThread σ.store.frames t) f k := by
  have hframe : ∀ {u f fr}, Top σ x u f fr → m.store.frames[f]? = some fr := fun top ↦ by
    rw [h.records.frames]
    exact top.frame
  cases hs with
  | @control u f fr top hrun =>
      obtain rfl : t = u := Option.some.inj (hx.symm.trans top.thread)
      refine ⟨f, top.head, rfl, .control (hframe top) ?_⟩
      simp only [netThread, hrun]
  | @wait u f fr r _ top hb hwt =>
      obtain rfl : t = u := Option.some.inj (hx.symm.trans top.thread)
      refine ⟨f, top.head, hwt.binding, .wait (fun fn pc ↦ by cases r <;> simp [waitPlace]) ?_⟩
      simp only [netThread, hb, top.head, Option.bind_some,
        show σ.store.frames[f]? = some fr from top.frame, Option.map_some]

omit h hw in
theorem singleton_of_cell {V : Type} {cells : BTreeMap ResourceId V} {r : ResourceId} {b : Bool}
    (hdom : cells.contains r = b) (g : V → NetToken) (hg : ∀ v, colours k (g v)) :
    (b = true → ∃ tok, (cells[r]?).toList.map g = [tok] ∧ colours k tok) ∧
      (b = false → (cells[r]?).toList.map g = []) := by
  rw [← hdom, Std.ExtTreeMap.contains_eq_isSome_getElem?]
  cases cells[r]? with
  | none => exact ⟨fun hf ↦ (by cases hf), fun _ ↦ rfl⟩
  | some v => exact ⟨fun _ ↦ ⟨g v, rfl, hg v⟩, fun hf ↦ (by cases hf)⟩

theorem cell_marking (hk : k.cell ≠ none) :
    (k ∈ places E.program → ∃ tok, m.marking k = [tok] ∧ colours k tok) ∧
      (k ∉ places E.program → m.marking k = []) := by
  have hs := hw.stores
  rw [h.cells k hk]
  cases k with
  | var r =>
      rw [mem_places_cell (k := .var r) rfl, Bool.not_eq_true]
      exact singleton_of_cell (hs.vars r) _ fun v ↦ ⟨v, rfl⟩
  | atomic r =>
      rw [mem_places_cell (k := .atomic r) rfl, Bool.not_eq_true]
      exact singleton_of_cell (hs.atomics r) _ fun v ↦ ⟨v, rfl⟩
  | mutex r =>
      rw [mem_places_cell (k := .mutex r) rfl, Bool.not_eq_true]
      exact singleton_of_cell (hs.mutexes r) _ fun v ↦ ⟨v, rfl⟩
  | semaphore r =>
      rw [mem_places_cell (k := .semaphore r) rfl, Bool.not_eq_true]
      exact singleton_of_cell (hs.semaphores r) _ fun n ↦ ⟨n, rfl⟩
  | channel r =>
      rw [mem_places_cell (k := .channel r) rfl, Bool.not_eq_true]
      exact singleton_of_cell (hs.channels r) _ fun ch ↦ ⟨ch.buffer, rfl⟩
  | _ => exact absurd rfl hk

end Seats

theorem Corr.tokensConserved (h : Corr E.program ∅ σ m) (hw : Wf E.program σ) :
    TokensConserved E m where
  unfinished := by
    intro x t' ht' hlive
    rw [h.records.thread] at ht'
    obtain ⟨t, ht, rfl⟩ := Option.map_eq_some_iff.mp ht'
    have hne : t.status ≠ .finished := fun hf ↦ by
      rw [h.records.finished, hw.stack.finished_set, status, ht, Option.map_some, hf] at hlive
      exact hlive rfl
    obtain ⟨k, tok, hs⟩ := exists_seat hw ht hne
    obtain ⟨f, hhead, hbind, hloc⟩ := located_of_seat h ht hs
    exact ⟨k, tok, f, owned_of_seat h hw hs, hhead, hbind, hloc⟩
  finished := by
    intro x hx
    rw [h.records.finished, hw.stack.finished_set] at hx
    refine List.eq_nil_iff_forall_not_mem.mpr ?_
    rintro ⟨k, tok⟩ hmem
    obtain ⟨t, f, fr, top, -⟩ := ((mem_owned h).mp hmem).2.binding
    rw [top.status, Option.some.injEq] at hx
    have hnil := (hw.stack.finished_stack x t top.thread).mp hx
    have hhead := top.head
    rw [hnil] at hhead
    cases hhead
  cell := fun k hk hc ↦ (cell_marking h hw hc).1 hk
  outside := by
    intro k hk
    by_cases hc : k.cell = none
    · refine List.eq_nil_iff_forall_not_mem.mpr fun tok hmem ↦ ?_
      obtain ⟨x, -, hs⟩ := ((h.seats k hc).2 tok).mp hmem
      exact hk (seat_mem_places hw hs)
    · exact (cell_marking h hw hc).2 hk

/-- Tokens are conserved in every reachable marking. -/
theorem tokensConserved_of_reachable [FloatArith] (h : E.petri.Reachable m) :
    TokensConserved E m := by
  obtain ⟨σ, hc, hw, -⟩ := corr_of_reachable h
  exact hc.tokensConserved hw

def pipelineNet : TransitionSystem NetState := @Engine.petri .unused pipelineEngine

/-- The producer waits for room for its second value. -/
theorem tokensConserved_of_reachable_pipeline : ∃ m, pipelineNet.run [0, 1, 1] = some m ∧
    (m.store.threads[1]?).bind (·.blockedAt) = some (.channelSend 0) ∧
      TokensConserved pipelineEngine m := by
  have hrun : ((pipelineNet.run [0, 1, 1]).bind fun m ↦
      (m.store.threads[1]?).bind (·.blockedAt)) = some (.channelSend 0) := by decide
  obtain ⟨m, hm, hb⟩ := Option.bind_eq_some_iff.mp hrun
  exact ⟨m, hm, hb, @tokensConserved_of_reachable pipelineEngine m .unused
    (TransitionSystem.reachable_of_run hm)⟩

end Petri

end ConcIR
