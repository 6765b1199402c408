import ConcIR.Petri.Corr

/-!
# Updates of a machine state and of its marking

Each update of the machine with the update of the marking that shows it.
-/

namespace ConcIR

open MachineState

namespace Petri

variable {P : SemProgram} {out : Set ThreadId} {σ σ' σ₁ : MachineState} {m m' : NetState}
  {x y : ThreadId} {t u : ThreadState} {f g : FrameId} {fr gr : Frame} {r : BlockReason}
  {k k' : PlaceKey} {tok tok' : NetToken}

section Congr

theorem netThread_congr {frames frames' : BTreeMap FrameId Frame}
    (h : ∀ f, t.stack.head? = some f → (frames'[f]?).map (fun fr ↦ (fr.function, fr.pc)) =
      (frames[f]?).map fun fr ↦ (fr.function, fr.pc)) :
    netThread frames' t = netThread frames t := by
  cases hst : t.status with
  | runnable => simp only [netThread, hst]
  | finished => simp only [netThread, hst]
  | blocked r =>
      simp only [netThread, hst, NetThread.mk.injEq, true_and]
      cases hh : t.stack.head? with
      | none => rfl
      | some f =>
          have := h f hh
          simp only [Option.bind_some]
          cases hf : frames[f]? <;> cases hf' : frames'[f]? <;> simp_all

theorem netScope_congr {frames frames' : BTreeMap FrameId Frame} {sc : ScopeState}
    (h : (frames'[sc.ownerFrame]?).map (·.pc) = (frames[sc.ownerFrame]?).map (·.pc)) :
    netScope frames' sc = netScope frames sc := by
  simp only [netScope, h]

theorem Unmoved.of_eq (ht : σ'.threads = σ.threads) (hf : σ'.store.frames = σ.store.frames)
    (hs : ∀ c, σ'.sends c = σ.sends c) (hq : σ'.semWaiters = σ.semWaiters) :
    Unmoved σ σ' x where
  spot := by rw [Petri.spot, Petri.spot, ht, hf]
  sends := fun c v ↦ by rw [hs]
  queue := fun r n ↦ by rw [semQueue, hq, semQueue]

/-- The tokens of the threads stay where they are. -/
theorem Corr.rebuild (h : Corr P out σ m) (hcells : Cells σ'.store m'.marking)
    (hmark : ∀ k, k.cell = none → m'.marking k = m.marking k)
    (hs : ∀ y, y ∉ out → ∀ k tok, Seat σ' y k tok ↔ Seat σ y k tok) (hrec : Records P σ' m'.store)
    (hapart : ∀ x t y u f, σ'.HasThread x t → σ'.HasThread y u → f ∈ t.stack → f ∈ u.stack →
      x = y)
    (hfree : ∀ s sc x, σ'.HasScope s sc → x ∈ out →
      sc.owner ≠ x ∧ ∀ t, σ'.HasThread x t → sc.ownerFrame ∉ t.stack) : Corr P out σ' m' where
  cells := hcells
  seats := by
    intro k hk
    rw [hmark k hk]
    exact h.seats.congr hs k hk
  records := hrec
  apart := hapart
  free := hfree

/-- The same, when no stack grows and no scope is opened. -/
theorem Corr.congr (h : Corr P out σ m) (hcells : Cells σ'.store m'.marking)
    (hmark : ∀ k, k.cell = none → m'.marking k = m.marking k)
    (hu : ∀ y, y ∉ out → Unmoved σ σ' y) (hrec : Records P σ' m'.store)
    (hstack : ∀ y u, σ'.HasThread y u → ∃ v, σ.HasThread y v ∧ ∀ g ∈ u.stack, g ∈ v.stack)
    (hscope : ∀ s sc, σ'.HasScope s sc →
      ∃ sc₀, σ.HasScope s sc₀ ∧ sc₀.owner = sc.owner ∧ sc₀.ownerFrame = sc.ownerFrame) :
    Corr P out σ' m' := by
  refine h.rebuild hcells hmark (fun y hy k tok ↦ (hu y hy).seat) hrec ?_ ?_
  · intro x t y u f hx hy hft hfu
    obtain ⟨t', hx', ht'⟩ := hstack x t hx
    obtain ⟨u', hy', hu'⟩ := hstack y u hy
    exact h.apart x t' y u' f hx' hy' (ht' f hft) (hu' f hfu)
  · intro s sc x hs hx
    obtain ⟨sc₀, hs₀, ho, hf⟩ := hscope s sc hs
    obtain ⟨hne, hst⟩ := h.free s sc₀ x hs₀ hx
    refine ⟨ho ▸ hne, fun t ht hmem ↦ ?_⟩
    obtain ⟨t', hx', ht'⟩ := hstack x t ht
    exact hst t' hx' (hf ▸ ht' _ hmem)

/-- Nothing but cells of the store changes. -/
theorem Corr.of_cells (h : Corr P out σ m) (hcells : Cells σ'.store m'.marking)
    (hmark : ∀ k, k.cell = none → m'.marking k = m.marking k) (hst : m'.store = m.store)
    (hσ : σ' = { σ with store := σ'.store }) (hf : σ'.store.frames = σ.store.frames)
    (hs : ∀ c, σ'.sends c = σ.sends c) : Corr P out σ' m' := by
  have ht : σ'.threads = σ.threads := by rw [hσ]
  refine h.congr hcells hmark (fun y _ ↦ .of_eq ht hf hs (by rw [hσ])) ?_
    (fun y u hu ↦ ⟨u, by rwa [HasThread, ← ht], fun g hg ↦ hg⟩)
    (fun s sc hsc ↦ ⟨sc, by rw [hσ] at hsc; exact hsc, rfl, rfl⟩)
  rw [hst]
  have hr := h.records
  constructor
  · rw [hr.frames, hf]
  · intro y
    rw [hr.thread, ht, hf]
  · intro s
    rw [hr.scope, hf, hσ]
  · rw [hr.finished, hσ]
  · rw [hr.completedFunctions, hσ]
  · rw [hr.completedScopes, hσ]
  · intro fn pc hpc
    rw [hr.reached fn pc hpc, hσ]
  · rw [hr.alloc, hσ]

end Congr

section Cells

theorem marking_setSingle_of_ne {k k' : PlaceKey} (h : k' ≠ k) (tok : NetToken) :
    (m.setSingle k tok).marking k' = m.marking k' := Function.update_of_ne h _ _

theorem Cells.setSingle {s s' : Store} (h : Cells s m.marking) (hk : cellTokens s' k = [tok])
    (hother : ∀ k', k' ≠ k → cellTokens s' k' = cellTokens s k') :
    Cells s' (m.setSingle k tok).marking := by
  intro k' hk'
  by_cases hne : k' = k
  · rw [hne, hk]
    exact Function.update_self _ _ _
  · rw [marking_setSingle_of_ne hne, hother k' hne]
    exact h k' hk'

/-- A cell of the store is written. -/
theorem Corr.setCell (h : Corr P out σ m) (hkc : k.cell ≠ none)
    (hσ : σ' = { σ with store := σ'.store }) (hf : σ'.store.frames = σ.store.frames)
    (hs : ∀ c, σ'.sends c = σ.sends c) (hk : cellTokens σ'.store k = [tok])
    (hother : ∀ k', k' ≠ k → cellTokens σ'.store k' = cellTokens σ.store k') :
    Corr P out σ' (m.setSingle k tok) :=
  h.of_cells (h.cells.setSingle hk hother)
    (fun k' hk' ↦ marking_setSingle_of_ne (fun he ↦ hkc (by rw [← he]; exact hk')) _) rfl hσ hf hs

theorem getElem?_insert_ne {V : Type} {map : BTreeMap ResourceId V} {r d : ResourceId}
    (h : d ≠ r) (v : V) : (map.insert r v)[d]? = map[d]? := by
  rw [Std.ExtTreeMap.getElem?_insert, if_neg (by simpa using Ne.symm h)]

theorem Corr.setVar (h : Corr P out σ m) (r : ResourceId) (v : Value) :
    Corr P out (σ.setVar r v) (m.setData (.var r) v) := by
  refine h.setCell (by simp [PlaceKey.cell]) rfl rfl (fun _ ↦ rfl) (by simp [cellTokens,
    MachineState.setVar]) fun k' hk' ↦ ?_
  cases k' with
  | var d => simp only [cellTokens, MachineState.setVar,
      getElem?_insert_ne (fun hd ↦ hk' (congrArg _ hd))]
  | _ => rfl

theorem Corr.setAtomic (h : Corr P out σ m) (r : ResourceId) (v : Value) :
    Corr P out (σ.setAtomic r v) (m.setData (.atomic r) v) := by
  refine h.setCell (by simp [PlaceKey.cell]) rfl rfl (fun _ ↦ rfl) (by simp [cellTokens,
    MachineState.setAtomic]) fun k' hk' ↦ ?_
  cases k' with
  | atomic d => simp only [cellTokens, MachineState.setAtomic,
      getElem?_insert_ne (fun hd ↦ hk' (congrArg _ hd))]
  | _ => rfl

theorem Corr.setMutex (h : Corr P out σ m) (r : ResourceId) (s : MutexState) :
    Corr P out (σ.setMutex r s) (m.setMutex (.mutex r) s) := by
  refine h.setCell (by simp [PlaceKey.cell]) rfl rfl (fun _ ↦ rfl) (by simp [cellTokens,
    MachineState.setMutex]) fun k' hk' ↦ ?_
  cases k' with
  | mutex d => simp only [cellTokens, MachineState.setMutex,
      getElem?_insert_ne (fun hd ↦ hk' (congrArg _ hd))]
  | _ => rfl

theorem Corr.setSemaphore (h : Corr P out σ m) (r : ResourceId) (n : ℤ) :
    Corr P out (σ.setSemaphore r n) (m.setData (.semaphore r) (.int n)) := by
  refine h.setCell (by simp [PlaceKey.cell]) rfl rfl (fun _ ↦ rfl) (by simp [cellTokens,
    MachineState.setSemaphore]) fun k' hk' ↦ ?_
  cases k' with
  | semaphore d => simp only [cellTokens, MachineState.setSemaphore,
      getElem?_insert_ne (fun hd ↦ hk' (congrArg _ hd))]
  | _ => rfl

/-- A change of a queue that the waiting senders are no part of. -/
theorem Corr.setBuffer (h : Corr P out σ m) {c : ResourceId} {ch : ChannelState}
    (hch : σ.store.channels[c]? = some ch) {F : ChannelState → ChannelState}
    (hF : ∀ ch, (F ch).pendingSend = ch.pendingSend) :
    Corr P out (σ.modifyChannel c F) (m.setData (.channel c) (.array (F ch).buffer)) := by
  refine h.setCell (by simp [PlaceKey.cell]) rfl rfl (fun d ↦ ?_) (by simp [cellTokens,
    MachineState.modifyChannel, hch]) fun k' hk' ↦ ?_
  · rw [sends_modifyChannel]
    split_ifs with hd
    · simp only [hF, hd, MachineState.sends]
    · rfl
  · cases k' with
    | channel d =>
        have hd : c ≠ d := fun hd ↦ hk' (congrArg _ hd.symm)
        simp only [cellTokens, MachineState.modifyChannel, Std.ExtTreeMap.getElem?_modify,
          Nat.compare_eq_eq, hd, if_false]
    | _ => rfl

end Cells

section Tables

/-- A change of the tables of waiting threads that concerns threads that are out. -/
theorem Corr.of_tables (h : Corr P out σ m)
    (hσ : σ' = { σ with store := σ'.store, semWaiters := σ'.semWaiters })
    (hst : σ'.store = { σ.store with
      channels := σ'.store.channels, condvars := σ'.store.condvars })
    (hb : ∀ c : ResourceId, (σ'.store.channels[c]?).map (·.buffer) =
      (σ.store.channels[c]?).map (·.buffer))
    (hs : ∀ y, y ∉ out → ∀ c v, ⟨y, v⟩ ∈ σ'.sends c ↔ ⟨y, v⟩ ∈ σ.sends c)
    (hq : ∀ y, y ∉ out → ∀ r n, (y, n) ∈ σ'.semQueue r ↔ (y, n) ∈ σ.semQueue r) :
    Corr P out σ' m := by
  have ht : σ'.threads = σ.threads := by rw [hσ]
  have hf : σ'.store.frames = σ.store.frames := by rw [hst]
  have hr := h.records
  refine h.congr (fun k hk ↦ ?_) (fun _ _ ↦ rfl) (fun y hy ↦ ⟨?_, hs y hy, hq y hy⟩)
    ⟨?_, ?_, ?_, ?_, ?_, ?_, ?_, ?_⟩
    (fun y u hu ↦ ⟨u, by rwa [HasThread, ← ht], fun g hg ↦ hg⟩)
    (fun s sc hsc ↦ ⟨sc, by rw [hσ] at hsc; exact hsc, rfl, rfl⟩)
  · rw [h.cells k hk]
    cases k with
    | channel c =>
        have hbuf : ∀ o : Option ChannelState, o.toList.map (fun ch ↦
            NetToken.data (.array ch.buffer)) =
              (o.map (·.buffer)).toList.map fun b ↦ .data (.array b) := by
          rintro (_ | ch) <;> rfl
        simp only [cellTokens, hbuf, hb c]
    | _ => rw [hst]; rfl
  · rw [spot, spot, ht, hf]
  · rw [hr.frames, hf]
  · intro y
    rw [hr.thread, ht, hf]
  · intro s
    rw [hr.scope, hf, hσ]
  · rw [hr.finished, hσ]
  · rw [hr.completedFunctions, hσ]
  · rw [hr.completedScopes, hσ]
  · intro fn pc hpc
    rw [hr.reached fn pc hpc, hσ]
  · rw [hr.alloc, hσ]

theorem Corr.modifyQueues (h : Corr P out σ m) {c : ResourceId}
    {F : ChannelState → ChannelState} (hF : ∀ ch, (F ch).buffer = ch.buffer)
    (hs : ∀ y, y ∉ out → ∀ ch v, ⟨y, v⟩ ∈ (F ch).pendingSend ↔ ⟨y, v⟩ ∈ ch.pendingSend) :
    Corr P out (σ.modifyChannel c F) m := by
  refine h.of_tables rfl rfl (fun d ↦ ?_) (fun y hy d v ↦ ?_) (fun _ _ _ _ ↦ Iff.rfl)
  · simp only [MachineState.modifyChannel, Std.ExtTreeMap.getElem?_modify]
    split_ifs with hd
    · rw [← Nat.compare_eq_eq.mp hd, Option.map_map]
      exact congrArg (σ.store.channels[c]?.map ·) (funext hF)
    · rfl
  · rw [sends_modifyChannel]
    split_ifs with hd
    · rw [hd, MachineState.sends]
      cases σ.store.channels[c]? with
      | none => simp
      | some ch => simpa using hs y hy ch v
    · rfl

theorem Corr.pushSend (h : Corr P out σ m) (hx : x ∈ out) (c : ResourceId) (v : Value) :
    Corr P out (σ.pushSend c ⟨x, v⟩) m := by
  refine h.modifyQueues (fun _ ↦ rfl) fun y hy ch w ↦ ?_
  have hne : y ≠ x := fun hyx ↦ hy (hyx ▸ hx)
  simp [hne]

theorem Corr.dropSend (h : Corr P out σ m) (hx : x ∈ out) (c : ResourceId) :
    Corr P out (σ.dropSend c x) m := by
  refine h.modifyQueues (fun _ ↦ rfl) fun y hy ch w ↦ ?_
  have hne : y ≠ x := fun hyx ↦ hy (hyx ▸ hx)
  simp [hne]

theorem Corr.pushRecv (h : Corr P out σ m) (c : ResourceId) (x : ThreadId) :
    Corr P out (σ.pushRecv c x) m := h.modifyQueues (fun _ ↦ rfl) fun _ _ _ _ ↦ Iff.rfl

theorem Corr.dropRecv (h : Corr P out σ m) (c : ResourceId) (x : ThreadId) :
    Corr P out (σ.dropRecv c x) m := h.modifyQueues (fun _ ↦ rfl) fun _ _ _ _ ↦ Iff.rfl

theorem Corr.modifyWaiters (h : Corr P out σ m) (cv : ResourceId)
    (F : List (ThreadId × ResourceId) → List (ThreadId × ResourceId)) :
    Corr P out (σ.modifyWaiters cv F) m :=
  h.of_tables rfl rfl (fun _ ↦ rfl) (fun _ _ _ _ ↦ Iff.rfl) fun _ _ _ _ ↦ Iff.rfl

theorem Corr.pushSemWaiter (h : Corr P out σ m) (hx : x ∈ out) (r : ResourceId) (n : ℤ) :
    Corr P out (σ.pushSemWaiter r (x, n)) m := by
  refine h.of_tables rfl rfl (fun _ ↦ rfl) (fun _ _ _ _ ↦ Iff.rfl) fun y hy q w ↦ ?_
  have hne : y ≠ x := fun hyx ↦ hy (hyx ▸ hx)
  rw [semQueue_pushSemWaiter]
  split_ifs <;> simp [hne]

theorem Corr.dropSemWaiter (h : Corr P out σ m) (hx : x ∈ out) (r : ResourceId) :
    Corr P out (σ.dropSemWaiter r x) m := by
  refine h.of_tables rfl rfl (fun _ ↦ rfl) (fun _ _ _ _ ↦ Iff.rfl) fun y hy q w ↦ ?_
  have hne : y ≠ x := fun hyx ↦ hy (hyx ▸ hx)
  rw [semQueue_dropSemWaiter]
  split_ifs <;> simp [hne]

end Tables

section Records

/-- A statement of an activation, if it is there. -/
theorem getElem?_modify_steps {frames : BTreeMap FrameId Frame} {F : Frame → Frame}
    (hfn : ∀ fr, (F fr).function = fr.function) (hpc : ∀ fr, (F fr).pc = fr.pc) (g : FrameId) :
    ((frames.modify f F)[g]?).map (fun fr ↦ (fr.function, fr.pc)) =
      (frames[g]?).map fun fr ↦ (fr.function, fr.pc) := by
  rw [Std.ExtTreeMap.getElem?_modify]
  split_ifs with hg
  · rw [← Nat.compare_eq_eq.mp hg]
    cases frames[f]? <;> simp [hfn, hpc]
  · rfl

/-- An activation changes, but not where it stands. -/
theorem Corr.modifyFrame (h : Corr P out σ m) (f : FrameId) {F : Frame → Frame}
    (hfn : ∀ fr, (F fr).function = fr.function) (hpc : ∀ fr, (F fr).pc = fr.pc) :
    Corr P out (σ.modifyFrame f F) (m.modifyFrame f F) := by
  have hr := h.records
  have hsteps (g : FrameId) : ((σ.store.frames.modify f F)[g]?).map (fun fr ↦ (fr.function, fr.pc)) =
      (σ.store.frames[g]?).map fun fr ↦ (fr.function, fr.pc) :=
    getElem?_modify_steps hfn hpc g
  refine h.congr h.cells (fun _ _ ↦ rfl)
    (fun y _ ↦ ⟨?_, fun _ _ ↦ Iff.rfl, fun _ _ ↦ Iff.rfl⟩)
    ⟨?_, fun y ↦ (hr.thread y).trans ?_, fun s ↦ (hr.scope s).trans ?_, hr.finished,
      hr.completedFunctions, hr.completedScopes, hr.reached, hr.alloc⟩
    (fun y u hu ↦ ⟨u, hu, fun g hg ↦ hg⟩) (fun s sc hsc ↦ ⟨sc, hsc, rfl, rfl⟩)
  · rw [Petri.spot, Petri.spot]
    refine congrArg (σ.threads[y]?.map ·) (funext fun t ↦ ?_)
    cases t.stack.head? with
    | none => rfl
    | some g => exact congrArg (fun o ↦ (t.status, t.stack, o)) (hsteps g)
  · exact congrArg (·.modify f F) hr.frames
  · exact congrArg (σ.threads[y]?.map ·) (funext fun t ↦ (netThread_congr fun g _ ↦ hsteps g).symm)
  · refine congrArg (σ.scopes[s]?.map ·) (funext fun sc ↦ (netScope_congr ?_).symm)
    have := congrArg (Option.map Prod.snd) (hsteps sc.ownerFrame)
    rw [Option.map_map, Option.map_map] at this
    exact this

/-- A thread changes, but not its activations. -/
theorem Corr.modifyThread (h : Corr P out σ m) (x : ThreadId) {F : ThreadState → ThreadState}
    {G : NetThread → NetThread}
    (hFG : ∀ t, σ.HasThread x t →
      netThread σ.store.frames (F t) = G (netThread σ.store.frames t))
    (hst : ∀ t, (F t).stack = t.stack) (hs : x ∈ out ∨ ∀ t, (F t).status = t.status) :
    Corr P out (σ.modifyThread x F) (m.modifyThread x G) := by
  have hr := h.records
  refine h.congr h.cells (fun _ _ ↦ rfl)
    (fun y hy ↦ ⟨?_, fun _ _ ↦ Iff.rfl, fun _ _ ↦ Iff.rfl⟩)
    ⟨hr.frames, fun y ↦ ?_, hr.scope, hr.finished,
      hr.completedFunctions, hr.completedScopes, hr.reached, hr.alloc⟩
    (fun y u hu ↦ ?_) (fun s sc hsc ↦ ⟨sc, hsc, rfl, rfl⟩)
  · rw [Petri.spot, Petri.spot, getElem?_modifyThread]
    split_ifs with hyx
    · rcases hs with hx | hs
      · exact absurd (hyx ▸ hx) hy
      · cases σ.threads[y]? with
        | none => rfl
        | some t =>
            simp only [Option.map_some, hst, hs]
            rfl
    · rfl
  · rw [getElem?_modifyThread]
    change (m.store.threads.modify x G)[y]? = _
    rw [Std.ExtTreeMap.getElem?_modify]
    simp only [Nat.compare_eq_eq, @eq_comm _ x]
    split_ifs with hyx
    · subst hyx
      rw [hr.thread]
      cases ht : σ.threads[y]? with
      | none => rfl
      | some t => exact congrArg some (hFG t ht).symm
    · exact hr.thread y
  · rw [HasThread, getElem?_modifyThread] at hu
    split_ifs at hu with hyx
    · obtain ⟨v, hv, rfl⟩ := Option.map_eq_some_iff.mp hu
      exact ⟨v, hv, fun g hg ↦ by rwa [hst] at hg⟩
    · exact ⟨u, hu, fun g hg ↦ hg⟩

end Records

section Control

/-- A thread that owns no scope is taken out of its place. -/
theorem Corr.take (h : Corr P out σ m) (hx : x ∉ out) (hs : Seat σ x k tok)
    (huniq : ∀ k' tok', Seat σ x k' tok' → k' = k ∧ tok' = tok)
    (hfree : ∀ s sc, σ.HasScope s sc →
      sc.owner ≠ x ∧ ∀ t, σ.HasThread x t → sc.ownerFrame ∉ t.stack) :
    Corr P (insert x out) σ (m.takeToken k tok) where
  cells := by
    intro k' hk'
    have hne : k' ≠ k := fun he ↦ hk' (he ▸ hs.cell)
    exact (Function.update_of_ne hne _ _).trans (h.cells k' hk')
  seats := by
    intro k' hk'
    obtain ⟨hnd, hmem⟩ := h.seats k' hk'
    have hiff : ∀ tok', (∃ y, y ∉ insert x out ∧ Seat σ y k' tok') ↔
        tok' ∈ m.marking k' ∧ ¬(k' = k ∧ tok' = tok) := by
      intro tok'
      rw [hmem]
      constructor
      · rintro ⟨y, hy, hseat⟩
        rw [Set.mem_insert_iff, not_or] at hy
        refine ⟨⟨y, hy.2, hseat⟩, ?_⟩
        rintro ⟨rfl, rfl⟩
        exact hy.1 (hseat.owner hs)
      · rintro ⟨⟨y, hy, hseat⟩, hne⟩
        refine ⟨y, ?_, hseat⟩
        rw [Set.mem_insert_iff, not_or]
        exact ⟨fun hyx ↦ hne (huniq k' tok' (hyx ▸ hseat)), hy⟩
    change (Function.update m.marking k _ k').Nodup ∧ ∀ tok', tok' ∈ Function.update _ _ _ k' ↔ _
    by_cases hk : k' = k
    · subst hk
      rw [Function.update_self]
      refine ⟨hnd.erase _, fun tok' ↦ ?_⟩
      rw [hiff, hnd.mem_erase_iff]
      tauto
    · rw [Function.update_of_ne hk]
      refine ⟨hnd, fun tok' ↦ ?_⟩
      rw [hiff]
      tauto
  records := h.records
  apart := h.apart
  free := by
    intro s sc y hsc hy
    rcases Set.mem_insert_iff.mp hy with rfl | hy
    · exact hfree s sc hsc
    · exact h.free s sc y hsc hy

/-- A thread is put back in its place. -/
theorem Corr.put (h : Corr P (insert x out) σ m) (hx : x ∉ out) (hs : Seat σ x k tok)
    (huniq : ∀ k' tok', Seat σ x k' tok' → k' = k ∧ tok' = tok) :
    Corr P out σ (m.put k tok) where
  cells := by
    intro k' hk'
    have hne : k' ≠ k := fun he ↦ hk' (he ▸ hs.cell)
    exact (Function.update_of_ne hne _ _).trans (h.cells k' hk')
  seats := by
    intro k' hk'
    obtain ⟨hnd, hmem⟩ := h.seats k' hk'
    have hiff : ∀ tok', (∃ y, y ∉ out ∧ Seat σ y k' tok') ↔
        tok' ∈ m.marking k' ∨ (k' = k ∧ tok' = tok) := by
      intro tok'
      rw [hmem]
      constructor
      · rintro ⟨y, hy, hseat⟩
        by_cases hyx : y = x
        · exact .inr (huniq k' tok' (hyx ▸ hseat))
        · exact .inl ⟨y, by simp [hyx, hy], hseat⟩
      · rintro (⟨y, hy, hseat⟩ | ⟨rfl, rfl⟩)
        · rw [Set.mem_insert_iff, not_or] at hy
          exact ⟨y, hy.2, hseat⟩
        · exact ⟨x, hx, hs⟩
    change (Function.update m.marking k _ k').Nodup ∧ ∀ tok', tok' ∈ Function.update _ _ _ k' ↔ _
    by_cases hk : k' = k
    · subst hk
      rw [Function.update_self]
      have hnot : tok ∉ m.marking k' := by
        rw [hmem]
        rintro ⟨y, hy, hseat⟩
        exact hy (Set.mem_insert_iff.mpr (.inl (hseat.owner hs)))
      refine ⟨hnd.append (List.nodup_singleton _) (by simpa using hnot), fun tok' ↦ ?_⟩
      rw [hiff, List.mem_append, List.mem_singleton]
      tauto
    · rw [Function.update_of_ne hk]
      refine ⟨hnd, fun tok' ↦ ?_⟩
      rw [hiff]
      tauto
  records := h.records
  apart := h.apart
  free := fun s sc y hsc hy ↦ h.free s sc y hsc (Set.mem_insert_of_mem x hy)

/-- A thread without a token is as good as out. -/
theorem Corr.drop (h : Corr P (insert x out) σ m) (hx : ∀ k tok, ¬ Seat σ x k tok) :
    Corr P out σ m where
  cells := h.cells
  seats := by
    intro k hk
    refine ⟨(h.seats k hk).1, fun tok ↦ ((h.seats k hk).2 tok).trans ?_⟩
    refine exists_congr fun y ↦ and_congr_left fun hs ↦ ?_
    rw [Set.mem_insert_iff, not_or, and_iff_right]
    exact fun hyx ↦ hx k tok (hyx ▸ hs)
  records := h.records
  apart := h.apart
  free := fun s sc y hsc hy ↦ h.free s sc y hsc (Set.mem_insert_of_mem x hy)

theorem seat_runnable (top : Top σ x t f fr) (hrun : t.status = .runnable)
    (hs : Seat σ x k tok) : k = .control fr.function fr.pc ∧ tok = .control x f := by
  cases hs with
  | control top' _ =>
      obtain ⟨rfl, rfl, rfl⟩ := top_unique top top'
      exact ⟨rfl, rfl⟩
  | wait top' hb _ =>
      obtain ⟨rfl, rfl, rfl⟩ := top_unique top top'
      rw [hrun] at hb
      cases hb

theorem seat_blocked (top : Top σ x t f fr) (hb : t.status = .blocked r)
    (hs : Seat σ x k tok) : k = waitPlace fr.function fr.pc r ∧ WaitToken σ x f r tok := by
  cases hs with
  | control top' hrun =>
      obtain ⟨rfl, rfl, rfl⟩ := top_unique top top'
      rw [hrun] at hb
      cases hb
  | wait top' hb' hw =>
      obtain ⟨rfl, rfl, rfl⟩ := top_unique top top'
      obtain rfl := ThreadStatus.blocked.inj (hb'.symm.trans hb)
      exact ⟨rfl, hw⟩

theorem Corr.setPc (h : Corr P out σ m) (hx : x ∈ out) (top : Top σ x t f fr)
    (hrun : t.status = .runnable) (pc : ℕ) :
    Corr P out (σ.setPc f pc) (m.modifyFrame f fun fr ↦ { fr with pc := pc }) := by
  have hr := h.records
  have hne : ∀ g, g ≠ f → (σ.setPc f pc).store.frames[g]? = σ.store.frames[g]? := by
    intro g hg
    rw [MachineState.setPc, getElem?_modifyFrame, if_neg hg]
  -- The heads of the other threads and the activations of scope owners are elsewhere.
  have hhead : ∀ y u g, y ≠ x → σ.HasThread y u → u.stack.head? = some g → g ≠ f := by
    rintro y u g hyx hu hg rfl
    exact hyx (h.apart y u x t g hu top.thread (List.mem_of_head? hg) top.mem)
  have hscope : ∀ s sc, σ.HasScope s sc → sc.ownerFrame ≠ f := fun s sc hs he ↦
    (h.free s sc x hs hx).2 t top.thread (he ▸ top.mem)
  refine h.congr h.cells (fun _ _ ↦ rfl)
    (fun y hy ↦ ⟨?_, fun _ _ ↦ Iff.rfl, fun _ _ ↦ Iff.rfl⟩)
    ⟨?_, fun y ↦ (hr.thread y).trans ?_, fun s ↦ (hr.scope s).trans ?_, hr.finished,
      hr.completedFunctions, hr.completedScopes, hr.reached, hr.alloc⟩
    (fun y u hu ↦ ⟨u, hu, fun g hg ↦ hg⟩) (fun s sc hsc ↦ ⟨sc, hsc, rfl, rfl⟩)
  · have hyx : y ≠ x := fun he ↦ hy (he ▸ hx)
    rw [Petri.spot, Petri.spot]
    cases hu : σ.threads[y]? with
    | none => simp [show (σ.setPc f pc).threads[y]? = none from hu]
    | some u =>
        rw [show (σ.setPc f pc).threads[y]? = some u from hu, Option.map_some, Option.map_some]
        cases hg : u.stack.head? with
        | none => rfl
        | some g => rw [Option.bind_some, Option.bind_some, hne g (hhead y u g hyx hu hg)]
  · exact congrArg (·.modify f fun fr ↦ { fr with pc := pc }) hr.frames
  · change _ = (σ.threads[y]?).map _
    cases hu : σ.threads[y]? with
    | none => rfl
    | some u =>
        refine congrArg some ?_
        by_cases hyx : y = x
        · subst hyx
          obtain rfl : u = t := Option.some.inj (hu.symm.trans top.thread)
          simp only [netThread, hrun]
        · exact (netThread_congr fun g hg ↦ by rw [hne g (hhead y u g hyx hu hg)]).symm
  · change _ = (σ.scopes[s]?).map _
    cases hs : σ.scopes[s]? with
    | none => rfl
    | some sc =>
        exact congrArg some (netScope_congr (by rw [hne _ (hscope s sc hs)])).symm

theorem top_setPc (top : Top σ x t f fr) (pc : ℕ) :
    Top (σ.setPc f pc) x t f { fr with pc := pc } := by
  refine ⟨top.thread, top.head, ?_⟩
  rw [HasFrame, MachineState.setPc, getElem?_modifyFrame, if_pos rfl,
    show σ.store.frames[f]? = some fr from top.frame, Option.map_some]

/-- A running thread goes on elsewhere in its function. -/
theorem Corr.placeControl (h : Corr P (insert x out) σ m) (hx : x ∉ out)
    (top : Top σ x t f fr) (hrun : t.status = .runnable) (pc : ℕ) :
    Corr P out (σ.setPc f pc) (placeControl m (.control fr.function pc) x f) := by
  have hpc := h.setPc (Set.mem_insert x out) top hrun pc
  have top' := top_setPc top pc
  exact hpc.put hx (.control top' hrun) fun k' tok' ↦ seat_runnable top' hrun

theorem advance_eq_setPc (top : Top σ x t f fr) : σ.advance x = σ.setPc f (fr.pc + 1) := by
  have hf : σ.store.frames[f]? = some fr := top.frame
  rw [MachineState.advance, top.currentFrameId]
  simp only [MachineState.setPc, MachineState.modifyFrame]
  have : (σ.store.frames.modify f fun fr ↦ { fr with pc := fr.pc + 1 }) =
      σ.store.frames.modify f fun fr' ↦ { fr' with pc := fr.pc + 1 } := by
    ext1 g
    rw [Std.ExtTreeMap.getElem?_modify, Std.ExtTreeMap.getElem?_modify]
    split_ifs with hg
    · rw [hf]
      rfl
    · rfl
  rw [this]

theorem Corr.advance (h : Corr P (insert x out) σ m) (hx : x ∉ out) (top : Top σ x t f fr)
    (hrun : t.status = .runnable) :
    Corr P out (σ.advance x) (Petri.placeControl m (.control fr.function (fr.pc + 1)) x f) := by
  rw [advance_eq_setPc top]
  exact h.placeControl hx top hrun _

theorem top_setStatus (top : Top σ x t f fr) (st : ThreadStatus) :
    Top (σ.setStatus x st) x { t with status := st } f fr := by
  refine ⟨?_, top.head, top.frame⟩
  rw [HasThread, MachineState.setStatus, getElem?_modifyThread, if_pos rfl,
    show σ.threads[x]? = some t from top.thread, Option.map_some]

theorem top_setRunnable (top : Top σ x t f fr) :
    Top (σ.setRunnable x) x { t with status := .runnable } f fr := top_setStatus top .runnable

theorem Corr.setRunnable (h : Corr P out σ m) (hx : x ∈ out) :
    Corr P out (σ.setRunnable x) (m.unblock x) :=
  h.modifyThread x (fun _ _ ↦ rfl) (fun _ ↦ rfl) (.inl hx)

/-- A waiting thread is let go past its statement. -/
theorem Corr.complete (h : Corr P (insert x out) σ m) (hx : x ∉ out) (top : Top σ x t f fr) :
    Corr P out (Engine.complete σ x)
      ((Petri.placeControl m (.control fr.function (fr.pc + 1)) x f).unblock x) :=
  (h.setRunnable (Set.mem_insert x out)).advance hx (top_setRunnable top) rfl

/-- A thread begins to wait. -/
theorem Corr.block (h : Corr P (insert x out) σ m) (hx : x ∉ out) (top : Top σ x t f fr)
    (hw : WaitToken σ x f r tok) (huniq : ∀ tok', WaitToken σ x f r tok' → tok' = tok) :
    Corr P out (σ.block x r) ((m.put (waitPlace fr.function fr.pc r) tok).setBlocked x
      (waitPlace fr.function fr.pc r)) := by
  have hb : Corr P (insert x out) (σ.block x r)
      (m.setBlocked x (waitPlace fr.function fr.pc r)) := by
    refine h.modifyThread x (fun u hu ↦ ?_) (fun _ ↦ rfl) (.inl (Set.mem_insert x out))
    obtain rfl : u = t := Option.some.inj (hu.symm.trans top.thread)
    simp only [netThread, top.head, Option.bind_some,
      show σ.store.frames[f]? = some fr from top.frame, Option.map_some]
  have top' := top_setStatus top (.blocked r)
  have hw' : ∀ tok', WaitToken (σ.setStatus x (.blocked r)) x f r tok' → tok' = tok := by
    intro tok' ht
    refine huniq tok' ?_
    cases ht with
    | send c v hv => exact .send c v hv
    | semaphore q n hn => exact .semaphore q n hn
    | lock q => exact .lock q
    | recv c => exact .recv c
    | condvar cv lk => exact .condvar cv lk
    | join l => exact .join l
    | scope s => exact .scope s
  refine hb.put hx (.wait top' rfl ?_) fun k' tok' hs ↦ ?_
  · cases hw with
    | send c v hv => exact .send c v hv
    | semaphore q n hn => exact .semaphore q n hn
    | lock q => exact .lock q
    | recv c => exact .recv c
    | condvar cv lk => exact .condvar cv lk
    | join l => exact .join l
    | scope s => exact .scope s
  · obtain ⟨hk, ht⟩ := seat_blocked top' rfl hs
    exact ⟨hk, hw' tok' ht⟩

end Control

end Petri

end ConcIR
