import ConcIR.Petri.Finish

/-!
# Values read and written on both sides

Expressions see the same store, and a checked write is refused by both engines or done
by both.
-/

namespace ConcIR

open MachineState

namespace Petri

variable {E : Engine} {P : SemProgram} {out : Set ThreadId} {σ σ' σ₁ : MachineState}
  {m m' m₁ : NetState} {x y : ThreadId} {t u : ThreadState} {f g : FrameId} {fr gr : Frame}
  {r c : ResourceId} {v : Value} {dst : SlotRef}

section Reads

theorem Cells.at (h : Cells σ.store m.marking) {k : PlaceKey} (hk : k.cell ≠ none) :
    m.single k = (cellTokens σ.store k).head? := by
  rw [NetState.single, h k hk]

theorem Cells.readVar (h : Cells σ.store m.marking) (r : ResourceId) :
    m.readData (.var r) = σ.store.vars[r]? := by
  rw [NetState.readData, Cells.at h (by simp [PlaceKey.cell]), cellTokens]
  cases σ.store.vars[r]? <;> rfl

theorem Cells.readAtomic (h : Cells σ.store m.marking) (r : ResourceId) :
    m.readData (.atomic r) = σ.store.atomics[r]? := by
  rw [NetState.readData, Cells.at h (by simp [PlaceKey.cell]), cellTokens]
  cases σ.store.atomics[r]? <;> rfl

theorem Cells.readMutex (h : Cells σ.store m.marking) (r : ResourceId) :
    m.readMutex (.mutex r) = σ.store.mutexes[r]? := by
  rw [NetState.readMutex, Cells.at h (by simp [PlaceKey.cell]), cellTokens]
  cases σ.store.mutexes[r]? <;> rfl

theorem Cells.readInt (h : Cells σ.store m.marking) (r : ResourceId) :
    m.readInt (.semaphore r) = σ.store.semaphores[r]? := by
  rw [NetState.readInt, NetState.readData, Cells.at h (by simp [PlaceKey.cell]), cellTokens]
  cases σ.store.semaphores[r]? <;> rfl

theorem Cells.readArray (h : Cells σ.store m.marking) (c : ResourceId) :
    m.readArray (.channel c) = (σ.store.channels[c]?).map (·.buffer) := by
  rw [NetState.readArray, NetState.readData, Cells.at h (by simp [PlaceKey.cell]), cellTokens]
  cases σ.store.channels[c]? <;> rfl

end Reads

section Expressions

variable (h : Corr E.program out σ m) (hs : Stores E.program σ)

include h hs

/-- Expressions see the same store. -/
theorem view_eq (fr : Frame) : view E m fr = σ.store.view fr := by
  have hshared : ∀ r, (view E m fr).getShared r = σ.store.readShared r := fun r ↦ by
    change (if hasPlace E (.var r) = true then _ else _) = _
    rw [hasPlace_cell (k := .var r) rfl, hasPlace_cell (k := .atomic r) rfl, ← hs.vars,
      ← hs.atomics, Cells.readVar h.cells, Cells.readAtomic h.cells, Store.readShared]
    cases hv : σ.store.vars[r]? with
    | some v => simp [Std.ExtTreeMap.contains_eq_isSome_getElem?, hv]
    | none =>
        cases ha : σ.store.atomics[r]? <;>
          simp [Std.ExtTreeMap.contains_eq_isSome_getElem?, hv, ha]
  rw [view, Store.view]
  simp only [ValueStore.mk.injEq, true_and]
  exact funext hshared

variable [FloatArith]

theorem evalIn_eq (fr : Frame) (e : LExpr) : evalIn E m fr e = E.evalIn σ fr e := by
  rw [evalIn, view_eq h hs, Engine.evalIn]

theorem evalArgs_eq (fr : Frame) (es : List LExpr) : evalArgs E m fr es = E.evalArgs σ fr es := by
  induction es with
  | nil => rfl
  | cons e es ih => rw [evalArgs, Engine.evalArgs, evalIn_eq h hs, ih]

end Expressions

section Writes

theorem dstTypeOk_eq (h : Corr P out σ m) (f : FrameId) (dst : SlotRef) (v : Value) :
    dstTypeOk E m f dst v = E.dstTypeOk σ f dst v := by
  cases dst with
  | localSlot slot =>
      unfold dstTypeOk Engine.dstTypeOk
      exact h.records.frames ▸ rfl
  | _ => rfl

/-- A checked write is refused on both sides, or done on both. -/
theorem Corr.writeDst (h : Corr E.program out σ m) (hs : Stores E.program σ)
    (hd : dstOk E.program.resources dst = true) (f : FrameId) (v : Value) :
    match E.tryWriteDst σ f dst v with
    | none => writeDst E m f dst v = .ok none
    | some σ₁ => ∃ m₁, writeDst E m f dst v = .ok (some m₁) ∧ Corr E.program out σ₁ m₁ := by
  rw [Engine.tryWriteDst]
  cases hok : E.dstTypeOk σ f dst v with
  | false => simp [Petri.writeDst, dstTypeOk_eq h, hok]
  | true =>
      simp only [Petri.writeDst, dstTypeOk_eq h, hok, if_true, Bool.not_true, Bool.false_eq_true,
        if_false]
      cases dst with
      | discard => exact ⟨m, rfl, h⟩
      | localSlot slot => exact ⟨_, rfl, h.modifyFrame f (fun _ ↦ rfl) fun _ ↦ rfl⟩
      | shared r =>
          rw [dstOk, Bool.or_eq_true] at hd
          simp only [hasPlace_cell (k := .var r) rfl, hasPlace_cell (k := .atomic r) rfl]
          rw [MachineState.writeDst]
          simp only [Store.writeShared, hs.vars]
          cases hv : hasKind E.program.resources r .var with
          | true => exact ⟨_, rfl, h.setVar r v⟩
          | false =>
              rw [hv] at hd
              rw [hd.resolve_left (by simp)]
              exact ⟨_, rfl, h.setAtomic r v⟩

/-- The destination of a receiving statement is where its value is delivered. -/
theorem deliver_eq (h : Corr P out σ m) (hf : σ.HasFrame f fr)
    (hop : E.program.opAt fr.function fr.pc = some (.channelRecv c dst)) (v : Value) :
    deliver E m f v = writeDst E m f dst v := by
  rw [deliver, h.records.frames, show σ.store.frames[f]? = some fr from hf, Option.bind_some,
    recvDst, hop]
  cases dst <;> rfl

end Writes

end Petri

end ConcIR
