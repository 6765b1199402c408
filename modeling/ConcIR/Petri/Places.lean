import ConcIR.Petri.Observe

/-!
# The places and transitions of a built net

Which transitions the builder makes, and which places it makes for them.
-/

namespace ConcIR

variable {P : SemProgram}

theorem SemProgram.function_of_getElem? {f : FunctionId} {fn : SemFunction}
    (h : P.functions[f]? = some fn) : P.function f = fn := by
  rw [SemProgram.function, h, Option.getD_some]

theorem SemProgram.resource_of_getElem? {r : ResourceId} {res : SemResource}
    (h : P.resources[r]? = some res) : P.resource r = res := by
  rw [SemProgram.resource, h, Option.getD_some]

theorem SemProgram.resource_kind {r : ResourceId} {k : ResKind}
    (h : hasKind P.resources r k = true) : (P.resource r).kind = k := by
  rw [hasKind, decide_eq_true_eq] at h
  obtain ⟨res, hres, rfl⟩ := Option.map_eq_some_iff.mp h
  rw [P.resource_of_getElem? hres]

/-- A statement passed the checks of lowering. -/
theorem SemProgram.opOk_of_opAt {f : FunctionId} {pc : ℕ} {op : SemOp}
    (h : P.opAt f pc = some op) : opOk P.functions P.resources (P.function f) op = true := by
  obtain ⟨s, hs, rfl⟩ := Option.map_eq_some_iff.mp h
  rw [SemProgram.function] at hs ⊢
  cases hf : P.functions[f]? with
  | none =>
      rw [hf] at hs
      cases hs
  | some fn =>
      rw [hf] at hs
      exact (P.functions_ok fn (List.mem_of_getElem? hf)).2 s (List.mem_of_getElem? hs)

theorem SemProgram.lt_of_opAt {f : FunctionId} {pc : ℕ} {op : SemOp}
    (h : P.opAt f pc = some op) : f < P.functions.length := by
  by_contra hlt
  have hf : P.functions[f]? = none := List.getElem?_eq_none (not_lt.mp hlt)
  rw [SemProgram.opAt, SemProgram.function, hf] at h
  cases h

namespace Petri

section Build

/-- Where a transition comes from: a statement, the end of a body, or a resource. -/
inductive Built (P : SemProgram) (tr : Transition) : Prop
  | statement (f : FunctionId) (pc : ℕ) (op : SemOp) (hop : P.opAt f pc = some op)
      (h : tr ∈ buildStmt P f pc op)
  | endInner (f : FunctionId) (hf : f < P.functions.length)
      (h : tr = ⟨.returnInner none, .control (.control f (P.function f).body.length), none,
        originOf P f none⟩)
  | endFinal (f : FunctionId) (hf : f < P.functions.length)
      (h : tr = ⟨.returnFinal none, .control (.control f (P.function f).body.length), none,
        originOf P f none⟩)
  | resource (r : ResourceId) (hr : r < P.resources.length)
      (h : tr ∈ buildResource P r (P.resource r))

theorem mem_flatMap_zipIdx {α β : Type} {l : List α} {g : α × ℕ → List β} {b : β} :
    b ∈ l.zipIdx.flatMap g ↔ ∃ i a, l[i]? = some a ∧ b ∈ g (a, i) := by
  rw [List.mem_flatMap]
  constructor
  · rintro ⟨⟨a, i⟩, hmem, hb⟩
    exact ⟨i, a, List.mem_zipIdx_iff_getElem?.mp hmem, hb⟩
  · rintro ⟨i, a, hi, hb⟩
    exact ⟨(a, i), List.mem_zipIdx_iff_getElem?.mpr hi, hb⟩

theorem mem_transitions {tr : Transition} : tr ∈ transitions P ↔ Built P tr := by
  rw [transitions, List.mem_append, mem_flatMap_zipIdx, mem_flatMap_zipIdx]
  constructor
  · rintro (⟨f, fn, hfn, h⟩ | ⟨r, res, hres, h⟩)
    · have hf : f < P.functions.length := (List.getElem?_eq_some_iff.mp hfn).1
      rw [buildFunction, List.mem_append, mem_flatMap_zipIdx] at h
      rcases h with ⟨pc, s, hs, h⟩ | h
      · refine .statement f pc s.op ?_ h
        rw [SemProgram.opAt, P.function_of_getElem? hfn, hs, Option.map_some]
      · rw [← P.function_of_getElem? hfn, List.mem_cons, List.mem_singleton] at h
        rcases h with h | h
        · exact .endInner f hf h
        · exact .endFinal f hf h
    · refine .resource r (List.getElem?_eq_some_iff.mp hres).1 ?_
      rwa [P.resource_of_getElem? hres]
  · rintro (⟨f, pc, op, hop, h⟩ | ⟨f, hf, rfl⟩ | ⟨f, hf, rfl⟩ | ⟨r, hr, h⟩)
    · have hf := P.lt_of_opAt hop
      obtain ⟨s, hs, rfl⟩ := Option.map_eq_some_iff.mp hop
      rw [P.function_of_getElem? (List.getElem?_eq_getElem hf)] at hs
      refine .inl ⟨f, _, List.getElem?_eq_getElem hf, ?_⟩
      rw [buildFunction, List.mem_append, mem_flatMap_zipIdx]
      exact .inl ⟨pc, s, hs, h⟩
    · refine .inl ⟨f, _, List.getElem?_eq_getElem hf, ?_⟩
      rw [P.function_of_getElem? (List.getElem?_eq_getElem hf), buildFunction]
      exact List.mem_append_right _ List.mem_cons_self
    · refine .inl ⟨f, _, List.getElem?_eq_getElem hf, ?_⟩
      rw [P.function_of_getElem? (List.getElem?_eq_getElem hf), buildFunction]
      exact List.mem_append_right _ (List.mem_cons_of_mem _ List.mem_cons_self)
    · refine .inr ⟨r, _, List.getElem?_eq_getElem hr, ?_⟩
      rwa [← P.resource_of_getElem? (List.getElem?_eq_getElem hr)]

end Build

section Places

variable {k : PlaceKey}

/-- Who asks for a place. -/
inductive Placed (P : SemProgram) (k : PlaceKey) : Prop
  | statement (f : FunctionId) (pc : ℕ) (op : SemOp) (hop : P.opAt f pc = some op)
      (h : k ∈ stmtPlaces P f pc op)
  | endOfBody (f : FunctionId) (hf : f < P.functions.length)
      (h : k = .control f (P.function f).body.length)
  | resource (r : ResourceId) (hr : r < P.resources.length)
      (h : k ∈ resourcePlaces r (P.resource r))

theorem mem_places : k ∈ places P ↔ Placed P k := by
  rw [places, List.mem_eraseDups, List.mem_append, mem_flatMap_zipIdx, mem_flatMap_zipIdx]
  constructor
  · rintro (⟨f, fn, hfn, h⟩ | ⟨r, res, hres, h⟩)
    · rw [functionPlaces, List.mem_append, mem_flatMap_zipIdx] at h
      rcases h with ⟨pc, s, hs, h⟩ | h
      · refine .statement f pc s.op ?_ h
        rw [SemProgram.opAt, P.function_of_getElem? hfn, hs, Option.map_some]
      · refine .endOfBody f (List.getElem?_eq_some_iff.mp hfn).1 ?_
        rw [P.function_of_getElem? hfn]
        exact List.mem_singleton.mp h
    · refine .resource r (List.getElem?_eq_some_iff.mp hres).1 ?_
      rwa [P.resource_of_getElem? hres]
  · rintro (⟨f, pc, op, hop, h⟩ | ⟨f, hf, rfl⟩ | ⟨r, hr, h⟩)
    · have hf := P.lt_of_opAt hop
      obtain ⟨s, hs, rfl⟩ := Option.map_eq_some_iff.mp hop
      rw [P.function_of_getElem? (List.getElem?_eq_getElem hf)] at hs
      refine .inl ⟨f, _, List.getElem?_eq_getElem hf, ?_⟩
      rw [functionPlaces, List.mem_append, mem_flatMap_zipIdx]
      exact .inl ⟨pc, s, hs, h⟩
    · refine .inl ⟨f, _, List.getElem?_eq_getElem hf, ?_⟩
      rw [P.function_of_getElem? (List.getElem?_eq_getElem hf), functionPlaces]
      exact List.mem_append_right _ List.mem_cons_self
    · refine .inr ⟨r, _, List.getElem?_eq_getElem hr, ?_⟩
      rwa [← P.resource_of_getElem? (List.getElem?_eq_getElem hr)]

/-- The kind of resource a data place belongs to. -/
def PlaceKey.cell : PlaceKey → Option (ResKind × ResourceId)
  | .var r => some (.var, r)
  | .atomic r => some (.atomic, r)
  | .mutex r => some (.mutex, r)
  | .semaphore r => some (.semaphore, r)
  | .channel r => some (.channel, r)
  | _ => none

theorem cell_of_stmtPlaces {f : FunctionId} {pc : ℕ} {op : SemOp} {fn : SemFunction}
    {kind : ResKind} {r : ResourceId} (hok : opOk P.functions P.resources fn op = true)
    (h : k ∈ stmtPlaces P f pc op) (hk : k.cell = some (kind, r)) :
    hasKind P.resources r kind = true := by
  cases op <;> simp only [stmtPlaces] at h
  case channelSend c e | channelRecv c dst =>
    simp only [opOk, Bool.and_eq_true] at hok
    split at h <;> simp only [List.cons_append, List.nil_append, List.mem_cons,
      List.not_mem_nil, or_false] at h <;> rcases h with rfl | rfl | rfl | rfl | rfl <;>
      simp_all [PlaceKey.cell]
  case scope gs =>
    simp only [List.mem_append, List.mem_cons, List.mem_map] at h
    rcases h with (rfl | rfl | h) | rfl | ⟨_, -, rfl⟩ <;> simp_all [PlaceKey.cell]
  case switch e cases default =>
    simp only [List.mem_append, List.mem_cons, List.mem_map] at h
    rcases h with ((rfl | rfl | h) | ⟨_, -, rfl⟩) | rfl | h <;> simp_all [PlaceKey.cell]
  all_goals
    simp only [List.cons_append, List.nil_append, List.mem_cons, List.not_mem_nil,
      or_false] at h
    grind [PlaceKey.cell, opOk]

theorem cell_of_resourcePlaces {r₀ : ResourceId} {res : SemResource} {kind : ResKind}
    {r : ResourceId} (h : k ∈ resourcePlaces r₀ res) (hk : k.cell = some (kind, r)) :
    r = r₀ ∧ res.kind = kind := by
  rw [resourcePlaces] at h
  cases hkind : res.kind <;> simp only [hkind, List.mem_cons, List.not_mem_nil, or_false] at h <;>
    grind [PlaceKey.cell]

/-- There is a data place for each resource of its kind, and no other. -/
theorem mem_places_cell {kind : ResKind} {r : ResourceId} (hk : k.cell = some (kind, r)) :
    k ∈ places P ↔ hasKind P.resources r kind = true := by
  rw [mem_places]
  constructor
  · rintro (⟨f, pc, op, hop, h⟩ | ⟨f, hf, rfl⟩ | ⟨r₀, hr, h⟩)
    · exact cell_of_stmtPlaces (P.opOk_of_opAt hop) h hk
    · cases hk
    · obtain ⟨rfl, hkind⟩ := cell_of_resourcePlaces h hk
      rw [hasKind, List.getElem?_eq_getElem hr, decide_eq_true_eq, Option.map_some,
        ← P.resource_of_getElem? (List.getElem?_eq_getElem hr), hkind]
  · intro h
    have hkind := P.resource_kind h
    rw [hasKind, decide_eq_true_eq] at h
    obtain ⟨res, hres, -⟩ := Option.map_eq_some_iff.mp h
    refine .resource r (List.getElem?_eq_some_iff.mp hres).1 ?_
    cases k <;> simp only [PlaceKey.cell, Option.some.injEq, Prod.mk.injEq, reduceCtorEq] at hk <;>
      obtain ⟨rfl, rfl⟩ := hk <;> simp [resourcePlaces, hkind]

theorem control_mem_places {f : FunctionId} {pc : ℕ} (hf : f < P.functions.length)
    (hpc : pc ≤ (P.function f).body.length) : .control f pc ∈ places P := by
  rw [mem_places]
  rcases hpc.lt_or_eq with hlt | rfl
  · refine .statement f pc ((P.function f).body[pc]).op ?_ ?_
    · rw [SemProgram.opAt, List.getElem?_eq_getElem hlt, Option.map_some]
    · generalize ((P.function f).body[pc]).op = op
      cases op <;> simp only [stmtPlaces] <;> try split
      all_goals simp
  · exact .endOfBody f hf rfl

theorem joinWait_mem_places {f : FunctionId} {pc : ℕ} {name : String}
    (h : P.opAt f pc = some (.join name)) : .joinWait f pc ∈ places P :=
  mem_places.mpr (.statement f pc _ h (by simp [stmtPlaces]))

theorem scopeWait_mem_places {f : FunctionId} {pc : ℕ} {funcs : List FunctionId}
    (h : P.opAt f pc = some (.scope funcs)) : .scopeWait f pc ∈ places P :=
  mem_places.mpr (.statement f pc _ h (by simp [stmtPlaces]))

/-- A place of waiting joins belongs to a join statement. -/
theorem join_of_mem_places {f : FunctionId} {pc : ℕ} (h : .joinWait f pc ∈ places P) :
    ∃ name, P.opAt f pc = some (.join name) := by
  rcases mem_places.mp h with ⟨g, i, op, hop, h⟩ | ⟨g, hg, h⟩ | ⟨r, hr, h⟩
  · cases op <;> simp only [stmtPlaces] at h
    case join name =>
      simp only [List.cons_append, List.nil_append, List.mem_cons, List.not_mem_nil, or_false,
        reduceCtorEq, false_or, PlaceKey.joinWait.injEq] at h
      obtain ⟨rfl, rfl⟩ := h
      exact ⟨name, hop⟩
    case channelSend c e | channelRecv c dst => split at h <;> simp at h
    all_goals simp at h
  · cases h
  · rw [resourcePlaces] at h
    cases hkind : (P.resource r).kind <;> simp [hkind] at h

variable {E : Engine}

theorem hasPlace_iff : hasPlace E k = true ↔ k ∈ places E.program := List.contains_iff_mem

theorem hasPlace_cell {kind : ResKind} {r : ResourceId} (hk : k.cell = some (kind, r)) :
    hasPlace E k = hasKind E.program.resources r kind := by
  rw [Bool.eq_iff_iff, hasPlace_iff, mem_places_cell hk]

end Places

end Petri

end ConcIR
