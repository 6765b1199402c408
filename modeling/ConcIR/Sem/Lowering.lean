import ConcIR.Sem.Lower
import ConcIR.Sem.System

/-!
# What lowering returns

The tables of a lowered program fit together: jumps stay in their body, ids are in their
tables, and each operation is on a resource of its kind. So the tables are those of a
resolved program.
-/

namespace ConcIR

namespace Lower

open Ast

namespace Tables

/-- The checks that a resolved program carries. -/
structure WellFormed (t : Tables) : Prop where
  entry_lt : t.entry < t.functions.length
  functions_ok : ∀ f ∈ t.functions, (f.isNobody = true → f.body = []) ∧
    ∀ s ∈ f.body, opOk t.functions t.resources f s.op = true
  resources_ok : ∀ r ∈ t.resources, r.isLowered = true

def program (t : Tables) (h : t.WellFormed) : SemProgram where
  moduleNames := t.moduleNames
  functions := t.functions
  resources := t.resources
  entry := t.entry
  unsupported := t.unsupported
  entry_lt := h.entry_lt
  functions_ok := h.functions_ok
  resources_ok := h.resources_ok

end Tables

namespace Lowerer

variable (l : Lowerer)

def semFunctions : List SemFunction := l.functions.map (·.toSemFunction)

def semResources : List SemResource := l.resources.map (·.toSemResource)

end Lowerer

section Maps

theorem lastIndex_lt {names : List String} {name : String} {i : ℕ}
    (h : lastIndex names name = some i) : i < names.length ∧ names[i]? = some name := by
  obtain ⟨⟨n, j⟩, hfind, rfl⟩ := Option.map_eq_some_iff.mp h
  have hname : n = name := by simpa using List.find?_some hfind
  have hmem := List.mem_zipIdx_iff_getElem?.mp
    (List.mem_reverse.mp (List.mem_of_find?_eq_some hfind))
  subst hname
  exact ⟨(List.getElem?_eq_some_iff.mp hmem).1, hmem⟩

theorem lastValue_mem {α : Type} {pairs : List (String × α)} {name : String} {a : α}
    (h : lastValue pairs name = some a) : (name, a) ∈ pairs := by
  obtain ⟨⟨n, b⟩, hfind, rfl⟩ := Option.map_eq_some_iff.mp h
  have hname : n = name := by simpa using List.find?_some hfind
  subst hname
  exact List.mem_reverse.mp (List.mem_of_find?_eq_some hfind)

theorem mapM_backend_ok {A B : Type} {F : A → BackendResult B} {xs : List A} {ys : List B}
    (h : xs.mapM F = .ok ys) : List.Forall₂ (fun x y ↦ F x = .ok y) xs ys := by
  induction xs generalizing ys with
  | nil =>
      cases h
      exact .nil
  | cons x xs ih =>
      rw [List.mapM_cons] at h
      obtain ⟨y, hy, h⟩ := bind_eq_ok.mp h
      obtain ⟨zs, hzs, h⟩ := bind_eq_ok.mp h
      cases h
      exact .cons hy (ih hzs)

theorem forall₂_right {A B : Type} {R : A → B → Prop} {xs : List A} {ys : List B}
    (h : List.Forall₂ R xs ys) {y : B} (hy : y ∈ ys) : ∃ x ∈ xs, R x y := by
  induction h with
  | nil => cases hy
  | cons hxy _ ih =>
      rcases List.mem_cons.mp hy with rfl | hy
      · exact ⟨_, List.mem_cons_self, hxy⟩
      · obtain ⟨x, hx, hR⟩ := ih hy
        exact ⟨x, List.mem_cons_of_mem _ hx, hR⟩

end Maps

section Operations

variable {l : Lowerer} {ctx : BodyCtx} {loc : String} {f : SemFunction} {x : Lowered}

theorem hasKind_of_kindOf {r : ResourceId} {k : ResKind} (h : kindOf l r = some k) :
    hasKind l.semResources r k = true := by
  rw [hasKind, Lowerer.semResources, List.getElem?_map, Option.map_map]
  simpa [kindOf] using h

theorem resourceOfKind_ok {k : ResKind} {code what name : String} {r : ResourceId}
    (h : resourceOfKind l ctx loc k code what name = .ok r) :
    hasKind l.semResources r k = true := by
  obtain ⟨r', -, h⟩ := bind_eq_ok.mp h
  split_ifs at h with hk
  cases h
  exact hasKind_of_kindOf hk

theorem callee_ok {name : String} {g : FunctionId} (h : callee l ctx loc name = .ok g) :
    g < l.semFunctions.length := by
  rw [callee] at h
  split at h
  · rename_i g' hg
    cases h
    obtain ⟨t, -, hfind⟩ := Option.bind_eq_some_iff.mp hg
    rw [Lowerer.semFunctions, List.length_map]
    exact (List.findIdx?_eq_some_iff_getElem.mp hfind).1
  · cases h

/-- The body that is lowered has the slots and the jump targets of the context. -/
structure Fits (ctx : BodyCtx) (f : SemFunction) : Prop where
  slots : ∀ name i, ctx.nameToSlot name = some i → i < f.slots.length
  targets : ∀ sid i, ctx.sidToIdx sid = some i → i < f.body.length

theorem isCell_ok {r : ResourceId} (h : isCell l r = true) :
    dstOk l.semResources (.shared r) = true := by
  rcases Bool.or_eq_true_iff.mp h with h | h
  · exact Bool.or_eq_true_iff.mpr (.inl (hasKind_of_kindOf (of_decide_eq_true h)))
  · exact Bool.or_eq_true_iff.mpr (.inr (hasKind_of_kindOf (of_decide_eq_true h)))

theorem writableSlot_ok (hf : Fits ctx f) {name : String} {s : SlotRef}
    (h : writableSlot l ctx loc name = .ok s) :
    dstOk l.semResources s = true ∧ ∀ i, s = .localSlot i → i < f.slots.length := by
  rw [writableSlot] at h
  split_ifs at h with hdiscard
  · cases h
    exact ⟨rfl, fun i hi ↦ by cases hi⟩
  · split at h
    · rename_i i hi
      split_ifs at h
      cases h
      refine ⟨rfl, fun j hj ↦ ?_⟩
      cases hj
      exact hf.slots name i hi
    · split at h
      · split_ifs at h with hcell
        cases h
        exact ⟨isCell_ok hcell, fun i hi ↦ by cases hi⟩
      · cases h

theorem lowerDst_ok (hf : Fits ctx f) {dst : Option String} {d : Option SlotRef}
    (h : lowerDst l ctx loc dst = .ok d) : (d.map (dstOk l.semResources)).getD true = true := by
  cases dst with
  | none =>
      cases h
      rfl
  | some name =>
      obtain ⟨s, hs, h⟩ := bind_eq_ok.mp h
      cases h
      exact (writableSlot_ok hf hs).1

theorem jumpTarget_ok (hf : Fits ctx f) {sid : String} {i : ℕ}
    (h : jumpTarget ctx loc sid = .ok i) : i < f.body.length := by
  rw [jumpTarget] at h
  split at h
  · rename_i j hj
    obtain rfl := Except.ok.inj h
    exact hf.targets sid j hj
  · cases h

theorem lowerScope_ok {ids : List FunctionId} {funcs : List String}
    (hids : ∀ g ∈ ids, g < l.semFunctions.length) (h : lowerScope l ctx loc ids funcs = .ok x) :
    opOk l.semFunctions l.semResources f x.semOp = true := by
  induction funcs generalizing ids with
  | nil =>
      cases h
      simpa [Lowered.semOp, opOk] using hids
  | cons func rest ih =>
      obtain ⟨g, hg, h⟩ := bind_eq_ok.mp h
      split_ifs at h
      · cases h
        rfl
      · refine ih (fun k hk ↦ ?_) h
        rcases List.mem_append.mp hk with hk | hk
        · exact hids k hk
        · exact List.mem_singleton.mp hk ▸ callee_ok hg

theorem lowerCases_ok (hf : Fits ctx f) {cases' : List (String × String)}
    {out cs : BTreeMap String ℕ} (hout : ∀ (label : String) i, out[label]? = some i → i < f.body.length)
    (h : lowerCases ctx loc out cases' = .ok cs) :
    ∀ (label : String) i, cs[label]? = some i → i < f.body.length := by
  induction cases' generalizing out with
  | nil =>
      cases h
      exact hout
  | cons c rest ih =>
      obtain ⟨label, target⟩ := c
      obtain ⟨t, ht, h⟩ := bind_eq_ok.mp h
      refine ih (fun k i hk ↦ ?_) h
      rw [Std.ExtTreeMap.getElem?_insert] at hk
      split_ifs at hk
      · cases hk
        exact jumpTarget_ok hf ht
      · exact hout k i hk

theorem rejectFloatControl_bind {e : LExpr} {r : Unit → BackendResult Lowered}
    (h : (rejectFloatControl l ctx loc e >>= r) = .ok x) :
    exprIsFloat l ctx e = false ∧ r () = .ok x := by
  obtain ⟨u, hu, h⟩ := bind_eq_ok.mp h
  rw [rejectFloatControl] at hu
  split_ifs at hu with hfloat
  exact ⟨Bool.eq_false_iff.mpr hfloat, h⟩

/-- A statement that is lowered is on resources of its kinds, and its ids are in the tables. -/
theorem lowerOp_ok (hf : Fits ctx f) {op : Op} (h : lowerOp l ctx loc op = .ok x) :
    opOk l.semFunctions l.semResources f x.semOp = true := by
  cases op with
  | nop => cases h; rfl
  | join => cases h; rfl
  | rwLockRead => cases h; rfl
  | rwLockWrite => cases h; rfl
  | rwLockUnlock => cases h; rfl
  | select => cases h; rfl
  | asyncCall => cases h; rfl
  | await => cases h; rfl
  | abstractStep => cases h; rfl
  | seqHole => cases h; rfl
  | assignLocal target expr =>
      rw [lowerOp, lowerAssign] at h
      obtain ⟨t, ht, h⟩ := bind_eq_ok.mp h
      cases t with
      | localSlot i =>
          obtain ⟨e, -, h⟩ := bind_eq_ok.mp h
          cases h
          exact decide_eq_true ((writableSlot_ok hf ht).2 i rfl)
      | _ => cases h
  | readShared r dst =>
      obtain ⟨r, hr, h⟩ := bind_eq_ok.mp h
      obtain ⟨d, hd, h⟩ := bind_eq_ok.mp h
      cases h
      exact Bool.and_eq_true_iff.mpr ⟨resourceOfKind_ok hr, lowerDst_ok hf hd⟩
  | writeShared r e =>
      obtain ⟨r, hr, h⟩ := bind_eq_ok.mp h
      obtain ⟨e, -, h⟩ := bind_eq_ok.mp h
      cases h
      exact resourceOfKind_ok hr
  | atomicLoad r dst =>
      obtain ⟨r, hr, h⟩ := bind_eq_ok.mp h
      obtain ⟨d, hd, h⟩ := bind_eq_ok.mp h
      cases h
      exact Bool.and_eq_true_iff.mpr ⟨resourceOfKind_ok hr, (writableSlot_ok hf hd).1⟩
  | atomicStore r e =>
      obtain ⟨r, hr, h⟩ := bind_eq_ok.mp h
      obtain ⟨e, -, h⟩ := bind_eq_ok.mp h
      cases h
      exact resourceOfKind_ok hr
  | atomicCas r e e' dst =>
      obtain ⟨r, hr, h⟩ := bind_eq_ok.mp h
      obtain ⟨e, -, h⟩ := bind_eq_ok.mp h
      obtain ⟨e', -, h⟩ := bind_eq_ok.mp h
      obtain ⟨d, hd, h⟩ := bind_eq_ok.mp h
      cases h
      exact Bool.and_eq_true_iff.mpr ⟨resourceOfKind_ok hr, (writableSlot_ok hf hd).1⟩
  | mutexLock r | mutexUnlock r | condvarNotify r | condvarNotifyAll r | semaphoreAcquire r n
  | semaphoreRelease r n =>
      obtain ⟨r, hr, h⟩ := bind_eq_ok.mp h
      cases h
      exact resourceOfKind_ok hr
  | channelSend c e =>
      obtain ⟨r, hr, h⟩ := bind_eq_ok.mp h
      obtain ⟨e, -, h⟩ := bind_eq_ok.mp h
      cases h
      exact resourceOfKind_ok hr
  | channelRecv c dst =>
      obtain ⟨r, hr, h⟩ := bind_eq_ok.mp h
      obtain ⟨d, hd, h⟩ := bind_eq_ok.mp h
      cases h
      exact Bool.and_eq_true_iff.mpr ⟨resourceOfKind_ok hr, (writableSlot_ok hf hd).1⟩
  | condvarWait cv lk =>
      rw [lowerOp, lowerWait] at h
      obtain ⟨cv, hcv, h⟩ := bind_eq_ok.mp h
      split_ifs at h
      · cases h
        rfl
      · obtain ⟨lk, hlk, h⟩ := bind_eq_ok.mp h
        cases h
        exact Bool.and_eq_true_iff.mpr ⟨resourceOfKind_ok hcv, resourceOfKind_ok hlk⟩
  | func g args dst =>
      rw [lowerOp, lowerCall] at h
      obtain ⟨g, hg, h⟩ := bind_eq_ok.mp h
      split_ifs at h
      · cases h
        rfl
      · obtain ⟨xs, -, h⟩ := bind_eq_ok.mp h
        obtain ⟨d, hd, h⟩ := bind_eq_ok.mp h
        cases h
        exact Bool.and_eq_true_iff.mpr ⟨decide_eq_true (callee_ok hg), lowerDst_ok hf hd⟩
  | spawn g args handle =>
      rw [lowerOp, lowerSpawn] at h
      obtain ⟨g, hg, h⟩ := bind_eq_ok.mp h
      split_ifs at h
      · cases h
        rfl
      · cases h
        exact decide_eq_true (callee_ok hg)
  | scope funcs => exact lowerScope_ok (fun g hg ↦ absurd hg List.not_mem_nil) h
  | goto target =>
      obtain ⟨t, ht, h⟩ := bind_eq_ok.mp h
      cases h
      exact decide_eq_true (jumpTarget_ok hf ht)
  | branch cond t e =>
      rw [lowerOp, lowerBranch] at h
      obtain ⟨c, -, h⟩ := bind_eq_ok.mp h
      split_ifs at h
      obtain ⟨-, h⟩ := rejectFloatControl_bind h
      obtain ⟨t, ht, h⟩ := bind_eq_ok.mp h
      obtain ⟨e, he, h⟩ := bind_eq_ok.mp h
      cases h
      exact Bool.and_eq_true_iff.mpr
        ⟨decide_eq_true (jumpTarget_ok hf ht), decide_eq_true (jumpTarget_ok hf he)⟩
  | switch var cs d =>
      rw [lowerOp, lowerSwitch] at h
      obtain ⟨s, -, h⟩ := bind_eq_ok.mp h
      obtain ⟨-, h⟩ := rejectFloatControl_bind h
      obtain ⟨cs, hcs, h⟩ := bind_eq_ok.mp h
      obtain ⟨d, hd, h⟩ := bind_eq_ok.mp h
      cases h
      refine Bool.and_eq_true_iff.mpr ⟨List.all_eq_true.mpr fun p hp ↦ decide_eq_true ?_,
        decide_eq_true (jumpTarget_ok hf hd)⟩
      have hget := Std.ExtTreeMap.mem_toList_iff_getElem?_eq_some.mp hp
      exact lowerCases_ok hf (by simp) hcs p.1 p.2 hget
  | ret value =>
      cases value with
      | none => cases h; rfl
      | some e =>
          obtain ⟨e, -, h⟩ := bind_eq_ok.mp h
          cases h
          rfl

end Operations

section Functions

variable {p : Program} {l l' : Lowerer} {ctx : BodyCtx} {m : Module} {f : Function}

theorem lowerBody_ok {body : List Stmt} {xs : List (Stmt × Lowered)}
    (h : lowerBody l ctx body = .ok xs) :
    xs.map (·.1) = body ∧ ∀ x ∈ xs, lowerOp l ctx (ctx.loc x.1) x.1.op = .ok x.2 := by
  induction body generalizing xs with
  | nil =>
      cases h
      exact ⟨rfl, fun x hx ↦ absurd hx List.not_mem_nil⟩
  | cons s rest ih =>
      obtain ⟨x, hx, h⟩ := bind_eq_ok.mp h
      obtain ⟨ys, hys, h⟩ := bind_eq_ok.mp h
      cases h
      obtain ⟨hmap, hall⟩ := ih hys
      exact ⟨by rw [List.map_cons, hmap], List.forall_mem_cons.mpr ⟨hx, hall⟩⟩

theorem lowerSlots_length {env : NameEnv} {slots : List SemSlot}
    (h : lowerSlots env f = .ok slots) : slots.length = (slotNames f).length := by
  obtain ⟨locals, hlocals, h⟩ := bind_eq_ok.mp h
  have hlen : f.locals.length = locals.length := (mapM_backend_ok hlocals).length_eq
  cases h
  simp [slotNames, declaredNames, ← hlen]

/-- What lowering makes of a function. -/
structure LowersTo (p : Program) (l : Lowerer) (m : Module) (f : Function) (fn : LowFunction)
    (notes : List Unsupported) : Prop where
  module : l.moduleId m.name = some fn.module
  slots : lowerSlots (NameEnv.build p m f) f = .ok fn.slots
  placeholder : fn = { placeholderFunction fn.module f with
    returns := f.returns.map (paramSlot (NameEnv.build p m f) .return)
    slots := fn.slots
    body := fn.body }
  body : ∃ xs, lowerBody l (bodyCtx p l m f fn.module fn.slots) f.body = .ok xs ∧
    fn.body = xs.map (fun x ↦ ⟨x.1.sid, x.2.semOp⟩) ∧
      notes = xs.flatMap fun x ↦ x.2.notes ((bodyCtx p l m f fn.module fn.slots).loc x.1)

theorem lowerFunctionBody_ok {fn : LowFunction} {notes : List Unsupported}
    (h : lowerFunctionBody p l m f = .ok (fn, notes)) : LowersTo p l m f fn notes := by
  rw [lowerFunctionBody] at h
  split at h
  · cases h
  · rename_i module hmodule
    obtain ⟨slots, hslots, h⟩ := bind_eq_ok.mp h
    obtain ⟨xs, hxs, h⟩ := bind_eq_ok.mp h
    cases h
    exact ⟨hmodule, hslots, rfl, xs, hxs, rfl, rfl⟩

/-- The lowered body fits its context. -/
theorem LowersTo.fits {fn : LowFunction} {notes : List Unsupported} (h : LowersTo p l m f fn notes) :
    Fits (bodyCtx p l m f fn.module fn.slots) fn.toSemFunction := by
  obtain ⟨xs, hxs, hbody, -⟩ := h.body
  constructor
  · intro name i hi
    rw [lowerSlots_length h.slots]
    exact (lastIndex_lt hi).1
  · intro sid i hi
    have hlen : fn.body.length = f.body.length := by
      rw [hbody, List.length_map, ← (lowerBody_ok hxs).1, List.length_map]
    rw [hlen]
    exact Validate.sidToIdx_lt hi

theorem LowersTo.ok {fn : LowFunction} {notes : List Unsupported} (h : LowersTo p l m f fn notes) :
    (fn.isNobody = true → fn.body = []) ∧
      ∀ s ∈ fn.body, opOk l.semFunctions l.semResources fn.toSemFunction s.op = true := by
  obtain ⟨xs, hxs, hbody, -⟩ := h.body
  obtain ⟨hmap, hall⟩ := lowerBody_ok hxs
  constructor
  · intro hnobody
    have hempty : f.body.isEmpty = true := by
      rw [h.placeholder] at hnobody
      exact hnobody
    rw [hbody]
    cases xs with
    | nil => rfl
    | cons x xs =>
        rw [← hmap] at hempty
        cases hempty
  · intro s hs
    rw [hbody] at hs
    obtain ⟨x, hx, rfl⟩ := List.mem_map.mp hs
    exact lowerOp_ok h.fits (hall x hx)

/-- What the tables keep while bodies are lowered. -/
structure Filled (l₀ l : Lowerer) : Prop where
  moduleNames : l.moduleNames = l₀.moduleNames
  resources : l.resources = l₀.resources
  length : l.functions.length = l₀.functions.length
  functions_ok : ∀ fn ∈ l.functions, (fn.isNobody = true → fn.body = []) ∧
    ∀ s ∈ fn.body, opOk l₀.semFunctions l₀.semResources fn.toSemFunction s.op = true

/-- Operations look at the function table for its length only. -/
theorem opOk_congr {fns fns' : List SemFunction} {res : List SemResource} {fn : SemFunction}
    (h : fns.length = fns'.length) (op : SemOp) : opOk fns res fn op = opOk fns' res fn op := by
  cases op <;> simp only [opOk, h]

theorem lowerFunction_ok (h : lowerFunction p l m f = .ok l') :
    ∃ fid fn notes, l.functionByFqn (fqn m.name f.name) = some fid ∧ LowersTo p l m f fn notes ∧
      l' = { l with functions := l.functions.set fid fn, unsupported := l.unsupported ++ notes } := by
  rw [lowerFunction] at h
  split at h
  · cases h
  · rename_i fid hfid
    obtain ⟨⟨fn, notes⟩, hfn, h⟩ := bind_eq_ok.mp h
    cases h
    exact ⟨fid, fn, notes, hfid, lowerFunctionBody_ok hfn, rfl⟩

theorem Filled.step {l₀ : Lowerer} (hl : Filled l₀ l) (h : lowerFunction p l m f = .ok l') :
    Filled l₀ l' := by
  obtain ⟨fid, fn, notes, -, hfn, rfl⟩ := lowerFunction_ok h
  have hfns : l.semFunctions.length = l₀.semFunctions.length := by
    rw [Lowerer.semFunctions, Lowerer.semFunctions, List.length_map, List.length_map, hl.length]
  have hres : l.semResources = l₀.semResources := by
    rw [Lowerer.semResources, Lowerer.semResources, hl.resources]
  refine ⟨hl.moduleNames, hl.resources, by simp [hl.length], fun g hg ↦ ?_⟩
  rcases List.mem_or_eq_of_mem_set hg with hg | rfl
  · exact hl.functions_ok g hg
  · obtain ⟨hnobody, hbody⟩ := hfn.ok
    refine ⟨hnobody, fun s hs ↦ ?_⟩
    rw [← opOk_congr hfns, ← hres]
    exact hbody s hs

theorem Filled.run {l₀ : Lowerer} {fns : List (Module × ModuleId × Function)}
    (hl : Filled l₀ l) (h : lowerFunctions p l fns = .ok l') : Filled l₀ l' := by
  induction fns generalizing l with
  | nil =>
      cases h
      exact hl
  | cons x rest ih =>
      obtain ⟨m, mid, f⟩ := x
      obtain ⟨l₁, h₁, h⟩ := bind_eq_ok.mp h
      exact ih (hl.step h₁) h

theorem filled_placeholders (res : List LowResource) :
    Filled (placeholders p res) (placeholders p res) where
  moduleNames := rfl
  resources := rfl
  length := rfl
  functions_ok fn hfn := by
    obtain ⟨x, -, rfl⟩ := List.mem_map.mp hfn
    exact ⟨fun _ ↦ rfl, fun s hs ↦ absurd hs List.not_mem_nil⟩

end Functions

section Resources

variable {p : Program}

theorem initial_isSome {what : String} {j : Option Json} {base : BaseType} {v : Option Value}
    (h : initial what j base = .ok v) : v.isSome = true := by
  cases j with
  | none =>
      cases h
      rfl
  | some j =>
      rw [initial] at h
      split at h
      · cases h
        rfl
      · cases h

theorem lowerResource_ok {tenv : Typedef.TypeEnv} {name : String} {module : ModuleId}
    {r : Resource} {x : LowResource} (h : lowerResource tenv name module r = .ok x) :
    x.toSemResource.isLowered = true := by
  obtain ⟨kind, -, h⟩ := bind_eq_ok.mp h
  obtain ⟨ty, hty, h⟩ := bind_eq_ok.mp h
  obtain ⟨init, hinit, h⟩ := bind_eq_ok.mp h
  cases h
  have hpayload : hasPayload kind = true → ∃ base, ty = some base := by
    intro hk
    rw [payload, if_pos hk] at hty
    split at hty
    · cases hty
      exact ⟨_, rfl⟩
    · cases hty
  have hcell : hasInit kind = true → ty.isSome = true ∧ init.isSome = true := by
    intro hk
    obtain ⟨base, rfl⟩ := hpayload (by cases kind <;> first | rfl | cases hk)
    refine ⟨rfl, ?_⟩
    exact initial_isSome (by rwa [resourceInit, if_pos hk] at hinit)
  cases kind with
  | var => exact Bool.and_eq_true_iff.mpr (hcell rfl)
  | atomic => exact Bool.and_eq_true_iff.mpr (hcell rfl)
  | channel =>
      obtain ⟨base, rfl⟩ := hpayload rfl
      rfl
  | _ => rfl

/-- How lowering went where it succeeds. -/
structure Lowers (p : Program) (t : Tables) (res : List LowResource) (l : Lowerer) : Prop where
  resources : lowerResources p = .ok res
  entry : (placeholders p res).functionByFqn p.entry = some t.entry
  functions : lowerFunctions p (placeholders p res) (functions p) = .ok l
  protection : lowerProtection p l = .ok t.protection
  tables : t = ⟨l.moduleNames, l.semFunctions, l.semResources, t.protection, t.entry,
    l.unsupported ++ condvarNotes l⟩

theorem lowers_of_lower {t : Tables} (h : lower p = .ok t) : ∃ res l, Lowers p t res l := by
  obtain ⟨res, hres, h⟩ := bind_eq_ok.mp h
  split at h
  · cases h
  · rename_i entry hentry
    obtain ⟨l, hl, h⟩ := bind_eq_ok.mp h
    obtain ⟨protection, hprot, h⟩ := bind_eq_ok.mp h
    cases h
    exact ⟨res, l, hres, hentry, hl, hprot, rfl⟩

/-- Whatever lowering returns makes up a resolved program. -/
theorem tables_wellFormed {t : Tables} (h : lower p = .ok t) : t.WellFormed := by
  obtain ⟨res, l, hl⟩ := lowers_of_lower h
  have hfilled := (filled_placeholders res).run hl.functions
  have hlen : l.semFunctions.length = (placeholders p res).semFunctions.length := by
    rw [Lowerer.semFunctions, Lowerer.semFunctions, List.length_map, List.length_map, hfilled.length]
  have hres : l.semResources = (placeholders p res).semResources := by
    rw [Lowerer.semResources, Lowerer.semResources, hfilled.resources]
  rw [hl.tables]
  refine ⟨?_, ?_, ?_⟩
  · obtain ⟨⟨m, e⟩, -, hentry⟩ := Option.bind_eq_some_iff.mp hl.entry
    obtain ⟨mid, -, hentry⟩ := Option.bind_eq_some_iff.mp hentry
    change t.entry < l.semFunctions.length
    rw [hlen, Lowerer.semFunctions, List.length_map]
    exact (List.findIdx?_eq_some_iff_getElem.mp hentry).1
  · intro fn hfn
    obtain ⟨g, hg, rfl⟩ := List.mem_map.mp hfn
    obtain ⟨hnobody, hbody⟩ := hfilled.functions_ok g hg
    refine ⟨hnobody, fun s hs ↦ ?_⟩
    rw [opOk_congr hlen, hres]
    exact hbody s hs
  · intro r hr
    rw [hres] at hr
    obtain ⟨x, hx, rfl⟩ := List.mem_map.mp hr
    obtain ⟨y, -, hy⟩ := forall₂_right (mapM_backend_ok hl.resources) hx
    exact lowerResource_ok hy

section Guarded

/-- A lock is taken and given back forever. -/
def guardedMain : Function where
  name := "main"
  kind := "normal"
  form := "function"
  params := []
  returns := none
  locals := []
  body := [⟨"s1", .mutexLock "m"⟩, ⟨"s2", .mutexUnlock "m"⟩, ⟨"s3", .goto "s1"⟩]
  effects := none
  mayBlock := none
  locks := ⟨[], [], []⟩
  bound := none

def guarded : Program where
  program := "guarded"
  version := "1"
  modules := [⟨"core", ⟨[], [], []⟩, ⟨[], [], []⟩, [],
    [⟨"m", "sync", "Mutex", none, none, none, none, none⟩], [], [guardedMain]⟩]
  entry := "core::main"

end Guarded

/-- The resolved program. -/
def lowerProgram (p : Program) : BackendResult SemProgram :=
  match h : lower p with
  | .ok t => .ok (t.program (tables_wellFormed h))
  | .error e => .error e

end Resources

end Lower

end ConcIR
