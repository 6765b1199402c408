import ConcIR.Repair.Candidates
import ConcIR.Repair.Edits

/-!
# Enumerated swaps

The enumerators look for the swaps that a patch can make. What they find applies, and a swap
of acquisitions of different locks that applies is found once. Acquiring one lock twice in a
row is left alone. An enumerator looks at the functions of the scope, not at its modules.
-/

namespace ConcIR

namespace Repair

open Ast Keyed

section Targets

variable {p : Program} {scope : PatchScope} {t : SwapTarget} {m : Module} {f : Function}
  {s s' : Stmt}

theorem swapTarget_eq_some : swapTarget m f (s, s') = some t ↔
    (∃ ra rb, s.op = .mutexLock ra ∧ s'.op = .mutexLock rb ∧ ra ≠ rb) ∧
      isControlTarget f s.sid = false ∧ isControlTarget f s'.sid = false ∧
        t = ⟨m.name, f.name, s.sid, s'.sid⟩ := by
  constructor
  · intro h
    simp only [swapTarget] at h
    split at h
    case h_1 ra rb hra hrb =>
      split_ifs at h with hskip
      simp only [Bool.or_eq_true, decide_eq_true_eq, not_or, Bool.not_eq_true] at hskip
      exact ⟨⟨ra, rb, hra, hrb, hskip.1.1⟩, hskip.1.2, hskip.2, (Option.some.inj h).symm⟩
    case h_2 => cases h
  · rintro ⟨⟨ra, rb, hra, hrb, hne⟩, hs, hs', rfl⟩
    simp only [swapTarget, hra, hrb, hs, hs', decide_eq_false hne, Bool.or_self,
      Bool.false_eq_true, if_false]

theorem mem_zip_tail {α : Type*} {l : List α} {a b : α} :
    (a, b) ∈ l.zip l.tail ↔ ∃ i, l[i]? = some a ∧ l[i + 1]? = some b := by
  rw [List.mem_iff_getElem?]
  refine exists_congr fun i ↦ ?_
  rw [List.getElem?_zip_eq_some, List.getElem?_tail]

/-- A target is a pair of neighbours in a function of the scope. -/
theorem mem_swapTargets : t ∈ swapTargets p scope ↔
    ∃ m ∈ p.modules, ∃ f ∈ m.functions, scope.allowsFunction m.name f.name = true ∧
      ∃ i s s', f.body[i]? = some s ∧ f.body[i + 1]? = some s' ∧
        swapTarget m f (s, s') = some t := by
  simp only [swapTargets, List.mem_flatMap]
  refine exists_congr fun m ↦ and_congr_right fun _ ↦ exists_congr fun f ↦
    and_congr_right fun _ ↦ ?_
  cases scope.allowsFunction m.name f.name with
  | false =>
      rw [Bool.not_false, if_pos rfl]
      exact iff_of_false List.not_mem_nil fun h ↦ Bool.false_ne_true h.1
  | true =>
      rw [Bool.not_true, if_neg Bool.false_ne_true, List.mem_filterMap]
      constructor
      · rintro ⟨⟨s, s'⟩, hpair, ht⟩
        obtain ⟨i, hs, hs'⟩ := mem_zip_tail.mp hpair
        exact ⟨rfl, i, s, s', hs, hs', ht⟩
      · rintro ⟨-, i, s, s', hs, hs', ht⟩
        exact ⟨(s, s'), mem_zip_tail.mpr ⟨i, hs, hs'⟩, ht⟩

end Targets

section Offers

namespace Enumerator

variable {B : Toolchain} {e : Enumerator} {ctx : RepairContext} {t : SwapTarget}

/-- The hash of the function of a target. -/
def hashOf (B : Toolchain) (ctx : RepairContext) (t : SwapTarget) : String :=
  (B.functionHash ctx.program t.module t.function).toOption.getD ""

/-- The candidate for a target. -/
def candidateOf (e : Enumerator) (hash : String) (t : SwapTarget) : CirPatch where
  id := "lockorder:" ++ t.module ++ ":" ++ t.function ++ ":" ++ t.a ++ "-" ++ t.b
  module := t.module
  function := t.function
  originalHash := hash
  changes := [.swapStatements t.a t.b]
  provenance := [⟨e.description⟩]

@[simp]
theorem candidateOf_module (hash : String) : (e.candidateOf hash t).module = t.module := rfl

@[simp]
theorem candidateOf_function (hash : String) :
    (e.candidateOf hash t).function = t.function := rfl

@[simp]
theorem candidateOf_changes (hash : String) :
    (e.candidateOf hash t).changes = [.swapStatements t.a t.b] := rfl

theorem functionHash_eq (h : ∃ hash, B.functionHash ctx.program t.module t.function = .ok hash) :
    B.functionHash ctx.program t.module t.function = .ok (hashOf B ctx t) := by
  obtain ⟨hash, h⟩ := h
  rw [hashOf, h, Except.toOption, Option.getD_some]

theorem offer_eq (hreorder : ctx.spec.allowedScope.allowLockReorder = true)
    (hhash : ∃ hash, B.functionHash ctx.program t.module t.function = .ok hash) :
    e.offer B ctx t =
      if e.irrelevant ctx t then .skip else .candidate (e.candidateOf (hashOf B ctx t) t) := by
  rw [offer, hreorder, Bool.not_true, if_neg Bool.false_ne_true]
  simp only [functionHash_eq hhash]
  rfl

theorem candidatesFrom_eq_map (hreorder : ctx.spec.allowedScope.allowLockReorder = true)
    {ts : List SwapTarget}
    (hhash : ∀ t ∈ ts, ∃ hash, B.functionHash ctx.program t.module t.function = .ok hash) :
    e.candidatesFrom B ctx ts =
      (ts.filter fun t ↦ !e.irrelevant ctx t).map fun t ↦ e.candidateOf (hashOf B ctx t) t := by
  induction ts with
  | nil => rfl
  | cons t ts ih =>
      obtain ⟨ht, hts⟩ := List.forall_mem_cons.mp hhash
      rw [candidatesFrom, offer_eq hreorder ht]
      cases hirr : e.irrelevant ctx t with
      | true =>
          rw [if_pos rfl, List.filter_cons_of_neg (by simp [hirr])]
          exact ih hts
      | false =>
          rw [if_neg Bool.false_ne_true, List.filter_cons_of_pos (by simp [hirr]),
            List.map_cons, ← ih hts]

theorem candidatesFrom_eq_nil (hreorder : ctx.spec.allowedScope.allowLockReorder = false)
    (ts : List SwapTarget) : e.candidatesFrom B ctx ts = [] := by
  cases ts with
  | nil => rfl
  | cons t ts =>
      rw [candidatesFrom, offer, hreorder, Bool.not_false, if_pos rfl]

end Enumerator

end Offers

section Agree

/-- The statement acquires the lock. -/
def Acquires (f : Function) (sid r : String) : Prop :=
  ∃ s ∈ f.body, s.sid = sid ∧ s.op = .mutexLock r

/-- The two statements of the function acquire different locks. -/
def DifferentLocks (p : Program) (module function a b : String) : Prop :=
  ∃ f ra rb, Toolchain.findFunction p module function = .ok f ∧ Acquires f a ra ∧
    Acquires f b rb ∧ ra ≠ rb

/-- The exchange of the two statements, whichever is named first. -/
def sameSwap (module function a b : String) (c : CirPatch) : Bool :=
  c.module = module && c.function = function &&
    (c.changes = [.swapStatements a b] || c.changes = [.swapStatements b a])

/-- What a candidate does, without its name and its provenance. -/
def CirPatch.edit (c : CirPatch) : String × String × String × List PatchChange :=
  (c.module, c.function, c.originalHash, c.changes)

variable {B : Toolchain} {ctx : RepairContext} {p : Program} {m : Module} {f : Function}
  {module function a b : String}

theorem exists_found (hn : Validate.NamesUnique p) (hm : m ∈ p.modules) (hf : f ∈ m.functions) :
    ∃ mi fi, Found p m.name f.name mi m fi f := by
  obtain ⟨mi, hmi⟩ := firstAt hn.modules hm
  obtain ⟨fi, hfi⟩ := firstAt (hn.functions m hm) hf
  exact ⟨mi, fi, hmi, hfi⟩

theorem exists_hash (hB : ∀ f, ∃ text, B.functionJson f = .ok text)
    (hf : Toolchain.findFunction p module function = .ok f) :
    ∃ hash, B.functionHash p module function = .ok hash := by
  obtain ⟨text, htext⟩ := hB f
  refine ⟨fnv text, ?_⟩
  rw [Toolchain.functionHash, hf]
  simp only [htext]

theorem hash_of_mem_swapTargets (hB : ∀ f, ∃ text, B.functionJson f = .ok text)
    (hn : Validate.NamesUnique p) {scope : PatchScope} {t : SwapTarget}
    (ht : t ∈ swapTargets p scope) :
    ∃ hash, B.functionHash p t.module t.function = .ok hash := by
  obtain ⟨m, hm, f, hf, -, i, s, s', -, -, hst⟩ := mem_swapTargets.mp ht
  obtain ⟨-, -, -, rfl⟩ := swapTarget_eq_some.mp hst
  obtain ⟨mi, fi, hfound⟩ := exists_found hn hm hf
  exact exists_hash hB (found_iff.mpr ⟨mi, m, fi, hfound⟩)

theorem candidates_eq (e : Enumerator) (hB : ∀ f, ∃ text, B.functionJson f = .ok text)
    (hn : Validate.NamesUnique ctx.program)
    (hreorder : ctx.spec.allowedScope.allowLockReorder = true) :
    e.candidates B ctx = ((swapTargets ctx.program ctx.spec.allowedScope).filter
      fun t ↦ !e.irrelevant ctx t).map fun t ↦ e.candidateOf (Enumerator.hashOf B ctx t) t :=
  Enumerator.candidatesFrom_eq_map hreorder fun _ ht ↦ hash_of_mem_swapTargets hB hn ht

/-- The plain enumerator yields every target. -/
theorem lockOrder_candidates (hB : ∀ f, ∃ text, B.functionJson f = .ok text)
    (hn : Validate.NamesUnique ctx.program)
    (hreorder : ctx.spec.allowedScope.allowLockReorder = true) :
    Enumerator.lockOrder.candidates B ctx =
      (swapTargets ctx.program ctx.spec.allowedScope).map fun t ↦
        Enumerator.lockOrder.candidateOf (Enumerator.hashOf B ctx t) t := by
  rw [candidates_eq _ hB hn hreorder]
  exact congrArg _ (List.filter_eq_self.mpr fun t _ ↦ rfl)

/-- A target is an exchange that is accepted. -/
theorem swaps_of_swapTarget {i : ℕ} {s s' : Stmt} {t : SwapTarget} (hs : f.body[i]? = some s)
    (hs' : f.body[i + 1]? = some s') (ht : swapTarget m f (s, s') = some t) :
    Swaps f t.a t.b i (i + 1) s s' := by
  obtain ⟨⟨ra, rb, hra, hrb, -⟩, hfree, hfree', rfl⟩ := swapTarget_eq_some.mp ht
  exact ⟨hs, hs', rfl, rfl, by rw [hra]; rfl, by rw [hrb]; rfl, .inl rfl, hfree, hfree'⟩

theorem apply_candidate {e : Enumerator} (hB : ∀ f, ∃ text, B.functionJson f = .ok text)
    (hn : Validate.NamesUnique ctx.program) {t : SwapTarget}
    (ht : t ∈ swapTargets ctx.program ctx.spec.allowedScope) :
    ∃ p' diff, B.apply ctx.program (e.candidateOf (Enumerator.hashOf B ctx t) t) = .ok (p', diff) := by
  have hhash := Enumerator.functionHash_eq (hash_of_mem_swapTargets hB hn ht)
  obtain ⟨m, hm, f, hf, -, i, s, s', hs, hs', hst⟩ := mem_swapTargets.mp ht
  have hswap := swaps_of_swapTarget hs hs' hst
  have hnodup := hn.sids m hm f hf
  obtain ⟨-, -, -, rfl⟩ := swapTarget_eq_some.mp hst
  obtain ⟨mi, fi, hfound⟩ := exists_found hn hm hf
  have hne : s.sid ≠ s'.sid := fun h ↦ hswap.ne (index_unique hnodup hs hs' h)
  have hfunction : Toolchain.findFunction ctx.program m.name f.name = .ok f :=
    found_iff.mpr ⟨mi, m, fi, hfound⟩
  exact ⟨_, _, apply_eq hhash hfunction ((applyChanges_swap B hne).trans
    (applySwap_eq hnodup hswap))⟩

end Agree

section Once

variable {B : Toolchain} {ctx : RepairContext} {p : Program} {m : Module} {f : Function}
  {module function a b : String}

theorem Swaps.symm {ia ib : ℕ} {sa sb : Stmt} (h : Swaps f a b ia ib sa sb) :
    Swaps f b a ib ia sb sa :=
  ⟨h.second, h.first, h.secondSid, h.firstSid, h.secondLock, h.firstLock, h.adjacent.symm,
    h.secondFree, h.firstFree⟩

/-- The target is for the two statements. -/
def SwapTarget.isFor (module function a b : String) (t : SwapTarget) : Bool :=
  t.module = module && t.function = function && (t.a = a && t.b = b || t.a = b && t.b = a)

theorem SwapTarget.isFor_iff {t : SwapTarget} : t.isFor module function a b = true ↔
    t.module = module ∧ t.function = function ∧ (t.a = a ∧ t.b = b ∨ t.a = b ∧ t.b = a) := by
  simp only [isFor, Bool.and_eq_true, Bool.or_eq_true, decide_eq_true_eq, and_assoc]

theorem SwapTarget.isFor_symm (t : SwapTarget) :
    t.isFor module function a b = t.isFor module function b a := by
  rw [isFor, isFor, Bool.or_comm]

theorem sameSwap_candidateOf (e : Enumerator) (hash : String) (t : SwapTarget) :
    sameSwap module function a b (e.candidateOf hash t) = t.isFor module function a b := by
  rw [Bool.eq_iff_iff, SwapTarget.isFor_iff, sameSwap]
  simp only [Bool.and_eq_true, Bool.or_eq_true, decide_eq_true_eq, and_assoc]
  simp only [Enumerator.candidateOf_module, Enumerator.candidateOf_function,
    Enumerator.candidateOf_changes, List.cons.injEq, PatchChange.swapStatements.injEq, and_true]

/-- The targets of one function. -/
def functionTargets (m : Module) (f : Function) : List SwapTarget :=
  (f.body.zip f.body.tail).filterMap (swapTarget m f)

theorem mem_functionTargets {t : SwapTarget} (h : t ∈ functionTargets m f) :
    t.module = m.name ∧ t.function = f.name := by
  obtain ⟨⟨s, s'⟩, -, hst⟩ := List.mem_filterMap.mp h
  obtain ⟨-, -, -, rfl⟩ := swapTarget_eq_some.mp hst
  exact ⟨rfl, rfl⟩

/-- One function has one target for an exchange, at the place of the first statement. -/
theorem count_functionTargets (hn : (f.body.map (·.sid)).Nodup) {i : ℕ} {s s' : Stmt}
    (hs : f.body[i]? = some s) (hs' : f.body[i + 1]? = some s')
    {t : SwapTarget} (ht : swapTarget m f (s, s') = some t) :
    (functionTargets m f).countP (SwapTarget.isFor m.name f.name s.sid s'.sid) = 1 := by
  have hkeys : ((f.body.zip f.body.tail).map fun r ↦ r.1.sid).Nodup := by
    have hsub := (map_fst_zip_sublist f.body f.body.tail).map Stmt.sid
    rw [List.map_map] at hsub
    exact hn.sublist hsub
  have hpair : (s, s') ∈ f.body.zip f.body.tail := mem_zip_tail.mpr ⟨i, hs, hs'⟩
  rw [functionTargets, List.filterMap_eq_flatMap_toList, countP_flatMap_eq hkeys hpair]
  · obtain ⟨-, -, -, rfl⟩ := swapTarget_eq_some.mp ht
    rw [ht, Option.toList_some, List.countP_singleton, SwapTarget.isFor_iff.mpr]
    · rfl
    · exact ⟨rfl, rfl, .inl ⟨rfl, rfl⟩⟩
  · rintro ⟨r, r'⟩ hr hne t' ht'
    obtain ⟨j, hj, hj'⟩ := mem_zip_tail.mp hr
    obtain ⟨-, -, -, rfl⟩ := swapTarget_eq_some.mp (Option.mem_toList.mp ht')
    refine Bool.eq_false_iff.mpr fun hfor ↦ ?_
    rcases (SwapTarget.isFor_iff.mp hfor).2.2 with ⟨hrs, -⟩ | ⟨hrs', hrs⟩
    · exact hne hrs
    · -- the other order would put each of the two before the other
      have hji : j = i + 1 := index_unique hn hj hs' hrs'
      have hji' : j + 1 = i := index_unique hn hj' hs hrs
      omega

/-- The program has one target for an exchange. -/
theorem count_swapTargets {scope : PatchScope} (hn : Validate.NamesUnique p)
    (hm : m ∈ p.modules) (hf : f ∈ m.functions)
    (hscope : scope.allowsFunction m.name f.name = true) {i : ℕ} {s s' : Stmt}
    (hs : f.body[i]? = some s) (hs' : f.body[i + 1]? = some s')
    {t : SwapTarget} (ht : swapTarget m f (s, s') = some t) :
    (swapTargets p scope).countP (SwapTarget.isFor m.name f.name s.sid s'.sid) = 1 := by
  have htargets : ∀ m' f', ∀ t' ∈ (if !scope.allowsFunction m'.name f'.name then []
      else functionTargets m' f'), t'.module = m'.name ∧ t'.function = f'.name := by
    intro m' f' t' ht'
    split_ifs at ht'
    · exact absurd ht' List.not_mem_nil
    · exact mem_functionTargets ht'
  rw [swapTargets, countP_flatMap_eq hn.modules hm, countP_flatMap_eq (hn.functions m hm) hf]
  · rw [hscope, Bool.not_true, if_neg Bool.false_ne_true]
    exact count_functionTargets (hn.sids m hm f hf) hs hs' ht
  · intro f' _ hne t' ht'
    refine Bool.eq_false_iff.mpr fun hfor ↦ hne ?_
    exact (htargets m f' t' ht').2.symm.trans (SwapTarget.isFor_iff.mp hfor).2.1
  · intro m' _ hne t' ht'
    obtain ⟨f', -, ht'⟩ := List.mem_flatMap.mp ht'
    refine Bool.eq_false_iff.mpr fun hfor ↦ hne ?_
    exact (htargets m' f' t' ht').1.symm.trans (SwapTarget.isFor_iff.mp hfor).1

theorem count_candidates (hB : ∀ f, ∃ text, B.functionJson f = .ok text)
    (hn : Validate.NamesUnique ctx.program)
    (hreorder : ctx.spec.allowedScope.allowLockReorder = true) :
    (Enumerator.lockOrder.candidates B ctx).countP (sameSwap module function a b) =
      (swapTargets ctx.program ctx.spec.allowedScope).countP
        (SwapTarget.isFor module function a b) := by
  rw [lockOrder_candidates hB hn hreorder, List.countP_map]
  refine congrArg (fun q ↦ List.countP q _) (funext fun t ↦ ?_)
  exact sameSwap_candidateOf _ _ t

/-- An exchange that is accepted is a target, in one order of its statements. -/
theorem Swaps.target {ia ib : ℕ} {sa sb : Stmt} (h : Swaps f a b ia ib sa sb)
    (hn : (f.body.map (·.sid)).Nodup) {ra rb : String} (ha : Acquires f a ra)
    (hb : Acquires f b rb) (hne : ra ≠ rb) :
    (ia + 1 = ib ∧ ∃ t, swapTarget m f (sa, sb) = some t) ∨
      (ib + 1 = ia ∧ ∃ t, swapTarget m f (sb, sa) = some t) := by
  obtain ⟨s, hs, hsid, hsop⟩ := ha
  obtain ⟨s', hs', hsid', hsop'⟩ := hb
  obtain rfl := eq_of_key hn hs (List.mem_of_getElem? h.first) (hsid.trans h.firstSid.symm)
  obtain rfl := eq_of_key hn hs' (List.mem_of_getElem? h.second) (hsid'.trans h.secondSid.symm)
  have hfree : isControlTarget f s.sid = false := hsid ▸ h.firstFree
  have hfree' : isControlTarget f s'.sid = false := hsid' ▸ h.secondFree
  refine h.adjacent.imp (fun hadj ↦ ⟨hadj, ⟨m.name, f.name, s.sid, s'.sid⟩, ?_⟩)
    fun hadj ↦ ⟨hadj, ⟨m.name, f.name, s'.sid, s.sid⟩, ?_⟩
  · exact swapTarget_eq_some.mpr ⟨⟨ra, rb, hsop, hsop', hne⟩, hfree, hfree', rfl⟩
  · exact swapTarget_eq_some.mpr ⟨⟨rb, ra, hsop', hsop, hne.symm⟩, hfree', hfree, rfl⟩

end Once

section Scope

variable {scope : PatchScope} {patch : CirPatch} {a b : String}

theorem checkAllowed_swap (hchanges : patch.changes = [.swapStatements a b]) :
    checkAllowed scope patch = .ok () ↔ scope.allowsModule patch.module = true ∧
      scope.allowsFunction patch.module patch.function = true ∧ scope.allowLockReorder = true := by
  rw [checkAllowed, hchanges]
  simp only [checkChanges]
  cases scope.allowsModule patch.module <;>
    cases scope.allowsFunction patch.module patch.function <;>
      cases scope.allowLockReorder <;> simp

end Scope

section Claim

variable (B : Toolchain) (ctx : RepairContext)

/-- What the plain enumerator yields applies, and is allowed if its module is in scope. An
allowed exchange of acquisitions of different locks that applies is yielded once. The
composite enumerator makes the same exchanges, with diagnostics some of them. -/
theorem enumerators_agree (hB : ∀ f, ∃ text, B.functionJson f = .ok text)
    (hv : Validate.checkNames ctx.program = []) :
    (∀ c ∈ Enumerator.lockOrder.candidates B ctx,
      (∃ p' diff, B.apply ctx.program c = .ok (p', diff)) ∧
      (ctx.spec.allowedScope.allowsModule c.module = true →
        checkAllowed ctx.spec.allowedScope c = .ok ())) ∧
    (∀ patch a b p' diff, patch.changes = [.swapStatements a b] →
      checkAllowed ctx.spec.allowedScope patch = .ok () →
        B.apply ctx.program patch = .ok (p', diff) →
          DifferentLocks ctx.program patch.module patch.function a b →
            (Enumerator.lockOrder.candidates B ctx).countP
              (sameSwap patch.module patch.function a b) = 1) ∧
    ((Enumerator.composite false).candidates B ctx).map CirPatch.edit =
      (Enumerator.lockOrder.candidates B ctx).map CirPatch.edit ∧
    (((Enumerator.composite true).candidates B ctx).map CirPatch.edit).Sublist
      ((Enumerator.lockOrder.candidates B ctx).map CirPatch.edit) := by
  have hn := Validate.namesUnique_of_checkNames hv
  cases hreorder : ctx.spec.allowedScope.allowLockReorder with
  | false =>
      have hnil : ∀ e : Enumerator, e.candidates B ctx = [] := fun e ↦
        Enumerator.candidatesFrom_eq_nil hreorder _
      refine ⟨fun c hc ↦ ?_, fun patch a b p' diff hchanges hallowed _ _ ↦ ?_, ?_, ?_⟩
      · rw [hnil] at hc
        exact absurd hc List.not_mem_nil
      · have hyes := ((checkAllowed_swap hchanges).mp hallowed).2.2
        rw [hreorder] at hyes
        cases hyes
      · rw [hnil, hnil]
      · rw [hnil, hnil]
  | true =>
      have hedit : ∀ e : Enumerator, (e.candidates B ctx).map CirPatch.edit =
          ((swapTargets ctx.program ctx.spec.allowedScope).filter
            fun t ↦ !e.irrelevant ctx t).map
              fun t ↦ (Enumerator.lockOrder.candidateOf (Enumerator.hashOf B ctx t) t).edit := fun e ↦ by
        rw [candidates_eq e hB hn hreorder, List.map_map]
        exact List.map_congr_left fun t _ ↦ rfl
      have hplain : ∀ e : Enumerator, (∀ t, e.irrelevant ctx t = false) →
          (e.candidates B ctx).map CirPatch.edit =
            (swapTargets ctx.program ctx.spec.allowedScope).map
              fun t ↦ (Enumerator.lockOrder.candidateOf (Enumerator.hashOf B ctx t) t).edit := by
        intro e he
        rw [hedit, List.filter_eq_self.mpr fun t _ ↦ by rw [he, Bool.not_false]]
      refine ⟨fun c hc ↦ ?_, ?_, ?_, ?_⟩
      · rw [lockOrder_candidates hB hn hreorder] at hc
        obtain ⟨t, ht, rfl⟩ := List.mem_map.mp hc
        refine ⟨apply_candidate hB hn ht, fun hmodule ↦ ?_⟩
        obtain ⟨m, -, f, -, hfunction, -, s, s', -, -, hst⟩ := mem_swapTargets.mp ht
        obtain ⟨-, -, -, rfl⟩ := swapTarget_eq_some.mp hst
        exact (checkAllowed_swap rfl).mpr ⟨hmodule, hfunction, hreorder⟩
      · rintro patch a b p' diff hchanges hallowed happly ⟨g, ra, rb, hg, ha, hb, hne⟩
        obtain ⟨f, f', hf, hf', -, -⟩ := apply_ok happly
        obtain rfl := Except.ok.inj (hg.symm.trans hf)
        obtain ⟨mi, m, fi, hfound⟩ := found_iff.mp hg
        have hm := List.mem_of_getElem? hfound.module.get
        have hfm := List.mem_of_getElem? hfound.function.get
        have hnodup := hn.sids m hm g hfm
        rw [hchanges] at hf'
        rw [applyChanges_swap B (ne_of_applyChanges B hf')] at hf'
        obtain ⟨ia, ib, sa, sb, hswap, -⟩ := applySwap_ok hf'
        have hscope := ((checkAllowed_swap hchanges).mp hallowed).2.1
        rw [count_candidates hB hn hreorder]
        rw [← of_decide_eq_true hfound.module.holds, ← of_decide_eq_true hfound.function.holds]
          at hscope ⊢
        rcases hswap.target hnodup ha hb hne with ⟨rfl, t, ht⟩ | ⟨rfl, t, ht⟩
        · have hcount := count_swapTargets hn hm hfm hscope hswap.first hswap.second ht
          rwa [hswap.firstSid, hswap.secondSid] at hcount
        · have hcount := count_swapTargets hn hm hfm hscope hswap.second hswap.first ht
          rw [hswap.firstSid, hswap.secondSid] at hcount
          exact (congrArg (fun q ↦ List.countP q _) (funext SwapTarget.isFor_symm)).trans hcount
      · rw [hplain _ fun _ ↦ rfl, hplain _ fun _ ↦ rfl]
      · rw [hedit, hplain .lockOrder fun _ ↦ rfl]
        exact List.filter_sublist.map _

end Claim

section Drill

/-- One function acquires two locks, and after its return one of them twice. -/
def drillMain : Function where
  name := "main"
  kind := "normal"
  form := "function"
  params := []
  returns := none
  locals := []
  body := [⟨"s0", .mutexLock "a"⟩, ⟨"s1", .mutexLock "b"⟩, ⟨"s2", .mutexUnlock "b"⟩,
    ⟨"s3", .mutexUnlock "a"⟩, ⟨"s4", .ret none⟩, ⟨"s5", .mutexLock "a"⟩, ⟨"s6", .mutexLock "a"⟩,
    ⟨"s7", .mutexUnlock "a"⟩, ⟨"s8", .ret none⟩]
  effects := none
  mayBlock := none
  locks := ⟨[], [], []⟩
  bound := none

def drill : Program where
  program := "drill"
  version := "1"
  modules := [{
    name := "m"
    provides := ⟨[], [], []⟩
    requires := ⟨[], [], []⟩
    types := []
    resources := [⟨"a", "sync", "Mutex", some "Sync", none, none, none, none⟩,
      ⟨"b", "sync", "Mutex", some "Sync", none, none, none, none⟩]
    protection := []
    functions := [drillMain] }]
  entry := "m::main"

/-- A search node of the program before anything is known about it. -/
def drillContext (scope : PatchScope) : RepairContext where
  program := drill
  spec := ⟨"drill", [], [], ⟨true, true⟩, ⟨1, 1, 1, 1, 1⟩, scope⟩
  report := ⟨⟨.unknown, false, 0, 0, [], [], [], []⟩, [], [], "", "", ⟨true, true⟩,
    ⟨1, 1, 1, 1, 1⟩, false⟩

def drillSwap (a b : String) : CirPatch where
  id := "drill"
  module := "m"
  function := "main"
  originalHash := fnv (bareJson drillMain)
  changes := [.swapStatements a b]
  provenance := []

theorem enumerators_agree_drill : (Enumerator.lockOrder.candidates bareTools
    (drillContext ⟨[], [], true, false⟩)).countP (sameSwap "m" "main" "s1" "s0") = 1 := by
  have hok : (bareTools.apply drill (drillSwap "s1" "s0")).toOption.isSome = true := by
    decide +kernel
  cases h : bareTools.apply drill (drillSwap "s1" "s0") with
  | error e =>
      rw [h] at hok
      cases hok
  | ok r =>
      refine (enumerators_agree bareTools (drillContext ⟨[], [], true, false⟩)
        (fun f ↦ ⟨_, rfl⟩) (by decide +kernel)).2.1 (drillSwap "s1" "s0") "s1" "s0" r.1 r.2 rfl
        (by decide +kernel) h ⟨drillMain, "b", "a", rfl, ?_, ?_, by decide⟩
      · exact ⟨⟨"s1", .mutexLock "b"⟩, by simp [drillMain], rfl, rfl⟩
      · exact ⟨⟨"s0", .mutexLock "a"⟩, by simp [drillMain], rfl, rfl⟩

/-- The exchange of the two acquisitions of one lock applies and is not a candidate, and the
candidate of a module that is out of scope is refused. -/
theorem not_enumerators_agree_drill : Validate.checkNames drill = [] ∧
    checkAllowed ⟨[], [], true, false⟩ (drillSwap "s5" "s6") = .ok () ∧
    (bareTools.apply drill (drillSwap "s5" "s6")).toOption.isSome = true ∧
    (Enumerator.lockOrder.candidates bareTools (drillContext ⟨[], [], true, false⟩)).countP
      (sameSwap "m" "main" "s5" "s6") = 0 ∧
    (Enumerator.lockOrder.candidates bareTools (drillContext ⟨[], ["other"], true, false⟩)).any
      (fun c ↦ (checkAllowed ⟨[], ["other"], true, false⟩ c).toOption.isNone) = true := by
  decide +kernel

end Drill

end Repair

end ConcIR
