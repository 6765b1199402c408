import ConcIR.Machine.Slice
import ConcIR.Sem.Lowering
import ConcIR.Validate.Control
import ConcIR.Validate.Names

/-!
# Control flow of lowered bodies

Where names are unique, the functions of a lowered program are those of the source in their
order. A lowered statement goes where the control-flow graph of its body leads, or to the end of
the body where the graph ends without a return.
-/

namespace ConcIR

section Names

theorem splitOnceChars_eq {sep cs a b : List Char} (h : splitOnceChars sep cs = some (a, b)) :
    cs = a ++ sep ++ b := by
  induction cs generalizing a with
  | nil =>
      rw [splitOnceChars] at h
      split_ifs at h with hsep
      obtain ⟨rfl, rfl⟩ := Prod.mk.inj (Option.some.inj h)
      rw [hsep]
      rfl
  | cons c cs ih =>
      rw [splitOnceChars] at h
      split_ifs at h with hpre
      · obtain ⟨rfl, rfl⟩ := Prod.mk.inj (Option.some.inj h)
        exact (List.prefix_iff_eq_append.mp (List.isPrefixOf_iff_prefix.mp hpre)).symm
      · obtain ⟨p, hp, heq⟩ := Option.map_eq_some_iff.mp h
        obtain ⟨rfl, rfl⟩ := Prod.mk.inj heq
        rw [ih hp]
        rfl

/-- A name that splits is made of two identifiers. -/
theorem splitFqn_eq {s a b : String} (h : splitFqn s = some (a, b)) :
    isIdent a = true ∧ isIdent b = true ∧ s = fqn a b := by
  rw [splitFqn] at h
  split at h
  · cases h
  · rename_i m e hsplit
    split_ifs at h with hbad
    obtain ⟨rfl, rfl⟩ := Prod.mk.inj (Option.some.inj h)
    obtain ⟨⟨-, hm⟩, he⟩ : (¬(splitOnce e fqnSep).isSome = true ∧ isIdent m = true) ∧
        isIdent e = true := by simpa using hbad
    refine ⟨hm, he, ?_⟩
    obtain ⟨⟨x, y⟩, hxy, heq⟩ := Option.map_eq_some_iff.mp hsplit
    obtain ⟨rfl, rfl⟩ := Prod.mk.inj heq
    apply String.toList_inj.mp
    rw [splitOnceChars_eq hxy, fqn, String.toList_append, String.toList_append]
    simp

/-- Two colons between texts without colons: the texts around them are the same. -/
theorem append_colons_inj {a b c d : List Char} (hc : ':' ∉ c) (hd : ':' ∉ d)
    (h : a ++ ':' :: ':' :: b = c ++ ':' :: ':' :: d) : a = c ∧ b = d := by
  induction a generalizing c with
  | nil =>
      cases c with
      | nil => exact ⟨rfl, by simpa using h⟩
      | cons x c =>
          obtain ⟨rfl, -⟩ := List.cons.inj h
          exact absurd List.mem_cons_self hc
  | cons x a ih =>
      cases c with
      | nil =>
          rw [List.nil_append, List.cons_append] at h
          obtain ⟨-, htail⟩ := List.cons.inj h
          cases a with
          | nil =>
              obtain ⟨-, hd'⟩ := List.cons.inj htail
              exact absurd (hd' ▸ List.mem_cons_self) hd
          | cons y a =>
              rw [List.cons_append] at htail
              obtain ⟨-, hd'⟩ := List.cons.inj htail
              exact absurd (hd' ▸ List.mem_append_right a List.mem_cons_self) hd
      | cons y c =>
          rw [List.cons_append, List.cons_append] at h
          obtain ⟨rfl, htail⟩ := List.cons.inj h
          obtain ⟨rfl, rfl⟩ := ih (fun hmem ↦ hc (List.mem_cons_of_mem x hmem)) htail
          exact ⟨rfl, rfl⟩

theorem toList_fqn (a b : String) : (fqn a b).toList = a.toList ++ ':' :: ':' :: b.toList := by
  rw [fqn, String.toList_append, String.toList_append, List.append_assoc]
  rfl

theorem fqn_inj {a b c d : String} (hc : isIdent c = true) (hd : isIdent d = true)
    (h : fqn a b = fqn c d) : a = c ∧ b = d := by
  have hlists := congrArg String.toList h
  rw [toList_fqn, toList_fqn] at hlists
  obtain ⟨hac, hbd⟩ := append_colons_inj (not_colon_of_isIdent hc) (not_colon_of_isIdent hd) hlists
  exact ⟨String.toList_inj.mp hac, String.toList_inj.mp hbd⟩

/-- A qualified name that splits does so into its parts. -/
theorem splitFqn_fqn_eq {a b c d : String} (h : splitFqn (fqn a b) = some (c, d)) :
    a = c ∧ b = d ∧ isIdent a = true ∧ isIdent b = true := by
  obtain ⟨hc, hd, heq⟩ := splitFqn_eq h
  obtain ⟨rfl, rfl⟩ := fqn_inj hc hd heq
  exact ⟨rfl, rfl, hc, hd⟩

end Names

namespace Lower

open Ast Validate

section Functions

variable {p : Program} {res : List LowResource} {l l' : Lowerer} {t : Tables} {m : Module}
  {mid : ModuleId} {f : Function} {k : FunctionId}

theorem lastIndex_eq {names : List String} {name : String} {i : ℕ} (hnodup : names.Nodup)
    (h : names[i]? = some name) : lastIndex names name = some i := by
  have hmem : (name, i) ∈ names.zipIdx.reverse :=
    List.mem_reverse.mpr (List.mem_zipIdx_iff_getElem?.mpr h)
  obtain ⟨j, hj⟩ : ∃ j, lastIndex names name = some j := by
    rw [lastIndex, ← Option.isSome_iff_exists, Option.isSome_map, List.find?_isSome]
    exact ⟨_, hmem, decide_eq_true rfl⟩
  obtain ⟨hlt, hget⟩ := lastIndex_lt hj
  rw [hj, (List.getElem?_inj hlt hnodup).mp (hget.trans h.symm)]

theorem mem_functions (h : (functions p)[k]? = some (m, mid, f)) :
    p.modules[mid]? = some m ∧ f ∈ m.functions := by
  obtain ⟨⟨m', mid'⟩, hm, hf⟩ := List.mem_flatMap.mp (List.mem_of_getElem? h)
  obtain ⟨f', hf', heq⟩ := List.mem_map.mp hf
  cases heq
  exact ⟨List.mem_zipIdx_iff_getElem?.mp hm, hf'⟩

/-- Functions are told apart by their modules and names. -/
theorem nodup_keys (hN : NamesUnique p) :
    ((functions p).map fun x ↦ (x.2.1, x.2.2.name)).Nodup := by
  rw [functions, modules, List.map_flatMap, List.nodup_flatMap]
  constructor
  · rintro ⟨m, mid⟩ hm
    have hmem := List.mem_of_getElem? (List.mem_zipIdx_iff_getElem?.mp hm)
    rw [List.map_map]
    have hcomp : ((fun x : Module × ModuleId × Function ↦ (x.2.1, x.2.2.name)) ∘
        fun f ↦ (m, mid, f)) = (fun n ↦ (mid, n)) ∘ Function.name := rfl
    rw [hcomp, ← List.map_map]
    exact (hN.functions m hmem).map fun a b h ↦ (Prod.mk.inj h).2
  · have hidx : p.modules.zipIdx.Pairwise fun a b ↦ a.2 ≠ b.2 := by
      have hnodup : (p.modules.zipIdx.map (·.2)).Nodup := by
        rw [List.zipIdx_map_snd]
        exact List.nodup_range'
      exact List.pairwise_map.mp hnodup
    refine hidx.imp fun {a b} hab ↦ ?_
    rintro key ha hb
    obtain ⟨x, hx, rfl⟩ := List.mem_map.mp ha
    obtain ⟨y, hy, heq⟩ := List.mem_map.mp hb
    obtain ⟨f, -, rfl⟩ := List.mem_map.mp hx
    obtain ⟨g, -, rfl⟩ := List.mem_map.mp hy
    exact hab (Prod.mk.inj heq).1.symm

def LowFunction.key (fn : LowFunction) : ModuleId × String := (fn.module, fn.name)

/-- What names stand for, which does not change while bodies are lowered. -/
structure Like (p : Program) (res : List LowResource) (l : Lowerer) : Prop where
  moduleNames : l.moduleNames = p.modules.map (·.name)
  resources : l.resources = res
  keys : l.functions.map (·.key) = (functions p).map fun x ↦ (x.2.1, x.2.2.name)

theorem Like.moduleId (hN : NamesUnique p) (h : Like p res l) (hm : p.modules[mid]? = some m) :
    l.moduleId m.name = some mid := by
  rw [Lowerer.moduleId, h.moduleNames]
  exact lastIndex_eq hN.modules (by rw [List.getElem?_map, hm]; rfl)

theorem Like.findFunction (hN : NamesUnique p) (h : Like p res l)
    (hk : (functions p)[k]? = some (m, mid, f)) : l.findFunction (mid, f.name) = some k := by
  have hkey : ∀ i : ℕ, l.functions[i]?.map (·.key) =
      (functions p)[i]?.map fun x ↦ (x.2.1, x.2.2.name) := by
    intro i
    rw [← List.getElem?_map, ← List.getElem?_map, h.keys]
  have hlen : l.functions.length = (functions p).length := by
    simpa using congrArg List.length h.keys
  have hlt : k < l.functions.length := by
    rw [hlen]
    exact (List.getElem?_eq_some_iff.mp hk).1
  have hkth : l.functions[k].key = (mid, f.name) := by
    have hkk := hkey k
    rw [hk, List.getElem?_eq_getElem hlt] at hkk
    exact Option.some.inj hkk
  rw [Lowerer.findFunction, List.findIdx?_eq_some_iff_getElem]
  refine ⟨hlt, ?_, fun j hj hfound ↦ ?_⟩
  · obtain ⟨hmod, hname⟩ := Prod.mk.inj hkth
    exact decide_eq_true ⟨hmod, hname⟩
  · obtain ⟨hmod, hname⟩ := of_decide_eq_true hfound
    have hjlt : j < l.functions.length := hj.trans hlt
    have hnodup := nodup_keys hN
    rw [← h.keys] at hnodup
    have heq : (l.functions.map (·.key))[j]? = (l.functions.map (·.key))[k]? := by
      rw [List.getElem?_map, List.getElem?_map, List.getElem?_eq_getElem hjlt,
        List.getElem?_eq_getElem hlt, Option.map_some, Option.map_some, hkth]
      exact congrArg some (Prod.ext hmod hname)
    exact absurd ((List.getElem?_inj (by simpa using hjlt) hnodup).mp heq) hj.ne

/-- The functions of `done` are lowered. -/
structure Progress (p : Program) (res : List LowResource)
    (done rest : List (Module × ModuleId × Function)) (l : Lowerer) : Prop where
  like : Like p res l
  split : functions p = done ++ rest
  lowered : ∀ (k : FunctionId) m mid f, done[k]? = some (m, mid, f) → ∃ fn l' notes,
    l.functions[k]? = some fn ∧ Like p res l' ∧ LowersTo p l' m f fn notes

theorem progress_placeholders (res : List LowResource) :
    Progress p res [] (functions p) (placeholders p res) where
  like := ⟨rfl, rfl, by rw [placeholders, List.map_map]; rfl⟩
  split := rfl
  lowered k m mid f hk := by cases hk

theorem Progress.step {done rest : List (Module × ModuleId × Function)} (hN : NamesUnique p)
    (h : Progress p res done ((m, mid, f) :: rest) l) (hl : lowerFunction p l m f = .ok l') :
    Progress p res (done ++ [(m, mid, f)]) rest l' := by
  obtain ⟨fid, fn, notes, hfid, hfn, rfl⟩ := lowerFunction_ok hl
  have hget : (functions p)[done.length]? = some (m, mid, f) := by
    rw [h.split, List.getElem?_append_right le_rfl, Nat.sub_self]
    rfl
  have hmodule := h.like.moduleId hN (mem_functions hget).1
  obtain ⟨⟨a, b⟩, hsplit, hfid⟩ := Option.bind_eq_some_iff.mp hfid
  obtain ⟨rfl, rfl, -, -⟩ := splitFqn_fqn_eq hsplit
  obtain ⟨mid', hmid', hfid⟩ := Option.bind_eq_some_iff.mp hfid
  obtain rfl := Option.some.inj (hmodule.symm.trans hmid')
  obtain rfl := Option.some.inj ((h.like.findFunction hN hget).symm.trans hfid)
  have hkey : fn.key = (mid, f.name) := by
    obtain rfl := Option.some.inj (hfn.module.symm.trans hmodule)
    rw [hfn.placeholder]
    rfl
  have hlen : l.functions.length = (functions p).length := by
    simpa using congrArg List.length h.like.keys
  have hlt : done.length < l.functions.length := by
    rw [hlen]
    exact (List.getElem?_eq_some_iff.mp hget).1
  refine ⟨⟨h.like.moduleNames, h.like.resources, ?_⟩, ?_, fun k m' mid'' f' hk ↦ ?_⟩
  · rw [List.map_set, h.like.keys, hkey]
    apply List.ext_getElem?
    intro i
    rw [List.getElem?_set]
    split_ifs with hi hi'
    · rw [← hi, List.getElem?_map, hget]
      rfl
    · rw [List.getElem?_eq_none (not_lt.mp (hi ▸ hi'))]
    · rfl
  · rw [h.split, List.append_assoc]
    rfl
  · by_cases hk' : k < done.length
    · rw [List.getElem?_append_left hk'] at hk
      obtain ⟨g, l₁, ns, hg, hlike, hto⟩ := h.lowered k m' mid'' f' hk
      exact ⟨g, l₁, ns, by rw [List.getElem?_set_ne (Ne.symm hk'.ne)]; exact hg, hlike, hto⟩
    · have hkeq : k = done.length := by
        have hlast := (List.getElem?_eq_some_iff.mp hk).1
        rw [List.length_append, List.length_singleton] at hlast
        exact Nat.le_antisymm (Nat.lt_succ_iff.mp hlast) (not_lt.mp hk')
      subst hkeq
      rw [List.getElem?_append_right le_rfl, Nat.sub_self] at hk
      cases hk
      exact ⟨fn, l, notes, by rw [List.getElem?_set_self hlt], h.like, hfn⟩

theorem Progress.run {done rest : List (Module × ModuleId × Function)} (hN : NamesUnique p)
    (h : Progress p res done rest l) (hl : lowerFunctions p l rest = .ok l') :
    Progress p res (functions p) [] l' := by
  induction rest generalizing done l with
  | nil =>
      cases hl
      have hdone := h.split
      rw [List.append_nil] at hdone
      rw [hdone]
      exact h
  | cons x rest ih =>
      obtain ⟨m, mid, f⟩ := x
      obtain ⟨l₁, h₁, hl⟩ := bind_eq_ok.mp hl
      exact ih (h.step hN h₁) hl

/-- What lowering makes of the `k`-th function of the program. -/
theorem lowered_of_lower (hN : NamesUnique p) (h : Lowers p t res l)
    (hk : (functions p)[k]? = some (m, mid, f)) : ∃ fn l' notes,
      t.functions[k]? = some fn.toSemFunction ∧ Like p res l' ∧ LowersTo p l' m f fn notes := by
  obtain ⟨fn, l', notes, hfn, hlike, hto⟩ :=
    ((progress_placeholders res).run hN h.functions).lowered k m mid f hk
  refine ⟨fn, l', notes, ?_, hlike, hto⟩
  rw [h.tables]
  change l.semFunctions[k]? = _
  rw [Lowerer.semFunctions, List.getElem?_map, hfn]
  rfl

/-- What lowering returns is a resolved program: every jump stays in its body, every id is in its
table, every operation is on resources of its kinds, cells have types and initial values. Where
names are unique its functions are those of the source, with the statements of the source. -/
theorem resolved_of_lower (h : lower p = .ok t) : t.WellFormed ∧ (checkNames p = [] →
    t.functions.map (fun fn ↦ (fn.module, fn.name)) =
      (functions p).map (fun x ↦ (x.2.1, x.2.2.name)) ∧
    ∀ (k : FunctionId) m mid f, (functions p)[k]? = some (m, mid, f) → ∃ fn,
      t.functions[k]? = some fn ∧ fn.body.map (·.sid) = f.body.map (·.sid)) := by
  refine ⟨tables_wellFormed h, fun hchecked ↦ ?_⟩
  have hN := namesUnique_of_checkNames hchecked
  obtain ⟨res, l, hl⟩ := lowers_of_lower h
  constructor
  · have hkeys := ((progress_placeholders res).run hN hl.functions).like.keys
    have htables : t.functions = l.semFunctions := by rw [hl.tables]
    rw [htables, Lowerer.semFunctions, List.map_map, ← hkeys]
    rfl
  · intro k m mid f hk
    obtain ⟨fn, l', notes, hfn, -, hto⟩ := lowered_of_lower hN hl hk
    obtain ⟨xs, hxs, hbody, -⟩ := hto.body
    refine ⟨fn.toSemFunction, hfn, ?_⟩
    rw [← (lowerBody_ok hxs).1]
    change fn.body.map (·.sid) = _
    rw [hbody, List.map_map, List.map_map]
    rfl

theorem resolved_of_lower_guarded : ∃ t, lower guarded = .ok t ∧ t.WellFormed ∧
    t.functions.map (·.body.map (·.sid)) = [["s1", "s2", "s3"]] := by
  have hrun : (lower guarded).toOption.map (fun t ↦ t.functions.map (·.body.map (·.sid))) =
      some [["s1", "s2", "s3"]] := by decide
  obtain ⟨t, ht, hbody⟩ := Option.map_eq_some_iff.mp hrun
  have hlower : lower guarded = .ok t := by
    cases hl : lower guarded with
    | ok t' =>
        rw [hl] at ht
        exact congrArg _ (Option.some.inj ht)
    | error e =>
        rw [hl] at ht
        cases ht
  exact ⟨t, hlower, (resolved_of_lower hlower).1, hbody⟩

end Functions

section Edges

variable {p : Program} {l : Lowerer} {ctx : BodyCtx} {loc : String} {f : Function} {i n : ℕ}
  {s : Stmt} {x : Lowered}

theorem jumpTarget_eq {sid : String} (h : jumpTarget ctx loc sid = .ok n) :
    ctx.sidToIdx sid = some n := by
  rw [jumpTarget] at h
  split at h
  · rename_i j hj
    obtain rfl := Except.ok.inj h
    exact hj
  · cases h

theorem lowerCases_mem {cases' : List (String × String)} {out cs : BTreeMap String ℕ}
    (h : lowerCases ctx loc out cases' = .ok cs) {label : String} (hn : cs[label]? = some n) :
    out[label]? = some n ∨ ∃ target, (label, target) ∈ cases' ∧ ctx.sidToIdx target = some n := by
  induction cases' generalizing out with
  | nil =>
      cases h
      exact .inl hn
  | cons c rest ih =>
      obtain ⟨label', target⟩ := c
      obtain ⟨j, hj, h⟩ := bind_eq_ok.mp h
      rcases ih h with hout | ⟨target', hmem, htarget⟩
      · rw [Std.ExtTreeMap.getElem?_insert] at hout
        split_ifs at hout with heq
        · obtain rfl := Option.some.inj hout
          obtain rfl := Std.LawfulEqCmp.eq_of_compare heq
          exact .inr ⟨target, List.mem_cons_self, jumpTarget_eq hj⟩
        · exact .inl hout
      · exact .inr ⟨target', List.mem_cons_of_mem _ hmem, htarget⟩

/-- The name is that of a resource of the kind. -/
def Names (l : Lowerer) (ctx : BodyCtx) (kind : ResKind) (name : String) (r : ResourceId) : Prop :=
  ctx.nameToResource name = some r ∧ kindOf l r = some kind

/-- What a statement is lowered to, with what it refers to. -/
inductive LowOp (l : Lowerer) (ctx : BodyCtx) (loc : String) : Op → SemOp → Prop
  | nop : LowOp l ctx loc .nop .nop
  | assignLocal {target expr i e} (ht : writableSlot l ctx loc target = .ok (.localSlot i))
      (he : lowerText l ctx loc expr = .ok e) :
      LowOp l ctx loc (.assignLocal target expr) (.assignLocal (.localSlot i) e)
  | readShared {name dst r d} (hr : Names l ctx .var name r)
      (hd : lowerDst l ctx loc dst = .ok d) :
      LowOp l ctx loc (.readShared name dst) (.readShared r d)
  | writeShared {name expr r e} (hr : Names l ctx .var name r)
      (he : lowerText l ctx loc expr = .ok e) :
      LowOp l ctx loc (.writeShared name expr) (.writeShared r e)
  | atomicLoad {name dst r d} (hr : Names l ctx .atomic name r)
      (hd : writableSlot l ctx loc dst = .ok d) :
      LowOp l ctx loc (.atomicLoad name dst) (.atomicLoad r d)
  | atomicStore {name expr r e} (hr : Names l ctx .atomic name r)
      (he : lowerText l ctx loc expr = .ok e) :
      LowOp l ctx loc (.atomicStore name expr) (.atomicStore r e)
  | atomicCas {name a b dst r e e' d} (hr : Names l ctx .atomic name r)
      (he : lowerText l ctx loc a = .ok e) (he' : lowerText l ctx loc b = .ok e')
      (hd : writableSlot l ctx loc dst = .ok d) :
      LowOp l ctx loc (.atomicCas name a b dst) (.atomicCas r e e' d)
  | mutexLock {name r} (hr : Names l ctx .mutex name r) :
      LowOp l ctx loc (.mutexLock name) (.mutexLock r)
  | mutexUnlock {name r} (hr : Names l ctx .mutex name r) :
      LowOp l ctx loc (.mutexUnlock name) (.mutexUnlock r)
  | channelSend {name expr r e} (hr : Names l ctx .channel name r)
      (he : lowerText l ctx loc expr = .ok e) :
      LowOp l ctx loc (.channelSend name expr) (.channelSend r e)
  | channelRecv {name dst r d} (hr : Names l ctx .channel name r)
      (hd : writableSlot l ctx loc dst = .ok d) :
      LowOp l ctx loc (.channelRecv name dst) (.channelRecv r d)
  | condvarWait {name lock r lk} (hr : Names l ctx .condvar name r)
      (hlk : Names l ctx .mutex lock lk) :
      LowOp l ctx loc (.condvarWait name lock) (.condvarWait r lk)
  | condvarNotify {name r} (hr : Names l ctx .condvar name r) :
      LowOp l ctx loc (.condvarNotify name) (.condvarNotify r)
  | condvarNotifyAll {name r} (hr : Names l ctx .condvar name r) :
      LowOp l ctx loc (.condvarNotifyAll name) (.condvarNotifyAll r)
  | semaphoreAcquire {name count r} (hr : Names l ctx .semaphore name r) :
      LowOp l ctx loc (.semaphoreAcquire name count) (.semaphoreAcquire r (count.getD 1))
  | semaphoreRelease {name count r} (hr : Names l ctx .semaphore name r) :
      LowOp l ctx loc (.semaphoreRelease name count) (.semaphoreRelease r (count.getD 1))
  | func {name args dst g xs d} (hg : l.resolveFunction ctx.module name = some g)
      (hxs : lowerArgs l ctx loc args = .ok xs) (hd : lowerDst l ctx loc dst = .ok d) :
      LowOp l ctx loc (.func name args dst) (.call g xs d)
  | spawn {name args handle g} (hg : l.resolveFunction ctx.module name = some g) :
      LowOp l ctx loc (.spawn name args handle) (.spawn g handle)
  | scope {names gs} (hgs : ∀ g ∈ gs, ∃ name ∈ names, l.resolveFunction ctx.module name = some g) :
      LowOp l ctx loc (.scope names) (.scope gs)
  | join {handle} : LowOp l ctx loc (.join handle) (.join handle)
  | goto {target i} (hi : ctx.sidToIdx target = some i) :
      LowOp l ctx loc (.goto target) (.goto i)
  | branch {cond t e c i j} (hc : lowerText l ctx loc cond = .ok c)
      (hi : ctx.sidToIdx t = some i) (hj : ctx.sidToIdx e = some j) :
      LowOp l ctx loc (.branch cond t e) (.branch c i j)
  | switch {var cs d slot cases' i} (hvar : valueSlot l ctx loc var = .ok slot)
      (hcs : ∀ (label : String) j, cases'[label]? = some j →
        ∃ target, (label, target) ∈ cs ∧ ctx.sidToIdx target = some j)
      (hi : ctx.sidToIdx d = some i) :
      LowOp l ctx loc (.switch var cs d) (.switch (.slot slot) cases' i)
  | ret {value e} (hv : ∀ text ∈ value, ∃ x ∈ e, lowerText l ctx loc text = .ok x)
      (he : value = none → e = none) : LowOp l ctx loc (.ret value) (.return e)
  | unsupported {op what} : LowOp l ctx loc op (.unsupported what)

theorem lookupResource_ok {kind : ResKind} {code what name : String} {r : ResourceId}
    (h : resourceOfKind l ctx loc kind code what name = .ok r) : Names l ctx kind name r := by
  obtain ⟨r', hr, h⟩ := bind_eq_ok.mp h
  split_ifs at h with hk
  obtain rfl := Except.ok.inj h
  rw [lookupResource] at hr
  split at hr
  · rename_i r₁ hname
    obtain rfl := Except.ok.inj hr
    exact ⟨hname, hk⟩
  · cases hr

theorem callee_eq {name : String} {g : FunctionId} (h : callee l ctx loc name = .ok g) :
    l.resolveFunction ctx.module name = some g := by
  rw [callee] at h
  split at h
  · rename_i g' hg
    obtain rfl := Except.ok.inj h
    exact hg
  · cases h

theorem lowerScope_low {ids : List FunctionId} {names all : List String}
    (hall : ∀ name ∈ names, name ∈ all)
    (hids : ∀ g ∈ ids, ∃ name ∈ all, l.resolveFunction ctx.module name = some g)
    (h : lowerScope l ctx loc ids names = .ok x) : LowOp l ctx loc (.scope all) x.semOp := by
  induction names generalizing ids with
  | nil =>
      cases h
      exact .scope hids
  | cons name rest ih =>
      obtain ⟨g, hg, h⟩ := bind_eq_ok.mp h
      split_ifs at h
      · cases h
        exact .unsupported
      · obtain ⟨hname, hrest⟩ := List.forall_mem_cons.mp hall
        refine ih hrest (fun k hk ↦ ?_) h
        rcases List.mem_append.mp hk with hk | hk
        · exact hids k hk
        · exact ⟨name, hname, List.mem_singleton.mp hk ▸ callee_eq hg⟩

/-- How each statement is lowered. -/
theorem lowOp_of_lowerOp {op : Op} (h : lowerOp l ctx loc op = .ok x) :
    LowOp l ctx loc op x.semOp := by
  cases op with
  | nop =>
      cases h
      exact .nop
  | join =>
      cases h
      exact .join
  | rwLockRead | rwLockWrite | rwLockUnlock | select | asyncCall | await | abstractStep | seqHole =>
      cases h
      exact .unsupported
  | assignLocal target expr =>
      rw [lowerOp, lowerAssign] at h
      obtain ⟨t, ht, h⟩ := bind_eq_ok.mp h
      cases t with
      | localSlot i =>
          obtain ⟨e, he, h⟩ := bind_eq_ok.mp h
          cases h
          exact .assignLocal ht he
      | _ => cases h
  | readShared r dst =>
      obtain ⟨r, hr, h⟩ := bind_eq_ok.mp h
      obtain ⟨d, hd, h⟩ := bind_eq_ok.mp h
      cases h
      exact .readShared (lookupResource_ok hr) hd
  | writeShared r e =>
      obtain ⟨r, hr, h⟩ := bind_eq_ok.mp h
      obtain ⟨e, he, h⟩ := bind_eq_ok.mp h
      cases h
      exact .writeShared (lookupResource_ok hr) he
  | atomicLoad r dst =>
      obtain ⟨r, hr, h⟩ := bind_eq_ok.mp h
      obtain ⟨d, hd, h⟩ := bind_eq_ok.mp h
      cases h
      exact .atomicLoad (lookupResource_ok hr) hd
  | atomicStore r e =>
      obtain ⟨r, hr, h⟩ := bind_eq_ok.mp h
      obtain ⟨e, he, h⟩ := bind_eq_ok.mp h
      cases h
      exact .atomicStore (lookupResource_ok hr) he
  | atomicCas r a b dst =>
      obtain ⟨r, hr, h⟩ := bind_eq_ok.mp h
      obtain ⟨e, he, h⟩ := bind_eq_ok.mp h
      obtain ⟨e', he', h⟩ := bind_eq_ok.mp h
      obtain ⟨d, hd, h⟩ := bind_eq_ok.mp h
      cases h
      exact .atomicCas (lookupResource_ok hr) he he' hd
  | mutexLock r =>
      obtain ⟨r, hr, h⟩ := bind_eq_ok.mp h
      cases h
      exact .mutexLock (lookupResource_ok hr)
  | mutexUnlock r =>
      obtain ⟨r, hr, h⟩ := bind_eq_ok.mp h
      cases h
      exact .mutexUnlock (lookupResource_ok hr)
  | condvarNotify r =>
      obtain ⟨r, hr, h⟩ := bind_eq_ok.mp h
      cases h
      exact .condvarNotify (lookupResource_ok hr)
  | condvarNotifyAll r =>
      obtain ⟨r, hr, h⟩ := bind_eq_ok.mp h
      cases h
      exact .condvarNotifyAll (lookupResource_ok hr)
  | semaphoreAcquire r n =>
      obtain ⟨r, hr, h⟩ := bind_eq_ok.mp h
      cases h
      exact .semaphoreAcquire (lookupResource_ok hr)
  | semaphoreRelease r n =>
      obtain ⟨r, hr, h⟩ := bind_eq_ok.mp h
      cases h
      exact .semaphoreRelease (lookupResource_ok hr)
  | channelSend c e =>
      obtain ⟨r, hr, h⟩ := bind_eq_ok.mp h
      obtain ⟨e, he, h⟩ := bind_eq_ok.mp h
      cases h
      exact .channelSend (lookupResource_ok hr) he
  | channelRecv c dst =>
      obtain ⟨r, hr, h⟩ := bind_eq_ok.mp h
      obtain ⟨d, hd, h⟩ := bind_eq_ok.mp h
      cases h
      exact .channelRecv (lookupResource_ok hr) hd
  | condvarWait cv lk =>
      rw [lowerOp, lowerWait] at h
      obtain ⟨cv, hcv, h⟩ := bind_eq_ok.mp h
      split_ifs at h
      · cases h
        exact .unsupported
      · obtain ⟨lk, hlk, h⟩ := bind_eq_ok.mp h
        cases h
        exact .condvarWait (lookupResource_ok hcv) (lookupResource_ok hlk)
  | func g args dst =>
      rw [lowerOp, lowerCall] at h
      obtain ⟨g, hg, h⟩ := bind_eq_ok.mp h
      split_ifs at h
      · cases h
        exact .unsupported
      · obtain ⟨xs, hxs, h⟩ := bind_eq_ok.mp h
        obtain ⟨d, hd, h⟩ := bind_eq_ok.mp h
        cases h
        exact .func (callee_eq hg) hxs hd
  | spawn g args handle =>
      rw [lowerOp, lowerSpawn] at h
      obtain ⟨g, hg, h⟩ := bind_eq_ok.mp h
      split_ifs at h
      · cases h
        exact .unsupported
      · cases h
        exact .spawn (callee_eq hg)
  | scope names =>
      exact lowerScope_low (fun _ h ↦ h) (fun g hg ↦ absurd hg List.not_mem_nil) h
  | goto target =>
      obtain ⟨i, hi, h⟩ := bind_eq_ok.mp h
      cases h
      exact .goto (jumpTarget_eq hi)
  | branch cond t e =>
      rw [lowerOp, lowerBranch] at h
      obtain ⟨c, hc, h⟩ := bind_eq_ok.mp h
      split_ifs at h
      obtain ⟨-, h⟩ := rejectFloatControl_bind h
      obtain ⟨i, hi, h⟩ := bind_eq_ok.mp h
      obtain ⟨j, hj, h⟩ := bind_eq_ok.mp h
      cases h
      exact .branch hc (jumpTarget_eq hi) (jumpTarget_eq hj)
  | switch var cs d =>
      rw [lowerOp, lowerSwitch] at h
      obtain ⟨slot, hslot, h⟩ := bind_eq_ok.mp h
      obtain ⟨-, h⟩ := rejectFloatControl_bind h
      obtain ⟨cases', hcs, h⟩ := bind_eq_ok.mp h
      obtain ⟨i, hi, h⟩ := bind_eq_ok.mp h
      cases h
      refine .switch hslot (fun label j hj ↦ ?_) (jumpTarget_eq hi)
      rcases lowerCases_mem hcs hj with hempty | htarget
      · simp at hempty
      · exact htarget
  | ret value =>
      cases value with
      | none =>
          cases h
          exact .ret (fun text ht ↦ by cases ht) fun _ ↦ rfl
      | some text =>
          obtain ⟨e, he, h⟩ := bind_eq_ok.mp h
          cases h
          refine .ret (fun text' ht ↦ ⟨e, rfl, ?_⟩) fun hnone ↦ by cases hnone
          obtain rfl := Option.some.inj ht
          exact he

/-- Where a lowered statement goes: to a statement that the source names, or to the next one
where control falls through. -/
theorem LowOp.goes {o : SemOp} (h : LowOp l ctx loc s.op o) (hgo : o.Goes i n)
    (next : Option Stmt) : (∃ sid ∈ s.successors next, ctx.sidToIdx sid = some n) ∨
      (n = i + 1 ∧ s.isReturn = false ∧ s.successors next = next.toList.map (·.sid)) := by
  obtain ⟨sid, op⟩ := s
  cases h with
  | goto hi =>
      obtain rfl := hgo
      exact .inl ⟨_, List.mem_singleton_self _, hi⟩
  | branch _ hi hj =>
      rcases hgo with rfl | rfl
      · exact .inl ⟨_, List.mem_cons_self, hi⟩
      · exact .inl ⟨_, List.mem_cons_of_mem _ (List.mem_singleton_self _), hj⟩
  | switch _ hcs hi =>
      rcases hgo with rfl | ⟨label, hlabel⟩
      · exact .inl ⟨_, List.mem_append_right _ (List.mem_singleton_self _), hi⟩
      · obtain ⟨target, hmem, htarget⟩ := hcs label n hlabel
        exact .inl ⟨target, List.mem_append_left _ (List.mem_map_of_mem hmem), htarget⟩
  | ret | unsupported => exact hgo.elim
  | _ => exact .inr ⟨hgo, rfl, rfl⟩

theorem LowOp.isReturn {o : SemOp} (h : LowOp l ctx loc s.op o)
    (hact : SemOp.action (some o) = .ret) : s.isReturn = true := by
  obtain ⟨sid, op⟩ := s
  cases h with
  | ret => rfl
  | _ => cases hact

end Edges

section Graph

variable {p : Program} {res : List LowResource} {l : Lowerer} {ctx : BodyCtx} {loc : String}
  {t : Tables} {m : Module} {mid : ModuleId} {f : Function} {k : FunctionId} {i n : ℕ} {s : Stmt}
  {o : SemOp}

theorem sidToIdx_eq (hsids : (f.body.map (·.sid)).Nodup) (h : f.body[i]? = some s) :
    sidToIdx f s.sid = some i := by
  have hmem : (s, i) ∈ f.body.zipIdx.reverse :=
    List.mem_reverse.mpr (List.mem_zipIdx_iff_getElem?.mpr h)
  obtain ⟨⟨s', j⟩, hfind⟩ : ∃ q, f.body.zipIdx.reverse.find? (·.1.sid = s.sid) = some q := by
    rw [← Option.isSome_iff_exists, List.find?_isSome]
    exact ⟨_, hmem, decide_eq_true rfl⟩
  have hsid : s'.sid = s.sid := by simpa using List.find?_some hfind
  have hget := List.mem_zipIdx_iff_getElem?.mp (List.mem_reverse.mp (List.mem_of_find?_eq_some hfind))
  have hlt : j < (f.body.map (·.sid)).length := by
    rw [List.length_map]
    exact (List.getElem?_eq_some_iff.mp hget).1
  have heq : (f.body.map (·.sid))[j]? = (f.body.map (·.sid))[i]? := by
    rw [List.getElem?_map, List.getElem?_map, hget, h, Option.map_some, Option.map_some, hsid]
  rw [sidToIdx, hfind, (List.getElem?_inj hlt hsids).mp heq]
  rfl

/-- The end of the body is behind the statement, which the graph has no way on from. -/
def FallsOff (f : Function) (i n : ℕ) : Prop :=
  n = f.body.length ∧ (buildCfg f).next i = [] ∧
    ∃ s, f.body[i]? = some s ∧ s.isReturn = false

/-- Where no path ends without a return, the end of the body is out of reach. -/
theorem not_fallsOff {m : Module} {fnPath : String} (h : checkReturnPaths m f fnPath = []) :
    ¬FallsOff f i n := by
  rintro ⟨-, hnext, s, hs, hnot⟩
  have hclean := List.filter_eq_nil_iff.mp (List.map_eq_nil_iff.mp h) (s, i)
    (List.mem_zipIdx_iff_getElem?.mpr hs)
  rw [hnext, hnot] at hclean
  exact absurd rfl hclean

/-- A lowered statement goes along the edges of the control-flow graph, or to the end of the
body. -/
theorem LowOp.next (h : LowOp l ctx loc s.op o) (hctx : ctx.sidToIdx = sidToIdx f)
    (hsids : (f.body.map (·.sid)).Nodup) (hi : f.body[i]? = some s) (hgo : o.Goes i n) :
    n ∈ (buildCfg f).next i ∨ FallsOff f i n := by
  have hlt := (List.getElem?_eq_some_iff.mp hi).1
  have hsucc : f.successors i = s.successors f.body[i + 1]? := by
    rw [Function.successors, hi]
  rw [next_buildCfg, if_pos hlt, hsucc]
  rcases h.goes hgo f.body[i + 1]? with ⟨sid, hsid, hn⟩ | ⟨rfl, hret, hfall⟩
  · exact .inl (List.mem_filterMap.mpr ⟨sid, hsid, hctx ▸ hn⟩)
  · cases hnext : f.body[i + 1]? with
    | some s' =>
        refine .inl (List.mem_filterMap.mpr ⟨s'.sid, ?_, sidToIdx_eq hsids hnext⟩)
        rw [← hnext, hfall, hnext]
        exact List.mem_singleton_self _
    | none =>
        refine .inr ⟨?_, ?_, s, hi, hret⟩
        · exact Nat.le_antisymm hlt (List.getElem?_eq_none_iff.mp hnext)
        · rw [next_buildCfg, if_pos hlt, hsucc, hfall, hnext]
          rfl

/-- The statements of the `k`-th function as they are lowered. -/
structure Body (p : Program) (P : SemProgram) (k : FunctionId) (m : Module) (mid : ModuleId)
    (f : Function) (l : Lowerer) (slots : List SemSlot) : Prop where
  inside : ∀ (pc : ℕ) s, f.body[pc]? = some s → ∃ o, P.opAt k pc = some o ∧
    LowOp l (bodyCtx p l m f mid slots) ((bodyCtx p l m f mid slots).loc s) s.op o
  outside : ∀ pc : ℕ, f.body[pc]? = none → P.opAt k pc = none

theorem Body.of_opAt {P : SemProgram} {slots : List SemSlot} (h : Body p P k m mid f l slots)
    (ho : P.opAt k i = some o) : ∃ s, f.body[i]? = some s ∧
      LowOp l (bodyCtx p l m f mid slots) ((bodyCtx p l m f mid slots).loc s) s.op o := by
  cases hi : f.body[i]? with
  | none =>
      rw [h.outside i hi] at ho
      cases ho
  | some s =>
      obtain ⟨o', ho', hlow⟩ := h.inside i s hi
      obtain rfl := Option.some.inj (ho'.symm.trans ho)
      exact ⟨s, rfl, hlow⟩

theorem body_of_lowersTo {fn : LowFunction} {notes : List Unsupported} {P : SemProgram}
    (hto : LowersTo p l m f fn notes) (hfn : P.functions[k]? = some fn.toSemFunction) :
    Body p P k m fn.module f l fn.slots := by
  obtain ⟨xs, hxs, hbody, -⟩ := hto.body
  obtain ⟨hmap, hall⟩ := lowerBody_ok hxs
  have hat : ∀ pc, P.opAt k pc = xs[pc]?.map (·.2.semOp) := by
    intro pc
    rw [SemProgram.opAt, SemProgram.function, hfn, Option.getD_some, hbody, List.getElem?_map,
      Option.map_map]
    rfl
  have hsrc : ∀ pc : ℕ, f.body[pc]? = xs[pc]?.map (·.1) := fun pc ↦ by
    rw [← hmap, List.getElem?_map]
  constructor
  · intro pc s hs
    rw [hsrc] at hs
    obtain ⟨x, hx, rfl⟩ := Option.map_eq_some_iff.mp hs
    refine ⟨x.2.semOp, by rw [hat, hx]; rfl, ?_⟩
    exact lowOp_of_lowerOp (hall x (List.mem_of_getElem? hx))
  · intro pc hpc
    rw [hsrc, Option.map_eq_none_iff] at hpc
    rw [hat, hpc]
    rfl

/-- A lowered program is made of the tables that lowering fills. -/
theorem tables_of_lower {P : SemProgram} (h : lowerProgram p = .ok P) :
    ∃ t res l, lower p = .ok t ∧ Lowers p t res l ∧ P.functions = t.functions ∧
      P.resources = res.map (·.toSemResource) ∧ P.entry = t.entry := by
  rw [lowerProgram] at h
  split at h
  · rename_i t ht
    obtain rfl := Except.ok.inj h
    obtain ⟨res, l, hl⟩ := lowers_of_lower ht
    refine ⟨t, res, l, ht, hl, rfl, ?_, rfl⟩
    have hfilled := (filled_placeholders res).run hl.functions
    change t.resources = _
    rw [hl.tables]
    change l.semResources = _
    rw [Lowerer.semResources, hfilled.resources]
    rfl
  · cases h

/-- The `k`-th function of a lowered program is that of the source. -/
theorem body_of_lower (hN : NamesUnique p) {P : SemProgram} (h : lowerProgram p = .ok P)
    (hk : (functions p)[k]? = some (m, mid, f)) :
    ∃ res l slots, lowerResources p = .ok res ∧ Like p res l ∧ Body p P k m mid f l slots ∧
      P.resources = res.map (·.toSemResource) := by
  obtain ⟨t, res, l₁, -, hl, hfunctions, hresources, -⟩ := tables_of_lower h
  obtain ⟨fn, l, notes, hfn, hlike, hto⟩ := lowered_of_lower hN hl hk
  have hmid : fn.module = mid :=
    Option.some.inj (hto.module.symm.trans (hlike.moduleId hN (mem_functions hk).1))
  have hbody := body_of_lowersTo hto (hfunctions ▸ hfn)
  rw [hmid] at hbody
  exact ⟨res, l, fn.slots, hl.resources, hlike, hbody, hresources⟩

/-- Control comes only where a path of the graph leads, or to the end of the body. -/
theorem Body.arrives {P : SemProgram} {slots : List SemSlot} {H : Finset ResourceId}
    (h : Body p P k m mid f l slots) (hsids : (f.body.map (·.sid)).Nodup)
    (harr : Control.Arrives P.code k n H) : (∃ is, (buildCfg f).Path is n) ∨
      ∃ is i, (buildCfg f).Path is i ∧ FallsOff f i n := by
  induction harr with
  | entry => exact .inl ⟨[], .entry⟩
  | @step n n' H _ hn ih =>
      obtain ⟨o, ho, hgo⟩ := hn
      obtain ⟨s, hs, hlow⟩ := h.of_opAt ho
      rcases ih with ⟨is, hpath⟩ | ⟨is, i, -, rfl, -⟩
      · rcases hlow.next rfl hsids hs hgo with hnext | hfall
        · exact .inl ⟨_, hpath.step hnext⟩
        · exact .inr ⟨is, n, hpath, hfall⟩
      · rw [List.getElem?_eq_none le_rfl] at hs
        cases hs

end Graph

end Lower

end ConcIR
