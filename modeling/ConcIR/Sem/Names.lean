import ConcIR.Sem.Flow
import ConcIR.Validate.Locks

/-!
# Names and ids of resources

Lowering numbers the resources of the program in their order. Where names are identifiers and
unique, a name stands for the same resource in the checks and in a lowered body, and resources
are told apart by their qualified names.
-/

namespace ConcIR

namespace Validate

open Ast

theorem resources_nodup {p : Program} (h : checkNames p = []) {m : Module} (hm : m ∈ p.modules) :
    (m.resources.map (·.name)).Nodup := by
  simp only [checkNames, List.append_eq_nil_iff] at h
  obtain ⟨⟨⟨⟨-, hresources⟩, -⟩, -⟩, -⟩ := h
  obtain ⟨mi, hmi⟩ := List.getElem?_of_mem hm
  have hnone := List.flatMap_eq_nil_iff.mp hresources (m, mi) (List.mem_zipIdx_iff_getElem?.mpr hmi)
  exact (repeatedFrom_eq_nil (List.map_eq_nil_iff.mp hnone)).1

/-- The checks of names find nothing, and modules and resources have identifiers for names. -/
structure NamesClean (p : Program) : Prop where
  checked : checkNames p = []
  modules : ∀ m ∈ p.modules, isIdent m.name = true
  resources : ∀ m ∈ p.modules, ∀ r ∈ m.resources, isIdent r.name = true

theorem NamesClean.unique {p : Program} (h : NamesClean p) : NamesUnique p :=
  namesUnique_of_checkNames h.checked

end Validate

section Split

theorem splitFqn_ident {s : String} (h : isIdent s = true) : splitFqn s = none := by
  have hsep : fqnSep.toList = [':', ':'] := rfl
  have hnone : splitOnce s fqnSep = none := by
    rw [splitOnce, hsep, splitOnceChars_none (not_colon_of_isIdent h)]
    rfl
  rw [splitFqn, hnone]

end Split

namespace Lower

open Ast Validate

variable {p : Program} {res : List LowResource} {l : Lowerer} {m owner : Module}
  {mid omid : ModuleId} {f : Function} {r r' : ResourceId} {rs rs' : Resource} {name : String}

/-- The resources of the program with their modules, in the order of their ids. -/
def allResources (p : Program) : List ((Module × ModuleId) × Resource) :=
  (modules p).flatMap fun m ↦ m.1.resources.map fun r ↦ (m, r)

/-- The resource with the id. -/
def ResourceAt (p : Program) (r : ResourceId) (owner : Module) (omid : ModuleId) (rs : Resource) :
    Prop := (allResources p)[r]? = some ((owner, omid), rs)

/-- The qualified name of a resource. -/
def canonical (p : Program) (r : ResourceId) : String :=
  ((allResources p)[r]?.map fun x ↦ fqn x.1.1.name x.2.name).getD ""

section Ids

theorem ResourceAt.mem (h : ResourceAt p r owner omid rs) :
    p.modules[omid]? = some owner ∧ rs ∈ owner.resources := by
  obtain ⟨⟨m', mid'⟩, hm, hf⟩ := List.mem_flatMap.mp (List.mem_of_getElem? h)
  obtain ⟨f', hf', heq⟩ := List.mem_map.mp hf
  cases heq
  exact ⟨List.mem_zipIdx_iff_getElem?.mp hm, hf'⟩

theorem ResourceAt.canonical (h : ResourceAt p r owner omid rs) :
    canonical p r = fqn owner.name rs.name := by
  rw [Lower.canonical, show (allResources p)[r]? = some ((owner, omid), rs) from h]
  rfl

/-- Resources are told apart by their modules and names. -/
theorem nodup_resourceKeys (hN : checkNames p = []) :
    ((allResources p).map fun x ↦ (x.1.2, x.2.name)).Nodup := by
  rw [allResources, modules, List.map_flatMap, List.nodup_flatMap]
  constructor
  · rintro ⟨m, mid⟩ hm
    have hmem := List.mem_of_getElem? (List.mem_zipIdx_iff_getElem?.mp hm)
    rw [List.map_map]
    have hcomp : ((fun x : (Module × ModuleId) × Resource ↦ (x.1.2, x.2.name)) ∘
        fun r ↦ ((m, mid), r)) = (fun n ↦ (mid, n)) ∘ Resource.name := rfl
    rw [hcomp, ← List.map_map]
    exact (resources_nodup hN hmem).map fun a b h ↦ (Prod.mk.inj h).2
  · have hidx : p.modules.zipIdx.Pairwise fun a b ↦ a.2 ≠ b.2 := by
      have hnodup : (p.modules.zipIdx.map (·.2)).Nodup := by
        rw [List.zipIdx_map_snd]
        exact List.nodup_range'
      exact List.pairwise_map.mp hnodup
    refine hidx.imp fun {a b} hab ↦ ?_
    rintro key ha hb
    obtain ⟨x, hx, rfl⟩ := List.mem_map.mp ha
    obtain ⟨y, hy, heq⟩ := List.mem_map.mp hb
    obtain ⟨f, -, rfl⟩ := List.mem_map.mp hx
    obtain ⟨g, -, rfl⟩ := List.mem_map.mp hy
    exact hab (Prod.mk.inj heq).1.symm

theorem ResourceAt.eq_of_key (hN : checkNames p = []) (h : ResourceAt p r owner omid rs)
    {owner' : Module} (h' : ResourceAt p r' owner' omid rs') (hname : rs.name = rs'.name) :
    r = r' := by
  have hlt : r < ((allResources p).map fun x ↦ (x.1.2, x.2.name)).length := by
    rw [List.length_map]
    exact (List.getElem?_eq_some_iff.mp h).1
  refine (List.getElem?_inj hlt (nodup_resourceKeys hN)).mp ?_
  rw [List.getElem?_map, List.getElem?_map, show (allResources p)[r]? = _ from h,
    show (allResources p)[r']? = _ from h', Option.map_some, Option.map_some, hname]

theorem module_eq (hN : NamesUnique p) {m' : Module} {i j : ℕ} (h : p.modules[i]? = some m)
    (h' : p.modules[j]? = some m') (hname : m.name = m'.name) : i = j := by
  have hlt : i < (p.modules.map (·.name)).length := by
    rw [List.length_map]
    exact (List.getElem?_eq_some_iff.mp h).1
  refine (List.getElem?_inj hlt hN.modules).mp ?_
  rw [List.getElem?_map, List.getElem?_map, h, h', Option.map_some, Option.map_some, hname]

theorem canonical_inj (hN : NamesClean p) (h : ResourceAt p r owner omid rs) {owner' : Module}
    {omid' : ModuleId} (h' : ResourceAt p r' owner' omid' rs')
    (heq : canonical p r = canonical p r') : r = r' := by
  rw [h.canonical, h'.canonical] at heq
  obtain ⟨hmod, hmem⟩ := h'.mem
  have howner := List.mem_of_getElem? hmod
  obtain ⟨hm, hr⟩ := fqn_inj (hN.modules owner' howner) (hN.resources owner' howner rs' hmem) heq
  obtain rfl := module_eq hN.unique h.mem.1 hmod hm
  exact h.eq_of_key hN.checked h' hr

end Ids

section Lookups

theorem find?_of_nodup {A : Type} {key : A → String} {xs : List A} (hnodup : (xs.map key).Nodup)
    {a : A} (ha : a ∈ xs) : xs.find? (key · = key a) = some a := by
  obtain ⟨b, hb⟩ : ∃ b, xs.find? (key · = key a) = some b := by
    rw [← Option.isSome_iff_exists, List.find?_isSome]
    exact ⟨a, ha, decide_eq_true rfl⟩
  have hkey : key b = key a := by simpa using List.find?_some hb
  rw [hb, List.inj_on_of_nodup_map hnodup (List.mem_of_find?_eq_some hb) ha hkey]

theorem lookupModule_eq (hN : NamesUnique p) (hm : m ∈ p.modules) :
    p.lookupModule m.name = some m := find?_of_nodup hN.modules hm

theorem lookupResource_eq (hN : NamesClean p) {fromModule entity : String}
    (hm : owner ∈ p.modules) (hr : rs ∈ owner.resources)
    (hresolve : resolveName fromModule name = (owner.name, entity)) (hentity : rs.name = entity) :
    p.lookupResource fromModule name = some (owner, rs) := by
  subst hentity
  have hfind : owner.resources.find? (·.name = rs.name) = some rs :=
    find?_of_nodup (resources_nodup hN.checked hm) hr
  rw [Program.lookupResource, hresolve]
  simp only [lookupModule_eq hN.unique hm, Option.bind_eq_bind, Option.bind_some, hfind]

theorem lowered_resources (hres : lowerResources p = .ok res) :
    List.Forall₂ (fun x y ↦ lowerResource (Typedef.TypeEnv.fromProgram p) x.1.1.name x.1.2 x.2 = .ok y)
      (allResources p) res := mapM_backend_ok hres

theorem lowerResource_fields {tenv : Typedef.TypeEnv} {mname : String} {x : LowResource}
    (h : lowerResource tenv mname omid rs = .ok x) :
    x.module = omid ∧ x.name = rs.name ∧ resKind rs = .ok x.kind := by
  obtain ⟨kind, hkind, h⟩ := bind_eq_ok.mp h
  obtain ⟨ty, -, h⟩ := bind_eq_ok.mp h
  obtain ⟨init, -, h⟩ := bind_eq_ok.mp h
  cases h
  exact ⟨rfl, rfl, hkind⟩

theorem forall₂_getElem? {A B : Type} {R : A → B → Prop} {xs : List A} {ys : List B}
    (h : List.Forall₂ R xs ys) (i : ℕ) {y : B} (hy : ys[i]? = some y) :
    ∃ x, xs[i]? = some x ∧ R x y := by
  induction h generalizing i with
  | nil => cases hy
  | @cons x y' xs ys hxy _ ih =>
      cases i with
      | zero =>
          obtain rfl := Option.some.inj hy
          exact ⟨x, rfl, hxy⟩
      | succ i => exact ih i hy

/-- An id of the lowered table is that of a resource of the program. -/
theorem resourceAt_of_lowered (hres : lowerResources p = .ok res) {x : LowResource}
    (hx : res[r]? = some x) : ∃ owner rs, ResourceAt p r owner x.module rs ∧ x.name = rs.name ∧
      resKind rs = .ok x.kind := by
  obtain ⟨⟨⟨owner, omid⟩, rs⟩, hat, hlow⟩ := forall₂_getElem? (lowered_resources hres) r hx
  obtain ⟨hmod, hname, hkind⟩ := lowerResource_fields hlow
  exact ⟨owner, rs, hmod ▸ hat, hname, hkind⟩

theorem findResource_some (hlike : Like p res l) {target : ModuleId × String}
    (h : l.findResource target = some r) :
    ∃ x, res[r]? = some x ∧ x.module = target.1 ∧ x.name = target.2 := by
  rw [Lowerer.findResource, hlike.resources] at h
  obtain ⟨hlt, hfound, -⟩ := List.findIdx?_eq_some_iff_getElem.mp h
  obtain ⟨hmod, hname⟩ := of_decide_eq_true hfound
  exact ⟨res[r], List.getElem?_eq_getElem hlt, hmod, hname⟩

/-- A name is looked up in the module where the checks look for it. -/
theorem resolveName_of_target {tmid : ModuleId} {entity : String} (hlike : Like p res l)
    (hm : p.modules[mid]? = some m) (howner : p.modules[tmid]? = some owner)
    (h : l.target mid name = some (tmid, entity)) :
    resolveName m.name name = (owner.name, entity) := by
  rw [Lowerer.target] at h
  rw [resolveName]
  split at h
  · rename_i a b hsplit
    obtain ⟨amid, hamid, heq⟩ := Option.map_eq_some_iff.mp h
    obtain ⟨rfl, rfl⟩ := Prod.mk.inj heq
    rw [Lowerer.moduleId, hlike.moduleNames] at hamid
    have hget := (lastIndex_lt hamid).2
    rw [List.getElem?_map, howner] at hget
    have hname : owner.name = a := Option.some.inj hget
    rw [hsplit, Option.getD_some, hname]
  · rename_i hsplit
    obtain ⟨rfl, rfl⟩ := Prod.mk.inj (Option.some.inj h)
    obtain rfl := Option.some.inj (hm.symm.trans howner)
    rw [hsplit, Option.getD_none]

/-- A name that lowering resolves is resolved by the checks, to the same resource. -/
theorem lookup_of_resourceOf (hN : NamesClean p) (hres : lowerResources p = .ok res)
    (hlike : Like p res l) (hm : p.modules[mid]? = some m) (h : l.resourceOf mid name = some r) :
    ∃ owner omid rs, ResourceAt p r owner omid rs ∧
      p.lookupResource m.name name = some (owner, rs) := by
  obtain ⟨⟨tmid, entity⟩, htarget, hfind⟩ := Option.bind_eq_some_iff.mp h
  obtain ⟨x, hx, rfl, hxname⟩ := findResource_some hlike hfind
  obtain ⟨owner, rs, hat, hname, -⟩ := resourceAt_of_lowered hres hx
  obtain ⟨hmod, hmem⟩ := hat.mem
  exact ⟨owner, x.module, rs, hat, lookupResource_eq hN (List.mem_of_getElem? hmod) hmem
    (resolveName_of_target hlike hm hmod htarget) (hname.symm.trans hxname)⟩

theorem findFunction_some {g : FunctionId} {target : ModuleId × String} (hlike : Like p res l)
    (h : l.findFunction target = some g) :
    ∃ owner f, (functions p)[g]? = some (owner, target.1, f) ∧ f.name = target.2 := by
  rw [Lowerer.findFunction] at h
  obtain ⟨hlt, hfound, -⟩ := List.findIdx?_eq_some_iff_getElem.mp h
  obtain ⟨hmod, hname⟩ := of_decide_eq_true hfound
  have hkey : l.functions[g]?.map (·.key) = (functions p)[g]?.map fun x ↦ (x.2.1, x.2.2.name) := by
    rw [← List.getElem?_map, ← List.getElem?_map, hlike.keys]
  rw [List.getElem?_eq_getElem hlt] at hkey
  obtain ⟨⟨owner, omid, f⟩, hf, heq⟩ := Option.map_eq_some_iff.mp hkey.symm
  obtain ⟨rfl, hfname⟩ := Prod.mk.inj heq
  exact ⟨owner, f, hmod ▸ hf, hfname.trans hname⟩

/-- A function that lowering resolves is resolved by the checks, to the same function. -/
theorem lookup_of_resolveFunction {g : FunctionId} (hN : NamesUnique p) (hlike : Like p res l)
    (hm : p.modules[mid]? = some m) (h : l.resolveFunction mid name = some g) :
    ∃ owner omid f, (functions p)[g]? = some (owner, omid, f) ∧
      p.lookupFunction m.name name = some (owner, f) := by
  obtain ⟨⟨tmid, entity⟩, htarget, hfind⟩ := Option.bind_eq_some_iff.mp h
  obtain ⟨owner, f, hg, hname⟩ := findFunction_some hlike hfind
  obtain ⟨hmod, hmem⟩ := mem_functions hg
  have howner := List.mem_of_getElem? hmod
  refine ⟨owner, tmid, f, hg, ?_⟩
  have hfind : owner.functions.find? (·.name = f.name) = some f :=
    find?_of_nodup (hN.functions owner howner) hmem
  rw [Program.lookupFunction, resolveName_of_target hlike hm hmod htarget]
  simp only [lookupModule_eq hN howner, Option.bind_eq_bind, Option.bind_some,
    show entity = f.name from hname.symm, hfind]

end Lookups

section Bodies

variable {slots : List SemSlot}

/-- A body sees resources under names that resolve to them. -/
theorem resourceOf_of_name (hN : NamesClean p) (hlike : Like p res l)
    (hm : p.modules[mid]? = some m)
    (h : (bodyCtx p l m f mid slots).nameToResource name = some r) :
    l.resourceOf mid name = some r := by
  rcases List.mem_append.mp (lastValue_mem h) with hown | hreq
  · obtain ⟨owner, howner, hown⟩ := List.mem_flatMap.mp hown
    obtain ⟨howner, hname⟩ := List.mem_filter.mp howner
    obtain ⟨rs, hrs, hown⟩ := List.mem_flatMap.mp hown
    cases hr : l.resourceOf mid rs.name with
    | none =>
        rw [hr] at hown
        cases hown
    | some rid =>
        rw [hr] at hown
        have hlist : (name, r) ∈ [(rs.name, rid), (fqn m.name rs.name, rid)] := hown
        simp only [List.mem_cons, Prod.mk.injEq, List.not_mem_nil, or_false] at hlist
        rcases hlist with ⟨rfl, rfl⟩ | ⟨rfl, rfl⟩
        · exact hr
        · have hrs' := hN.resources owner howner rs hrs
          have hmod := hlike.moduleId hN.unique hm
          rw [Lowerer.resourceOf, Lowerer.target, splitFqn_ident hrs'] at hr
          rw [Lowerer.resourceOf, Lowerer.target,
            splitFqn_fqn (hN.modules m (List.mem_of_getElem? hm)) hrs']
          change ((l.moduleId m.name).map _).bind _ = _
          rw [hmod]
          exact hr
  · obtain ⟨req, -, hreq⟩ := List.mem_filterMap.mp hreq
    obtain ⟨rid, hrid, heq⟩ := Option.map_eq_some_iff.mp hreq
    obtain ⟨rfl, rfl⟩ := Prod.mk.inj heq
    exact hrid

/-- The checks know a resource that a body names under its qualified name. -/
theorem Names.canonical {kind : ResKind} (hN : NamesClean p) (hres : lowerResources p = .ok res)
    (hlike : Like p res l) (hm : p.modules[mid]? = some m)
    (h : Names l (bodyCtx p l m f mid slots) kind name r) :
    ∃ owner omid rs, ResourceAt p r owner omid rs ∧ resKind rs = .ok kind ∧
      p.lookupResource m.name name = some (owner, rs) ∧
      canonicalFrom p m.name name = Lower.canonical p r := by
  obtain ⟨owner, omid, rs, hat, hlookup⟩ :=
    lookup_of_resourceOf hN hres hlike hm (resourceOf_of_name hN hlike hm h.1)
  obtain ⟨x, hx, hkind⟩ := Option.map_eq_some_iff.mp h.2
  rw [hlike.resources] at hx
  obtain ⟨owner', rs', hat', -, hkind'⟩ := resourceAt_of_lowered hres hx
  cases (show (allResources p)[r]? = _ from hat).symm.trans hat'
  refine ⟨owner, x.module, rs, hat, hkind ▸ hkind', hlookup, ?_⟩
  rw [canonicalFrom, hlookup, hat.canonical]
  rfl

end Bodies

section Locks

theorem resTypeOf_mutex (h : resKind rs = .ok .mutex) : resTypeOf rs = some .mutex := by
  rw [resKind] at h
  rw [resTypeOf]
  split at h <;> simp_all

/-- A mutex is known to the checks as a lock. -/
theorem mem_lockResources (hN : NamesClean p) (h : ResourceAt p r owner omid rs)
    (hkind : resKind rs = .ok .mutex) : Lower.canonical p r ∈ lockResources p := by
  obtain ⟨hmod, hmem⟩ := h.mem
  have howner := List.mem_of_getElem? hmod
  have hident := hN.modules owner howner
  have hrs := hN.resources owner howner rs hmem
  have hentry : (Lower.canonical p r, ResType.mutex) ∈ resourceTypeEntries p := by
    refine List.mem_flatMap.mpr ⟨owner, howner, List.mem_flatMap.mpr ⟨rs, hmem, ?_⟩⟩
    rw [resTypeOf_mutex hkind, h.canonical]
    exact List.mem_cons_of_mem _ List.mem_cons_self
  -- only the resource itself has an entry under its qualified name
  have honly : ∀ t, (Lower.canonical p r, t) ∈ resourceTypeEntries p → t = .mutex := by
    intro t ht
    obtain ⟨m', hm', ht⟩ := List.mem_flatMap.mp ht
    obtain ⟨rs', hrs', ht⟩ := List.mem_flatMap.mp ht
    cases htype : resTypeOf rs' with
    | none =>
        rw [htype] at ht
        cases ht
    | some t' =>
        rw [htype, h.canonical] at ht
        have hlist : (fqn owner.name rs.name, t) ∈ [(rs'.name, t'), (fqn m'.name rs'.name, t')] := ht
        simp only [List.mem_cons, Prod.mk.injEq, List.not_mem_nil, or_false] at hlist
        rcases hlist with ⟨hshort, -⟩ | ⟨hfull, rfl⟩
        · have hcolon : ':' ∉ (fqn owner.name rs.name).toList :=
            not_colon_of_isIdent (hshort ▸ hN.resources m' hm' rs' hrs')
          rw [toList_fqn] at hcolon
          exact absurd (List.mem_append_right _ List.mem_cons_self) hcolon
        · obtain ⟨hm, hr⟩ := fqn_inj (hN.modules m' hm') (hN.resources m' hm' rs' hrs') hfull
          obtain ⟨i, hi⟩ := List.getElem?_of_mem hm'
          obtain rfl := module_eq hN.unique hmod hi hm
          obtain rfl := Option.some.inj (hmod.symm.trans hi)
          have heq := List.inj_on_of_nodup_map (resources_nodup hN.checked howner) hmem hrs' hr
          rw [← heq, resTypeOf_mutex hkind] at htype
          exact (Option.some.inj htype).symm
  have htype : resourceType p (Lower.canonical p r) = some .mutex := by
    obtain ⟨⟨key, t⟩, hfind⟩ :
        ∃ e, (resourceTypeEntries p).reverse.find? (·.1 = Lower.canonical p r) = some e := by
      rw [← Option.isSome_iff_exists, List.find?_isSome]
      exact ⟨_, List.mem_reverse.mpr hentry, decide_eq_true rfl⟩
    have hkey : key = Lower.canonical p r := by simpa using List.find?_some hfind
    have hmem := List.mem_reverse.mp (List.mem_of_find?_eq_some hfind)
    rw [resourceType, hfind, Option.map_some, honly t (hkey ▸ hmem)]
  refine List.mem_filterMap.mpr ⟨Lower.canonical p r, List.mem_filter.mpr ⟨?_, ?_⟩, ?_⟩
  · exact List.mem_dedup.mpr (List.mem_map.mpr ⟨_, hentry, rfl⟩)
  · rw [htype]
    rfl
  · have hlookup : p.lookupResource "" (Lower.canonical p r) = some (owner, rs) := by
      refine lookupResource_eq hN howner hmem ?_ rfl
      rw [resolveName, h.canonical, splitFqn_fqn hident hrs]
      rfl
    rw [canonicalResource, hlookup, h.canonical]
    rfl

end Locks

end Lower

end ConcIR
