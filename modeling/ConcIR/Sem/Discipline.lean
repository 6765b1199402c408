import ConcIR.Sem.Names
import ConcIR.Validate.Held

/-!
# Lock discipline of lowered bodies

Where the lock checks find nothing, the locks that are held along the paths of a source body are
those that its lowered body has taken and not given back, together with the ones that its callers
hold for it. Each lowered body is then balanced.
-/

namespace ConcIR

namespace Ast.Op

/-- The functions that a statement starts threads with. -/
def startedFuncs : Op → List String
  | .spawn g _ _ => [g]
  | .scope gs => gs
  | _ => []

end Ast.Op

namespace Lower

open Ast Validate

variable {p : Program} {P : SemProgram} {res : List LowResource} {l : Lowerer}
  {m owner : Module} {mid omid : ModuleId} {f : Function} {k : FunctionId} {r : ResourceId}
  {rs : Resource} {name : String} {i n n' : ℕ} {s : Stmt} {o : SemOp} {slots : List SemSlot}
  {held : Finset String} {H K : Finset ResourceId} {is : List ℕ}

/-- The checks of what a function locks find nothing. The order of its locks and what it holds
across awaits are left out. -/
structure Silent (p : Program) (m : Module) (f : Function) (fnPath : String) : Prop where
  pairing : pairing p m f fnPath = []
  access : checkVarAccessWithoutLock p m f (buildCfg f) (entryHeld p m f) fnPath = []
  calls : checkRequiresHeld p m f (buildCfg f) (entryHeld p m f) fnPath = []
  waits : checkCondvarOwnership p m f (buildCfg f) (entryHeld p m f) fnPath = []

/-- The checks of names, locks, lock effects and return paths find nothing. Beyond the checks,
modules and resources have identifiers for names, threads start with functions that require no lock,
and no function gives back a lock that it requires. -/
structure Disciplined (p : Program) : Prop where
  names : NamesClean p
  locks : ∀ m ∈ p.modules, ∀ f ∈ m.functions, f.body ≠ [] → ∃ fnPath, Silent p m f fnPath
  effects : perFunction p (checkLockEffectNames p) = []
  returns : ∀ m ∈ p.modules, ∀ f ∈ m.functions, f.body ≠ [] →
    ∃ fnPath, checkReturnPaths m f fnPath = []
  entry : ∀ m f, p.lookupFunction "" p.entry = some (m, f) → f.locks.requiresHeld = []
  started : ∀ m ∈ p.modules, ∀ f ∈ m.functions, ∀ s ∈ f.body, ∀ name ∈ s.op.startedFuncs,
    ∀ owner g, p.lookupFunction m.name name = some (owner, g) → g.locks.requiresHeld = []
  keeps : ∀ m ∈ p.modules, ∀ f ∈ m.functions, ∀ s ∈ f.body, ∀ r, s.op = .mutexUnlock r →
    canonicalFrom p m.name r ∉ entryHeld p m f

section Sets

/-- There is a resource with the id. -/
def Known (p : Program) (r : ResourceId) : Prop := ∃ owner omid rs, ResourceAt p r owner omid rs

/-- The names are those of the resources in the set. -/
structure Tracks (p : Program) (held : Finset String) (K : Finset ResourceId) : Prop where
  known : ∀ r ∈ K, Known p r
  mem : ∀ name, name ∈ held ↔ ∃ r ∈ K, canonical p r = name

theorem Known.inj (hN : NamesClean p) {r' : ResourceId} (h : Known p r) (h' : Known p r')
    (heq : canonical p r = canonical p r') : r = r' := by
  obtain ⟨_, _, _, hr⟩ := h
  obtain ⟨_, _, _, hr'⟩ := h'
  exact canonical_inj hN hr hr' heq

theorem Tracks.mem_iff (hN : NamesClean p) (h : Tracks p held K) (hr : Known p r) :
    canonical p r ∈ held ↔ r ∈ K := by
  rw [h.mem]
  constructor
  · rintro ⟨r', hr', heq⟩
    exact (h.known r' hr').inj hN hr heq ▸ hr'
  · exact fun hmem ↦ ⟨r, hmem, rfl⟩

theorem Tracks.insert (h : Tracks p held K) (hr : Known p r) :
    Tracks p (insert (canonical p r) held) (insert r K) := by
  refine ⟨fun r' hr' ↦ ?_, fun name ↦ ?_⟩
  · rcases Finset.mem_insert.mp hr' with rfl | hr'
    · exact hr
    · exact h.known r' hr'
  · rw [Finset.mem_insert, h.mem, Finset.exists_mem_insert]
    exact or_congr_left eq_comm

theorem Tracks.erase (hN : NamesClean p) (h : Tracks p held K) (hr : Known p r) :
    Tracks p (held.erase (canonical p r)) (K.erase r) := by
  refine ⟨fun r' hr' ↦ h.known r' (Finset.mem_of_mem_erase hr'), fun name ↦ ?_⟩
  rw [Finset.mem_erase, h.mem]
  constructor
  · rintro ⟨hne, r', hr', rfl⟩
    exact ⟨r', Finset.mem_erase.mpr ⟨fun heq ↦ hne (heq ▸ rfl), hr'⟩, rfl⟩
  · rintro ⟨r', hr', rfl⟩
    obtain ⟨hne, hr'⟩ := Finset.mem_erase.mp hr'
    exact ⟨fun heq ↦ hne ((h.known r' hr').inj hN hr heq), r', hr', rfl⟩

/-- The mutexes that the `k`-th function requires. -/
def needs (p : Program) (k : FunctionId) : Finset ResourceId :=
  match (functions p)[k]? with
  | none => ∅
  | some (m, _, f) =>
      (Finset.range (allResources p).length).filter fun r ↦ canonical p r ∈ entryHeld p m f

theorem known_lt : Known p r ↔ r < (allResources p).length := by
  constructor
  · rintro ⟨owner, omid, rs, h⟩
    exact (List.getElem?_eq_some_iff.mp h).1
  · intro h
    exact ⟨_, _, _, List.getElem?_eq_getElem h⟩

theorem mem_needs (hk : (functions p)[k]? = some (m, mid, f)) :
    r ∈ needs p k ↔ Known p r ∧ canonical p r ∈ entryHeld p m f := by
  rw [needs, hk, Finset.mem_filter, Finset.mem_range, known_lt]

end Sets

section Entry

theorem exists_known (hm : m ∈ p.modules) (hrs : rs ∈ m.resources) :
    ∃ r, Known p r ∧ canonical p r = fqn m.name rs.name := by
  obtain ⟨mid, hmid⟩ := List.getElem?_of_mem hm
  have hmem : ((m, mid), rs) ∈ allResources p :=
    List.mem_flatMap.mpr ⟨(m, mid), List.mem_zipIdx_iff_getElem?.mpr hmid,
      List.mem_map.mpr ⟨rs, hrs, rfl⟩⟩
  obtain ⟨r, hr⟩ := List.getElem?_of_mem hmem
  have hat : ResourceAt p r m mid rs := hr
  exact ⟨r, ⟨m, mid, rs, hat⟩, hat.canonical⟩

theorem lookupResource_mem {fromModule : String} {q : Module × Resource}
    (h : p.lookupResource fromModule name = some q) : q.1 ∈ p.modules ∧ q.2 ∈ q.1.resources ∧
      q.1.name = (resolveName fromModule name).1 ∧ q.2.name = (resolveName fromModule name).2 := by
  rw [Program.lookupResource] at h
  generalize resolveName fromModule name = target at h ⊢
  obtain ⟨owner, howner, h⟩ := Option.bind_eq_some_iff.mp h
  obtain ⟨rs, hrs, heq⟩ := Option.bind_eq_some_iff.mp h
  obtain rfl := Option.some.inj heq
  have hmod := List.find?_some howner
  have hname := List.find?_some hrs
  exact ⟨List.mem_of_find?_eq_some howner, List.mem_of_find?_eq_some hrs, of_decide_eq_true hmod,
    of_decide_eq_true hname⟩

/-- A name that the checks know stands for a resource. -/
theorem exists_canonical {fromModule : String}
    (h : (p.lookupResource fromModule name).isSome = true) :
    ∃ r, Known p r ∧ canonical p r = canonicalFrom p fromModule name := by
  obtain ⟨⟨owner, rs⟩, hq⟩ := Option.isSome_iff_exists.mp h
  obtain ⟨howner, hrs, -⟩ := lookupResource_mem hq
  obtain ⟨r, hr, heq⟩ := exists_known howner hrs
  refine ⟨r, hr, ?_⟩
  rw [heq, canonicalFrom, hq]
  rfl

theorem Disciplined.names_required (h : Disciplined p) (hm : m ∈ p.modules) (hf : f ∈ m.functions) :
    entryHeld p m f = (f.locks.requiresHeld.map (canonicalFrom p m.name)).toFinset ∧
      ∀ name ∈ f.locks.requiresHeld, (p.lookupResource m.name name).isSome = true := by
  obtain ⟨fnPath, hnone⟩ := perFunction_eq_nil h.effects hm hf
  have hdeclared : ∀ name ∈ f.locks.requiresHeld, (p.lookupResource m.name name).isSome = true :=
    fun name hname ↦ required_declared hnone hname
  refine ⟨entryHeld_eq (h.names.modules m hm) fun name hname ↦ ?_, hdeclared⟩
  obtain ⟨⟨owner, rs⟩, hq⟩ := Option.isSome_iff_exists.mp (hdeclared name hname)
  obtain ⟨howner, hrs, -, hentity⟩ := lookupResource_mem hq
  cases hsplit : splitFqn name with
  | some ab => exact .inr rfl
  | none =>
      rw [resolveName, hsplit] at hentity
      have hname : rs.name = name := hentity
      exact .inl (hname ▸ h.names.resources owner howner rs hrs)

theorem Disciplined.tracks_entry (h : Disciplined p) (hk : (functions p)[k]? = some (m, mid, f)) :
    Tracks p (entryHeld p m f) (needs p k) := by
  obtain ⟨hmid, hf⟩ := mem_functions hk
  obtain ⟨heq, hdeclared⟩ := h.names_required (List.mem_of_getElem? hmid) hf
  refine ⟨fun r hr ↦ ((mem_needs hk).mp hr).1, fun name ↦ ⟨fun hname ↦ ?_, ?_⟩⟩
  · have hlist := hname
    rw [heq, List.mem_toFinset] at hlist
    obtain ⟨required, hreq, rfl⟩ := List.mem_map.mp hlist
    obtain ⟨r, hr, hcan⟩ := exists_canonical (hdeclared required hreq)
    exact ⟨r, (mem_needs hk).mpr ⟨hr, hcan ▸ hname⟩, hcan⟩
  · rintro ⟨r, hr, rfl⟩
    exact ((mem_needs hk).mp hr).2

end Entry

section Paths

/-- What the pairing check leaves to the paths if it finds nothing. -/
theorem pairing_silent {fnPath : String} (h : pairing p m f fnPath = [])
    (hpath : (buildCfg f).Path is i) (hi : f.body[i]? = some s) :
    (∀ l, lockTaken p m (lockResources p) s.op = some l →
      l ∉ heldAlong p m f (lockResources p) (entryHeld p m f) is) ∧
    (∀ l, lockGiven p m (lockResources p) s.op = some l →
      l ∈ heldAlong p m f (lockResources p) (entryHeld p m f) is) ∧
    (s.isReturn = true → heldAfter p m (lockResources p) s.op
      (heldAlong p m f (lockResources p) (entryHeld p m f) is) ⊆ entryHeld p m f) := by
  have hnone : ∀ d, d ∉ pairingDiags p m f (lockResources p) (entryHeld p m f) fnPath
      (i, heldAlong p m f (lockResources p) (entryHeld p m f) is) := by
    intro d hd
    have hmem : d ∈ pairing p m f fnPath := mem_checkLockDropPairing.mpr ⟨is, i, hpath, hd⟩
    rw [h] at hmem
    cases hmem
  refine ⟨fun l hl hin ↦ ?_, fun l hl ↦ ?_, fun hret l hl ↦ ?_⟩
  · obtain ⟨r, hr⟩ := exists_acquire hl
    exact hnone _ ((mem_pairingDiags hi).mpr (.inl ⟨r, l, hr, hl, hin, rfl⟩))
  · by_contra hnot
    obtain ⟨r, hr⟩ := exists_release hl
    exact hnone _ ((mem_pairingDiags hi).mpr (.inr (.inl ⟨r, l, hr, hl, hnot, rfl⟩)))
  · by_contra hnot
    exact hnone _ ((mem_pairingDiags hi).mpr (.inr (.inr ⟨hret, l, hl, hnot, rfl⟩)))

theorem silent_of_checkLocks (h : checkLocks p = []) (hm : m ∈ p.modules) (hf : f ∈ m.functions)
    (hbody : f.body ≠ []) : ∃ fnPath, Silent p m f fnPath := by
  obtain ⟨fnPath, hnone⟩ := perFunction_eq_nil h hm hf
  rw [checkLocksFn, if_neg (by simpa using hbody)] at hnone
  simp only [List.append_eq_nil_iff] at hnone
  obtain ⟨⟨⟨⟨⟨hpairing, -⟩, -⟩, haccess⟩, hcalls⟩, hwaits⟩ := hnone
  exact ⟨fnPath, hpairing, haccess, hcalls, hwaits⟩

/-- A statement that control passes takes a mutex, gives one back, or leaves the locks alone. -/
theorem LowOp.locks {ctx : BodyCtx} {loc : String} {op : Op} (h : LowOp l ctx loc op o)
    (hgo : o.Goes n n') :
    (∃ name r, op = .mutexLock name ∧ o = .mutexLock r ∧ Names l ctx .mutex name r) ∨
    (∃ name r, op = .mutexUnlock name ∧ o = .mutexUnlock r ∧ Names l ctx .mutex name r) ∨
    (op.isLockAcquire = none ∧ op.isLockRelease = none ∧
      ∀ H : Finset ResourceId, (SemOp.action (some o)).held H = H) := by
  cases h with
  | mutexLock hr => exact .inl ⟨_, _, rfl, rfl, hr⟩
  | mutexUnlock hr => exact .inr (.inl ⟨_, _, rfl, rfl, hr⟩)
  | unsupported => exact hgo.elim
  | _ => exact .inr (.inr ⟨rfl, rfl, fun _ ↦ rfl⟩)

theorem heldAfter_none {op : Op} (hacq : op.isLockAcquire = none) (hrel : op.isLockRelease = none)
    (locks : List String) : heldAfter p m locks op held = held ∧ heldBehind p m op held = held := by
  rw [heldAfter, heldBehind, lockTaken, lockGiven, hacq, hrel]
  exact ⟨rfl, rfl⟩

/-- What the checks make of a mutex that a body names. -/
theorem lock_of_names (hN : NamesClean p) (hres : lowerResources p = .ok res) (hlike : Like p res l)
    (hm : p.modules[mid]? = some m) (h : Names l (bodyCtx p l m f mid slots) .mutex name r) :
    Known p r ∧ canonicalFrom p m.name name = canonical p r ∧
      lockTaken p m (lockResources p) (.mutexLock name) = some (canonical p r) ∧
      lockGiven p m (lockResources p) (.mutexUnlock name) = some (canonical p r) := by
  obtain ⟨owner, omid, rs, hat, hkind, -, hcan⟩ := h.canonical hN hres hlike hm
  have htracked : (some (canonicalFrom p m.name name)).filter (· ∈ lockResources p) =
      some (canonical p r) := by
    rw [hcan, Option.filter_some, if_pos (by simpa using mem_lockResources hN hat hkind)]
  exact ⟨⟨owner, omid, rs, hat⟩, hcan, htracked, htracked⟩

/-- Where control stands with the mutexes `H`: some path leads there, and both ways of counting
along it come to these mutexes and the required ones. -/
structure At (p : Program) (k : FunctionId) (m : Module) (f : Function) (n : ℕ)
    (H : Finset ResourceId) : Prop where
  path : ∃ is, (buildCfg f).Path is n ∧
    Tracks p (holding p m f (entryHeld p m f) is) (H ∪ needs p k) ∧
    Tracks p (heldAlong p m f (lockResources p) (entryHeld p m f) is) (H ∪ needs p k)
  apart : Disjoint H (needs p k)

/-- A mutex is given back where the function does not require it. -/
theorem Disciplined.not_needed (h : Disciplined p) (hk : (functions p)[k]? = some (m, mid, f))
    (hi : f.body[n]? = some s) (hop : s.op = .mutexUnlock name)
    (hcan : canonicalFrom p m.name name = canonical p r) : r ∉ needs p k := by
  obtain ⟨hmid, hf⟩ := mem_functions hk
  intro hneed
  refine h.keeps m (List.mem_of_getElem? hmid) f hf s (List.mem_of_getElem? hi) name hop ?_
  rw [hcan]
  exact ((mem_needs hk).mp hneed).2

theorem At.lock {fnPath : String} (hN : NamesClean p) (hs : Silent p m f fnPath)
    (hi : f.body[n]? = some s) (hop : s.op = .mutexLock name) (hr : Known p r)
    (hcan : canonicalFrom p m.name name = canonical p r)
    (htaken : lockTaken p m (lockResources p) (.mutexLock name) = some (canonical p r))
    (hnext : n' ∈ (buildCfg f).next n) (hat : At p k m f n H) : At p k m f n' (insert r H) := by
  obtain ⟨⟨is, hpath, hall, hlocks⟩, hapart⟩ := hat
  obtain ⟨hfresh, -⟩ := pairing_silent hs.pairing hpath hi
  have hunion : insert r H ∪ needs p k = insert r (H ∪ needs p k) := Finset.insert_union _ _ _
  refine ⟨⟨is ++ [n], hpath.step hnext, ?_, ?_⟩, ?_⟩
  · rw [holding_concat hi, hop, hunion]
    change Tracks p (insert (canonicalFrom p m.name name) _) _
    rw [hcan]
    exact hall.insert hr
  · rw [heldAlong_concat hi, hop, heldAfter, htaken, hunion]
    exact hlocks.insert hr
  · refine Finset.disjoint_insert_left.mpr ⟨fun hneed ↦ ?_, hapart⟩
    exact hfresh (canonical p r) (by rw [hop]; exact htaken)
      ((hlocks.mem_iff hN hr).mpr (Finset.mem_union_right _ hneed))

theorem At.unlock (hN : NamesClean p) (hi : f.body[n]? = some s) (hop : s.op = .mutexUnlock name)
    (hr : Known p r) (hcan : canonicalFrom p m.name name = canonical p r)
    (hgive : lockGiven p m (lockResources p) (.mutexUnlock name) = some (canonical p r))
    (hnot : r ∉ needs p k) (hnext : n' ∈ (buildCfg f).next n) (hat : At p k m f n H) :
    At p k m f n' (H.erase r) := by
  obtain ⟨⟨is, hpath, hall, hlocks⟩, hapart⟩ := hat
  have hunion : H.erase r ∪ needs p k = (H ∪ needs p k).erase r := by
    rw [Finset.erase_union_distrib, Finset.erase_eq_of_notMem hnot]
  refine ⟨⟨is ++ [n], hpath.step hnext, ?_, ?_⟩, hapart.mono_left (Finset.erase_subset r H)⟩
  · rw [holding_concat hi, hop, hunion]
    change Tracks p (Finset.erase _ (canonicalFrom p m.name name)) _
    rw [hcan]
    exact hall.erase hN hr
  · rw [heldAlong_concat hi, hop, heldAfter, hgive, hunion]
    exact hlocks.erase hN hr

/-- One statement of a body. -/
theorem At.step {fnPath : String} (h : Disciplined p) (hs : Silent p m f fnPath)
    (hk : (functions p)[k]? = some (m, mid, f)) (hres : lowerResources p = .ok res)
    (hlike : Like p res l) (hi : f.body[n]? = some s)
    (hlow : LowOp l (bodyCtx p l m f mid slots) ((bodyCtx p l m f mid slots).loc s) s.op o)
    (hgo : o.Goes n n') (hnext : n' ∈ (buildCfg f).next n) (hat : At p k m f n H) :
    At p k m f n' ((SemOp.action (some o)).held H) := by
  obtain ⟨hmid, -⟩ := mem_functions hk
  rcases hlow.locks hgo with ⟨name, r, hop, rfl, hname⟩ | ⟨name, r, hop, rfl, hname⟩ |
    ⟨hacq, hrel, hheld⟩
  · obtain ⟨hr, hcan, htaken, -⟩ := lock_of_names h.names hres hlike hmid hname
    exact hat.lock h.names hs hi hop hr hcan htaken hnext
  · obtain ⟨hr, hcan, -, hgive⟩ := lock_of_names h.names hres hlike hmid hname
    exact hat.unlock h.names hi hop hr hcan hgive (h.not_needed hk hi hop hcan) hnext
  · obtain ⟨⟨is, hpath, hall, hlocks⟩, hapart⟩ := hat
    rw [hheld]
    refine ⟨⟨is ++ [n], hpath.step hnext, ?_⟩, hapart⟩
    rw [holding_concat hi, heldAlong_concat hi, (heldAfter_none hacq hrel _).1,
      (heldAfter_none hacq hrel []).2]
    exact ⟨hall, hlocks⟩

end Paths

section Balance

/-- Outside the function table there is nothing to execute. -/
theorem opAt_none (hP : lowerProgram p = .ok P) (hk : (functions p)[k]? = none) :
    P.opAt k n = none := by
  obtain ⟨t, res, l, -, hl, hfunctions, -⟩ := tables_of_lower hP
  have hfilled := (filled_placeholders res).run hl.functions
  have hlen : P.functions.length = (functions p).length := by
    rw [hfunctions, hl.tables]
    change l.semFunctions.length = _
    rw [Lowerer.semFunctions, List.length_map, hfilled.length, placeholders, List.length_map]
  have hnone : P.functions[k]? = none := by
    rw [List.getElem?_eq_none_iff, hlen]
    exact List.getElem?_eq_none_iff.mp hk
  rw [SemProgram.opAt, SemProgram.function, hnone]
  rfl

/-- The entry of a lowered program is the function that the source names. -/
theorem entry_of_lower (hN : NamesUnique p) (hP : lowerProgram p = .ok P) :
    ∃ m mid f, (functions p)[P.entry]? = some (m, mid, f) ∧
      p.lookupFunction "" p.entry = some (m, f) := by
  obtain ⟨t, res, l, -, hl, -, -, hentry⟩ := tables_of_lower hP
  obtain ⟨⟨a, e⟩, hsplit, hfid⟩ := Option.bind_eq_some_iff.mp hl.entry
  obtain ⟨mid, hmid, hfind⟩ := Option.bind_eq_some_iff.mp hfid
  obtain ⟨m, f, hk, hname⟩ := findFunction_some (progress_placeholders res).like hfind
  obtain ⟨hm, hf⟩ := mem_functions hk
  have hmod := List.mem_of_getElem? hm
  have hmname := (lastIndex_lt hmid).2
  change (p.modules.map (·.name))[mid]? = some a at hmname
  rw [List.getElem?_map, hm] at hmname
  have ha : m.name = a := Option.some.inj hmname
  refine ⟨m, mid, f, hentry ▸ hk, ?_⟩
  have hfound : m.functions.find? (·.name = f.name) = some f :=
    find?_of_nodup (hN.functions m hmod) hf
  have he : e = f.name := hname.symm
  rw [Program.lookupFunction, resolveName, hsplit, Option.getD_some]
  subst ha he
  simp only [lookupModule_eq hN hmod, Option.bind_eq_bind, Option.bind_some, hfound]

theorem needs_eq_empty (hk : (functions p)[k]? = some (m, mid, f)) (h : f.locks.requiresHeld = []) :
    needs p k = ∅ := by
  refine Finset.eq_empty_of_forall_notMem fun r hr ↦ ?_
  have hmem := ((mem_needs hk).mp hr).2
  rw [entryHeld, h] at hmem
  exact absurd hmem (Finset.notMem_empty _)

/-- Threads start with functions that require nothing. -/
theorem Disciplined.starts (h : Disciplined p) (hP : lowerProgram p = .ok P) (hk : P.Starts k) :
    needs p k = ∅ := by
  have hN := h.names.unique
  rcases hk with rfl | ⟨g, pc, o, ho, hstart⟩
  · obtain ⟨m, mid, f, hk, hlookup⟩ := entry_of_lower hN hP
    exact needs_eq_empty hk (h.entry m f hlookup)
  · cases hg : (functions p)[g]? with
    | none =>
        rw [opAt_none hP hg] at ho
        cases ho
    | some x =>
        obtain ⟨m, mid, f⟩ := x
        obtain ⟨res, l, slots, -, hlike, hbody, -⟩ := body_of_lower hN hP hg
        obtain ⟨s, hs, hlow⟩ := hbody.of_opAt ho
        obtain ⟨hm, hf⟩ := mem_functions hg
        have hnamed : ∃ name ∈ s.op.startedFuncs, l.resolveFunction mid name = some k := by
          generalize s.op = op at hlow ⊢
          cases hlow with
          | spawn hg =>
              obtain rfl : k = _ := hstart
              exact ⟨_, List.mem_singleton_self _, hg⟩
          | scope hgs =>
              obtain ⟨name, hname, hk⟩ := hgs k hstart
              exact ⟨name, hname, hk⟩
          | _ => exact hstart.elim
        obtain ⟨name, hname, hresolve⟩ := hnamed
        obtain ⟨owner, omid, callee, hk, hlookup⟩ := lookup_of_resolveFunction hN hlike hm hresolve
        exact needs_eq_empty hk (h.started m (List.mem_of_getElem? hm) f hf s
          (List.mem_of_getElem? hs) name hname owner callee hlookup)

/-- A required lock that is held under its name in the module of the function is the one that
the function requires. -/
theorem Disciplined.required (h : Disciplined p) (hk : (functions p)[k]? = some (m, mid, f))
    (hheld : Tracks p held K) (hr : r ∈ needs p k)
    (hcovers : ∀ required ∈ f.locks.requiresHeld, fqn m.name required ∈ held) : r ∈ K := by
  obtain ⟨hm, hf⟩ := mem_functions hk
  obtain ⟨hknown, hentry⟩ := (mem_needs hk).mp hr
  rw [(h.names_required (List.mem_of_getElem? hm) hf).1, List.mem_toFinset] at hentry
  obtain ⟨required, hreq, hcan⟩ := List.mem_map.mp hentry
  obtain ⟨r', hr', hname⟩ := (hheld.mem _).mp (hcovers required hreq)
  obtain ⟨owner, omid, rs, hat⟩ := hheld.known r' hr'
  obtain ⟨howner, hrs⟩ := hat.mem
  have hmem := List.mem_of_getElem? howner
  have hident := h.names.resources owner hmem rs hrs
  obtain ⟨hmodule, rfl⟩ :=
    fqn_inj (h.names.modules owner hmem) hident (hname.symm.trans hat.canonical)
  have hlookup : p.lookupResource m.name rs.name = some (owner, rs) := by
    refine lookupResource_eq h.names hmem hrs ?_ rfl
    rw [resolveName, splitFqn_ident hident, hmodule]
    rfl
  rw [canonicalFrom, hlookup] at hcan
  have heq : canonical p r' = canonical p r := hat.canonical.trans hcan
  exact (hheld.known r' hr').inj h.names hknown heq ▸ hr'

theorem Disciplined.at_of_arrives (h : Disciplined p) (hP : lowerProgram p = .ok P)
    (hk : (functions p)[k]? = some (m, mid, f)) (harr : Control.Arrives P.code k n H) :
    At p k m f n H := by
  obtain ⟨res, l, slots, hres, hlike, hbody, -⟩ := body_of_lower h.names.unique hP hk
  obtain ⟨hm, hf⟩ := mem_functions hk
  have hmod := List.mem_of_getElem? hm
  induction harr with
  | entry =>
      have hempty : (∅ : Finset ResourceId) ∪ needs p k = needs p k := Finset.empty_union _
      refine ⟨⟨[], .entry, ?_, ?_⟩, Finset.disjoint_empty_left _⟩
      · rw [hempty]
        exact h.tracks_entry hk
      · rw [hempty]
        exact h.tracks_entry hk
  | @step n n' H _ hn ih =>
      obtain ⟨o, ho, hgo⟩ := hn
      obtain ⟨s, hs, hlow⟩ := hbody.of_opAt ho
      have hne : f.body ≠ [] := List.ne_nil_of_mem (List.mem_of_getElem? hs)
      obtain ⟨fnPath, hsilent⟩ := h.locks m hmod f hf hne
      obtain ⟨fnPath', hret⟩ := h.returns m hmod f hf hne
      have hact : P.code.action k n = SemOp.action (some o) := congrArg SemOp.action ho
      rw [hact]
      rcases hlow.next rfl (h.names.unique.sids m hmod f hf) hs hgo with hnext | hfall
      · exact ih.step h hsilent hk hres hlike hs hlow hgo hnext
      · exact absurd hfall (not_fallsOff hret)

/-- What the checks allow a statement where control stands. -/
theorem At.admits {fnPath : String} (h : Disciplined p) (hs : Silent p m f fnPath)
    (hk : (functions p)[k]? = some (m, mid, f)) (hres : lowerResources p = .ok res)
    (hlike : Like p res l) (hi : f.body[n]? = some s)
    (hlow : LowOp l (bodyCtx p l m f mid slots) ((bodyCtx p l m f mid slots).loc s) s.op o)
    (hat : At p k m f n H) : (SemOp.action (some o)).Admits (needs p) (needs p k) H := by
  obtain ⟨hmid, -⟩ := mem_functions hk
  obtain ⟨⟨is, hpath, hall, hlocks⟩, hapart⟩ := hat
  obtain ⟨-, hgiven, hreturned⟩ := pairing_silent hs.pairing hpath hi
  obtain ⟨sid, op⟩ := s
  cases hlow with
  | @mutexUnlock name r hname =>
      obtain ⟨hr, hcan, -, hgive⟩ := lock_of_names h.names hres hlike hmid hname
      have hheld := (hlocks.mem_iff h.names hr).mp (hgiven _ hgive)
      exact (Finset.mem_union.mp hheld).resolve_right (h.not_needed hk hi rfl hcan)
  | @condvarWait name lock r lk hname hlk =>
      obtain ⟨hr, hcan, -⟩ := lock_of_names h.names hres hlike hmid hlk
      refine (hall.mem_iff h.names hr).mp ?_
      by_contra hnot
      refine checkHeld_eq_nil.mp hs.waits n _ _
        ⟨is, hpath, hi, mem_waitNeeds.mpr ⟨name, lock, rfl, rfl⟩, ?_⟩
      rwa [← hcan] at hnot
  | @func name args dst g xs d hg hxs hd =>
      obtain ⟨owner, omid, callee, hgk, hlookup⟩ :=
        lookup_of_resolveFunction h.names.unique hlike hmid hg
      intro r hr
      refine h.required hgk hall hr fun required hreq ↦ ?_
      by_contra hnot
      exact checkHeld_eq_nil.mp hs.calls n _ _ ⟨is, hpath, hi, mem_callNeeds.mpr
        ⟨name, args, dst, owner, callee, rfl, hlookup, required, hreq, rfl⟩, hnot⟩
  | ret =>
      refine Finset.eq_empty_of_forall_notMem fun r hr ↦ ?_
      have hknown := hlocks.known r (Finset.mem_union_left _ hr)
      have hheld := (hlocks.mem_iff h.names hknown).mpr (Finset.mem_union_left _ hr)
      have hentry := hreturned rfl hheld
      have hneed := ((h.tracks_entry hk).mem_iff h.names hknown).mp hentry
      exact Finset.disjoint_left.mp hapart hr hneed
  | _ => trivial

/-- Where the lock checks find nothing, lowered bodies give back what they take, and functions
are called with the locks that they require. -/
theorem Disciplined.balanced (h : Disciplined p) (hP : lowerProgram p = .ok P) :
    Control.Balanced (needs p) P.code := by
  refine ⟨fun k n H harr ↦ ?_, fun k hk ↦ h.starts hP hk⟩
  have hstuck : (∀ n, P.opAt k n = none) → H = ∅ := by
    intro hnone
    cases harr with
    | entry => rfl
    | step _ hn =>
        obtain ⟨o, ho, -⟩ := hn
        rw [hnone] at ho
        cases ho
  cases hk : (functions p)[k]? with
  | none =>
      have hact : P.code.action k n = .ret := congrArg SemOp.action (opAt_none hP hk)
      rw [hact]
      exact hstuck fun n ↦ opAt_none hP hk
  | some x =>
      obtain ⟨m, mid, f⟩ := x
      obtain ⟨res, l, slots, hres, hlike, hbody, -⟩ := body_of_lower h.names.unique hP hk
      obtain ⟨hm, hf⟩ := mem_functions hk
      have hat := h.at_of_arrives hP hk harr
      cases ho : P.opAt k n with
      | none =>
          have hact : P.code.action k n = .ret := congrArg SemOp.action ho
          rw [hact]
          by_cases hne : f.body = []
          · exact hstuck fun n ↦ hbody.outside n (by rw [hne]; rfl)
          · obtain ⟨is, hpath, -⟩ := hat.path
            obtain ⟨o, ho', -⟩ :=
              hbody.inside n _ (List.getElem?_eq_getElem (path_lt hne hpath))
            rw [ho] at ho'
            cases ho'
      | some o =>
          have hact : P.code.action k n = SemOp.action (some o) := congrArg SemOp.action ho
          rw [hact]
          obtain ⟨s, hs, hlow⟩ := hbody.of_opAt ho
          have hne : f.body ≠ [] := List.ne_nil_of_mem (List.mem_of_getElem? hs)
          obtain ⟨fnPath, hsilent⟩ := h.locks m (List.mem_of_getElem? hm) f hf hne
          exact hat.admits h hsilent hk hres hlike hs hlow

end Balance

end Lower

end ConcIR
