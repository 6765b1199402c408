import ConcIR.Validate.Pairing

/-!
# Awaiting under a lock

The check of awaits walks the paths of an async function like the pairing check does. It
looks a lock up by its qualified name among the short names of the synchronous locks, and
it counts every lock that the function requires, so what it reports is not what it is for.
-/

namespace ConcIR.Validate

open Ast

section Check

def isSyncLock (r : Resource) : Bool :=
  r.kind = "sync" && (r.resType = "Mutex" || r.resType = "RwLock") && r.mode = some "Sync"

variable (p : Program)

/-- The synchronous locks by their short names. -/
def syncLockResources : List String :=
  ((p.modules.flatMap (·.resources)).filter isSyncLock).map (·.name)

def isAwaitLike : Op → Bool
  | .await _ => true
  | _ => false

variable (m : Module) (f : Function) (g : Cfg) (locks : List String) (entry : Finset String)
  (fnPath : String)

def heldAcrossAwait (idx : ℕ) (stmt : Stmt) (lock : String) : Diagnostic :=
  reportAt m f fnPath (.error "E504" ("Sync-mode lock '" ++ lock ++
    "' held across await point in async function '" ++ f.name ++ "'")) idx stmt
      "unlock before await and re-acquire after, or use Async-mode lock"

def awaitDiags (s : ℕ × Finset String) : List Diagnostic :=
  match f.body[s.1]? with
  | none => []
  | some stmt =>
      if isAwaitLike stmt.op then
        (inOrder (heldAfter p m locks stmt.op s.2)).map (heldAcrossAwait m f fnPath s.1 stmt)
      else []

def awaitWalk : Walk (ℕ × Finset String) Diagnostic :=
  Walk.run (pairingNext p m f g locks) (awaitDiags p m f locks fnPath)
    (pairingRounds p m f g locks entry) (.start (0, entry))

def checkSyncLockAcrossAwait : List Diagnostic :=
  if f.kind ≠ "async" || locks.isEmpty then []
  else if f.body.length = 0 then []
  else (awaitWalk p m f g locks entry fnPath).out

/-- The check of one function. -/
def awaits : List Diagnostic :=
  checkSyncLockAcrossAwait p m f (buildCfg f) (syncLockResources p) (entryHeld p m f) fnPath

end Check

section Paths

variable (p : Program) (m : Module) (f : Function) (locks : List String) (entry : Finset String)

/-- Some path reaches the statement with one of the locks held. -/
def HoldsAt (i : ℕ) : Prop :=
  ∃ is, (buildCfg f).Path is i ∧ (heldAlong p m f locks entry is).Nonempty

variable {p m f locks entry} {fnPath : String} {i : ℕ} {stmt : Stmt}

theorem heldAfter_await {op : Op} (h : isAwaitLike op = true) (held : Finset String) :
    heldAfter p m locks op held = held := by
  cases op with
  | await handle => rfl
  | _ => cases h

theorem mem_awaitDiags (hi : f.body[i]? = some stmt) {held : Finset String} {d : Diagnostic} :
    d ∈ awaitDiags p m f locks fnPath (i, held) ↔
      isAwaitLike stmt.op = true ∧ ∃ l ∈ held, d = heldAcrossAwait m f fnPath i stmt l := by
  rw [awaitDiags, hi]
  by_cases hawait : isAwaitLike stmt.op = true
  · simp [hawait, heldAfter_await hawait, eq_comm]
  · simp [hawait]

theorem mem_checkSyncLockAcrossAwait {d : Diagnostic} :
    d ∈ checkSyncLockAcrossAwait p m f (buildCfg f) locks entry fnPath ↔
      f.kind = "async" ∧ locks ≠ [] ∧ ∃ is i, (buildCfg f).Path is i ∧
        d ∈ awaitDiags p m f locks fnPath (i, heldAlong p m f locks entry is) := by
  have hinv : Walk.Inv (pairingNext p m f (buildCfg f) locks) (awaitDiags p m f locks fnPath)
      (0, entry) (awaitWalk p m f (buildCfg f) locks entry fnPath) :=
    (Walk.inv_start _ _ _).run _
  have hout : d ∈ (awaitWalk p m f (buildCfg f) locks entry fnPath).out ↔
      ∃ is i, (buildCfg f).Path is i ∧
        d ∈ awaitDiags p m f locks fnPath (i, heldAlong p m f locks entry is) := by
    rw [hinv.mem_out (stack_walk _)]
    constructor
    · rintro ⟨⟨i, held⟩, hreach, hd⟩
      obtain ⟨is, hpath, rfl⟩ := reach_iff.mp hreach
      exact ⟨is, i, hpath, hd⟩
    · rintro ⟨is, i, hpath, hd⟩
      exact ⟨(i, _), reach_iff.mpr ⟨is, hpath, rfl⟩, hd⟩
  rw [checkSyncLockAcrossAwait]
  split_ifs with hskip hbody
  · refine iff_of_false List.not_mem_nil ?_
    rintro ⟨hkind, hlocks, -⟩
    simp [hkind, hlocks] at hskip
  · refine iff_of_false List.not_mem_nil ?_
    rintro ⟨-, -, is, i, -, hd⟩
    rw [awaitDiags, List.getElem?_eq_none (by omega)] at hd
    exact absurd hd List.not_mem_nil
  · have hok : f.kind = "async" ∧ locks ≠ [] := by
      simpa using hskip
    rw [hout]
    exact ⟨fun h ↦ ⟨hok.1, hok.2, h⟩, fun h ↦ h.2.2⟩

end Paths

section Exact

variable (p : Program) (m : Module) (f : Function)

/-- The qualified names of the locks declared with synchronous mode. -/
def declaredSync : List String :=
  p.modules.flatMap fun m ↦ (m.resources.filter isSyncLock).map fun r ↦ fqn m.name r.name

/-- Some path from the entry reaches the statement while a synchronous lock is held. -/
def HoldsSync (i : ℕ) : Prop :=
  HoldsAt p m f (declaredSync p) (entryHeld p m f ∩ (declaredSync p).toFinset) i

/-- There is a synchronous lock, and some path reaches the statement while a lock is held
that the function requires or whose qualified name is a short name of a synchronous one. -/
def HoldsTracked (i : ℕ) : Prop :=
  syncLockResources p ≠ [] ∧ HoldsAt p m f (syncLockResources p) (entryHeld p m f) i

/-- A report with the code about the statement. -/
def ReportsAt (ds : List Diagnostic) (code fnPath : String) (i : ℕ) : Prop :=
  ∃ d ∈ ds, d.code = code ∧ d.path = some (Program.bodyPath fnPath i)

/-- The property at every await of the function: `reports` exactly where `holds`. -/
def AtAwaits (f : Function) (reports holds : ℕ → Prop) : Prop :=
  ∀ i stmt, f.body[i]? = some stmt → isAwaitLike stmt.op = true → (reports i ↔ holds i)

/-- Synchronous locks are named by identifiers, and the lock statements of the function
name declared resources. -/
structure NamesResolve : Prop where
  sync : ∀ l ∈ syncLockResources p, isIdent l = true
  stmt : ∀ s ∈ f.body, ∀ r, s.op.isLockAcquire = some r ∨ s.op.isLockRelease = some r →
    (p.lookupResource m.name r).isSome = true

variable {p m f} {fnPath : String} {i : ℕ} {stmt : Stmt}

theorem reportsAt_awaits (hk : f.kind = "async") (hi : f.body[i]? = some stmt)
    (hawait : isAwaitLike stmt.op = true) :
    ReportsAt (awaits p m f fnPath) "E504" fnPath i ↔ HoldsTracked p m f i := by
  constructor
  · rintro ⟨d, hd, -, hpath⟩
    obtain ⟨-, hlocks, is, j, hreach, hd⟩ := mem_checkSyncLockAcrossAwait.mp hd
    cases hj : f.body[j]? with
    | none =>
        rw [awaitDiags, hj] at hd
        exact absurd hd List.not_mem_nil
    | some other =>
        obtain ⟨-, l, hl, rfl⟩ := (mem_awaitDiags hj).mp hd
        obtain rfl : j = i := Program.bodyPath_inj (Option.some.inj hpath)
        exact ⟨hlocks, is, hreach, l, hl⟩
  · rintro ⟨hlocks, is, hreach, l, hl⟩
    refine ⟨heldAcrossAwait m f fnPath i stmt l, ?_, rfl, rfl⟩
    exact mem_checkSyncLockAcrossAwait.mpr
      ⟨hk, hlocks, is, i, hreach, (mem_awaitDiags hi).mpr ⟨hawait, l, hl, rfl⟩⟩

theorem not_isIdent_fqn (a b : String) : isIdent (fqn a b) = false := by
  by_contra h
  refine not_colon_of_isIdent (Bool.eq_true_of_not_eq_false h) ?_
  rw [fqn, String.toList_append, String.toList_append]
  exact List.mem_append_left _ (List.mem_append_right _ List.mem_cons_self)

/-- No statement changes what the check takes to be held. -/
theorem NamesResolve.heldAfter (h : NamesResolve p m f) (hi : f.body[i]? = some stmt)
    (held : Finset String) : heldAfter p m (syncLockResources p) stmt.op held = held := by
  have hno : ∀ r, stmt.op.isLockAcquire = some r ∨ stmt.op.isLockRelease = some r →
      canonicalFrom p m.name r ∉ syncLockResources p := by
    intro r hr hmem
    obtain ⟨q, hq⟩ := Option.isSome_iff_exists.mp (h.stmt stmt (List.mem_of_getElem? hi) r hr)
    have hid := h.sync _ hmem
    rw [canonicalFrom, hq, Option.map_some, Option.getD_some, not_isIdent_fqn] at hid
    cases hid
  have htake : lockTaken p m (syncLockResources p) stmt.op = none := by
    refine Option.filter_eq_none_iff.mpr fun l hl ↦ ?_
    obtain ⟨r, hr, rfl⟩ := Option.map_eq_some_iff.mp hl
    simpa using hno r (.inl hr)
  have hgive : lockGiven p m (syncLockResources p) stmt.op = none := by
    refine Option.filter_eq_none_iff.mpr fun l hl ↦ ?_
    obtain ⟨r, hr, rfl⟩ := Option.map_eq_some_iff.mp hl
    simpa using hno r (.inr hr)
  rw [Validate.heldAfter, htake, hgive]

theorem NamesResolve.heldAlong (h : NamesResolve p m f) (entry : Finset String) (is : List ℕ) :
    heldAlong p m f (syncLockResources p) entry is = entry := by
  induction is using List.reverseRecOn with
  | nil => rfl
  | append_singleton is i ih =>
      cases hi : f.body[i]? with
      | none =>
          rw [Validate.heldAlong, List.foldl_append, List.foldl_cons, List.foldl_nil, hi]
          exact ih
      | some stmt => rw [heldAlong_concat hi, ih, h.heldAfter hi]

theorem NamesResolve.holdsTracked_iff (h : NamesResolve p m f) :
    HoldsTracked p m f i ↔ syncLockResources p ≠ [] ∧ f.locks.requiresHeld ≠ [] ∧
      ∃ is, (buildCfg f).Path is i := by
  have hentry : (entryHeld p m f).Nonempty ↔ f.locks.requiresHeld ≠ [] := by
    rw [entryHeld, List.toFinset_nonempty_iff, Ne, List.map_eq_nil_iff]
  simp only [HoldsTracked, HoldsAt, h.heldAlong, hentry]
  tauto

/-- The worklist ends. The check reports the awaits that are reached with a synchronous
lock held, and no others, exactly where those are the awaits reached with a tracked lock
held; where names resolve these are the reachable awaits of a function that requires a
lock, in a program with a synchronous lock. -/
theorem awaits_exact (hk : f.kind = "async") (fnPath : String) :
    (awaitWalk p m f (buildCfg f) (syncLockResources p) (entryHeld p m f) fnPath).stack = [] ∧
      (AtAwaits f (ReportsAt (awaits p m f fnPath) "E504" fnPath) (HoldsSync p m f) ↔
        AtAwaits f (HoldsTracked p m f) (HoldsSync p m f)) ∧
      (NamesResolve p m f → ∀ i, HoldsTracked p m f i ↔
        syncLockResources p ≠ [] ∧ f.locks.requiresHeld ≠ [] ∧
          ∃ is, (buildCfg f).Path is i) := by
  refine ⟨stack_walk _, ?_, fun h i ↦ h.holdsTracked_iff⟩
  constructor
  · intro h i stmt hi hawait
    exact (reportsAt_awaits hk hi hawait).symm.trans (h i stmt hi hawait)
  · intro h i stmt hi hawait
    exact (reportsAt_awaits hk hi hawait).trans (h i stmt hi hawait)

end Exact

section Nap

/-- An async function that awaits a task while it holds a synchronous mutex. -/
def napMain : Function where
  name := "main"
  kind := "async"
  form := "function"
  params := []
  returns := none
  locals := []
  body :=
    [⟨"s0", .asyncCall "work" [] "h"⟩, ⟨"s1", .mutexLock "a"⟩, ⟨"s2", .await "h"⟩,
      ⟨"s3", .mutexUnlock "a"⟩, ⟨"s4", .ret none⟩]
  effects := none
  mayBlock := none
  locks := ⟨[], [], []⟩
  bound := none

def napModule : Module where
  name := "m"
  provides := ⟨[], [], []⟩
  requires := ⟨[], [], []⟩
  types := []
  resources := [⟨"a", "sync", "Mutex", some "Sync", none, none, none, none⟩]
  protection := []
  functions :=
    [napMain, { napMain with name := "work", body := [⟨"s0", .ret none⟩] }]

def nap : Program := ⟨"nap", "1", [napModule], "m::main"⟩

/-- The check has nothing to say about it. -/
theorem not_awaits_nap :
    ¬ AtAwaits napMain
      (ReportsAt (awaits nap napModule napMain "modules[0].functions[0]") "E504"
        "modules[0].functions[0]") (HoldsSync nap napModule napMain) := by
  have hnone : awaits nap napModule napMain "modules[0].functions[0]" = [] := by decide +kernel
  have hheld : (heldAlong nap napModule napMain (declaredSync nap)
      (entryHeld nap napModule napMain ∩ (declaredSync nap).toFinset) [0, 1]).Nonempty := by
    decide +kernel
  have hpath : (buildCfg napMain).Path [0, 1] 2 := by
    have h1 : (buildCfg napMain).Path [0] 1 := .step .entry (by decide +kernel)
    exact h1.step (by decide +kernel)
  intro h
  obtain ⟨d, hd, -⟩ := (h 2 _ rfl rfl).mpr ⟨[0, 1], hpath, hheld⟩
  rw [hnone] at hd
  exact absurd hd List.not_mem_nil

theorem awaits_exact_nap :
    (AtAwaits napMain
        (ReportsAt (awaits nap napModule napMain "modules[0].functions[0]") "E504"
          "modules[0].functions[0]") (HoldsSync nap napModule napMain) ↔
      AtAwaits napMain (HoldsTracked nap napModule napMain) (HoldsSync nap napModule napMain)) ∧
      (HoldsTracked nap napModule napMain 2 ↔
        syncLockResources nap ≠ [] ∧ napMain.locks.requiresHeld ≠ [] ∧
          ∃ is, (buildCfg napMain).Path is 2) := by
  have h := awaits_exact (p := nap) (m := napModule) (f := napMain) rfl "modules[0].functions[0]"
  refine ⟨h.2.1, h.2.2 ⟨by decide +kernel, ?_⟩ 2⟩
  have hall : napMain.body.all fun s ↦ (s.op.isLockAcquire.toList ++ s.op.isLockRelease.toList).all
      fun r ↦ (nap.lookupResource napModule.name r).isSome := by decide +kernel
  intro s hs r hr
  refine List.all_eq_true.mp (List.all_eq_true.mp hall s hs) r ?_
  rcases hr with hr | hr
  · exact List.mem_append_left _ (Option.mem_toList.mpr hr)
  · exact List.mem_append_right _ (Option.mem_toList.mpr hr)

end Nap

end ConcIR.Validate
