import ConcIR.Sem.Lower
import ConcIR.Validate.Awaits
import ConcIR.Validate.Names
import ConcIR.Validate.Ordering

/-!
# Statements that need a lock

Three checks walk the paths of a body with the locks held along them: accesses of a protected
Var, calls of functions that require locks, and waits on a condition variable. They keep all
locks that the statements name, and report a statement once for each name that it needs a lock
for. What they report is what some path does. The locks that a function requires are among its
declared effects, which have a check of their own.
-/

namespace ConcIR

namespace Expr

mutual

/-- Names of Vars and Atomics that an expression reads. -/
def collectNames (env : NameEnv) : Expr → List String
  | .lit _ => []
  | .name n =>
      match env.get n with
      | some slot => if slot.kind = .var ∨ slot.kind = .atomic then [n] else []
      | none => []
  | .field base _ => collectNames env base
  | .unaryNeg e => collectNames env e
  | .binOp _ lhs rhs => collectNames env lhs ++ collectNames env rhs
  | .cmp _ lhs rhs => collectNames env lhs ++ collectNames env rhs
  | .struct fields => collectFields env fields

def collectFields (env : NameEnv) : List (String × Expr) → List String
  | [] => []
  | (_, e) :: rest => collectNames env e ++ collectFields env rest

end

def valueResourceNames (e : Expr) (env : NameEnv) : List String := collectNames env e

end Expr

namespace Ast.Op

/-- The Var that a statement reads or writes by name. -/
def sharedVarAccess : Op → Option String
  | .readShared r _ | .writeShared r _ => some r
  | _ => none

/-- The expressions that a statement evaluates. -/
def rvalueExprs : Op → List String
  | .assignLocal _ e | .writeShared _ e => [e]
  | .atomicStore _ e | .channelSend _ e => [e]
  | .atomicCas _ expected desired _ => [expected, desired]
  | .func _ args _ | .spawn _ args _ | .asyncCall _ args _ => args
  | .ret (some e) => [e]
  | .branch cond _ _ => [cond]
  | _ => []

end Ast.Op

namespace Validate

open Ast

section Accesses

/-- A destination that is not discarded. -/
def wr (dst : String) : List String := if dst = "_" then [] else [dst]

/-- The destinations that a statement writes. -/
def dstWrites : Op → List String
  | .atomicLoad _ dst | .atomicCas _ _ _ dst | .channelRecv _ dst => wr dst
  | .readShared _ (some dst) => wr dst
  | .func _ _ (some dst) => wr dst
  | .select branches _ => (branches.filterMap fun b ↦
      match b.guard with
      | .channelRecv _ dst => some dst
      | _ => none).filter (· ≠ "_")
  | _ => []

/-- The Vars and Atomics that a statement reads, and the slots it writes. -/
def protectedVarAccesses (op : Op) (env : NameEnv) : List String :=
  op.sharedVarAccess.toList ++
    (match op with
      | .seqHole _ _ reads writes => reads ++ writes
      | _ => []) ++
    (match op with
      | .switch var _ _ => if (env.get var).any (·.kind = .var) then [var] else []
      | _ => []) ++
    (op.rvalueExprs.flatMap fun text ↦
      match Expr.parseText env text with
      | .ok e => e.valueResourceNames env
      | .error _ => []) ++
    dstWrites op

end Accesses

section Protection

variable (p : Program)

def protectionEntry (m : Module) (x : Protection) : Option (String × String) := do
  let var ← (p.lookupResource m.name x.var).map fun q ↦ fqn q.1.name q.2.name
  let lock ← (p.lookupResource m.name x.lock).map fun q ↦ fqn q.1.name q.2.name
  some (var, lock)

/-- The protected Vars with their locks, under qualified names, as they are collected. -/
def protectionEntries : List (String × String) :=
  p.modules.flatMap fun m ↦ m.protection.filterMap (protectionEntry p m)

/-- The map keeps the last lock of a Var. -/
def protectionMap (var : String) : Option String := Lower.lastValue (protectionEntries p) var

end Protection

section Walks

/-- A lock that a statement needs, the name that reports of it are counted by, and the
report. -/
structure Need where
  key : String
  lock : String
  report : Diagnostic

variable (p : Program) (m : Module) (f : Function) (g : Cfg) (needs : ℕ → Stmt → List Need)
  (entry : Finset String) (fnPath : String)

/-- The locks held behind a statement. -/
def heldBehind (op : Op) (held : Finset String) : Finset String :=
  match op.isLockAcquire with
  | some r => insert (canonicalFrom p m.name r) held
  | none =>
      match op.isLockRelease with
      | some r => held.erase (canonicalFrom p m.name r)
      | none => held

/-- What the statement needs and lacks. -/
def lacking (s : ℕ × Finset String) : List (ℕ × Need) :=
  match f.body[s.1]? with
  | none => []
  | some stmt => ((needs s.1 stmt).filter (·.lock ∉ s.2)).map fun need ↦ (s.1, need)

def heldNext (s : ℕ × Finset String) : List (ℕ × Finset String) :=
  match f.body[s.1]? with
  | none => []
  | some stmt => (g.next s.1).map fun j ↦ (j, heldBehind p m stmt.op s.2)

/-- All locks that the statements name. -/
def operands : List String :=
  f.body.filterMap fun s ↦
    (s.op.isLockAcquire.or s.op.isLockRelease).map (canonicalFrom p m.name)

def heldWalk : Walk (ℕ × Finset String) (ℕ × Need) :=
  Walk.run (heldNext p m f g) (lacking f needs) (pairingRounds p m f g (operands p m f) entry)
    (.start (0, entry))

/-- A statement is reported once for each key. -/
def checkHeld : List Diagnostic :=
  if f.body.length = 0 then []
  else (Worklist.firsts (fun x : ℕ × Need ↦ (x.1, x.2.key))
    (heldWalk p m f g needs entry).out).map (·.2.report)

end Walks

section Checks

variable (p : Program) (m : Module) (f : Function) (g : Cfg) (entry : Finset String)
  (fnPath : String)

def varWithoutLock (idx : ℕ) (stmt : Stmt) (resource lock : String) : Diagnostic :=
  reportAt m f fnPath (.error "E309" ("access to protected Var '" ++ resource ++
    "' without holding lock '" ++ lock ++ "' in function '" ++ f.name ++ "'")) idx stmt
      "acquire the lock before accessing this variable"

def accessNeeds (idx : ℕ) (stmt : Stmt) : List Need :=
  (protectedVarAccesses stmt.op (NameEnv.build p m f)).filterMap fun resource ↦
    let var := canonicalFrom p m.name resource
    (protectionMap p var).map fun lock ↦
      ⟨var, lock, varWithoutLock m f fnPath idx stmt resource lock⟩

def checkVarAccessWithoutLock : List Diagnostic :=
  checkHeld p m f g (accessNeeds p m f fnPath) entry

def callWithoutLock (idx : ℕ) (stmt : Stmt) (callee : Function) (required : String) : Diagnostic :=
  reportAt m f fnPath (.error "E803" ("call to '" ++ callee.name ++ "' requires lock '" ++ required ++
    "' held, but it is not held in function '" ++ f.name ++ "'")) idx stmt
      "acquire the lock before this call, or drop requires_held on the callee"

def callNeeds (idx : ℕ) (stmt : Stmt) : List Need :=
  match stmt.op with
  | .func func _ _ =>
      match p.lookupFunction m.name func with
      | some (owner, callee) => callee.locks.requiresHeld.map fun required ↦
          ⟨required, fqn owner.name required, callWithoutLock m f fnPath idx stmt callee required⟩
      | none => []
  | _ => []

def checkRequiresHeld : List Diagnostic := checkHeld p m f g (callNeeds p m f fnPath) entry

def waitWithoutLock (idx : ℕ) (stmt : Stmt) (lock : String) : Diagnostic :=
  reportAt m f fnPath (.error "E512" ("condvar_wait in function '" ++ f.name ++ "' requires lock '" ++
    lock ++ "' to be held")) idx stmt "acquire the paired lock before waiting on the condvar"

def waitNeeds (idx : ℕ) (stmt : Stmt) : List Need :=
  match stmt.op with
  | .condvarWait _ lock =>
      [⟨lock, canonicalFrom p m.name lock, waitWithoutLock m f fnPath idx stmt lock⟩]
  | _ => []

def checkCondvarOwnership : List Diagnostic := checkHeld p m f g (waitNeeds p m f fnPath) entry

/-- The lock checks of one function. -/
def checkLocksFn : List Diagnostic :=
  if f.body.isEmpty then []
  else
    pairing p m f fnPath ++ awaits p m f fnPath ++ ordering p m f fnPath ++
      checkVarAccessWithoutLock p m f (buildCfg f) (entryHeld p m f) fnPath ++
      checkRequiresHeld p m f (buildCfg f) (entryHeld p m f) fnPath ++
      checkCondvarOwnership p m f (buildCfg f) (entryHeld p m f) fnPath

/-- The lock checks of a program. -/
def checkLocks : List Diagnostic := perFunction p (checkLocksFn p)

end Checks

section Effects

variable (p : Program) (m : Module) (f : Function) (fnPath : String)

def lockEffect (field : String) (i : ℕ) (message hint : String) : Diagnostic :=
  (((Diagnostic.error "E801" message).withPath (fnPath ++ ".locks." ++ field ++ "[" ++ toString i ++
    "]")).withLocation (Program.fnLocation m f)).withFix hint

/-- One field of the lock effects: names are given once and are those of locks. -/
def lockEffectDiags (field : String) (names : List String) : List Diagnostic :=
  names.zipIdx.flatMap fun (name, i) ↦
    (if name ∈ names.take i then
      [lockEffect m f fnPath field i ("duplicate lock '" ++ name ++ "' in " ++ field ++
        " of function '" ++ f.name ++ "'") "list each lock at most once in this field"]
    else []) ++
    match p.lookupResource m.name name with
    | none => [lockEffect m f fnPath field i ("lock '" ++ name ++ "' in " ++ field ++
        " of function '" ++ f.name ++ "' is not a declared resource")
          "name a Mutex or RwLock visible in this module"]
    | some _ =>
        if ((resourceType p name).or (resourceType p (qualify m.name name))).all (·.isLock) then []
        else [lockEffect m f fnPath field i ("lock '" ++ name ++ "' in " ++ field ++
          " of function '" ++ f.name ++ "' is not a Mutex or RwLock") "use a Mutex or RwLock name"]

def checkLockEffectNames : List Diagnostic :=
  lockEffectDiags p m f fnPath "acquires" f.locks.acquires ++
    lockEffectDiags p m f fnPath "releases" f.locks.releases ++
    lockEffectDiags p m f fnPath "requires_held" f.locks.requiresHeld

variable {p m f fnPath}

/-- The locks that a function requires are declared. -/
theorem required_declared (h : checkLockEffectNames p m f fnPath = []) {name : String}
    (hname : name ∈ f.locks.requiresHeld) : (p.lookupResource m.name name).isSome = true := by
  obtain ⟨i, hi⟩ := List.getElem?_of_mem hname
  obtain ⟨-, hheld⟩ := List.append_eq_nil_iff.mp h
  have hnone := List.flatMap_eq_nil_iff.mp hheld (name, i) (List.mem_zipIdx_iff_getElem?.mpr hi)
  obtain ⟨-, hnone⟩ := List.append_eq_nil_iff.mp hnone
  cases hr : p.lookupResource m.name name with
  | none =>
      rw [hr] at hnone
      cases hnone
  | some q => rfl

end Effects

section Paths

variable {p : Program} {m : Module} {f : Function} {needs : ℕ → Stmt → List Need}
  {entry held : Finset String} {fnPath : String} {i j : ℕ} {is : List ℕ} {stmt : Stmt}

/-- The locks held after the statements of a path, whatever they are. -/
def holding (p : Program) (m : Module) (f : Function) (entry : Finset String) (is : List ℕ) :
    Finset String :=
  is.foldl (fun held i ↦ match f.body[i]? with
    | none => held
    | some stmt => heldBehind p m stmt.op held) entry

theorem holding_concat (hi : f.body[i]? = some stmt) :
    holding p m f entry (is ++ [i]) = heldBehind p m stmt.op (holding p m f entry is) := by
  rw [holding, List.foldl_append, List.foldl_cons, List.foldl_nil, hi]
  rfl

theorem mem_operands (hstmt : stmt ∈ f.body) {r : String}
    (hr : stmt.op.isLockAcquire.or stmt.op.isLockRelease = some r) :
    canonicalFrom p m.name r ∈ operands p m f :=
  List.mem_filterMap.mpr ⟨stmt, hstmt, by rw [hr]; rfl⟩

/-- Among the locks that the body names, all locks are tracked. -/
theorem heldAfter_operands (hstmt : stmt ∈ f.body) (held : Finset String) :
    heldAfter p m (operands p m f) stmt.op held = heldBehind p m stmt.op held := by
  rw [heldAfter, heldBehind, lockTaken, lockGiven]
  cases hacq : stmt.op.isLockAcquire with
  | some r =>
      have hmem := mem_operands (p := p) (m := m) hstmt (by rw [hacq]; rfl : _ = some r)
      simp only [Option.map_some, Option.filter_some, hmem, decide_true, if_true]
  | none =>
      cases hrel : stmt.op.isLockRelease with
      | some r =>
          have hmem := mem_operands (p := p) (m := m) hstmt (by rw [hacq, hrel]; rfl : _ = some r)
          simp only [Option.map_none, Option.filter_none, Option.map_some, Option.filter_some, hmem,
            decide_true, if_true]
      | none => rfl

theorem holding_eq (is : List ℕ) :
    holding p m f entry is = heldAlong p m f (operands p m f) entry is := by
  rw [holding, heldAlong]
  generalize entry = held
  induction is generalizing held with
  | nil => rfl
  | cons i is ih =>
      rw [List.foldl_cons, List.foldl_cons, ih]
      cases hi : f.body[i]? with
      | none => rfl
      | some stmt => simp only [heldAfter_operands (List.mem_of_getElem? hi)]

theorem heldNext_eq :
    heldNext p m f (buildCfg f) = pairingNext p m f (buildCfg f) (operands p m f) := by
  funext s
  rw [heldNext, pairingNext]
  cases hi : f.body[s.1]? with
  | none => rfl
  | some stmt => simp only [heldAfter_operands (List.mem_of_getElem? hi)]

/-- The walk comes to its end, and it meets each statement with the locks of its paths. -/
theorem mem_heldWalk {x : ℕ × Need} :
    x ∈ (heldWalk p m f (buildCfg f) needs entry).out ↔
      ∃ is stmt, (buildCfg f).Path is x.1 ∧ f.body[x.1]? = some stmt ∧ x.2 ∈ needs x.1 stmt ∧
        x.2.lock ∉ holding p m f entry is := by
  obtain ⟨i, need⟩ := x
  have hinv : Walk.Inv (heldNext p m f (buildCfg f)) (lacking f needs) (0, entry)
      (heldWalk p m f (buildCfg f) needs entry) := (Walk.inv_start _ _ _).run _
  have hstack : (heldWalk p m f (buildCfg f) needs entry).stack = [] := by
    rw [heldWalk, heldNext_eq]
    exact stack_walk _
  rw [hinv.mem_out hstack]
  constructor
  · rintro ⟨⟨j, held⟩, hreach, hmem⟩
    rw [heldNext_eq] at hreach
    obtain ⟨is, hpath, rfl⟩ := reach_iff.mp hreach
    rw [lacking] at hmem
    cases hj : f.body[j]? with
    | none =>
        rw [hj] at hmem
        cases hmem
    | some stmt =>
        rw [hj] at hmem
        obtain ⟨need', hneed, heq⟩ := List.mem_map.mp hmem
        obtain ⟨rfl, rfl⟩ := Prod.mk.inj heq
        obtain ⟨hneed, hlock⟩ := List.mem_filter.mp hneed
        exact ⟨is, stmt, hpath, hj, hneed, by rw [holding_eq]; simpa using hlock⟩
  · rintro ⟨is, stmt, hpath, hi, hneed, hlock⟩
    refine ⟨(i, heldAlong p m f (operands p m f) entry is), ?_, ?_⟩
    · rw [heldNext_eq]
      exact reach_iff.mpr ⟨is, hpath, rfl⟩
    · rw [lacking, hi]
      refine List.mem_map.mpr ⟨need, List.mem_filter.mpr ⟨hneed, ?_⟩, rfl⟩
      rw [← holding_eq]
      simpa using hlock

/-- Some path reaches the statement without a lock that it needs. -/
def Lacks (p : Program) (m : Module) (f : Function) (needs : ℕ → Stmt → List Need)
    (entry : Finset String) (i : ℕ) (stmt : Stmt) (need : Need) : Prop :=
  ∃ is, (buildCfg f).Path is i ∧ f.body[i]? = some stmt ∧ need ∈ needs i stmt ∧
    need.lock ∉ holding p m f entry is

/-- Each report is of a lock that some path lacks. -/
theorem of_mem_checkHeld {d : Diagnostic} (h : d ∈ checkHeld p m f (buildCfg f) needs entry) :
    ∃ i stmt need, Lacks p m f needs entry i stmt need ∧ d = need.report := by
  rw [checkHeld] at h
  split_ifs at h with hbody
  · cases h
  · obtain ⟨⟨i, need⟩, hx, rfl⟩ := List.mem_map.mp h
    obtain ⟨is, stmt, hpath, hi, hneed, hlock⟩ := mem_heldWalk.mp (Worklist.firsts_subset _ hx)
    exact ⟨i, stmt, need, ⟨is, hpath, hi, hneed, hlock⟩, rfl⟩

/-- A lock that some path lacks is reported, under the name it is counted by. -/
theorem Lacks.report {need : Need} (h : Lacks p m f needs entry i stmt need) :
    ∃ need', Lacks p m f needs entry i stmt need' ∧ need'.key = need.key ∧
      need'.report ∈ checkHeld p m f (buildCfg f) needs entry := by
  obtain ⟨is, hpath, hi, hneed, hlock⟩ := h
  have hbody : f.body.length ≠ 0 := fun hzero ↦ by
    rw [List.getElem?_eq_none (by omega)] at hi
    cases hi
  have hout : (i, need) ∈ (heldWalk p m f (buildCfg f) needs entry).out :=
    mem_heldWalk.mpr ⟨is, stmt, hpath, hi, hneed, hlock⟩
  obtain ⟨⟨j, need'⟩, hfirst, hkey⟩ : ∃ x ∈ Worklist.firsts (fun x : ℕ × Need ↦ (x.1, x.2.key))
      (heldWalk p m f (buildCfg f) needs entry).out, (x.1, x.2.key) = (i, need.key) :=
    Worklist.exists_mem_firsts hout
  obtain ⟨rfl, hname⟩ := Prod.mk.inj hkey
  obtain ⟨js, stmt', hpath', hi', hneed', hlock'⟩ := mem_heldWalk.mp (Worklist.firsts_subset _ hfirst)
  obtain rfl := Option.some.inj (hi.symm.trans hi')
  refine ⟨need', ⟨js, hpath', hi', hneed', hlock'⟩, hname, ?_⟩
  rw [checkHeld, if_neg hbody]
  exact List.mem_map.mpr ⟨_, hfirst, rfl⟩

theorem checkHeld_eq_nil :
    checkHeld p m f (buildCfg f) needs entry = [] ↔
      ∀ i stmt need, ¬Lacks p m f needs entry i stmt need := by
  constructor
  · intro h i stmt need hlacks
    obtain ⟨need', -, -, hmem⟩ := hlacks.report
    rw [h] at hmem
    cases hmem
  · intro h
    refine List.eq_nil_iff_forall_not_mem.mpr fun d hd ↦ ?_
    obtain ⟨i, stmt, need, hlacks, -⟩ := of_mem_checkHeld hd
    exact h i stmt need hlacks

/-- A statement is reported exactly if some path reaches it without a lock that it needs. -/
theorem reportsAt_checkHeld {code : String} (hneeds : ∀ i stmt, ∀ need ∈ needs i stmt,
      need.report.code = code ∧ need.report.path = some (Program.bodyPath fnPath i)) :
    ReportsAt (checkHeld p m f (buildCfg f) needs entry) code fnPath i ↔
      ∃ stmt need, Lacks p m f needs entry i stmt need := by
  constructor
  · rintro ⟨d, hd, -, hpath⟩
    obtain ⟨j, stmt, need, hlacks, rfl⟩ := of_mem_checkHeld hd
    obtain ⟨-, -, -, hmem, -⟩ := id hlacks
    have hj := (hneeds j stmt need hmem).2
    obtain rfl := Program.bodyPath_inj (Option.some.inj (hj.symm.trans hpath))
    exact ⟨stmt, need, hlacks⟩
  · rintro ⟨stmt, need, hlacks⟩
    obtain ⟨need', hlacks', -, hd⟩ := hlacks.report
    obtain ⟨-, -, -, hmem, -⟩ := hlacks'
    exact ⟨_, hd, hneeds i stmt need' hmem⟩

end Paths

section Exact

variable {p : Program} {m : Module} {f : Function} {entry : Finset String} {fnPath : String}
  {i : ℕ} {stmt : Stmt} {need : Need}

theorem mem_accessNeeds : need ∈ accessNeeds p m f fnPath i stmt ↔
    ∃ name ∈ protectedVarAccesses stmt.op (NameEnv.build p m f), ∃ lock,
      protectionMap p (canonicalFrom p m.name name) = some lock ∧
        need = ⟨canonicalFrom p m.name name, lock, varWithoutLock m f fnPath i stmt name lock⟩ := by
  rw [accessNeeds, List.mem_filterMap]
  refine exists_congr fun name ↦ and_congr_right fun _ ↦ ?_
  rw [Option.map_eq_some_iff]
  exact exists_congr fun lock ↦ and_congr_right fun _ ↦ eq_comm

theorem mem_callNeeds : need ∈ callNeeds p m f fnPath i stmt ↔
    ∃ func args dst owner callee, stmt.op = .func func args dst ∧
      p.lookupFunction m.name func = some (owner, callee) ∧
        ∃ required ∈ callee.locks.requiresHeld, need = ⟨required, fqn owner.name required,
          callWithoutLock m f fnPath i stmt callee required⟩ := by
  constructor
  · intro h
    rw [callNeeds] at h
    split at h
    · rename_i func args dst hop
      split at h
      · rename_i owner callee hcallee
        obtain ⟨required, hreq, rfl⟩ := List.mem_map.mp h
        exact ⟨func, args, dst, owner, callee, hop, hcallee, required, hreq, rfl⟩
      · cases h
    · cases h
  · rintro ⟨func, args, dst, owner, callee, hop, hcallee, required, hreq, rfl⟩
    rw [callNeeds, hop]
    simp only [hcallee]
    exact List.mem_map.mpr ⟨required, hreq, rfl⟩

theorem mem_waitNeeds : need ∈ waitNeeds p m f fnPath i stmt ↔
    ∃ condvar lock, stmt.op = .condvarWait condvar lock ∧
      need = ⟨lock, canonicalFrom p m.name lock, waitWithoutLock m f fnPath i stmt lock⟩ := by
  constructor
  · intro h
    rw [waitNeeds] at h
    split at h
    · rename_i condvar lock hop
      exact ⟨condvar, lock, hop, List.mem_singleton.mp h⟩
    · cases h
  · rintro ⟨condvar, lock, hop, rfl⟩
    rw [waitNeeds, hop]
    exact List.mem_singleton_self _

variable (p m f entry fnPath)

/-- Some path to the statement does not hold the lock. -/
def Unheld (i : ℕ) (lock : String) : Prop :=
  ∃ is, (buildCfg f).Path is i ∧ lock ∉ holding p m f entry is

theorem reportsAt_unheld {code : String} {needs : ℕ → Stmt → List Need}
    (hi : f.body[i]? = some stmt) (hneeds : ∀ i stmt, ∀ need ∈ needs i stmt,
      need.report.code = code ∧ need.report.path = some (Program.bodyPath fnPath i)) :
    ReportsAt (checkHeld p m f (buildCfg f) needs entry) code fnPath i ↔
      ∃ need ∈ needs i stmt, Unheld p m f entry i need.lock := by
  rw [reportsAt_checkHeld hneeds]
  constructor
  · rintro ⟨stmt', need, is, hpath, hi', hneed, hlock⟩
    obtain rfl := Option.some.inj (hi.symm.trans hi')
    exact ⟨need, hneed, is, hpath, hlock⟩
  · rintro ⟨need, hneed, is, hpath, hlock⟩
    exact ⟨stmt, need, is, hpath, hi, hneed, hlock⟩

/-- The three checks report a statement exactly if it accesses a protected Var, calls a function
or waits on a condition variable, and some path leads there without a lock for it. -/
theorem held_exact (hi : f.body[i]? = some stmt) :
    (ReportsAt (checkVarAccessWithoutLock p m f (buildCfg f) entry fnPath) "E309" fnPath i ↔
      ∃ name ∈ protectedVarAccesses stmt.op (NameEnv.build p m f), ∃ lock,
        protectionMap p (canonicalFrom p m.name name) = some lock ∧ Unheld p m f entry i lock) ∧
    (ReportsAt (checkRequiresHeld p m f (buildCfg f) entry fnPath) "E803" fnPath i ↔
      ∃ func args dst owner callee, stmt.op = .func func args dst ∧
        p.lookupFunction m.name func = some (owner, callee) ∧
          ∃ required ∈ callee.locks.requiresHeld,
            Unheld p m f entry i (fqn owner.name required)) ∧
    (ReportsAt (checkCondvarOwnership p m f (buildCfg f) entry fnPath) "E512" fnPath i ↔
      ∃ condvar lock, stmt.op = .condvarWait condvar lock ∧
        Unheld p m f entry i (canonicalFrom p m.name lock)) := by
  refine ⟨?_, ?_, ?_⟩
  · rw [checkVarAccessWithoutLock, reportsAt_unheld p m f entry fnPath hi]
    · constructor
      · rintro ⟨need, hneed, hlock⟩
        obtain ⟨name, hname, lock, hmap, rfl⟩ := mem_accessNeeds.mp hneed
        exact ⟨name, hname, lock, hmap, hlock⟩
      · rintro ⟨name, hname, lock, hmap, hlock⟩
        exact ⟨⟨_, lock, _⟩, mem_accessNeeds.mpr ⟨name, hname, lock, hmap, rfl⟩, hlock⟩
    · intro j s need hneed
      obtain ⟨name, -, lock, -, rfl⟩ := mem_accessNeeds.mp hneed
      exact ⟨rfl, rfl⟩
  · rw [checkRequiresHeld, reportsAt_unheld p m f entry fnPath hi]
    · constructor
      · rintro ⟨need, hneed, hlock⟩
        obtain ⟨func, args, dst, owner, callee, hop, hcallee, required, hreq, rfl⟩ :=
          mem_callNeeds.mp hneed
        exact ⟨func, args, dst, owner, callee, hop, hcallee, required, hreq, hlock⟩
      · rintro ⟨func, args, dst, owner, callee, hop, hcallee, required, hreq, hlock⟩
        exact ⟨⟨required, _, _⟩, mem_callNeeds.mpr
          ⟨func, args, dst, owner, callee, hop, hcallee, required, hreq, rfl⟩, hlock⟩
    · intro j s need hneed
      obtain ⟨func, args, dst, owner, callee, -, -, required, -, rfl⟩ := mem_callNeeds.mp hneed
      exact ⟨rfl, rfl⟩
  · rw [checkCondvarOwnership, reportsAt_unheld p m f entry fnPath hi]
    · constructor
      · rintro ⟨need, hneed, hlock⟩
        obtain ⟨condvar, lock, hop, rfl⟩ := mem_waitNeeds.mp hneed
        exact ⟨condvar, lock, hop, hlock⟩
      · rintro ⟨condvar, lock, hop, hlock⟩
        exact ⟨⟨lock, _, _⟩, mem_waitNeeds.mpr ⟨condvar, lock, hop, rfl⟩, hlock⟩
    · intro j s need hneed
      obtain ⟨condvar, lock, -, rfl⟩ := mem_waitNeeds.mp hneed
      exact ⟨rfl, rfl⟩

end Exact

section Exposed

/-- A function that takes and returns nothing. -/
def plain (name : String) (body : List Stmt) (required : List String) : Function where
  name := name
  kind := "normal"
  form := "function"
  params := []
  returns := none
  locals := []
  body := body
  effects := none
  mayBlock := none
  locks := ⟨[], [], required⟩
  bound := none

/-- A flag with its mutex. -/
def flagModule (functions : List Function) : Module where
  name := "core"
  provides := ⟨[], [], []⟩
  requires := ⟨[], [], []⟩
  types := []
  resources := [⟨"m", "sync", "Mutex", none, none, none, none, none⟩,
    ⟨"v", "var", "Var", none, none, some (.primitive "Bool"), some (.bool false), none⟩]
  protection := [⟨"v", "m"⟩]
  functions := functions

def exposedMain : Function := plain "main" [⟨"s1", .writeShared "v" "true"⟩, ⟨"s2", .ret none⟩] []

def exposed : Program := ⟨"exposed", "1", [flagModule [exposedMain]], "core::main"⟩

theorem held_exact_exposed : ReportsAt (checkVarAccessWithoutLock exposed (flagModule [exposedMain])
    exposedMain (buildCfg exposedMain) ∅ "f") "E309" "f" 0 :=
  (held_exact exposed (flagModule [exposedMain]) exposedMain ∅ "f"
    (rfl : exposedMain.body[0]? = some ⟨"s1", .writeShared "v" "true"⟩)).1.mpr
      ⟨"v", by decide, "core::m", by decide, [], .entry, by decide⟩

end Exposed

end Validate

end ConcIR
