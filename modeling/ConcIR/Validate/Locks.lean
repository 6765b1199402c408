import ConcIR.Trace.Worklist
import ConcIR.Validate.Cfg
import ConcIR.Validate.Walk

/-!
# Lock checks

The pairing of locks and unlocks along the paths of a function body, and the order in
which locks are taken. Locks are compared by their qualified names; a function starts with
the locks that it requires to be held.
-/

namespace ConcIR.Validate

open Ast

/-- The kind of type of a resource. -/
inductive ResType
  | var
  | atomic
  | mutex
  | rwLock
  | condvar
  | semaphore
  | channel
deriving DecidableEq

def ResType.isLock : ResType → Bool
  | .mutex | .rwLock => true
  | _ => false

section Resources

def resTypeOf (r : Resource) : Option ResType :=
  match r.kind, r.resType with
  | "var", "Var" => r.base.map fun _ ↦ .var
  | "var", "Atomic" => r.base.map fun _ ↦ .atomic
  | "sync", "Mutex" => some .mutex
  | "sync", "RwLock" => some .rwLock
  | "sync", "Condvar" => some .condvar
  | "sync", "Semaphore" => some .semaphore
  | "sync", "Channel" => r.base.map fun _ ↦ .channel
  | _, _ => none

variable (p : Program)

/-- The entries of the resource type map in the order they are inserted. -/
def resourceTypeEntries : List (String × ResType) :=
  p.modules.flatMap fun m ↦ m.resources.flatMap fun r ↦
    match resTypeOf r with
    | none => []
    | some t => [(r.name, t), (fqn m.name r.name, t)]

/-- The map keeps the last entry of a name. -/
def resourceType (key : String) : Option ResType :=
  ((resourceTypeEntries p).reverse.find? (·.1 = key)).map (·.2)

def canonicalResource (name : String) : Option String :=
  (p.lookupResource "" name).map fun q ↦ fqn q.1.name q.2.name

def canonicalFrom (module name : String) : String :=
  ((p.lookupResource module name).map fun q ↦ fqn q.1.name q.2.name).getD name

/-- The qualified names of the locks. -/
def lockResources : List String :=
  (((resourceTypeEntries p).map (·.1)).dedup.filter fun k ↦
    (resourceType p k).any ResType.isLock).filterMap (canonicalResource p)

/-- The locks a function is entered with. -/
def entryHeld (m : Module) (f : Function) : Finset String :=
  (f.locks.requiresHeld.map fun name ↦
    (canonicalResource p (qualify m.name name)).getD name).toFinset

end Resources

section Statements

variable (p : Program) (m : Module) (locks : List String) (op : Op)

/-- The lock a statement takes. -/
def lockTaken : Option String :=
  (op.isLockAcquire.map (canonicalFrom p m.name)).filter (· ∈ locks)

/-- The lock a statement gives back. -/
def lockGiven : Option String :=
  (op.isLockRelease.map (canonicalFrom p m.name)).filter (· ∈ locks)

def heldAfter (held : Finset String) : Finset String :=
  match lockTaken p m locks op with
  | some l => insert l held
  | none =>
      match lockGiven p m locks op with
      | some l => held.erase l
      | none => held

/-- A lock that is held already is not taken again. -/
def orderAfter (order : List String) (held : Finset String) : List String :=
  match lockTaken p m locks op with
  | some l => if l ∈ held then order else order ++ [l]
  | none => order

end Statements

section Pairing

variable (p : Program) (m : Module) (f : Function) (g : Cfg) (locks : List String)
  (entry : Finset String) (fnPath : String)

def reportAt (d : Diagnostic) (idx : ℕ) (stmt : Stmt) (hint : String) : Diagnostic :=
  ((d.withPath (Program.bodyPath fnPath idx)).withLocation
    (Program.stmtLocation m f stmt)).withFix hint

def doubleLock (idx : ℕ) (stmt : Stmt) (resource : String) : Diagnostic :=
  reportAt m f fnPath (.error "E503" ("double lock on '" ++ resource ++ "' in function '" ++ f.name ++
    "' without prior unlock")) idx stmt "unlock before re-locking"

def unlockWithoutLock (idx : ℕ) (stmt : Stmt) (resource : String) : Diagnostic :=
  reportAt m f fnPath (.error "E502" ("unlock without lock for '" ++ resource ++ "' in function '" ++
    f.name ++ "'")) idx stmt "lock before unlock, or remove the unlock"

def notUnlocked (idx : ℕ) (stmt : Stmt) (lock : String) : Diagnostic :=
  reportAt m f fnPath (.error "E501" ("lock '" ++ lock ++ "' not unlocked on return path in function '" ++
    f.name ++ "'")) idx stmt "add mutex_unlock/rwlock_unlock before return, or release the lock"

/-- What the check says about the statement `idx` reached with the locks `held`. -/
def pairingDiags (s : ℕ × Finset String) : List Diagnostic :=
  match f.body[s.1]? with
  | none => []
  | some stmt =>
      (match stmt.op.isLockAcquire with
        | some resource =>
            if (lockTaken p m locks stmt.op).any (· ∈ s.2) then
              [doubleLock m f fnPath s.1 stmt resource]
            else []
        | none =>
            match stmt.op.isLockRelease with
            | some resource =>
                if (lockGiven p m locks stmt.op).any (· ∉ s.2) then
                  [unlockWithoutLock m f fnPath s.1 stmt resource]
                else []
            | none => []) ++
      if stmt.isReturn then
        ((heldAfter p m locks stmt.op s.2 \ entry).sort (· ≤ ·)).map
          (notUnlocked m f fnPath s.1 stmt)
      else []

def pairingNext (s : ℕ × Finset String) : List (ℕ × Finset String) :=
  match f.body[s.1]? with
  | none => []
  | some stmt => (g.next s.1).map fun j ↦ (j, heldAfter p m locks stmt.op s.2)

/-- The locks that can be held at all. -/
def lockUniverse : Finset String :=
  entry ∪ (f.body.filterMap fun s ↦ lockTaken p m locks s.op).toFinset

/-- Enough rounds for the worklist, which has no bound of its own, to run empty. -/
def pairingRounds : ℕ :=
  1 + 2 ^ (lockUniverse p m f locks entry).card * ∑ i ∈ Finset.range f.body.length, (g.next i).length

def pairingWalk : Walk (ℕ × Finset String) Diagnostic :=
  Walk.run (pairingNext p m f g locks) (pairingDiags p m f locks entry fnPath)
    (pairingRounds p m f g locks entry) (.start (0, entry))

def checkLockDropPairing : List Diagnostic :=
  if f.body.length = 0 then [] else (pairingWalk p m f g locks entry fnPath).out

/-- The locks of a set in the order of their names. -/
def inOrder (held : Finset String) : List String := held.sort (· ≤ ·)

@[simp]
theorem mem_inOrder {held : Finset String} {l : String} : l ∈ inOrder held ↔ l ∈ held :=
  Finset.mem_sort _

end Pairing

section Ordering

/-- Two locks stand in `a` in one order and first in `b` in the other. -/
def hasOrderConflict (a b : List String) : Bool :=
  (List.range a.length).any fun i ↦ (List.range' (i + 1) (a.length - (i + 1))).any fun j ↦
    match a[i]?, a[j]? with
    | some l₁, some l₂ =>
        match b.idxOf? l₁, b.idxOf? l₂ with
        | some p₁, some p₂ => decide (p₂ < p₁)
        | _, _ => false
    | _, _ => false

/-- The pairs of an earlier and a later element. -/
def pairsOf {α : Type} : List α → List (α × α)
  | [] => []
  | a :: as => as.map (fun b ↦ (a, b)) ++ pairsOf as

variable (p : Program) (m : Module) (f : Function) (g : Cfg) (locks : List String)
  (entry : Finset String) (fnPath : String)

/-- A statement, the locks taken so far in order, and the locks held. -/
abbrev OrderState := ℕ × List String × Finset String

def orderNext (s : OrderState) : List OrderState :=
  match f.body[s.1]? with
  | none => []
  | some stmt =>
      if stmt.isReturn then []
      else (g.next s.1).map fun j ↦
        (j, orderAfter p m locks stmt.op s.2.1 s.2.2, heldAfter p m locks stmt.op s.2.2)

/-- The order is recorded where a path ends. -/
def orderRecorded (s : OrderState) : Option (List String) :=
  match f.body[s.1]? with
  | none => none
  | some stmt =>
      let order := orderAfter p m locks stmt.op s.2.1 s.2.2
      if (stmt.isReturn || (g.next s.1).isEmpty) && decide (2 ≤ order.length) then some order
      else none

def orderStart : OrderState := (0, entry.sort (· ≤ ·), entry)

/-- The exploration stops after a hundred rounds for each statement. -/
def allOrders : List (List String) :=
  (Walk.run (orderNext p m f g locks) (fun s ↦ (orderRecorded p m f g locks s).toList)
    (f.body.length * 100) (.start (orderStart entry))).out

def orderViolation (ab : List String × List String) : Diagnostic :=
  (((Diagnostic.error "E505" ("lock order violation in function '" ++ f.name ++
    "': path acquires [" ++ ", ".intercalate ab.1 ++ "] but another acquires [" ++
      ", ".intercalate ab.2 ++ "]")).withPath fnPath).withLocation
        (Program.fnLocation m f)).withFix
          "use a consistent lock acquisition order across all paths"

/-- Each conflict is reported once for the two sets of locks. -/
def checkLockOrdering : List Diagnostic :=
  if f.body.length = 0 then []
  else
    (Worklist.firsts (fun ab : List String × List String ↦ (ab.1.toFinset, ab.2.toFinset))
      ((pairsOf (allOrders p m f g locks entry)).filter fun ab ↦
        hasOrderConflict ab.1 ab.2)).map (orderViolation m f fnPath)

end Ordering

end ConcIR.Validate
