import ConcIR.Repair.Toolchain

/-!
# Structured patches

A patch names its target function, the hash the function has before the patch, and the
changes. It is refused loudly when the target or a statement is unknown, when the hash
differs, and when two changes touch one statement.
-/

namespace ConcIR

namespace Repair

inductive PatchChange
  | swapStatements (a b : String)
  | deleteStatement (sid : String)
deriving DecidableEq

structure SourceRelation where
  description : String
deriving DecidableEq

structure CirPatch where
  id : String
  module : String
  function : String
  originalHash : String
  changes : List PatchChange
  provenance : List SourceRelation
deriving DecidableEq

inductive PatchError
  | unknownModule (m : String)
  | unknownFunction (f : String)
  | hashMismatch (expected actual : String)
  | unknownSid (s : String)
  | duplicateChange (c : String)
  | illegalChange (c : String)
deriving DecidableEq

def PatchError.display : PatchError → String
  | .unknownModule m => "unknown module '" ++ m ++ "'"
  | .unknownFunction f => "unknown function '" ++ f ++ "'"
  | .hashMismatch expected actual =>
      "hash mismatch: expected " ++ expected ++ ", found " ++ actual
  | .unknownSid s => "unknown statement sid '" ++ s ++ "'"
  | .duplicateChange c => "duplicate change: " ++ c
  | .illegalChange c => "illegal change: " ++ c

/-- The statements a change touches. -/
def PatchChange.touches : PatchChange → List String
  | .swapStatements a b => [a, b]
  | .deleteStatement sid => [sid]

section Functions

open Ast

def isControlTarget (f : Function) (sid : String) : Bool :=
  f.body.any fun s ↦
    match s.op with
    | .goto target => target = sid
    | .branch _ thenTarget elseTarget => thenTarget = sid || elseTarget = sid
    | .switch _ cases default => cases.any (·.2 = sid) || default = sid
    | .select branches default => branches.any (·.target = sid) || default = some sid
    | _ => false

def Op.isMutexLock : Op → Bool
  | .mutexLock _ => true
  | _ => false

/-- Exchange two adjacent lock acquisitions that no jump leads to. -/
def applySwap (f : Function) (a b : String) : Except PatchError Function :=
  match f.body.findIdx? (·.sid = a) with
  | none => .error (.unknownSid a)
  | some ia =>
      match f.body.findIdx? (·.sid = b) with
      | none => .error (.unknownSid b)
      | some ib =>
          if ia = ib then .error (.illegalChange "swap of a statement with itself")
          else
            match f.body[ia]?, f.body[ib]? with
            | some sa, some sb =>
                if !Op.isMutexLock sa.op || !Op.isMutexLock sb.op then
                  .error (.illegalChange "swap only applies to adjacent mutex_lock statements")
                else if ia + 1 ≠ ib ∧ ib + 1 ≠ ia then
                  .error (.illegalChange "swap only applies to adjacent statements")
                else if isControlTarget f a || isControlTarget f b then
                  .error (.illegalChange
                    "cannot swap a statement that is a control-flow target")
                else .ok { f with body := (f.body.set ia sb).set ib sa }
            | _, _ => .error (.unknownSid a)

/-- Remove a statement that neither jumps nor is jumped to. -/
def applyDelete (f : Function) (sid : String) : Except PatchError Function :=
  match f.body.findIdx? (·.sid = sid) with
  | none => .error (.unknownSid sid)
  | some idx =>
      if (f.body[idx]?.map Stmt.isControl).getD false then
        .error (.illegalChange "refusing to delete a control-transfer statement")
      else if isControlTarget f sid then
        .error (.illegalChange "cannot delete a statement that is a control-flow target")
      else .ok { f with body := f.body.eraseIdx idx }

def applyChange (f : Function) : PatchChange → Except PatchError Function
  | .swapStatements a b => applySwap f a b
  | .deleteStatement sid => applyDelete f sid

/-- Note the statements of one change; `none` is the first one touched twice. -/
def touch (touched : List String) : List String → Except String (List String)
  | [] => .ok touched
  | id :: ids => if id ∈ touched then .error id else touch (id :: touched) ids

end Functions

namespace Toolchain

variable (B : Toolchain)

def debugChange : PatchChange → String
  | .swapStatements a b => "SwapStatements \x7b a: " ++ B.debugString a ++ ", b: " ++
      B.debugString b ++ " \x7d"
  | .deleteStatement sid => "DeleteStatement \x7b sid: " ++ B.debugString sid ++ " \x7d"

def applyChanges (seen : List PatchChange) (touched : List String) (f : Ast.Function) :
    List PatchChange → Except PatchError Ast.Function
  | [] => .ok f
  | change :: changes =>
      if change ∈ seen then .error (.duplicateChange (B.debugChange change))
      else
        match touch touched change.touches with
        | .error id => .error (.duplicateChange
            ("statement '" ++ id ++ "' is modified by more than one change"))
        | .ok touched =>
            match applyChange f change with
            | .error e => .error e
            | .ok f => applyChanges (change :: seen) touched f changes

def findFunction (p : Ast.Program) (module function : String) :
    Except PatchError Ast.Function :=
  match p.lookupModule module with
  | none => .error (.unknownModule module)
  | some m =>
      match m.functions.find? (·.name = function) with
      | none => .error (.unknownFunction function)
      | some f => .ok f

/-- Hash of the serialised function. -/
def functionHash (p : Ast.Program) (module function : String) : Except PatchError String :=
  match findFunction p module function with
  | .error e => .error e
  | .ok f =>
      match B.functionJson f with
      | .error e => .error (.illegalChange e)
      | .ok json => .ok (fnv json)

/-- The first function with a name in the first module with a name. -/
def setFunction (p : Ast.Program) (module function : String) (f : Ast.Function) : Ast.Program :=
  match p.modules.findIdx? (·.name = module) with
  | none => p
  | some mi =>
      { p with
        modules := p.modules.modify mi fun m ↦
          match m.functions.findIdx? (·.name = function) with
          | none => m
          | some fi => { m with functions := m.functions.set fi f } }

def renderDiff (function : String) (changes : List PatchChange) : String :=
  joinWith "\n" <| changes.map fun
    | .swapStatements a b => "- " ++ function ++ ": swap " ++ a ++ " <-> " ++ b
    | .deleteStatement sid => "- " ++ function ++ ": delete " ++ sid

/-- The patched program and a textual diff. -/
def apply (p : Ast.Program) (patch : CirPatch) : Except PatchError (Ast.Program × String) :=
  match B.functionHash p patch.module patch.function with
  | .error e => .error e
  | .ok actual =>
      if actual ≠ patch.originalHash then
        .error (.hashMismatch patch.originalHash actual)
      else
        match findFunction p patch.module patch.function with
        | .error e => .error e
        | .ok f =>
            match B.applyChanges [] [] f patch.changes with
            | .error e => .error e
            | .ok f => .ok (setFunction p patch.module patch.function f,
                renderDiff patch.function patch.changes)

end Toolchain

/-- The changes the contract allows. -/
def checkChanges (scope : PatchScope) : List PatchChange → Except PatchError Unit
  | [] => .ok ()
  | .swapStatements _ _ :: changes =>
      if !scope.allowLockReorder then
        .error (.illegalChange "lock reordering is not allowed by the contract")
      else checkChanges scope changes
  | .deleteStatement _ :: changes =>
      if !scope.allowStatementDelete then
        .error (.illegalChange "statement deletion is not allowed by the contract")
      else checkChanges scope changes

/-- The permission every candidate needs. -/
def checkAllowed (scope : PatchScope) (patch : CirPatch) : Except PatchError Unit :=
  if !scope.allowsModule patch.module then
    .error (.illegalChange
      ("module '" ++ patch.module ++ "' is outside the allowed patch scope"))
  else if !scope.allowsFunction patch.module patch.function then
    .error (.illegalChange ("function '" ++ patch.module ++ "::" ++ patch.function ++
      "' is outside the allowed patch scope"))
  else checkChanges scope patch.changes

section Effects

variable {B : Toolchain} {p p' : Ast.Program} {patch : CirPatch} {diff : String}

/-- A patch that applies was made for the function as it is. -/
theorem Toolchain.hash_of_apply (h : B.apply p patch = .ok (p', diff)) :
    B.functionHash p patch.module patch.function = .ok patch.originalHash := by
  rw [Toolchain.apply] at h
  cases hh : B.functionHash p patch.module patch.function with
  | error e =>
      rw [hh] at h
      cases h
  | ok actual =>
      rw [hh] at h
      simp only at h
      split_ifs at h with hne
      · rw [not_not.mp hne]

/-- What a patch does depends on its target, hash and changes only. -/
theorem Toolchain.apply_congr {patch' : CirPatch} (hm : patch'.module = patch.module)
    (hf : patch'.function = patch.function) (hh : patch'.originalHash = patch.originalHash)
    (hc : patch'.changes = patch.changes) : B.apply p patch' = B.apply p patch := by
  rw [Toolchain.apply, Toolchain.apply, hm, hf, hh, hc]

theorem checkAllowed_congr {scope : PatchScope} {patch' : CirPatch}
    (hm : patch'.module = patch.module) (hf : patch'.function = patch.function)
    (hc : patch'.changes = patch.changes) :
    checkAllowed scope patch' = checkAllowed scope patch := by
  rw [checkAllowed, checkAllowed, hm, hf, hc]

end Effects

end Repair

end ConcIR
