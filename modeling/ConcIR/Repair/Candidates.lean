import ConcIR.Repair.Patch

/-!
# Candidate patches

The swaps of adjacent lock acquisitions in the functions in scope, in program order. The
composite enumerator can skip the swaps that no blocked resource of the report is in.
-/

namespace ConcIR

namespace Repair

structure SwapTarget where
  module : String
  function : String
  a : String
  b : String
deriving DecidableEq

/-- What a provider is shown of a search node. -/
structure RepairContext where
  program : Ast.Program
  spec : ContractSpec
  report : Report

section Targets

open Ast

/-- Two adjacent acquisitions of different locks that no jump leads to. -/
def swapTarget (m : Module) (f : Function) (s : Stmt × Stmt) : Option SwapTarget :=
  match s.1.op, s.2.op with
  | .mutexLock ra, .mutexLock rb =>
      if ra = rb || isControlTarget f s.1.sid || isControlTarget f s.2.sid then none
      else some ⟨m.name, f.name, s.1.sid, s.2.sid⟩
  | _, _ => none

def swapTargets (p : Program) (scope : PatchScope) : List SwapTarget :=
  p.modules.flatMap fun m ↦ m.functions.flatMap fun f ↦
    if !scope.allowsFunction m.name f.name then []
    else (f.body.zip f.body.tail).filterMap (swapTarget m f)

/-- The qualified name of the lock a statement acquires. -/
def lockFqn (p : Program) (module : String) (f : Function) (sid : String) : Option String := do
  let s ← f.body.find? (·.sid = sid)
  match s.op with
  | .mutexLock resource => do
      let (o, r) ← p.lookupResource module resource
      some (fqn o.name r.name)
  | _ => none

def lockPairFqns (p : Program) (t : SwapTarget) : Option (String × String) := do
  let (_, f) ← p.lookupFunction t.module t.function
  let ra ← lockFqn p t.module f t.a
  let rb ← lockFqn p t.module f t.b
  some (ra, rb)

end Targets

namespace RepairContext

/-- Resource names in the blocking relations of the diagnostics. -/
def relevantResources (ctx : RepairContext) : List String :=
  ctx.report.diagnostics.flatMap fun d ↦ d.blocked.filterMap (·.resourceName)

end RepairContext

/-- A target is passed over, ends the enumeration, or yields a candidate. -/
inductive Offer
  | skip
  | stop
  | candidate (c : CirPatch)

inductive Enumerator
  | lockOrder
  | composite (useDiagnostics : Bool)
deriving DecidableEq

namespace Enumerator

def description : Enumerator → String
  | .lockOrder => "unify lock acquisition order for adjacent mutex locks"
  | .composite true => "heuristic: swap an adjacent mutex acquisition involving a blocked resource"
  | .composite false => "heuristic: swap an adjacent pair of mutex acquisitions"

/-- A swap that none of the blocked resources is in. -/
def irrelevant (e : Enumerator) (ctx : RepairContext) (t : SwapTarget) : Bool :=
  match e with
  | .composite true =>
      !ctx.relevantResources.isEmpty &&
        match lockPairFqns ctx.program t with
        | some (ra, rb) =>
            !ctx.relevantResources.contains ra && !ctx.relevantResources.contains rb
        | none => false
  | _ => false

variable (B : Toolchain) (e : Enumerator) (ctx : RepairContext)

def offer (t : SwapTarget) : Offer :=
  if !ctx.spec.allowedScope.allowLockReorder then .stop
  else if e.irrelevant ctx t then .skip
  else
    match B.functionHash ctx.program t.module t.function with
    | .error _ => .stop
    | .ok hash => .candidate
        { id := "lockorder:" ++ t.module ++ ":" ++ t.function ++ ":" ++ t.a ++ "-" ++ t.b
          module := t.module
          function := t.function
          originalHash := hash
          changes := [.swapStatements t.a t.b]
          provenance := [⟨e.description⟩] }

/-- The next candidate and the targets after it. -/
def nextCandidate : List SwapTarget → Option (CirPatch × List SwapTarget)
  | [] => none
  | t :: rest =>
      match e.offer B ctx t with
      | .stop => none
      | .skip => nextCandidate rest
      | .candidate c => some (c, rest)

/-- The candidates an enumerator yields when it is asked until it has none left. -/
def candidatesFrom : List SwapTarget → List CirPatch
  | [] => []
  | t :: rest =>
      match e.offer B ctx t with
      | .stop => []
      | .skip => candidatesFrom rest
      | .candidate c => c :: candidatesFrom rest

theorem candidatesFrom_eq (ts : List SwapTarget) : e.candidatesFrom B ctx ts =
    match e.nextCandidate B ctx ts with
    | none => []
    | some (c, rest) => c :: e.candidatesFrom B ctx rest := by
  induction ts with
  | nil => rfl
  | cons t rest ih =>
      rw [candidatesFrom, nextCandidate]
      cases e.offer B ctx t with
      | stop => rfl
      | skip => exact ih
      | candidate c => rfl

/-- The candidates for a search node. -/
def candidates : List CirPatch :=
  e.candidatesFrom B ctx (swapTargets ctx.program ctx.spec.allowedScope)

variable {B e ctx}

theorem offer_candidate {t : SwapTarget} {c : CirPatch} (h : e.offer B ctx t = .candidate c) :
    c.changes = [.swapStatements t.a t.b] := by
  rw [offer] at h
  split_ifs at h
  cases hh : B.functionHash ctx.program t.module t.function with
  | error _ =>
      rw [hh] at h
      cases h
  | ok hash =>
      rw [hh] at h
      cases h
      rfl

/-- Every candidate is a single edit. -/
theorem length_changes {c : CirPatch} (h : c ∈ e.candidates B ctx) : c.changes.length = 1 := by
  rw [candidates] at h
  generalize swapTargets ctx.program ctx.spec.allowedScope = ts at h
  induction ts with
  | nil => cases h
  | cons t rest ih =>
      rw [candidatesFrom] at h
      cases ho : e.offer B ctx t with
      | stop =>
          rw [ho] at h
          cases h
      | skip =>
          rw [ho] at h
          exact ih h
      | candidate c' =>
          rw [ho] at h
          rcases List.mem_cons.mp h with rfl | h
          · rw [offer_candidate ho]
            rfl
          · exact ih h

end Enumerator

end Repair

end ConcIR
