import ConcIR.Ast.Syntax
import ConcIR.Explore.Contract

/-!
# Contract documents

The symbolic contract: properties, preserved behaviour, assumptions, bounds and the part
of the program a patch may touch. Names are resolved against each program it is used with.
-/

namespace ConcIR

structure Assumptions where
  sequentialConsistency : Bool
  noSpuriousWakeups : Bool
deriving DecidableEq

/-- Which functions a patch may touch, and how. -/
structure PatchScope where
  functions : List String
  modules : List String
  allowLockReorder : Bool
  allowStatementDelete : Bool
deriving DecidableEq

namespace PatchScope

def allowsModule (scope : PatchScope) (name : String) : Bool :=
  scope.modules.isEmpty || scope.modules.contains name

/-- A qualified entry has to be the function itself; a bare one is its name in any module. -/
def allowsFunction (scope : PatchScope) (module function : String) : Bool :=
  if scope.functions.isEmpty then true
  else scope.functions.any fun entry ↦
    match splitOnce entry fqnSep with
    | some (m, f) => m = module && f = function
    | none => entry = function

end PatchScope

inductive ContractError
  | unsupported (message : String)
  | invalid (message : String)
deriving DecidableEq

inductive PredicateSpec
  | true
  | false
  | varEq (resource : String) (value : Json)
  | varCmp (resource op : String) (value : Json)
  | functionCompleted (function : String)
  | functionCompletedAtLeast (function : String) (n : ℕ)
  | scopeCompleted (function sid : String)
  | statementReached (function sid : String)
  | mutexFree (resource : String)
  | mutexHeld (resource : String)
  | holdsAll (function : String) (resources : List String)
  | mutexExclusive (resource : String)
  | neverHoldsAll (function : String) (resources : List String)
  | channelEmpty (resource : String)
  | channelAtLeast (resource : String) (len : ℕ)
  | not (predicate : PredicateSpec)
  | and (predicates : List PredicateSpec)
  | or (predicates : List PredicateSpec)

inductive PropertySpec
  | safety (id : String) (invariant : PredicateSpec)
  | deadlockFree (id : String)
  | reachability (id : String) (goal : PredicateSpec)
  | alwaysReachable (id : String) (goal : PredicateSpec)
  | unreachable (id : String) (bad : PredicateSpec)

inductive PreservedSpec
  | reachable (description : String) (goal : PredicateSpec)
  | always (description : String) (invariant : PredicateSpec)

/-- The contract document. Its bounds are the bounds of every analysis under it. -/
structure ContractSpec where
  name : String
  properties : List PropertySpec
  preserved : List PreservedSpec
  assumptions : Assumptions
  bounds : AnalysisBounds
  allowedScope : PatchScope

end ConcIR
