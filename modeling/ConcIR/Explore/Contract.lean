import ConcIR.Sem.System

/-!
# Verification contracts

A resolved contract: the required properties, the behaviour a patch must
preserve, and the bounds of the analysis.
-/

namespace ConcIR

inductive Property
  | safety (invariant : Predicate)
  | deadlockFree
  | reachability (goal : Predicate)
  | alwaysReachable (goal : Predicate)
  | unreachable (bad : Predicate)

structure PropertySpecResolved where
  id : String
  property : Property

inductive Preserved
  | reachable (goal : Predicate)
  | always (invariant : Predicate)

structure PreservedBehavior where
  description : String
  behavior : Preserved

/-- The fixed verification contract. -/
structure VerificationContract where
  properties : List PropertySpecResolved
  preserved : List PreservedBehavior
  bounds : AnalysisBounds

namespace VerificationContract

def propertyPredicates : Property → List Predicate
  | .safety invariant => [invariant]
  | .unreachable bad => [bad]
  | .reachability goal => [goal]
  | .alwaysReachable goal => [goal]
  | .deadlockFree => []

/-- Every predicate the contract observes. -/
def predicates (c : VerificationContract) : List Predicate :=
  c.properties.flatMap (fun p ↦ propertyPredicates p.property) ++
    c.preserved.map fun p ↦ match p.behavior with
      | .reachable p => p
      | .always p => p

end VerificationContract

end ConcIR
