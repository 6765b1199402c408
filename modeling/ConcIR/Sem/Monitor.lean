import ConcIR.Sem.System

/-!
# Contract-driven finite monitors

Completions are counted only as far as the contract can tell the counts apart.
-/

namespace ConcIR

structure MonitorConfig where
  defaultMax : ℕ
  saturate : BTreeMap FunctionId ℕ

namespace MonitorConfig

/-- Count without bound, up to the machine word. -/
def unbounded : MonitorConfig := ⟨2 ^ 64 - 1, ∅⟩

/-- Count nothing unless the contract asks for it. -/
def finite (perFunction : BTreeMap FunctionId ℕ) : MonitorConfig := ⟨0, perFunction⟩

def maxFor (m : MonitorConfig) (function : FunctionId) : ℕ :=
  m.saturate[function]?.getD m.defaultMax

def raise (out : BTreeMap FunctionId ℕ) (func : FunctionId) (n : ℕ) : BTreeMap FunctionId ℕ :=
  out.insert func (max (out[func]?.getD 0) n)

mutual

def collect (out : BTreeMap FunctionId ℕ) : Predicate → BTreeMap FunctionId ℕ
  | .functionCompleted func => raise out func 1
  | .functionCompletedAtLeast func n => raise out func n
  | .not p => collect out p
  | .and ps => collectAll out ps
  | .or ps => collectAll out ps
  | _ => out

def collectAll (out : BTreeMap FunctionId ℕ) : List Predicate → BTreeMap FunctionId ℕ
  | [] => out
  | p :: ps => collectAll (collect out p) ps

end

/-- The thresholds a set of predicates can tell apart. -/
def fromPredicates (ps : List Predicate) : MonitorConfig := finite (collectAll ∅ ps)

end MonitorConfig

end ConcIR
