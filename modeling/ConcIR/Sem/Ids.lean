import Mathlib

/-!
# Identifiers and ordered containers

Static identities index into the resolved program; dynamic identities are handed
out by the allocation counters of a state. The containers of the source are the
extensional ordered maps and sets of the standard library.
-/

namespace ConcIR

abbrev ModuleId := ℕ
abbrev ResourceId := ℕ
abbrev FunctionId := ℕ
abbrev ThreadId := ℕ
abbrev FrameId := ℕ
abbrev ScopeId := ℕ
abbrev HandleId := ℕ

/-- A frame-local slot index (params, locals, then the return slot). -/
abbrev SlotId := ℕ

/-- Reference to a slot of the operational store. -/
inductive SlotRef
  | localSlot (slot : SlotId)
  | shared (resource : ResourceId)
  | discard
deriving DecidableEq

abbrev BTreeMap (K V : Type) [Ord K] := Std.ExtTreeMap K V compare
abbrev BTreeSet (K : Type) [Ord K] := Std.ExtTreeSet K compare

/-- Pairs (function, statement index) in lexicographic order. -/
abbrev StmtSet :=
  Std.ExtTreeSet (FunctionId × ℕ) (compareLex (compareOn Prod.fst) (compareOn Prod.snd))

instance stmtOrder : Std.TransCmp
    (compareLex (compareOn Prod.fst) (compareOn Prod.snd) : FunctionId × ℕ → _ → Ordering) :=
  inferInstance

end ConcIR
