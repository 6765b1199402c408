import ConcIR.Sem.Domain
import ConcIR.Sem.Eval
import ConcIR.Ast.Syntax

/-!
# The trace monitor

A small state is rebuilt from the events of each trace, and the predicates of a contract,
as JSON, are evaluated in the states that were observed. A predicate may be undecided
because the events do not carry it or because a resource it names was never seen.
-/

namespace ConcIR.TraceMonitor

/-- `i64 as f64`. -/
class FloatCast where
  ofInt : ℤ → UInt64

/-- For predicates that compare no occupancy with a number. -/
abbrev FloatCast.unused : FloatCast := ⟨fun _ ↦ 0⟩

structure TraceEvent where
  tag : String
  op : String
  resource : String
  sid : String
deriving DecidableEq

structure MachineState where
  held : BTreeMap String (Finset String)
  chan : BTreeMap String ℤ
  seen : Finset String
  completed : Finset String

namespace MachineState

def empty : MachineState := ⟨∅, ∅, ∅, ∅⟩

variable (s : MachineState)

def holders (resource : String) : ℕ := (s.held[resource]?.map Finset.card).getD 0

def threadHoldsAll (tag : String) (resources : List String) : Bool :=
  resources.all fun r ↦ (s.held[r]?).any (tag ∈ ·)

def anyThreadHoldsAll (resources : List String) : Bool :=
  s.held.toList.any fun entry ↦ decide (∃ tag ∈ entry.2, s.threadHoldsAll tag resources = true)

def resourceSeen (resource : String) : Bool :=
  decide (resource ∈ s.seen) || s.chan.contains resource

end MachineState

inductive Eval
  | bool (b : Bool)
  | unsupported (message : String)
  | unmapped (message : String)
deriving DecidableEq

section Names

/-- What follows the last `::`. -/
def afterLastSep : List Char → Option (List Char)
  | [] => none
  | c :: cs =>
      match afterLastSep cs with
      | some rest => some rest
      | none => if fqnSep.toList.isPrefixOf (c :: cs) then some (cs.drop 1) else none

/-- `rsplit("::").next()`. -/
def lastSegment (s : String) : String := ((afterLastSep s.toList).map String.ofList).getD s

mutual

/-- The resources and functions a contract refers to. -/
def contractResources : Json → List String
  | .object fields =>
      ((fields.lookup "resource").bind Json.asStr).toList ++
        ((fields.lookup "function").bind Json.asStr).toList ++
          (((fields.lookup "resources").bind Json.asArray).getD []).filterMap Json.asStr ++
            fieldResources fields
  | .array items => itemResources items
  | _ => []

def fieldResources : List (String × Json) → List String
  | [] => []
  | (_, j) :: rest => contractResources j ++ fieldResources rest

def itemResources : List Json → List String
  | [] => []
  | j :: rest => contractResources j ++ itemResources rest

end

/-- The contract's name for a resource of the traces. -/
def alignName (contract : List String) (overrides : BTreeMap String String) (name : String) :
    Option String :=
  match overrides[name]? with
  | some target => if target ∈ contract then some target else none
  | none =>
      if name ∈ contract then some name
      else if fqn "main" name ∈ contract then some (fqn "main" name)
      else (contract.filter fun c ↦ lastSegment c = name).min?

abbrev ResourceMap := BTreeMap String (Option String)

def alignResources (rustNames contract : List String) (overrides : BTreeMap String String) :
    ResourceMap :=
  rustNames.foldl (fun map name ↦ map.insert name (alignName contract overrides name)) ∅

def mapName (map : ResourceMap) (rust : String) : Option String := (map[rust]?).join

end Names

section Predicates

variable [FloatArith] [FloatCast] (state : MachineState)

/-- An operand of a predicate: what it evaluates to, and what its elements evaluate to if
it is a list. -/
structure Operand where
  eval : Eval
  items : Option (List Eval)

def Eval.negate : Eval → Eval
  | .bool b => .bool !b
  | other => other

/-- The elements of an `and` or `or`, up to the first that is undecided. -/
def junction (conj : Bool) : Bool → List Eval → Eval
  | acc, [] => .bool acc
  | acc, .bool b :: rest => junction conj (if conj then acc && b else acc || b) rest
  | _, other :: _ => other

def junctionOf (kind : String) (conj : Bool) (operands : List (String × Operand)) : Eval :=
  match ((operands.lookup "predicates").or (operands.lookup "goals")).bind (·.items) with
  | none => .unsupported (kind ++ " without predicate list")
  | some items => junction conj conj items

def overResources (kind : String) (fields : List (String × Json)) (decided : List String → Bool) :
    Eval :=
  let resources := (((fields.lookup "resources").bind Json.asArray).getD []).filterMap Json.asStr
  if resources.isEmpty then .unsupported (kind ++ " without resources")
  else
    match resources.find? fun r ↦ !state.resourceSeen r with
    | some r => .unmapped ("resource " ++ r ++ " not observed")
    | none => .bool (decided resources)

def overMutex (kind : String) (fields : List (String × Json)) (decided : ℕ → Bool) : Eval :=
  match (fields.lookup "resource").bind Json.asStr with
  | none => .unsupported (kind ++ " without resource")
  | some r =>
      if state.resourceSeen r then .bool (decided (state.holders r))
      else .unmapped ("resource " ++ r ++ " not observed")

def overChannel (kind : String) (fields : List (String × Json)) (decided : ℤ → Bool) : Eval :=
  match (fields.lookup "resource").bind Json.asStr with
  | none => .unsupported (kind ++ " without resource")
  | some r =>
      match state.chan[r]? with
      | none => .unmapped ("channel " ++ r ++ " not observed")
      | some n => .bool (decided n)

/-- The occupancy as a float is at least the number. -/
def floatAtLeast (n : ℤ) (bound : UInt64) : Bool :=
  match FloatArith.partialCmp (FloatCast.ofInt n) bound with
  | some .lt | none => false
  | some _ => true

def functionCompleted (fields : List (String × Json)) : Eval :=
  match (fields.lookup "function").bind Json.asStr with
  | none => .unsupported "function_completed without function"
  | some f =>
      if f = "main::main" ∨ f ∈ state.completed then .bool true
      else .bool (decide (lastSegment f ∈ state.completed))

def evalKind (kind : String) (fields : List (String × Json))
    (operands : List (String × Operand)) : Eval :=
  match kind with
  | "true" => .bool true
  | "false" => .bool false
  | "not" =>
      match (operands.lookup "predicate").or (operands.lookup "goal") with
      | some inner => inner.eval.negate
      | none => .unsupported "not without operand"
  | "and" => junctionOf "and" true operands
  | "or" => junctionOf "or" false operands
  | "holds_all" => overResources state "holds_all" fields state.anyThreadHoldsAll
  | "never_holds_all" =>
      overResources state "never_holds_all" fields fun rs ↦ !state.anyThreadHoldsAll rs
  | "mutex_exclusive" => overMutex state "mutex_exclusive" fields fun n ↦ decide (n ≤ 1)
  | "mutex_free" => overMutex state "mutex_free" fields fun n ↦ decide (n = 0)
  | "mutex_held" => overMutex state "mutex_held" fields fun n ↦ decide (1 ≤ n)
  | "channel_empty" => overChannel state "channel_empty" fields fun n ↦ decide (max n 0 = 0)
  | "channel_at_least" =>
      overChannel state "channel_at_least" fields fun n ↦
        floatAtLeast n (((fields.lookup "n").bind Json.asF64).getD 0)
  | "function_completed" => functionCompleted state fields
  | "var_eq" | "var_cmp" | "var_ref" =>
      .unsupported (kind ++ " needs value events not present in the stream")
  | other => .unsupported ("predicate kind " ++ other ++ " is not supported")

mutual

/-- A predicate in an observed state. The resource names of a predicate are names of the
contract, so the map of the traces' names is not consulted. -/
def evalPredicate : Json → Eval
  | .object fields =>
      match (fields.lookup "kind").bind Json.asStr with
      | none => .unsupported "predicate without kind"
      | some kind => evalKind state kind fields (evalOperands fields)
  | _ => .unsupported "predicate without kind"

def evalOperands : List (String × Json) → List (String × Operand)
  | [] => []
  | (k, j) :: rest => (k, ⟨evalPredicate j, evalItems j⟩) :: evalOperands rest

def evalItems : Json → Option (List Eval)
  | .array items => some (evalEach items)
  | _ => none

def evalEach : List Json → List Eval
  | [] => []
  | j :: rest => evalPredicate j :: evalEach rest

end

end Predicates

section Replay

variable (map : ResourceMap)

def MachineState.setHeld (s : MachineState) (name : String) (tags : Finset String) :
    MachineState :=
  { s with held := s.held.insert name tags }

def MachineState.addChan (s : MachineState) (name : String) (n : ℤ) : MachineState :=
  { s with chan := s.chan.insert name ((s.chan[name]?).getD 0 + n) }

/-- The effect of an event on a resource it is about. -/
def observeOp (s : MachineState) (ev : TraceEvent) (mapped : Option String) : MachineState :=
  match ev.op with
  | "mutex_lock" | "sem_acquire" =>
      match mapped with
      | some name => s.setHeld name (insert ev.tag ((s.held[name]?).getD ∅))
      | none => s
  | "mutex_unlock" | "sem_release" =>
      match mapped.bind fun name ↦ (s.held[name]?).map fun tags ↦ (name, tags) with
      | some (name, tags) => s.setHeld name (tags.erase ev.tag)
      | none => s
  | "channel_send" => (mapped.map fun name ↦ s.addChan name 1).getD s
  | "channel_recv" => (mapped.map fun name ↦ s.addChan name (-1)).getD s
  | "spawn" | "join" | "complete" =>
      let s := (mapped.map fun name ↦ { s with completed := insert name s.completed }).getD s
      if ev.sid.isEmpty then s else { s with completed := insert ev.sid s.completed }
  | _ => s

def observe (s : MachineState) (ev : TraceEvent) : MachineState :=
  let mapped := mapName map ev.resource
  let s := (mapped.map fun name ↦ { s with seen := insert name s.seen }).getD s
  observeOp s ev mapped

/-- The states before the first event and after each. -/
def replay (events : List TraceEvent) : List MachineState :=
  events.scanl (observe map) .empty

end Replay

section Verdicts

inductive Mode
  | forAll
  | exists
deriving DecidableEq

/-- What the loop over the observed states has seen. -/
structure Observed where
  unsupported : Option String
  unmapped : Option String
  anyTrue : Bool

variable [FloatArith] [FloatCast]

/-- The loop over the states; it stops at a violation of a predicate that has to hold in
all of them. -/
def observeAll (pred : Json) (mode : Mode) : Observed → List MachineState → Option Observed
  | o, [] => some o
  | o, s :: rest =>
      match evalPredicate s pred with
      | .bool true => observeAll pred mode { o with anyTrue := true } rest
      | .bool false =>
          match mode with
          | .forAll => none
          | .exists => observeAll pred mode o rest
      | .unsupported msg =>
          observeAll pred mode { o with unsupported := o.unsupported.or (some msg) } rest
      | .unmapped msg =>
          observeAll pred mode { o with unmapped := o.unmapped.or (some msg) } rest

def predicateStatus (pred : Json) (traces : List (List MachineState)) (mode : Mode) :
    String × Option String :=
  if traces.isEmpty then ("not_observed", some "no traces")
  else
    match observeAll pred mode ⟨none, none, false⟩ traces.flatten with
    | none => ("FAIL", some "predicate violated")
    | some o =>
        if o.unmapped.isSome && !o.anyTrue then ("unmapped", o.unmapped)
        else if o.unsupported.isSome && !o.anyTrue then ("unsupported", o.unsupported)
        else
          match mode with
          | .forAll => ("PASS_bounded", none)
          | .exists => if o.anyTrue then ("PASS_bounded", none) else ("not_observed", none)

structure PropertyResult where
  id : String
  kind : String
  source : String
  req : List String
  status : String
  detail : Option String

/-- The status of a clause by its kind. -/
def clauseStatus (kind : String) (fields : List (String × Json))
    (traces : List (List MachineState)) : String × Option String :=
  match kind with
  | "deadlock_free" => ("deferred", some "decided by behavior (hang/timeout) and Miri")
  | "safety" =>
      match fields.lookup "invariant" with
      | some inv => predicateStatus inv traces .forAll
      | none => ("unsupported", some "safety without invariant")
  | "unreachable" =>
      match fields.lookup "bad" with
      | some bad =>
          let (s, d) := predicateStatus bad traces .forAll
          if s = "FAIL" then ("FAIL", some "a bad state was observed") else (s, d)
      | none => ("unsupported", some "unreachable without bad")
  | "reachability" | "always_reachable" =>
      match fields.lookup "goal" with
      | some goal => predicateStatus goal traces .exists
      | none => ("unsupported", some "property without goal")
  | "reachable" =>
      match fields.lookup "goal" with
      | some goal => predicateStatus goal traces .exists
      | none => ("unsupported", some "reachable without goal")
  | "always" =>
      match fields.lookup "invariant" with
      | some inv => predicateStatus inv traces .forAll
      | none => ("unsupported", some "always without invariant")
  | other => ("unsupported", some ("property kind " ++ other))

/-- `Value::get` on a value that need not be an object. -/
def fieldsOf (clause : Json) : List (String × Json) := clause.asObject.getD []

def resultFor (clause : Json) (source : String) (traces : List (List MachineState)) :
    PropertyResult :=
  let fields := fieldsOf clause
  let kind := ((fields.lookup "kind").bind Json.asStr).getD "unknown"
  let (status, detail) := clauseStatus kind fields traces
  { id := (((fields.lookup "id").bind Json.asStr).or
      ((fields.lookup "description").bind Json.asStr)).getD kind
    kind := kind
    source := source
    req := (((fields.lookup "req").bind Json.asArray).getD []).filterMap Json.asStr
    status := status
    detail := detail }

structure MonitorReport where
  status : String
  bounded : Bool
  traces : ℕ
  events : ℕ
  resourceMap : ResourceMap
  unmappedResources : List String
  properties : List PropertyResult

def monitor (contract : Json) (rustNames : List String) (overrides : BTreeMap String String)
    (traces : List (List TraceEvent)) : MonitorReport :=
  let map := alignResources rustNames (contractResources contract) overrides
  let replayed := traces.map (replay map)
  let clauses := fun source ↦ (((fieldsOf contract).lookup source).bind Json.asArray).getD []
  let properties :=
    (clauses "properties").map (resultFor · "properties" replayed) ++
      (clauses "preserved").map (resultFor · "preserved" replayed)
  { status := if properties.any (·.status = "FAIL") then "fail" else "ok"
    bounded := true
    traces := traces.length
    events := (traces.map List.length).sum
    resourceMap := map
    unmappedResources := (map.toList.filter (·.2.isNone)).map (·.1)
    properties := properties }

end Verdicts

end ConcIR.TraceMonitor
