import ConcIR.Explore.Contract

/-!
# Finite-state exploration and property checking

The explorer is generic over the transition system: a breadth-first search that
merges states with equal keys and is cut off by three bounds, followed by one
check per property and preserved behaviour.
-/

namespace ConcIR

/-- The explored graph; all lists but `index` run over the state numbers. -/
structure Graph (S : Type) where
  states : List S
  index : List (String × ℕ)
  edges : List (List (ℕ × StepLabel))
  pred : List (Option (ℕ × StepLabel))
  hadBoundary : List Bool
  depth : List ℕ
  processed : List Bool

/-- The variables of the search loop. -/
structure Search (S : Type) where
  graph : Graph S
  queue : List ℕ
  unsupported : List Unsupported
  invalid : List Invalid
  boundaryEvents : List BoundaryEvent
  truncated : Bool
  transitionsExplored : ℕ

structure PropertyResult where
  id : String
  outcome : Outcome
  detail : String
deriving DecidableEq

structure VerificationReport where
  outcome : Outcome
  complete : Bool
  statesExplored : ℕ
  transitionsExplored : ℕ
  properties : List PropertyResult
  boundaryEvents : List BoundaryEvent
  unsupported : List Unsupported
  invalid : List Invalid
deriving DecidableEq

namespace Graph

variable {S : Type}

def empty : Graph S := ⟨[], [], [], [], [], [], []⟩

/-- A fresh state with no out-edges yet. -/
def addState (g : Graph S) (key : String) (s : S) (pred : Option (ℕ × StepLabel))
    (depth : ℕ) : Graph S where
  states := g.states ++ [s]
  index := (key, g.states.length) :: g.index
  edges := g.edges ++ [[]]
  pred := g.pred ++ [pred]
  hadBoundary := g.hadBoundary ++ [false]
  depth := g.depth ++ [depth]
  processed := g.processed ++ [false]

def addEdge (g : Graph S) (i : ℕ) (e : ℕ × StepLabel) : Graph S :=
  { g with edges := g.edges.modify i (· ++ [e]) }

def markBoundary (g : Graph S) (i : ℕ) : Graph S :=
  { g with hadBoundary := g.hadBoundary.set i true }

def markProcessed (g : Graph S) (i : ℕ) : Graph S :=
  { g with processed := g.processed.set i true }

/-- Labels of the recorded path to a state, walking the predecessors back. -/
def counterexampleFrom (g : Graph S) : ℕ → ℕ → List StepLabel → List StepLabel
  | 0, _, acc => acc
  | fuel + 1, cur, acc =>
      match g.pred[cur]?.join with
      | some (parent, label) => g.counterexampleFrom fuel parent (label :: acc)
      | none => acc

def counterexample (g : Graph S) (idx : ℕ) : List StepLabel :=
  g.counterexampleFrom g.states.length idx []

/-- Sources of the edges into state `i`, in the order of the edge lists. -/
def predecessors (g : Graph S) (i : ℕ) : List ℕ :=
  (List.range g.states.length).flatMap fun p ↦
    ((g.edges[p]?.getD []).filter fun e ↦ e.1 = i).map fun _ ↦ p

/-- Add a state to the closure and to the stack unless it is known already. -/
def discover (acc : List ℕ × List ℕ) (p : ℕ) : List ℕ × List ℕ :=
  if p ∈ acc.1 then acc else (p :: acc.1, p :: acc.2)

/-- Backward closure of `seen` along the edges; the stack's top is its head. -/
def reverseLoop (g : Graph S) : ℕ → List ℕ × List ℕ → List ℕ
  | 0, acc => acc.1
  | fuel + 1, (seen, stack) =>
      match stack with
      | [] => seen
      | i :: stack => g.reverseLoop fuel ((g.predecessors i).foldl discover (seen, stack))

/-- States with a path to one of the roots. Every state is stacked at most once. -/
def reverseReachable (g : Graph S) (roots : List ℕ) : List ℕ :=
  g.reverseLoop (g.states.length + 1) (roots, roots.reverse)

end Graph

namespace Search

variable {S : Type} (T : TransitionSystem S) (bounds : AnalysisBounds)

def start (s : S) : Search S where
  graph := Graph.empty.addState (T.stateKey s) s none 0
  queue := [0]
  unsupported := []
  invalid := []
  boundaryEvents := []
  truncated := false
  transitionsExplored := 0

/-- Record one offered step of state `idx`, merging its target by key. -/
def addStep (idx depth : ℕ) (s : Search S) (st : Step S) : Search S :=
  let key := T.stateKey st.state
  match s.graph.index.lookup key with
  | some target =>
      { s with
        graph := s.graph.addEdge idx (target, st.label)
        transitionsExplored := s.transitionsExplored + 1 }
  | none =>
      let target := s.graph.states.length
      { s with
        graph := (s.graph.addState key st.state (some (idx, st.label)) (depth + 1)).addEdge
          idx (target, st.label)
        queue := s.queue ++ [target]
        transitionsExplored := s.transitionsExplored + 1 }

/-- Expand one state within the depth bound. -/
def expand (idx depth : ℕ) (state : S) (s : Search S) : Search S :=
  match T.successors state with
  | .ok enabled =>
      let s := if enabled.boundary = [] then s else
        { s with
          graph := s.graph.markBoundary idx
          boundaryEvents := s.boundaryEvents ++ enabled.boundary }
      enabled.steps.foldl (addStep T idx depth) s
  | .error (.unsupported u) =>
      { s with graph := s.graph.markBoundary idx, unsupported := s.unsupported ++ [u] }
  | .error (.invalid i) =>
      { s with graph := s.graph.markBoundary idx, invalid := s.invalid ++ [i] }

def stateLimit : BoundaryEvent :=
  ⟨.stateLimit, s!"state limit {bounds.maxStates} reached"⟩

def depthLimit : BoundaryEvent :=
  ⟨.depthLimit, s!"depth limit {bounds.maxDepth} reached"⟩

/-- The search loop. State numbers leave the queue in order, so `maxStates + 1`
rounds are enough for it to run dry or meet a bound. -/
def run : ℕ → Search S → Search S
  | 0, s => s
  | fuel + 1, s =>
      match s.queue with
      | [] => s
      | idx :: queue =>
          let s := { s with queue := queue }
          if bounds.maxStates ≤ s.graph.states.length then
            { s with
              truncated := true
              boundaryEvents := s.boundaryEvents ++ [stateLimit bounds] }
          else
            let s := { s with graph := s.graph.markProcessed idx }
            match s.graph.states[idx]?, s.graph.depth[idx]? with
            | some state, some depth =>
                if bounds.maxDepth ≤ depth then
                  run fuel { s with
                    truncated := true
                    graph := s.graph.markBoundary idx
                    boundaryEvents := s.boundaryEvents ++ [depthLimit bounds] }
                else
                  let s := expand T idx depth state s
                  if bounds.maxBoundaryEvents < s.boundaryEvents.length then
                    { s with truncated := true }
                  else run fuel s
            | _, _ => s

/-- The finished search from an initial state. -/
def explored (s : S) : Search S := run T bounds (bounds.maxStates + 1) (start T s)

def complete (s : Search S) : Bool :=
  !s.truncated && s.boundaryEvents.isEmpty && s.unsupported.isEmpty && s.invalid.isEmpty

end Search

section Checks

variable {S : Type} (T : TransitionSystem S) (g : Graph S)

/-- The verdict of a check that found nothing. -/
def unlessCut (complete : Bool) (o : Outcome) : Outcome := if complete then o else .unknown

/-- An expanded state without a boundary, a step or the excuse of being finished. -/
def isDeadlock (i : ℕ) : Bool :=
  g.processed[i]?.getD false && !g.hadBoundary[i]?.getD false &&
    (g.edges[i]?.getD []).isEmpty && !(g.states[i]?.map T.isFinished).getD false

def goalStates (goal : Predicate) : List ℕ :=
  (List.range g.states.length).filter fun i ↦ (g.states[i]?.map (T.satisfied · goal)).getD false

def checkProperty (id : String) (property : Property) (complete : Bool) : PropertyResult :=
  match property with
  | .safety invariant =>
      match g.states.findIdx? (fun s ↦ !T.satisfied s invariant) with
      | some _ => ⟨id, .fail, "counterexample reached a violating state"⟩
      | none => ⟨id, unlessCut complete .pass,
          if complete then "invariant held in all reachable states"
          else "no violation found, but the search was incomplete"⟩
  | .unreachable bad =>
      match g.states.findIdx? (fun s ↦ T.satisfied s bad) with
      | some _ => ⟨id, .fail, "counterexample reached a forbidden state"⟩
      | none => ⟨id, unlessCut complete .pass,
          if complete then "forbidden state is unreachable"
          else "not found, but the search was incomplete"⟩
  | .deadlockFree =>
      match (List.range g.states.length).find? (isDeadlock T g) with
      | some _ => ⟨id, .fail, "a reachable state has no enabled step and unfinished threads"⟩
      | none => ⟨id, unlessCut complete .pass,
          if complete then "no deadlock state reachable"
          else "no deadlock found, but the search was incomplete"⟩
  | .reachability goal =>
      match g.states.findIdx? (fun s ↦ T.satisfied s goal) with
      | some idx => ⟨id, .pass,
          s!"goal reachable via {(g.counterexample idx).length} step(s) (" ++
            goal.description ++ ")"⟩
      | none => ⟨id, unlessCut complete .fail,
          if complete then "goal '" ++ goal.description ++ "' is not reachable in any execution"
          else "goal '" ++ goal.description ++ "' not found; search incomplete"⟩
  | .alwaysReachable goal =>
      let roots := goalStates T g goal
      if roots = [] then ⟨id, .fail, "goal never reachable"⟩
      else
        let canReach := g.reverseReachable roots
        match (List.range g.states.length).find? (fun i ↦ i ∉ canReach) with
        | some _ => ⟨id, .fail, "AG EF violated: a reachable state cannot reach the goal"⟩
        | none => ⟨id, unlessCut complete .pass,
            if complete then "every reachable state can reach the goal"
            else "AG EF held on the explored fragment, but the search was incomplete"⟩

def checkPreserved (p : PreservedBehavior) (complete : Bool) : PropertyResult :=
  let pid := s!"preserved: {p.description}"
  match p.behavior with
  | .reachable goal =>
      ⟨pid, if g.states.any (T.satisfied · goal) then .pass else unlessCut complete .fail,
        "preserved reachability: " ++ goal.description⟩
  | .always invariant =>
      ⟨pid, match g.states.findIdx? (fun s ↦ !T.satisfied s invariant) with
          | some _ => .fail
          | none => unlessCut complete .pass,
        "preserved invariant: " ++ invariant.description⟩

end Checks

section Verify

variable {S : Type} (T : TransitionSystem S) (contract : VerificationContract)

def reportEarly (outcome : Outcome) (unsupported : List Unsupported)
    (invalid : List Invalid) : VerificationReport where
  outcome := outcome
  complete := false
  statesExplored := 0
  transitionsExplored := 0
  properties := []
  boundaryEvents := []
  unsupported := unsupported
  invalid := invalid

/-- The results of every property and then of every preserved behaviour. -/
def results (s : Search S) : List PropertyResult :=
  contract.properties.map (fun p ↦ checkProperty T s.graph p.id p.property s.complete) ++
    contract.preserved.map fun p ↦ checkPreserved T s.graph p s.complete

def overall (s : Search S) (rs : List PropertyResult) : Outcome :=
  if rs.any (·.outcome = .fail) then .fail
  else if !s.invalid.isEmpty then .invalid
  else if !s.unsupported.isEmpty then .unsupported
  else if rs.any (·.outcome = .unknown) || !s.complete then .unknown
  else .pass

/-- Verify a system against a fixed contract. -/
def verify : VerificationReport :=
  match T.initial with
  | .error (.unsupported u) => reportEarly .unsupported [u] []
  | .error (.invalid i) => reportEarly .invalid [] [i]
  | .ok init =>
      let s := Search.explored T contract.bounds init
      let rs := results T contract s
      { outcome := overall s rs
        complete := s.complete
        statesExplored := s.graph.states.length
        transitionsExplored := s.transitionsExplored
        properties := rs
        boundaryEvents := s.boundaryEvents
        unsupported := s.unsupported
        invalid := s.invalid }

end Verify

end ConcIR
