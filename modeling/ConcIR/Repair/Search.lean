import ConcIR.Repair.Candidates

/-!
# Budgeted patch search

A breadth-first search over verified programs. A candidate is checked against the scope,
applied, validated and looked up by its fingerprint before it is verified; the first
complete pass ends the search.
-/

namespace ConcIR

namespace Repair

inductive RepairStrategy
  | single
  | composite
  | diagnostic
deriving DecidableEq

inductive RepairOutcome
  | repaired
  | alreadySatisfied
  | noAcceptableCandidate
  | budgetExhausted
  | analysisUnknown
  | invalid
  | unsupported
  | invalidConfig
deriving DecidableEq

structure SearchConfig where
  strategy : RepairStrategy
  candidateBudget : ℕ
  verificationBudget : ℕ
  maxDepth : ℕ
  maxTotalEdits : ℕ

structure AppliedEdit where
  module : String
  function : String
  changes : List PatchChange
  provenance : List SourceRelation
  originalFunctionHash : String
  parentFingerprint : String
  programFingerprint : String
deriving DecidableEq

/-- One verified program. -/
structure NodeReport where
  id : ℕ
  parent : Option ℕ
  depth : ℕ
  totalEdits : ℕ
  programFingerprint : String
  incoming : Option AppliedEdit
  report : Report
  note : Option String

/-- One candidate proposal and what became of it. -/
structure AttemptReport where
  id : ℕ
  parent : ℕ
  patch : Option CirPatch
  result : String
  reusedNode : Option ℕ
  programFingerprint : Option String
  outcome : Option Outcome
  reason : Option String

structure SearchReport where
  strategy : RepairStrategy
  outcome : RepairOutcome
  stopReason : String
  sawUnknown : Bool
  truncation : Option String
  effectiveBounds : AnalysisBounds
  proposals : ℕ
  uniquePrograms : ℕ
  verifications : ℕ
  cacheHits : ℕ
  statesExplored : ℕ
  nodes : List NodeReport
  attempts : List AttemptReport
  patchChain : List AppliedEdit
  acceptedNode : Option ℕ
  acceptedProgram : Option Ast.Program
  acceptedReport : Option Report

structure Node where
  parent : Option ℕ
  depth : ℕ
  totalEdits : ℕ
  program : Ast.Program
  fingerprint : String
  report : Report
  incoming : Option CirPatch

/-- The facts that decide how a search that found no repair is classified. -/
structure TerminalFacts where
  rootUnknown : Bool
  candidateBudgetHit : Bool
  verificationBudgetHit : Bool
  depthTruncated : Bool
  editsTruncated : Bool
  sawUnknown : Bool
deriving DecidableEq

def TerminalFacts.classify (f : TerminalFacts) : RepairOutcome × String × Option String :=
  if f.rootUnknown then (.analysisUnknown, "root-unknown", none)
  else if f.candidateBudgetHit then (.budgetExhausted, "candidate-budget", none)
  else if f.verificationBudgetHit then (.budgetExhausted, "verification-budget", none)
  else if f.depthTruncated && f.editsTruncated then
    (.budgetExhausted, "max-depth+max-total-edits", some "max-depth+max-total-edits")
  else if f.depthTruncated then (.budgetExhausted, "max-depth", some "max-depth")
  else if f.editsTruncated then (.budgetExhausted, "max-total-edits", some "max-total-edits")
  else if f.sawUnknown then (.analysisUnknown, "analysis-unknown", none)
  else (.noAcceptableCandidate, "no-acceptable-candidate", none)

/-- The variables of the search. -/
structure SearchState where
  nodes : List Node
  nodeReports : List NodeReport
  attempts : List AttemptReport
  nodeByFp : List (String × ℕ)
  proposals : ℕ
  verifications : ℕ
  cacheHits : ℕ
  statesExplored : ℕ
  candidateBudgetHit : Bool
  verificationBudgetHit : Bool
  depthTruncated : Bool
  editsTruncated : Bool
  sawUnknown : Bool
  queue : List ℕ

namespace SearchState

def finish (v : SearchState) (cfg : SearchConfig) (bounds : AnalysisBounds)
    (outcome : RepairOutcome) (stopReason : String) (truncation : Option String)
    (chain : List AppliedEdit) (acceptedProgram : Option Ast.Program)
    (acceptedReport : Option Report) : SearchReport where
  strategy := cfg.strategy
  outcome := outcome
  stopReason := stopReason
  sawUnknown := v.sawUnknown
  truncation := truncation
  effectiveBounds := bounds
  proposals := v.proposals
  uniquePrograms := v.nodes.length
  verifications := v.verifications
  cacheHits := v.cacheHits
  statesExplored := v.statesExplored
  nodes := v.nodeReports
  attempts := v.attempts
  patchChain := chain
  acceptedNode := none
  acceptedProgram := acceptedProgram
  acceptedReport := acceptedReport

def facts (v : SearchState) : TerminalFacts where
  rootUnknown := false
  candidateBudgetHit := v.candidateBudgetHit
  verificationBudgetHit := v.verificationBudgetHit
  depthTruncated := v.depthTruncated
  editsTruncated := v.editsTruncated
  sawUnknown := v.sawUnknown

/-- Note why a node was not expanded. -/
def note (v : SearchState) (nid : ℕ) (text : String) : SearchState :=
  match v.nodeReports.findIdx? (·.id = nid) with
  | none => v
  | some i => { v with nodeReports := v.nodeReports.modify i fun r ↦ { r with note := some text } }

end SearchState

/-- The node with its ancestors, the root first. Parents come before their children. -/
def lineage (nodes : List Node) : ℕ → ℕ → List ℕ
  | 0, _ => []
  | fuel + 1, id =>
      match nodes[id]?.bind (·.parent) with
      | none => [id]
      | some parent => lineage nodes fuel parent ++ [id]

inductive AttemptFlow
  | reused (node : ℕ) (outcome : Outcome)
  | verified (node : ℕ) (accepted : Bool)
  | rejected (reason : String)
  | budget (fingerprint : String)

/-- How the loops go on: with the next node, out of both of them, or with a result. -/
inductive Flow
  | next (v : SearchState)
  | stop (v : SearchState)
  | done (r : SearchReport)

namespace Toolchain

variable (B : Toolchain)

def appliedEdit (c : CirPatch) (parentFp childFp : String) (parent : Ast.Program) :
    AppliedEdit where
  module := c.module
  function := c.function
  changes := c.changes
  provenance := c.provenance
  originalFunctionHash := match B.functionHash parent c.module c.function with
    | .ok hash => hash
    | .error _ => c.originalHash
  parentFingerprint := parentFp
  programFingerprint := childFp

/-- The edit that led to a node. -/
def editOf (nodes : List Node) (id : ℕ) : Option AppliedEdit := do
  let n ← nodes[id]?
  let inc ← n.incoming
  let parent := n.parent.bind (nodes[·]?)
  some (B.appliedEdit inc ((parent.map (·.fingerprint)).getD "") n.fingerprint
    ((parent.map (·.program)).getD n.program))

/-- The edits from the root to a node. -/
def buildChain (nodes : List Node) (target : ℕ) : List AppliedEdit :=
  (lineage nodes (target + 1) target).filterMap (B.editOf nodes)

def rootNode [FloatArith] (p : Ast.Program) (spec : ContractSpec) : Node where
  parent := none
  depth := 0
  totalEdits := 0
  program := p
  fingerprint := B.programFingerprint p
  report := B.verifyProgram p spec
  incoming := none

/-- The search when the root has been verified. -/
def startState [FloatArith] (p : Ast.Program) (spec : ContractSpec) : SearchState where
  nodes := [B.rootNode p spec]
  nodeReports := [⟨0, none, 0, 0, B.programFingerprint p, none, B.verifyProgram p spec, none⟩]
  attempts := []
  nodeByFp := [(B.programFingerprint p, 0)]
  proposals := 0
  verifications := 1
  cacheHits := 0
  statesExplored := (B.verifyProgram p spec).statesExplored
  candidateBudgetHit := false
  verificationBudgetHit := false
  depthTruncated := false
  editsTruncated := false
  sawUnknown := false
  queue := [0]

variable [FloatArith] (spec : ContractSpec) (cfg : SearchConfig)

def childNote (report : Report) : Option String :=
  if report.outcome = .pass && report.complete then some "accepted"
  else if report.outcome = .fail then none
  else if report.outcome = .unknown then some "analysis unknown; not expanded"
  else some "not expanded"

/-- A new program is verified and becomes a node. -/
def verifyChild (node : Node) (c : CirPatch) (patched : Ast.Program) (v : SearchState) :
    AttemptFlow × SearchState :=
  let childFp := B.programFingerprint patched
  let report := B.verifyProgram patched spec
  let parentId := (v.nodeByFp.lookup node.fingerprint).getD 0
  let parent := v.nodes[parentId]?
  let depth := (parent.map (·.depth)).getD 0 + 1
  let totalEdits := (parent.map (·.totalEdits)).getD 0 + c.changes.length
  let id := v.nodes.length
  (.verified id (report.outcome = .pass && report.complete),
    { v with
      verifications := v.verifications + 1
      statesExplored := v.statesExplored + report.statesExplored
      nodes := v.nodes ++ [⟨some parentId, depth, totalEdits, patched, childFp, report, some c⟩]
      nodeByFp := (childFp, id) :: v.nodeByFp
      nodeReports := v.nodeReports ++ [⟨id, some parentId, depth, totalEdits, childFp,
        some (B.appliedEdit c node.fingerprint childFp node.program), report,
        childNote report⟩] })

def attemptOutcome (node : Node) (c : CirPatch) (v : SearchState) : AttemptFlow × SearchState :=
  match checkAllowed spec.allowedScope c with
  | .error e => (.rejected ("disallowed: " ++ e.display), v)
  | .ok _ =>
      match B.apply node.program c with
      | .error e => (.rejected ("apply error: " ++ e.display), v)
      | .ok (patched, _) =>
          if !(B.validate patched).valid then (.rejected "static validation failed", v)
          else
            -- Programs seen before cost no verification.
            match v.nodeByFp.lookup (B.programFingerprint patched) with
            | some existing =>
                (.reused existing ((v.nodes[existing]?.map (·.report.outcome)).getD .unknown), v)
            | none =>
                if cfg.verificationBudget ≤ v.verifications then
                  (.budget (B.programFingerprint patched), { v with verificationBudgetHit := true })
                else B.verifyChild spec node c patched v

end Toolchain

/-- `str::starts_with`. -/
def startsWith (s head : String) : Bool := head.toList.isPrefixOf s.toList

def rejectedResult (reason : String) : String :=
  if startsWith reason "disallowed" then "denied"
  else if startsWith reason "apply" then "apply-error"
  else "static-invalid"

namespace SearchState

def fingerprintOf (v : SearchState) (node : ℕ) : Option String := v.nodes[node]?.map (·.fingerprint)

def outcomeOf (v : SearchState) (node : ℕ) : Option Outcome := v.nodes[node]?.map (·.report.outcome)

/-- Record what became of a proposal. -/
def recordAttempt (v : SearchState) (parent : ℕ) (c : CirPatch) (result : String)
    (reusedNode : Option ℕ) (fingerprint : Option String) (outcome : Option Outcome)
    (reason : Option String) : SearchState :=
  { v with
    attempts := v.attempts ++
      [⟨v.attempts.length, parent, some c, result, reusedNode, fingerprint, outcome, reason⟩] }

end SearchState

namespace Toolchain

variable (B : Toolchain) [FloatArith] (spec : ContractSpec) (cfg : SearchConfig)

/-- The report of an accepted repair. -/
def repaired (v : SearchState) (node : ℕ) : SearchReport :=
  { v.finish cfg spec.bounds .repaired "solved" none (B.buildChain v.nodes node)
      (v.nodes[node]?.map (·.program)) (v.nodes[node]?.map (·.report)) with
    acceptedNode := some node }

def tryCandidate (nid : ℕ) (node : Node) (c : CirPatch) (v : SearchState) : Flow :=
  match B.attemptOutcome spec cfg node c { v with proposals := v.proposals + 1 } with
  | (.reused k outcome, v) =>
      .next ({ v with cacheHits := v.cacheHits + 1 }.recordAttempt nid c "reused" (some k)
        (v.fingerprintOf k) (some outcome) (some "equivalent candidate already verified"))
  | (.verified k accepted, v) =>
      let v := v.recordAttempt nid c "verified" none (v.fingerprintOf k) (v.outcomeOf k) none
      if accepted then .done (B.repaired spec cfg v k)
      else if v.outcomeOf k = some .fail then
        -- The single-edit strategy only expands the root.
        .next (if cfg.strategy = .single then v else { v with queue := v.queue ++ [k] })
      else if v.outcomeOf k = some .unknown then .next { v with sawUnknown := true }
      else .next v
  | (.rejected reason, v) =>
      .next (v.recordAttempt nid c (rejectedResult reason) none none none (some reason))
  | (.budget fp, v) =>
      .stop ({ v with verificationBudgetHit := true }.recordAttempt nid c "budget-blocked" none
        (some fp) none (some "verification budget exhausted before this candidate was verified"))

/-- The budget is checked before the provider is asked, also when it has none left. -/
def expandNode (nid : ℕ) (node : Node) : List CirPatch → SearchState → Flow
  | [], v =>
      if cfg.candidateBudget ≤ v.proposals then .stop { v with candidateBudgetHit := true }
      else .next v
  | c :: cs, v =>
      if cfg.candidateBudget ≤ v.proposals then .stop { v with candidateBudgetHit := true }
      else
        match B.tryCandidate spec cfg nid node c v with
        | .next v => expandNode nid node cs v
        | flow => flow

def enumerator : RepairStrategy → Enumerator
  | .single => .lockOrder
  | .composite => .composite false
  | .diagnostic => .composite true

def candidatesOf (node : Node) : List CirPatch :=
  (enumerator cfg.strategy).candidates B ⟨node.program, spec, node.report⟩

/-- The search loop. Only proposals put nodes into the queue, so `candidateBudget + 2`
rounds are enough for it to run dry or to be left. -/
def searchLoop : ℕ → SearchState → Flow
  | 0, v => .stop v
  | fuel + 1, v =>
      match v.queue with
      | [] => .stop v
      | nid :: queue =>
          let v := { v with queue := queue }
          match v.nodes[nid]? with
          | none => .stop v
          | some node =>
              if cfg.maxDepth ≤ node.depth then
                searchLoop fuel ({ v with depthTruncated := true }.note nid
                  "not expanded: max_depth")
              else if cfg.maxTotalEdits ≤ node.totalEdits then
                searchLoop fuel ({ v with editsTruncated := true }.note nid
                  "not expanded: max_total_edits")
              else
                match B.expandNode spec cfg nid node (B.candidatesOf spec cfg node) v with
                | .next v => searchLoop fuel v
                | flow => flow

def emptyReport (outcome : RepairOutcome) (stopReason : String) : SearchReport where
  strategy := cfg.strategy
  outcome := outcome
  stopReason := stopReason
  sawUnknown := false
  truncation := none
  effectiveBounds := spec.bounds
  proposals := 0
  uniquePrograms := 0
  verifications := 0
  cacheHits := 0
  statesExplored := 0
  nodes := []
  attempts := []
  patchChain := []
  acceptedNode := none
  acceptedProgram := none
  acceptedReport := none

/-- A search that ends with the root. -/
def rootOnly (v : SearchState) (outcome : RepairOutcome) (stopReason : String) : SearchReport :=
  v.finish cfg spec.bounds outcome stopReason none [] none none

def searchFrom (v : SearchState) : SearchReport :=
  match B.searchLoop spec cfg (cfg.candidateBudget + 2) v with
  | .done r => r
  | .next v | .stop v =>
      v.finish cfg spec.bounds v.facts.classify.1 v.facts.classify.2.1 v.facts.classify.2.2
        [] none none

/-- Run the budgeted search. -/
def runSearch (p : Ast.Program) : SearchReport :=
  if cfg.verificationBudget = 0 then
    emptyReport spec cfg .invalidConfig "verification-budget-zero"
  else
    let v := B.startState p spec
    let report := B.verifyProgram p spec
    match report.outcome with
    | .pass =>
        if report.complete then rootOnly spec cfg v .alreadySatisfied "already-satisfied"
        else B.searchFrom spec cfg v
    | .invalid => rootOnly spec cfg v .invalid "root-invalid"
    | .unsupported => rootOnly spec cfg v .unsupported "root-unsupported"
    | .unknown =>
        rootOnly spec cfg { v with sawUnknown := true } .analysisUnknown "root-unknown"
    | .fail => B.searchFrom spec cfg v

end Toolchain

end Repair

end ConcIR
