import ConcIR.Repair.Chains

/-!
# Replaying a recorded search

The artifact of a search, and the second look at it: its structure, the nodes rebuilt from
the input, every attempt explained by its patch, the classification derived again from the
recorded graph, and the accepted chain.
-/

namespace ConcIR

namespace Repair

structure SourceIdentity where
  crateVersion : String
  binaryFingerprint : String

structure EffectiveConfig extends SearchConfig where
  bounds : AnalysisBounds

structure Counts where
  proposals : ℕ
  uniqueCandidatePrograms : ℕ
  verificationCalls : ℕ
  cacheHits : ℕ
  statesExplored : ℕ
  nodes : ℕ

structure SearchArtifact where
  schemaVersion : String
  source : SourceIdentity
  inputProgram : Ast.Program
  frozenContract : ContractSpec
  effectiveConfig : EffectiveConfig
  nodes : List NodeReport
  attempts : List AttemptReport
  patchChain : List AppliedEdit
  acceptedNode : Option ℕ
  acceptedProgram : Option Ast.Program
  acceptedReport : Option Report
  outcome : RepairOutcome
  stopReason : String
  sawUnknown : Bool
  truncation : Option String
  counts : Counts
  reproduce : String

structure ReplayResult where
  nodes : ℕ
  inputOutcome : Outcome
  acceptedOk : Option Bool
  acceptedNode : Option ℕ
  chainLen : ℕ
  outcome : RepairOutcome

section Texts

def debugOutcome : Outcome → String
  | .pass => "Pass"
  | .fail => "Fail"
  | .unknown => "Unknown"
  | .invalid => "Invalid"
  | .unsupported => "Unsupported"

def RepairOutcome.debug : RepairOutcome → String
  | .repaired => "Repaired"
  | .alreadySatisfied => "AlreadySatisfied"
  | .noAcceptableCandidate => "NoAcceptableCandidate"
  | .budgetExhausted => "BudgetExhausted"
  | .analysisUnknown => "AnalysisUnknown"
  | .invalid => "Invalid"
  | .unsupported => "Unsupported"
  | .invalidConfig => "InvalidConfig"

def RepairStrategy.letter : RepairStrategy → String
  | .single => "a"
  | .composite => "b"
  | .diagnostic => "c"

def debugBounds (b : AnalysisBounds) : String :=
  "AnalysisBounds \x7b " ++
    s!"max_threads: {b.maxThreads}, max_frames_per_thread: {b.maxFramesPerThread}, " ++
    s!"max_states: {b.maxStates}, max_depth: {b.maxDepth}, " ++
    s!"max_boundary_events: {b.maxBoundaryEvents}" ++ " \x7d"

def debugOption {α : Type} (f : α → String) : Option α → String
  | none => "None"
  | some x => "Some(" ++ f x ++ ")"

end Texts

section Guards

variable {α β : Type} {c : Prop} [Decidable c] {msg : String}

/-- Refuse with a message unless a condition holds. -/
def ensure (c : Prop) [Decidable c] (msg : String) : Except String Unit :=
  if c then .ok () else .error msg

/-- `ok_or_else`. -/
def present (x : Option α) (msg : String) : Except String α :=
  match x with
  | some a => .ok a
  | none => .error msg

/-- The checks of all entries of a list, with their positions. -/
def checkAll (f : ℕ → α → Except String Unit) : ℕ → List α → Except String Unit
  | _, [] => .ok ()
  | i, x :: xs => do
      f i x
      checkAll f (i + 1) xs

theorem ensure_eq_ok {u : Unit} : ensure c msg = .ok u ↔ c := by
  rw [ensure]
  split_ifs with h
  · simp [h]
  · simp [h]

theorem ensure_bind_ok {next : Unit → Except String α} {x : α} :
    (ensure c msg >>= next) = .ok x ↔ c ∧ next () = .ok x := by
  rw [ensure]
  split_ifs with h
  · simp [h, bind, Except.bind]
  · simp [h, bind, Except.bind]

theorem present_bind_ok {a : Option α} {next : α → Except String β} {x : β} :
    (present a msg >>= next) = .ok x ↔ ∃ y, a = some y ∧ next y = .ok x := by
  cases a <;> simp [present, bind, Except.bind]

theorem checkAll_ok {f : ℕ → α → Except String Unit} {xs : List α} {k : ℕ} :
    checkAll f k xs = .ok () ↔ ∀ i x, xs[i]? = some x → f (k + i) x = .ok () := by
  induction xs generalizing k with
  | nil => simp [checkAll]
  | cons y ys ih =>
      have hstep : checkAll f k (y :: ys) = .ok () ↔
          f k y = .ok () ∧ checkAll f (k + 1) ys = .ok () := by
        rw [checkAll]
        cases f k y with
        | error e => simp [bind, Except.bind]
        | ok u => simp [bind, Except.bind]
      rw [hstep, ih]
      constructor
      · rintro ⟨hy, hys⟩ i x hx
        cases i with
        | zero =>
            obtain rfl : y = x := Option.some.inj hx
            exact hy
        | succ i =>
            have := hys i x hx
            rwa [Nat.add_right_comm] at this
      · intro h
        refine ⟨h 0 y rfl, fun i x hx ↦ ?_⟩
        have := h (i + 1) x hx
        rwa [Nat.add_right_comm, Nat.add_assoc]

end Guards

section Artifacts

variable (B : Toolchain)

/-- The artifact of a run. -/
def SearchReport.artifact (r : SearchReport) (p : Ast.Program) (spec : ContractSpec)
    (cfg : SearchConfig) : SearchArtifact where
  schemaVersion := "concir-repair-artifact-v1"
  source := ⟨B.crateVersion, B.binaryFingerprint⟩
  inputProgram := p
  frozenContract := spec
  effectiveConfig := ⟨cfg, r.effectiveBounds⟩
  nodes := r.nodes
  attempts := r.attempts
  patchChain := r.patchChain
  acceptedNode := r.acceptedNode
  acceptedProgram := r.acceptedProgram
  acceptedReport := r.acceptedReport
  outcome := r.outcome
  stopReason := r.stopReason
  sawUnknown := r.sawUnknown
  truncation := r.truncation
  counts := ⟨r.proposals, r.uniquePrograms, r.verifications, r.cacheHits, r.statesExplored,
    r.nodes.length⟩
  reproduce := "concir-backend repair <program.json> <contract.json> --strategy " ++
    cfg.strategy.letter ++ s!"   # candidate_budget={cfg.candidateBudget} " ++
    s!"verification_budget={cfg.verificationBudget} max_depth={cfg.maxDepth} " ++
    s!"max_total_edits={cfg.maxTotalEdits} bounds=" ++ debugBounds r.effectiveBounds

end Artifacts

section Structure

/-- The strategy would expand the node. -/
def nodeIsExpandable (strategy : RepairStrategy) (n : NodeReport) : Bool :=
  if n.report.outcome ≠ .fail then false else n.id = 0 || strategy ≠ .single

/-- The shape of one node. -/
def checkNode (nodes : List NodeReport) (i : ℕ) (n : NodeReport) : Except String Unit := do
  ensure (n.id = i) s!"node at position {i} has non-sequential id {n.id}"
  match n.parent with
  | none => do
      ensure (i = 0) s!"node {i} has no parent but is not the root"
      ensure (n.depth = 0 ∧ n.totalEdits = 0 ∧ n.incoming.isNone)
        "root node must have depth 0, 0 edits, and no incoming patch"
  | some p => do
      ensure (i ≠ 0) "root node must not have a parent"
      ensure (p < i) s!"node {i} parent {p} is not an earlier node (cycle)"
      let parent ← present nodes[p]? "index out of bounds"
      let edit ← present n.incoming s!"node {i} has a parent but no incoming patch"
      ensure (n.depth = parent.depth + 1) s!"node {i} depth {n.depth} != parent depth + 1"
      ensure (n.totalEdits = parent.totalEdits + edit.changes.length)
        s!"node {i} total_edits is inconsistent with its edit count"

/-- The shape of one attempt, by its recorded result. -/
def checkAttemptShape (nodes : List NodeReport) (i : ℕ) (a : AttemptReport) :
    Except String Unit := do
  ensure (a.id = i) s!"attempt at position {i} has non-sequential id {a.id}"
  ensure (a.parent < nodes.length) s!"attempt {i} references missing parent node {a.parent}"
  ensure a.patch.isSome s!"attempt {i} has no patch"
  if a.result = "verified" then do
    let fp ← present a.programFingerprint s!"verified attempt {i} has no program fingerprint"
    let node ← present (nodes.find? (·.programFingerprint = fp))
      s!"verified attempt {i} references no node"
    ensure (node.parent = some a.parent)
      (s!"verified attempt {i} parent {a.parent} != node {node.id} parent " ++
        debugOption toString node.parent)
    ensure (a.outcome = some node.report.outcome) s!"verified attempt {i} outcome != node outcome"
    ensure a.reusedNode.isNone s!"verified attempt {i} must not set reused_node"
  else if a.result = "reused" then do
    let reused ← present a.reusedNode s!"reused attempt {i} has no reused_node"
    let node ← present nodes[reused]?
      s!"reused attempt {i} references missing node {reused}"
    ensure (a.programFingerprint = some node.programFingerprint)
      s!"reused attempt {i} fingerprint != reused node fingerprint"
    ensure (a.outcome = some node.report.outcome)
      s!"reused attempt {i} outcome != reused node outcome"
  else if a.result = "budget-blocked" then do
    ensure a.programFingerprint.isSome s!"budget-blocked attempt {i} has no program fingerprint"
    ensure (a.reusedNode.isNone ∧ a.outcome.isNone)
      s!"budget-blocked attempt {i} must have no node or outcome"
  else if a.result = "denied" ∨ a.result = "apply-error" ∨ a.result = "static-invalid" then
    ensure (a.programFingerprint.isNone ∧ a.reusedNode.isNone ∧ a.outcome.isNone)
      s!"rejected attempt {i} must have no fingerprint, node, or outcome"
  else .error (s!"attempt {i} has unknown result '" ++ a.result ++ "'")

def maxOf (xs : List ℕ) : ℕ := xs.foldr max 0

/-- The counts that follow from the nodes and the attempts. -/
def checkCounts (a : SearchArtifact) : Except String Unit := do
  let proposals := a.attempts.length
  let unique := a.nodes.length
  let cacheHits := (a.attempts.filter (·.result = "reused")).length
  let states := (a.nodes.map (·.report.statesExplored)).sum
  ensure (a.counts.proposals = proposals)
    s!"counts.proposals {a.counts.proposals} != attempts {proposals}"
  ensure (a.counts.uniqueCandidatePrograms = unique)
    s!"counts.unique_candidate_programs {a.counts.uniqueCandidatePrograms} != nodes {unique}"
  ensure (a.counts.verificationCalls = unique)
    s!"counts.verification_calls {a.counts.verificationCalls} != verified nodes {unique}"
  ensure (a.counts.cacheHits = cacheHits)
    s!"counts.cache_hits {a.counts.cacheHits} != reused attempts {cacheHits}"
  ensure (a.counts.statesExplored = states)
    s!"counts.states_explored {a.counts.statesExplored} != sum of node states {states}"
  ensure (a.counts.nodes = unique) s!"counts.nodes {a.counts.nodes} != nodes {unique}"

def checkBudgets (a : SearchArtifact) : Except String Unit := do
  let cfg := a.effectiveConfig
  let maxDepth := maxOf (a.nodes.map (·.depth))
  ensure (a.attempts.length ≤ cfg.candidateBudget)
    "candidate_budget is smaller than the recorded proposals"
  ensure (a.counts.verificationCalls ≤ cfg.verificationBudget)
    "verification_budget is smaller than the recorded verification calls"
  ensure (maxDepth ≤ cfg.maxDepth) "a node is deeper than max_depth"
  ensure (maxOf (a.nodes.map (·.totalEdits)) ≤ cfg.maxTotalEdits)
    "a node has more edits than max_total_edits"
  ensure (¬(cfg.strategy = .single ∧ 1 < maxDepth))
    "strategy single produced a node deeper than one edit"
  -- The single-edit strategy only expands the root.
  ensure (¬(cfg.strategy = .single ∧ ∃ n ∈ a.nodes, n.id ≠ 0 ∧ n.parent ≠ some 0))
    "strategy single has a node that does not descend from the root"
  ensure (¬(cfg.strategy = .single ∧ ∃ x ∈ a.attempts, x.parent ≠ 0))
    "strategy single has an attempt not rooted at node 0"
  ensure (¬(cfg.verificationBudget = 0 ∧ (a.nodes ≠ [] ∨ a.counts.verificationCalls ≠ 0)))
    "verification_budget=0 must have no verified nodes"

/-- The outcome fits what is said to be accepted. -/
def checkAccepted (a : SearchArtifact) : Except String Unit :=
  match a.outcome with
  | .repaired =>
      ensure (a.acceptedProgram.isSome ∧ a.acceptedReport.isSome ∧ a.acceptedNode.isSome ∧
          a.patchChain ≠ [])
        "repaired artifact must have an accepted node, chain, program, and report"
  | .alreadySatisfied =>
      ensure (a.nodes.length = 1 ∧ (∃ n ∈ a.nodes.head?, n.report.outcome = .pass ∧
          n.report.complete = true) ∧ a.patchChain = [] ∧ a.acceptedProgram.isNone)
        "already_satisfied must have one PASS root and no accepted result"
  | .invalid => checkRoot a .invalid
  | .unsupported => checkRoot a .unsupported
  | .invalidConfig =>
      ensure (a.nodes = [] ∧ a.counts.verificationCalls = 0)
        "invalid_config must have no nodes or verifications"
  | outcome => do
      ensure (a.acceptedProgram.isNone ∧ a.patchChain = [])
        (outcome.debug ++ " must not carry an accepted result")
      ensure (a.nodes ≠ []) (outcome.debug ++ " must retain the root report")
where
  /-- A search that ended with a root that cannot be searched. -/
  checkRoot (a : SearchArtifact) (expected : Outcome) : Except String Unit := do
    ensure (a.nodes.length = 1 ∧ a.acceptedProgram.isNone ∧ a.patchChain = [])
      (a.outcome.debug ++ " must have a single root report and no accepted result")
    ensure (∃ n ∈ a.nodes.head?, n.report.outcome = expected)
      "root report outcome is incompatible with the artifact outcome"

/-- Structural validation, done before any expensive verification. -/
def validateStructure (a : SearchArtifact) : Except String Unit := do
  ensure (a.schemaVersion = "concir-repair-artifact-v1")
    ("unknown artifact schema '" ++ a.schemaVersion ++ "'")
  ensure (a.source.crateVersion ≠ "" ∧ a.source.binaryFingerprint ≠ "")
    "artifact is missing source identity"
  checkAll (checkNode a.nodes) 0 a.nodes
  ensure (a.effectiveConfig.bounds = a.frozenContract.bounds)
    ("effective_config.bounds " ++ debugBounds a.effectiveConfig.bounds ++
      " != frozen contract bounds " ++ debugBounds a.frozenContract.bounds)
  checkAll (checkAttemptShape a.nodes) 0 a.attempts
  checkCounts a
  checkBudgets a
  checkAccepted a

end Structure

section Evidence

/-- The facts that the recorded graph supports. -/
def deriveTerminalFacts (a : SearchArtifact) : TerminalFacts :=
  let cfg := a.effectiveConfig
  let expandable := nodeIsExpandable cfg.strategy
  let verificationBudgetHit := a.attempts.any (·.result = "budget-blocked")
  let canExpand := a.nodes.any fun n ↦ expandable n && decide (n.depth < cfg.maxDepth) &&
    decide (n.totalEdits < cfg.maxTotalEdits)
  { rootUnknown := match a.nodes with
      | [n] => n.report.outcome = .unknown
      | _ => false
    -- The candidate budget is only looked at while an allowed node is expanded.
    candidateBudgetHit := !verificationBudgetHit &&
      decide (cfg.candidateBudget ≤ a.counts.proposals) && canExpand
    verificationBudgetHit := verificationBudgetHit
    depthTruncated := a.nodes.any fun n ↦ expandable n && decide (cfg.maxDepth ≤ n.depth)
    editsTruncated := a.nodes.any fun n ↦ expandable n && decide (n.depth < cfg.maxDepth) &&
      decide (cfg.maxTotalEdits ≤ n.totalEdits)
    sawUnknown := a.nodes.any (·.report.outcome = .unknown) }

/-- The stop reason of an outcome that needs no facts. -/
def simpleEvidence (a : SearchArtifact) (want : String) : Except String Unit := do
  ensure (a.stopReason = want) ("outcome " ++ a.outcome.debug ++ " requires stop_reason '" ++
    want ++ "', got '" ++ a.stopReason ++ "'")
  ensure a.truncation.isNone ("outcome " ++ a.outcome.debug ++ " must not record truncation")

/-- The classification has to follow from the recorded facts. -/
def validateOutcomeEvidence (B : Toolchain) (a : SearchArtifact) : Except String Unit := do
  let facts := deriveTerminalFacts a
  ensure (a.sawUnknown = facts.sawUnknown)
    s!"saw_unknown={a.sawUnknown} does not match the recorded UNKNOWN results ({facts.sawUnknown})"
  match a.outcome with
  | .repaired => simpleEvidence a "solved"
  | .alreadySatisfied => simpleEvidence a "already-satisfied"
  | .invalid => simpleEvidence a "root-invalid"
  | .unsupported => simpleEvidence a "root-unsupported"
  | .invalidConfig => simpleEvidence a "verification-budget-zero"
  | outcome => do
      let expected := facts.classify
      ensure (outcome = expected.1) ("outcome " ++ outcome.debug ++
        " is not supported by the recorded search facts (expected " ++ expected.1.debug ++ ")")
      ensure (a.stopReason = expected.2.1) ("stop_reason '" ++ a.stopReason ++
        "' is not supported by the recorded search facts (expected '" ++ expected.2.1 ++ "')")
      ensure (a.truncation = expected.2.2) ("truncation " ++
        debugOption B.debugString a.truncation ++
        " does not match the recorded search facts (expected " ++
        debugOption B.debugString expected.2.2 ++ ")")

end Evidence

section Attempts

variable (B : Toolchain) (a : SearchArtifact)

def allowedOr (scope : PatchScope) (c : CirPatch) (context : String) : Except String Unit :=
  match checkAllowed scope c with
  | .ok _ => .ok ()
  | .error e => .error (context ++ ": " ++ e.display)

def appliedOr (p : Ast.Program) (c : CirPatch) (context : String) : Except String Ast.Program :=
  match B.apply p c with
  | .ok (patched, _) => .ok patched
  | .error e => .error (context ++ ": " ++ e.display)

/-- Whether the patch of one attempt explains its result, when `k` nodes had been verified
before. The number of nodes verified after it. -/
def validateAttempt (rebuilt : List Ast.Program) (i : ℕ) (x : AttemptReport) (k : ℕ) :
    Except String ℕ := do
  let parent ← present rebuilt[x.parent]?
    s!"attempt {i}: parent node {x.parent} was not rebuilt"
  let patch ← present x.patch s!"attempt {i}: no patch"
  let scope := a.frozenContract.allowedScope
  if x.result = "denied" then do
    ensure (checkAllowed scope patch ≠ .ok ())
      s!"attempt {i}: recorded denied but the frozen contract allows the patch"
    .ok k
  else if x.result = "apply-error" then do
    allowedOr scope patch s!"attempt {i}: recorded apply-error but it is disallowed"
    match B.apply parent patch with
    | .ok _ => .error s!"attempt {i}: recorded apply-error but the patch applies"
    | .error _ => .ok k
  else if x.result = "static-invalid" then do
    allowedOr scope patch s!"attempt {i}: recorded static-invalid but it is disallowed"
    let patched ← appliedOr B parent patch
      s!"attempt {i}: recorded static-invalid but it does not apply"
    ensure ((B.validate patched).valid = false)
      s!"attempt {i}: recorded static-invalid but the program validates"
    .ok k
  else if x.result = "verified" then do
    allowedOr scope patch s!"attempt {i}: verified patch is disallowed"
    let patched ← appliedOr B parent patch s!"attempt {i}: verified patch does not apply"
    let fp := B.programFingerprint patched
    ensure (x.programFingerprint = some fp) s!"attempt {i}: verified result fingerprint mismatch"
    let node ← present
      (a.nodes[k]?.filter fun n ↦ n.programFingerprint = fp && n.parent = some x.parent)
      s!"attempt {i}: no node at verification position {k} matches its result"
    let inc ← present node.incoming s!"attempt {i}: verified node has no incoming patch"
    ensure (inc.module = patch.module ∧ inc.function = patch.function ∧
        inc.changes = patch.changes ∧ inc.originalFunctionHash = patch.originalHash)
      s!"attempt {i}: verified node incoming patch does not match the attempt patch"
    .ok (k + 1)
  else if x.result = "reused" then do
    allowedOr scope patch s!"attempt {i}: reused patch is disallowed"
    let patched ← appliedOr B parent patch s!"attempt {i}: reused patch does not apply"
    let fp := B.programFingerprint patched
    ensure (x.programFingerprint = some fp) s!"attempt {i}: reused result fingerprint mismatch"
    let reused ← present x.reusedNode "unwrap of a missing reused_node"
    ensure (reused < k) s!"attempt {i}: reused node {reused} was not verified before this attempt"
    let node ← present a.nodes[reused]? "index out of bounds"
    ensure (node.programFingerprint = fp) s!"attempt {i}: reused node fingerprint mismatch"
    .ok k
  else if x.result = "budget-blocked" then do
    allowedOr scope patch s!"attempt {i}: budget-blocked patch is disallowed"
    let patched ← appliedOr B parent patch s!"attempt {i}: budget-blocked patch does not apply"
    let fp := B.programFingerprint patched
    ensure (x.programFingerprint = some fp)
      s!"attempt {i}: budget-blocked result fingerprint mismatch"
    ensure ((B.validate patched).valid = true)
      s!"attempt {i}: budget-blocked candidate is not statically valid"
    ensure (∀ n ∈ a.nodes, n.programFingerprint ≠ fp)
      s!"attempt {i}: budget-blocked candidate was already verified as a node"
    ensure (a.effectiveConfig.verificationBudget ≤ k)
      s!"attempt {i}: budget-blocked but the verification budget is not exhausted"
    .ok k
  else .ok k

/-- The attempts in order; the number of nodes they account for. -/
def attemptsFrom (rebuilt : List Ast.Program) : ℕ → ℕ → List AttemptReport → Except String ℕ
  | _, k, [] => .ok k
  | i, k, x :: xs => do
      let k ← validateAttempt B a rebuilt i x k
      attemptsFrom rebuilt (i + 1) k xs

/-- Nodes are verified in the order of the attempts, the root first. -/
def validateAttempts (rebuilt : List Ast.Program) : Except String Unit := do
  let k ← attemptsFrom B a rebuilt 0 (if a.nodes = [] then 0 else 1) a.attempts
  ensure (k = a.nodes.length)
    s!"verified attempts account for {k} nodes but {a.nodes.length} are recorded"

end Attempts

section Reports

variable (B : Toolchain)

/-- What a diagnostic says, without its prose. -/
structure DiagNorm where
  property : String
  outcome : Outcome
  complete : Bool
  counterexample : List StepLabel
  blocked : List BlockedRecord
  instances : List InstanceState
  cirStatements : List CirStatementRef
deriving DecidableEq

def diagNorm (d : DiagnosticRecord) : DiagNorm where
  property := d.property
  outcome := d.outcome
  complete := d.complete
  counterexample := d.counterexample
  blocked := d.blocked.map fun b ↦ { b with detail := "" }
  instances := d.finalInstances
  cirStatements := d.cirStatements

def Report.verdicts (r : Report) : List (String × Outcome) :=
  r.properties.map fun p ↦ (p.id, p.outcome)

def debugVerdicts (vs : List (String × Outcome)) : String :=
  "[" ++ joinWith ", " (vs.map fun v ↦
    "(" ++ B.debugString v.1 ++ ", " ++ debugOutcome v.2 ++ ")") ++ "]"

/-- Compare the normative fields of two reports. -/
def reportsMatch (a b : Report) (what : String) : Except String Unit := do
  ensure (a.outcome = b.outcome)
    (what ++ ": outcome " ++ debugOutcome a.outcome ++ " != recorded " ++ debugOutcome b.outcome)
  ensure (a.complete = b.complete)
    (what ++ s!": complete {a.complete} != recorded {b.complete}")
  ensure (a.analysisStarted = b.analysisStarted) (what ++ ": analysis_started mismatch")
  ensure (a.statesExplored = b.statesExplored)
    (what ++ s!": states_explored {a.statesExplored} != recorded {b.statesExplored}")
  ensure (a.transitionsExplored = b.transitionsExplored)
    (what ++ s!": transitions_explored {a.transitionsExplored} != recorded " ++
      toString b.transitionsExplored)
  ensure (a.modelFingerprint = b.modelFingerprint) (what ++ ": model fingerprint mismatch")
  ensure (a.contractFingerprint = b.contractFingerprint)
    (what ++ ": contract fingerprint mismatch")
  ensure (a.assumptions = b.assumptions) (what ++ ": assumptions mismatch")
  ensure (a.bounds = b.bounds) (what ++ ": analysis bounds mismatch")
  ensure (a.verdicts = b.verdicts) (what ++ ": property verdicts differ: " ++
    debugVerdicts B a.verdicts ++ " != recorded " ++ debugVerdicts B b.verdicts)
  ensure (a.diagnostics.map diagNorm = b.diagnostics.map diagNorm)
    (what ++ ": structured diagnostic evidence differs")
  ensure (a.unsupported.map (fun u ↦ (u.construct, u.location)) =
      b.unsupported.map fun u ↦ (u.construct, u.location))
    (what ++ ": unsupported construct set differs")
  ensure (a.invalid.map (fun i ↦ (i.code, i.location)) =
      b.invalid.map fun i ↦ (i.code, i.location))
    (what ++ ": invalid set differs")
  ensure (a.boundaryEvents.map (·.kind) = b.boundaryEvents.map (·.kind) ∧
      a.boundaryBindings = b.boundaryBindings)
    (what ++ ": boundary event evidence differs")

end Reports

section Replay

variable (B : Toolchain) [FloatArith] (a : SearchArtifact)

omit [FloatArith] in
/-- The program of one node, from the programs of the nodes before it. Ids are positions. -/
def rebuildNode (rebuilt : List Ast.Program) (n : NodeReport) : Except String Ast.Program :=
  match n.parent with
  | none => .ok a.inputProgram
  | some p => do
      let base ← present rebuilt[p]? s!"node {n.id} references missing parent {p}"
      let edit ← present n.incoming s!"node {n.id} has a parent but no incoming patch"
      let patch := patchFromEdit s!"replay:node:{n.id}" edit
      allowedOr a.frozenContract.allowedScope patch
        s!"node {n.id}: patch is not allowed by the frozen contract"
      ensure (edit.parentFingerprint = B.programFingerprint base)
        s!"node {n.id}: incoming parent fingerprint mismatch"
      let patched ← appliedOr B base patch s!"node {n.id}: patch does not apply to its parent"
      ensure (B.programFingerprint patched = n.programFingerprint)
        s!"node {n.id}: rebuilt fingerprint mismatch"
      ensure (edit.programFingerprint = n.programFingerprint)
        s!"node {n.id}: incoming result fingerprint mismatch"
      .ok patched

/-- Rebuild and verify again the nodes after the first ones. -/
def rebuildFrom (rebuilt : List Ast.Program) : List NodeReport → Except String (List Ast.Program)
  | [] => .ok rebuilt
  | n :: ns => do
      let p ← rebuildNode B a rebuilt n
      reportsMatch B (B.verifyProgram p a.frozenContract) n.report s!"node {n.id}"
      rebuildFrom (rebuilt ++ [p]) ns

/-- The states explored when the rebuilt programs are verified again. -/
def freshStates (rebuilt : List Ast.Program) : ℕ :=
  (rebuilt.map fun p ↦ (B.verifyProgram p a.frozenContract).statesExplored).sum

omit [FloatArith] in
/-- Apply a chain: the program, its fingerprint and the number of changes at the end. -/
def replayChain (i : ℕ) (p : Ast.Program) (fp : String) (edits : ℕ) :
    List AppliedEdit → Except String (Ast.Program × String × ℕ)
  | [] => .ok (p, fp, edits)
  | e :: es => do
      let patch := patchFromEdit s!"replay:chain:{i}" e
      allowedOr a.frozenContract.allowedScope patch
        s!"patch_chain[{i}] is not allowed by the frozen contract"
      ensure (e.parentFingerprint = fp) s!"patch_chain[{i}] parent fingerprint mismatch"
      let patched ← appliedOr B p patch s!"patch_chain[{i}] does not apply"
      ensure (B.programFingerprint patched = e.programFingerprint)
        s!"patch_chain[{i}] result fingerprint mismatch"
      replayChain (i + 1) patched (B.programFingerprint patched) (edits + e.changes.length) es

/-- Replay what was accepted; the id of its node. -/
def replayAccepted : Except String ℕ := do
  let id ← present a.acceptedNode "repaired artifact has no accepted_node"
  let node ← present a.nodes[id]? s!"accepted_node {id} is out of range"
  ensure (node.depth = a.patchChain.length)
    s!"accepted node depth {node.depth} != patch chain length {a.patchChain.length}"
  let (_, fp, edits) ← replayChain B a 0 a.inputProgram (B.programFingerprint a.inputProgram) 0
    a.patchChain
  ensure (edits = node.totalEdits)
    s!"patch chain edits {edits} != accepted node total_edits {node.totalEdits}"
  ensure (fp = node.programFingerprint)
    "patch chain end does not match the accepted node fingerprint"
  let accepted ← present a.acceptedProgram "repaired artifact has no accepted_program"
  ensure (B.programFingerprint accepted = fp)
    "patch chain result does not match accepted_program"
  let re := B.verifyProgram accepted a.frozenContract
  let report ← present a.acceptedReport "repaired artifact has no accepted_report"
  reportsMatch B re report "accepted report"
  reportsMatch B re node.report "accepted node report"
  ensure (re.outcome = .pass ∧ re.complete = true)
    ("accepted program does not re-verify to a complete PASS (got " ++ debugOutcome re.outcome ++ ")")
  .ok id

/-- The replay of an artifact that has nodes. -/
def replayNodes (root : NodeReport) : Except String ReplayResult := do
  let inputReport := B.verifyProgram a.inputProgram a.frozenContract
  ensure (root.programFingerprint = B.programFingerprint a.inputProgram)
    "root node fingerprint does not match the input program"
  reportsMatch B inputReport root.report "root node"
  let rebuilt ← rebuildFrom B a [] a.nodes
  validateAttempts B a rebuilt
  validateOutcomeEvidence B a
  ensure (freshStates B a rebuilt = a.counts.statesExplored)
    (s!"counts.states_explored {a.counts.statesExplored} != freshly re-verified sum " ++
      toString (freshStates B a rebuilt))
  if a.outcome = .repaired then do
    let id ← replayAccepted B a
    .ok ⟨rebuilt.length, inputReport.outcome, some true, some id, a.patchChain.length, a.outcome⟩
  else do
    ensure (a.acceptedProgram.isNone ∧ a.acceptedReport.isNone)
      "non-repaired artifact must not carry an accepted program or report"
    .ok ⟨rebuilt.length, inputReport.outcome, none, none, a.patchChain.length, a.outcome⟩

/-- The replay of a parsed artifact. -/
def replayParsed : Except String ReplayResult := do
  validateStructure a
  match a.nodes with
  | [] => do
      ensure (a.outcome = .invalidConfig) "artifact has no nodes but is not invalid_config"
      .ok ⟨0, (B.verifyProgram a.inputProgram a.frozenContract).outcome, none, none, 0, a.outcome⟩
  | root :: _ => replayNodes B a root

/-- The text of an artifact, written and read by the JSON library. -/
structure ArtifactFormat where
  write : SearchArtifact → String
  read : String → Except String SearchArtifact

/-- `replay_artifact`. -/
def replayArtifact (F : ArtifactFormat) (text : String) : Except String ReplayResult :=
  match F.read text with
  | .error e => .error ("artifact parse: " ++ e)
  | .ok a => replayParsed B a

end Replay

end Repair

end ConcIR
