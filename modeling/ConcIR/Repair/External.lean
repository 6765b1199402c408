import ConcIR.Repair.Negative

/-!
# Patches submitted from outside

A submitted patch is evaluated against a frozen context: bound to it, held to one swap of
two lock acquisitions, checked, applied and verified. The artifact is replayed from its
embedded inputs.
-/

namespace ConcIR

namespace Repair

structure LockSite where
  sid : String
  resource : String

structure FunctionContext where
  module : String
  function : String
  originalHash : String
  locks : List LockSite
  /-- Statements that jumps lead to. -/
  controlTargets : List String

structure RepairContextArtifact where
  schemaVersion : String
  source : SourceIdentity
  modelFingerprint : String
  contractFingerprint : String
  contextFingerprint : String
  allowedScope : PatchScope
  inputProgram : Ast.Program
  frozenContract : ContractSpec
  rootReport : Report
  functions : List FunctionContext
  reproduce : String

/-- The patch as the provider sent it. -/
structure SubmittedPatch where
  module : String
  function : String
  originalHash : String
  changes : List PatchChange

structure ExternalPatchCandidate where
  schemaVersion : String
  contextFingerprint : String
  patch : SubmittedPatch

structure RejectReason where
  code : String
  detail : String

structure ExternalPatchArtifact where
  schemaVersion : String
  source : SourceIdentity
  contextFingerprint : String
  modelFingerprint : String
  contractFingerprint : String
  allowedScope : PatchScope
  inputProgram : Ast.Program
  frozenContract : ContractSpec
  rootReport : Report
  submitted : ExternalPatchCandidate
  patch : CirPatch
  patchChain : List AppliedEdit
  patchedProgram : Option Ast.Program
  patchedProgramFingerprint : Option String
  staticValid : Bool
  supported : Bool
  verification : Option Report
  accepted : Bool
  status : String
  rejectReason : Option RejectReason
  reproduce : String

def contextSchema : String := "concir-repair-context-v1"

def candidateSchema : String := "concir-external-patch-candidate-v1"

def artifactSchema : String := "concir-external-patch-artifact-v1"

/-- The texts of contexts, candidates and artifacts. -/
structure ExternalFormat where
  contextJson : RepairContextArtifact → Except String String
  readContext : String → Except String RepairContextArtifact
  readCandidate : String → Except String ExternalPatchCandidate
  writeArtifact : ExternalPatchArtifact → String
  readArtifact : String → Except String ExternalPatchArtifact

section Contexts

variable (B : Toolchain) (F : ExternalFormat)

/-- A context without its own fingerprint. -/
def RepairContextArtifact.blank (ctx : RepairContextArtifact) : RepairContextArtifact :=
  { ctx with contextFingerprint := "" }

def ExternalFormat.fingerprint (ctx : RepairContextArtifact) : String :=
  fnv (textOr (F.contextJson ctx.blank))

def lockSite (s : Ast.Stmt) : Option LockSite :=
  match s.op with
  | .mutexLock resource => some ⟨s.sid, resource⟩
  | _ => none

def functionContexts (p : Ast.Program) : List FunctionContext :=
  p.modules.flatMap fun m ↦ m.functions.map fun f ↦
    { module := m.name
      function := f.name
      originalHash := match B.functionHash p m.name f.name with
        | .ok hash => hash
        | .error _ => ""
      locks := f.body.filterMap lockSite
      controlTargets := (f.body.map (·.sid)).filter (isControlTarget f) }

variable [FloatArith]

/-- The context before its fingerprint is taken. -/
def openContext (p : Ast.Program) (spec : ContractSpec) : RepairContextArtifact :=
  let rootReport := B.verifyProgram p spec
  { schemaVersion := contextSchema
    source := ⟨B.crateVersion, B.binaryFingerprint⟩
    modelFingerprint := B.programFingerprint p
    contractFingerprint := rootReport.contractFingerprint
    contextFingerprint := ""
    allowedScope := spec.allowedScope
    inputProgram := p
    frozenContract := spec
    rootReport := rootReport
    functions := functionContexts B p
    reproduce := "concir-backend repair-context <model.json> <contract.json>" }

/-- Export the context of a frozen model and contract. -/
def buildContext (p : Ast.Program) (spec : ContractSpec) : RepairContextArtifact :=
  { openContext B p spec with contextFingerprint := F.fingerprint (openContext B p spec) }

end Contexts

def okStatus : Outcome → String
  | .pass => "accepted"
  | _ => "rejected"

def outcomeToRepair : Outcome → RepairOutcome
  | .pass => .repaired
  | .fail => .noAcceptableCandidate
  | .unknown => .analysisUnknown
  | .invalid => .invalid
  | .unsupported => .unsupported

/-- Why a candidate was rejected before it was verified. -/
structure Rejection where
  code : String
  detail : String
  staticValid : Bool
  supported : Bool

section Checks

variable (B : Toolchain)

/-- The lock a statement of a function acquires. -/
def acquires (f : Ast.Function) (sid : String) : Option String :=
  (f.body.find? (·.sid = sid)).bind fun s ↦
    match s.op with
    | .mutexLock resource => some resource
    | _ => none

/-- One swap of two acquisitions of different locks. -/
def checkShape (p : Ast.Program) (patch : CirPatch) : Except Rejection Unit :=
  if patch.originalHash = "" then
    .error ⟨"missing_original_hash",
      "the submitted patch must carry the target function's original_hash", false, false⟩
  else
    match patch.changes with
    | [.deleteStatement _] => .error ⟨"patch_shape",
        "statement deletion is not allowed by the external patch protocol", false, false⟩
    | [.swapStatements a b] =>
        if a = b then .error ⟨"patch_shape", "swap targets must differ", false, false⟩
        else
          match Toolchain.findFunction p patch.module patch.function with
          | .error e => .error ⟨"unknown_target", e.display, false, false⟩
          | .ok f =>
              match acquires f a, acquires f b with
              | some ra, some rb =>
                  if ra = rb then
                    .error ⟨"same_resource", "swap targets the same resource '" ++ ra ++ "'",
                      false, false⟩
                  else .ok ()
              | _, _ => .error ⟨"unknown_sid", "swap sids '" ++ a ++ "'/'" ++ b ++
                  "' are not both mutex_lock statements in " ++ patch.module ++ "::" ++
                  patch.function, false, false⟩
    | changes => .error ⟨"patch_shape",
        s!"exactly one change is allowed, got {changes.length}", false, false⟩

def ContractError.display : ContractError → String
  | .unsupported m => "unsupported contract: " ++ m
  | .invalid m => "invalid contract: " ++ m

/-- The patched program, when it can be verified. -/
def checkPatched (ctx : RepairContextArtifact) (patch : CirPatch) :
    Except Rejection Ast.Program :=
  match checkAllowed ctx.allowedScope patch with
  | .error e => .error ⟨"scope_violation", e.display, false, false⟩
  | .ok _ =>
      match B.apply ctx.inputProgram patch with
      | .error e => .error ⟨"apply_error", e.display, false, false⟩
      | .ok (patched, _) =>
          if !(B.validate patched).valid then
            .error ⟨"static_invalid", s!"CIR static validation failed with " ++
              toString (B.validate patched).errors.length ++ " error(s)", false, false⟩
          else
            match B.lower patched with
            | .error e => .error ⟨"lower_error", Toolchain.errorMessage e, true, false⟩
            | .ok sem =>
                if sem.unsupported ≠ [] then
                  .error ⟨"unsupported", "unsupported constructs: " ++
                    joinWith ", " (sem.unsupported.map (·.construct)), true, false⟩
                else
                  match B.resolve ctx.frozenContract sem with
                  | .error (.unsupported m) =>
                      .error ⟨"contract_error", "contract unsupported after patch: " ++ m,
                        true, true⟩
                  | .error (.invalid m) =>
                      .error ⟨"contract_error", "contract cannot be re-bound after patch: " ++ m,
                        true, true⟩
                  | .ok _ => .ok patched

end Checks

section Evaluation

variable (B : Toolchain) (F : ExternalFormat)

def rejected (ctx : RepairContextArtifact) (candidate : ExternalPatchCandidate)
    (patch : CirPatch) (r : Rejection) : ExternalPatchArtifact where
  schemaVersion := artifactSchema
  source := ⟨B.crateVersion, B.binaryFingerprint⟩
  contextFingerprint := ctx.contextFingerprint
  modelFingerprint := ctx.modelFingerprint
  contractFingerprint := ctx.contractFingerprint
  allowedScope := ctx.allowedScope
  inputProgram := ctx.inputProgram
  frozenContract := ctx.frozenContract
  rootReport := ctx.rootReport
  submitted := candidate
  patch := patch
  patchChain := []
  patchedProgram := none
  patchedProgramFingerprint := none
  staticValid := r.staticValid
  supported := r.supported
  verification := none
  accepted := false
  status := "rejected"
  rejectReason := some ⟨r.code, r.detail⟩
  reproduce := "concir-backend evaluate-patch <context.json> <candidate.json>"

/-- The patch a candidate submits. -/
def ExternalPatchCandidate.toPatch (c : ExternalPatchCandidate)
    (provenance : List SourceRelation) : CirPatch where
  id := "external"
  module := c.patch.module
  function := c.patch.function
  originalHash := c.patch.originalHash
  changes := c.patch.changes
  provenance := provenance

def verificationCode : Outcome → String
  | .fail => "verification_fail"
  | .unknown => "verification_unknown"
  | .invalid => "verification_invalid"
  | .unsupported => "verification_unsupported"
  | .pass => ""

variable [FloatArith]

/-- The artifact of a patch that was verified. -/
def decided (ctx : RepairContextArtifact) (candidate : ExternalPatchCandidate)
    (patch : CirPatch) (patched : Ast.Program) : ExternalPatchArtifact :=
  let report := B.verifyProgram patched ctx.frozenContract
  let accepted := decide (report.outcome = .pass)
  { schemaVersion := artifactSchema
    source := ⟨B.crateVersion, B.binaryFingerprint⟩
    contextFingerprint := ctx.contextFingerprint
    modelFingerprint := ctx.modelFingerprint
    contractFingerprint := ctx.contractFingerprint
    allowedScope := ctx.allowedScope
    inputProgram := ctx.inputProgram
    frozenContract := ctx.frozenContract
    rootReport := ctx.rootReport
    submitted := candidate
    patch := patch
    patchChain := [⟨patch.module, patch.function, patch.changes, patch.provenance,
      patch.originalHash, ctx.modelFingerprint, B.programFingerprint patched⟩]
    patchedProgram := some patched
    patchedProgramFingerprint := some (B.programFingerprint patched)
    staticValid := true
    supported := true
    verification := some report
    accepted := accepted
    status := okStatus report.outcome
    rejectReason := if accepted then none
      else some ⟨verificationCode report.outcome, "full contract verification outcome " ++
        debugOutcome report.outcome ++ s!" (complete={report.complete})"⟩
    reproduce := "concir-backend replay <artifact.json>" }

/-- Evaluate a candidate against a context. An error is a failure of the protocol. -/
def evaluate (ctx : RepairContextArtifact) (candidate : ExternalPatchCandidate) :
    Except String ExternalPatchArtifact :=
  if candidate.schemaVersion ≠ candidateSchema then
    .error ("unknown candidate schema '" ++ candidate.schemaVersion ++ "'")
  else if ctx.contextFingerprint ≠ F.fingerprint ctx then
    .error "context fingerprint is not self-consistent"
  else if candidate.contextFingerprint ≠ ctx.contextFingerprint then
    .ok (rejected B ctx candidate (candidate.toPatch []) ⟨"context_mismatch",
      "candidate context_fingerprint " ++ candidate.contextFingerprint ++
        " does not match context " ++ ctx.contextFingerprint, false, false⟩)
  else
    let patch := candidate.toPatch [⟨"external single patch"⟩]
    match checkShape ctx.inputProgram patch with
    | .error r => .ok (rejected B ctx candidate patch r)
    | .ok _ =>
        match checkPatched B ctx patch with
        | .error r => .ok (rejected B ctx candidate patch r)
        | .ok patched => .ok (decided B ctx candidate patch patched)

/-- `evaluate_patch`. -/
def evaluatePatch (contextText candidateText : String) : Except String ExternalPatchArtifact :=
  match F.readContext contextText with
  | .error e => .error ("context parse: " ++ e)
  | .ok ctx =>
      if ctx.schemaVersion ≠ contextSchema then
        .error ("unknown context schema '" ++ ctx.schemaVersion ++ "'")
      else
        match F.readCandidate candidateText with
        | .error e => .error ("candidate parse: " ++ e)
        | .ok candidate => evaluate B F ctx candidate

end Evaluation

section Replay

variable (B : Toolchain) (F : ExternalFormat)

/-- The patched program of a stored patch, when it can be verified. -/
def replayPatched (a : ExternalPatchArtifact) : Except String Ast.Program := do
  ensure (a.patch.changes.length = 1) "stored patch must have exactly one change"
  allowedOr a.frozenContract.allowedScope a.patch "stored patch is not allowed"
  let patched ← appliedOr B a.inputProgram a.patch "stored patch does not apply"
  ensure ((B.validate patched).valid = true) "stored patched program fails static validation"
  match B.lower patched with
  | .error e => .error ("stored patched program cannot be lowered: " ++ Toolchain.errorMessage e)
  | .ok sem => do
      ensure (sem.unsupported = []) "stored patched program has unsupported constructs"
      match B.resolve a.frozenContract sem with
      | .error e => .error ("stored patched program breaks the contract binding: " ++
          ContractError.display e)
      | .ok _ => .ok patched

variable [FloatArith]

/-- The replay of a parsed external artifact. -/
def replayExternal (a : ExternalPatchArtifact) : Except String ReplayResult := do
  ensure (a.schemaVersion = artifactSchema)
    ("unknown artifact schema '" ++ a.schemaVersion ++ "'")
  let ctx := buildContext B F a.inputProgram a.frozenContract
  ensure (ctx.contextFingerprint = a.contextFingerprint)
    "context fingerprint does not match the embedded model/contract"
  ensure (ctx.modelFingerprint = a.modelFingerprint) "model fingerprint mismatch"
  ensure (ctx.contractFingerprint = a.contractFingerprint) "contract fingerprint mismatch"
  reportsMatch B ctx.rootReport a.rootReport "external root report"
  let patched ← replayPatched B a
  let report := B.verifyProgram patched a.frozenContract
  let stored ← present a.verification "artifact has no verification report"
  reportsMatch B report stored "external verification report"
  ensure (a.accepted = decide (report.outcome = .pass))
    "artifact accepted flag contradicts the verification outcome"
  ensure (a.status = okStatus report.outcome)
    "artifact status contradicts the verification outcome"
  ensure (a.patchChain.length = 1) "artifact patch_chain must contain exactly one edit"
  let edit ← present a.patchChain.head? "index out of bounds"
  ensure (edit.module = a.patch.module ∧ edit.function = a.patch.function ∧
      edit.changes = a.patch.changes ∧ edit.originalFunctionHash = a.patch.originalHash ∧
      edit.parentFingerprint = a.modelFingerprint ∧
      edit.programFingerprint = B.programFingerprint patched)
    "artifact patch_chain does not match the stored patch"
  ensure (a.patchedProgramFingerprint = some (B.programFingerprint patched))
    "artifact patched program fingerprint mismatch"
  let accepted := decide (report.outcome = .pass)
  .ok ⟨1, ctx.rootReport.outcome, some accepted, if accepted then some 0 else none, 1,
    outcomeToRepair report.outcome⟩

/-- `replay_external_patch`. -/
def replayExternalPatch (text : String) : Except String ReplayResult :=
  match F.readArtifact text with
  | .error e => .error ("artifact parse: " ++ e)
  | .ok a => replayExternal B F a

end Replay

section Agreement

variable {B : Toolchain} {F : ExternalFormat} {ctx : RepairContextArtifact}
  {candidate : ExternalPatchCandidate} {a a' : ExternalPatchArtifact} {p q : Ast.Program}
  {spec : ContractSpec} {patch : CirPatch} {res : ReplayResult}

/-- The patched program can be verified under the contract. -/
structure Verifiable (B : Toolchain) (spec : ContractSpec) (q : Ast.Program) : Prop where
  valid : (B.validate q).valid = true
  lowered : ∃ sem, B.lower q = .ok sem ∧ sem.unsupported = [] ∧
    ∃ contract, B.resolve spec sem = .ok contract

theorem checkPatched_ok : checkPatched B ctx patch = .ok q ↔
    checkAllowed ctx.allowedScope patch = .ok () ∧
    (∃ diff, B.apply ctx.inputProgram patch = .ok (q, diff)) ∧
    Verifiable B ctx.frozenContract q := by
  rw [checkPatched]
  cases ha : checkAllowed ctx.allowedScope patch with
  | error e => simp
  | ok u =>
      cases hp : B.apply ctx.inputProgram patch with
      | error e => simp
      | ok r =>
          obtain ⟨q', diff⟩ := r
          simp only [Except.ok.injEq, Prod.mk.injEq, true_and, exists_and_left]
          cases hv : (B.validate q').valid with
          | false =>
              simp only [Bool.not_false, if_true, reduceCtorEq, false_iff]
              rintro ⟨⟨rfl, -⟩, h⟩
              have := h.valid
              rw [hv] at this
              cases this
          | true =>
              simp only [Bool.not_true, Bool.false_eq_true, if_false]
              cases hl : B.lower q' with
              | error e =>
                  simp only [reduceCtorEq, false_iff]
                  rintro ⟨⟨rfl, -⟩, h⟩
                  obtain ⟨sem, hsem, -⟩ := h.lowered
                  rw [hl] at hsem
                  cases hsem
              | ok sem =>
                  simp only
                  split_ifs with hu
                  · simp only [false_iff]
                    rintro ⟨⟨rfl, -⟩, h⟩
                    obtain ⟨sem', hsem, hno, -⟩ := h.lowered
                    obtain rfl := Except.ok.inj (hl.symm.trans hsem)
                    exact hu hno
                  · cases hr : B.resolve ctx.frozenContract sem with
                    | error e =>
                        have hnot : ¬ Verifiable B ctx.frozenContract q' := by
                          intro h
                          obtain ⟨sem', hsem, -, contract, hc⟩ := h.lowered
                          obtain rfl := Except.ok.inj (hl.symm.trans hsem)
                          rw [hr] at hc
                          cases hc
                        cases e with
                        | unsupported m =>
                            simp only [reduceCtorEq, false_iff]
                            rintro ⟨⟨rfl, -⟩, h⟩
                            exact hnot h
                        | invalid m =>
                            simp only [reduceCtorEq, false_iff]
                            rintro ⟨⟨rfl, -⟩, h⟩
                            exact hnot h
                    | ok contract =>
                        simp only [Except.ok.injEq]
                        constructor
                        · rintro rfl
                          exact ⟨⟨rfl, diff, rfl⟩, hv, sem, hl, not_not.mp hu, contract, hr⟩
                        · exact fun h ↦ h.1.1

theorem replayPatched_ok : replayPatched B a = .ok q ↔ a.patch.changes.length = 1 ∧
    checkAllowed a.frozenContract.allowedScope a.patch = .ok () ∧
    (∃ diff, B.apply a.inputProgram a.patch = .ok (q, diff)) ∧
    Verifiable B a.frozenContract q := by
  rw [replayPatched]
  simp only [unit_bind_ok, ensure_eq_ok, allowedOr_ok, appliedOr_bind_ok]
  constructor
  · rintro ⟨hlen, ha, q', hq, hv, h⟩
    cases hl : B.lower q' with
    | error e =>
        rw [hl] at h
        cases h
    | ok sem =>
        rw [hl] at h
        simp only [ensure_bind_ok] at h
        obtain ⟨hu, h⟩ := h
        cases hr : B.resolve a.frozenContract sem with
        | error e =>
            rw [hr] at h
            cases h
        | ok contract =>
            rw [hr] at h
            obtain rfl := Except.ok.inj h
            exact ⟨hlen, ha, hq, hv, sem, hl, hu, contract, hr⟩
  · rintro ⟨hlen, ha, hq, hv, sem, hl, hu, contract, hr⟩
    refine ⟨hlen, ha, q, hq, hv, ?_⟩
    rw [hl]
    simp only [ensure_bind_ok]
    rw [hr]
    exact ⟨hu, rfl⟩

/-- A swap of the acquisitions of two different locks of the function it is for. -/
theorem checkShape_ok : checkShape p patch = .ok () ↔ patch.originalHash ≠ "" ∧
    ∃ s t f ra rb, patch.changes = [.swapStatements s t] ∧ s ≠ t ∧
      Toolchain.findFunction p patch.module patch.function = .ok f ∧ acquires f s = some ra ∧
      acquires f t = some rb ∧ ra ≠ rb := by
  rw [checkShape]
  split_ifs with hh
  · simp [hh]
  · refine Iff.trans ?_ (and_iff_right hh).symm
    constructor
    · intro h
      split at h
      · cases h
      · next s t hc =>
        split_ifs at h with hst
        cases hf : Toolchain.findFunction p patch.module patch.function with
        | error e =>
            rw [hf] at h
            cases h
        | ok f =>
            rw [hf] at h
            simp only at h
            split at h
            · next ra rb hra hrb =>
              split_ifs at h with hr
              exact ⟨s, t, f, ra, rb, hc, hst, rfl, hra, hrb, hr⟩
            · cases h
      · cases h
    · rintro ⟨s, t, f, ra, rb, hc, hst, hf, hra, hrb, hr⟩
      simp only [hc, if_neg hst, hf, hra, hrb, if_neg hr]

variable [FloatArith]

theorem blank_buildContext : (buildContext B F p spec).blank = openContext B p spec :=
  rfl

/-- What is evaluated and gets a verification report was checked and verified. -/
theorem evaluate_verified (h : evaluate B F ctx candidate = .ok a)
    (hv : a.verification.isSome = true) : ctx.contextFingerprint = F.fingerprint ctx ∧
    candidate.schemaVersion = candidateSchema ∧
    candidate.contextFingerprint = ctx.contextFingerprint ∧
    checkShape ctx.inputProgram (candidate.toPatch [⟨"external single patch"⟩]) = .ok () ∧
    ∃ q, checkPatched B ctx (candidate.toPatch [⟨"external single patch"⟩]) = .ok q ∧
      a = decided B ctx candidate (candidate.toPatch [⟨"external single patch"⟩]) q := by
  rw [evaluate] at h
  split_ifs at h with hs hself hbound
  · obtain rfl := Except.ok.inj h
    cases hv
  · simp only at h
    cases hshape : checkShape ctx.inputProgram
        (candidate.toPatch [⟨"external single patch"⟩]) with
    | error r =>
        rw [hshape] at h
        obtain rfl := Except.ok.inj h
        cases hv
    | ok u =>
        rw [hshape] at h
        simp only at h
        cases hq : checkPatched B ctx (candidate.toPatch [⟨"external single patch"⟩]) with
        | error r =>
            rw [hq] at h
            obtain rfl := Except.ok.inj h
            cases hv
        | ok q =>
            rw [hq] at h
            exact ⟨not_not.mp hself, not_not.mp hs, not_not.mp hbound, rfl, q, rfl,
              (Except.ok.inj h).symm⟩

/-- An evaluation that passes its checks ends with a decision. -/
theorem evaluate_decided (hs : candidate.schemaVersion = candidateSchema)
    (hself : ctx.contextFingerprint = F.fingerprint ctx)
    (hbound : candidate.contextFingerprint = ctx.contextFingerprint)
    (hshape : checkShape ctx.inputProgram
      (candidate.toPatch [⟨"external single patch"⟩]) = .ok ())
    (hq : checkPatched B ctx (candidate.toPatch [⟨"external single patch"⟩]) = .ok q) :
    evaluate B F ctx candidate =
      .ok (decided B ctx candidate (candidate.toPatch [⟨"external single patch"⟩]) q) := by
  rw [evaluate, if_neg (not_not.mpr hs), if_neg (not_not.mpr hself), if_neg (not_not.mpr hbound)]
  simp only [hshape, hq]

/-- What replay asks of an artifact. -/
theorem replayExternal_ok : replayExternal B F a = .ok res ↔
    a.schemaVersion = artifactSchema ∧
    (buildContext B F a.inputProgram a.frozenContract).contextFingerprint =
      a.contextFingerprint ∧
    B.programFingerprint a.inputProgram = a.modelFingerprint ∧
    (B.verifyProgram a.inputProgram a.frozenContract).contractFingerprint =
      a.contractFingerprint ∧
    reportsMatch B (B.verifyProgram a.inputProgram a.frozenContract) a.rootReport
      "external root report" = .ok () ∧
    ∃ q, replayPatched B a = .ok q ∧ ∃ stored, a.verification = some stored ∧
      reportsMatch B (B.verifyProgram q a.frozenContract) stored
        "external verification report" = .ok () ∧
      a.accepted = decide ((B.verifyProgram q a.frozenContract).outcome = .pass) ∧
      a.status = okStatus (B.verifyProgram q a.frozenContract).outcome ∧
      a.patchChain.length = 1 ∧ ∃ edit, a.patchChain.head? = some edit ∧
      (edit.module = a.patch.module ∧ edit.function = a.patch.function ∧
        edit.changes = a.patch.changes ∧ edit.originalFunctionHash = a.patch.originalHash ∧
        edit.parentFingerprint = a.modelFingerprint ∧
        edit.programFingerprint = B.programFingerprint q) ∧
      a.patchedProgramFingerprint = some (B.programFingerprint q) ∧
      ⟨1, (B.verifyProgram a.inputProgram a.frozenContract).outcome,
        some (decide ((B.verifyProgram q a.frozenContract).outcome = .pass)),
        if decide ((B.verifyProgram q a.frozenContract).outcome = .pass) then some 0 else none, 1,
        outcomeToRepair (B.verifyProgram q a.frozenContract).outcome⟩ = res := by
  rw [replayExternal]
  simp only [unit_bind_ok, ensure_eq_ok, except_bind_ok (f := replayPatched B a), present_bind_ok,
    Except.ok.injEq]
  rfl

/-- The context is the one that is exported for its program and contract. -/
def Exported (B : Toolchain) (F : ExternalFormat) (ctx : RepairContextArtifact) : Prop :=
  ctx = buildContext B F ctx.inputProgram ctx.frozenContract

/-- A fingerprint is taken by one context only. -/
def ContextUnique (B : Toolchain) (F : ExternalFormat) (ctx : RepairContextArtifact) : Prop :=
  F.fingerprint ctx = F.fingerprint (buildContext B F ctx.inputProgram ctx.frozenContract) →
    ctx.blank = (buildContext B F ctx.inputProgram ctx.frozenContract).blank

theorem exported_of_fingerprint (hself : ctx.contextFingerprint = F.fingerprint ctx)
    (hunique : ContextUnique B F ctx)
    (h : (buildContext B F ctx.inputProgram ctx.frozenContract).contextFingerprint =
      ctx.contextFingerprint) : Exported B F ctx := by
  have hblank := hunique (hself.symm.trans h.symm)
  have hctx : ctx = { ctx.blank with contextFingerprint := ctx.contextFingerprint } := rfl
  rw [Exported]
  calc
    ctx = { ctx.blank with contextFingerprint := ctx.contextFingerprint } := hctx
    _ = { (buildContext B F ctx.inputProgram ctx.frozenContract).blank with
          contextFingerprint :=
            (buildContext B F ctx.inputProgram ctx.frozenContract).contextFingerprint } := by
        rw [hblank, h]
    _ = buildContext B F ctx.inputProgram ctx.frozenContract := rfl

/-- A decision under an exported context replays. -/
theorem replay_of_exported (hexp : Exported B F ctx)
    (hshape : checkShape ctx.inputProgram patch = .ok ())
    (hq : checkPatched B ctx patch = .ok q) :
    ∃ res, replayExternal B F (decided B ctx candidate patch q) = .ok res ∧
      res.acceptedOk = some (decided B ctx candidate patch q).accepted := by
  obtain ⟨-, s, t, f, ra, rb, hchanges, -⟩ := checkShape_ok.mp hshape
  obtain ⟨ha, hp, hverifiable⟩ := checkPatched_ok.mp hq
  have hscope : ctx.allowedScope = ctx.frozenContract.allowedScope :=
    congrArg (·.allowedScope) hexp
  have hroot : ctx.rootReport = B.verifyProgram ctx.inputProgram ctx.frozenContract :=
    congrArg (·.rootReport) hexp
  have hpatched : replayPatched B (decided B ctx candidate patch q) = .ok q := by
    refine replayPatched_ok.mpr ⟨?_, ?_, hp, hverifiable⟩
    · exact congrArg List.length hchanges
    · exact hscope ▸ ha
  refine ⟨_, replayExternal_ok.mpr ⟨rfl, ?_, ?_, ?_, ?_, q, hpatched, _, rfl, reportsMatch_self _ _,
    rfl, rfl, rfl, _, rfl, ⟨rfl, rfl, rfl, rfl, rfl, rfl⟩, rfl, rfl⟩, rfl⟩
  · exact (congrArg (·.contextFingerprint) hexp).symm
  · exact (congrArg (·.modelFingerprint) hexp).symm
  · exact (congrArg (·.contractFingerprint) hexp).symm
  · change reportsMatch B _ ctx.rootReport _ = _
    rw [hroot]
    exact reportsMatch_self _ _

/-- The submitted candidate of an artifact is bound to the context and makes of the program
what the stored patch makes of it, within the protocol. -/
structure SubmittedFits (B : Toolchain) (a : ExternalPatchArtifact) : Prop where
  schema : a.submitted.schemaVersion = candidateSchema
  bound : a.submitted.contextFingerprint = a.contextFingerprint
  shape : checkShape a.inputProgram (a.submitted.toPatch [⟨"external single patch"⟩]) = .ok ()
  allowed : checkAllowed a.frozenContract.allowedScope
    (a.submitted.toPatch [⟨"external single patch"⟩]) = .ok ()
  same : ∃ q, (∃ diff, B.apply a.inputProgram a.patch = .ok (q, diff)) ∧
    ∃ diff, B.apply a.inputProgram (a.submitted.toPatch [⟨"external single patch"⟩]) =
      .ok (q, diff)

/-- Two artifacts decide on the same program in the same way. -/
structure SameDecision (a a' : ExternalPatchArtifact) : Prop where
  accepted : a'.accepted = a.accepted
  status : a'.status = a.status
  program : a'.patchedProgramFingerprint = a.patchedProgramFingerprint

/-- The programs the stored and the submitted patch lead to have different fingerprints
when they differ. -/
def ProgramUnique (B : Toolchain) (a : ExternalPatchArtifact) : Prop :=
  ∀ q q', (∃ diff, B.apply a.inputProgram a.patch = .ok (q, diff)) →
    (∃ diff, B.apply a.inputProgram (a.submitted.toPatch [⟨"external single patch"⟩]) =
      .ok (q', diff)) → B.programFingerprint q = B.programFingerprint q' → q = q'

theorem evaluate_iff_fits (h : replayExternal B F a = .ok res) (hunique : ProgramUnique B a) :
    (∃ a', evaluate B F (buildContext B F a.inputProgram a.frozenContract) a.submitted = .ok a' ∧
      SameDecision a a') ↔ SubmittedFits B a := by
  obtain ⟨-, hcontext, -, -, -, q, hpatched, stored, -, -, haccepted, hstatus, -, edit, -, -, hfp,
    -⟩ := replayExternal_ok.mp h
  obtain ⟨-, -, happly, hverifiable⟩ := replayPatched_ok.mp hpatched
  have hself : (buildContext B F a.inputProgram a.frozenContract).contextFingerprint =
      F.fingerprint (buildContext B F a.inputProgram a.frozenContract) := rfl
  constructor
  · rintro ⟨a', heval, hsame⟩
    have hverified : a'.verification.isSome = true := by
      have hsome := hsame.program
      rw [hfp] at hsome
      rw [evaluate] at heval
      split_ifs at heval with h₁ h₂ h₃
      · obtain rfl := Except.ok.inj heval
        cases hsome
      · simp only at heval
        split at heval
        · obtain rfl := Except.ok.inj heval
          cases hsome
        · split at heval
          · obtain rfl := Except.ok.inj heval
            cases hsome
          · obtain rfl := Except.ok.inj heval
            rfl
    obtain ⟨-, hs, hbound, hshape, q', hq', rfl⟩ := evaluate_verified heval hverified
    obtain ⟨ha, happly', -⟩ := checkPatched_ok.mp hq'
    have hprogram : B.programFingerprint q' = B.programFingerprint q :=
      Option.some.inj (hsame.program.trans hfp)
    obtain rfl := hunique q q' happly happly' hprogram.symm
    exact ⟨hs, hbound.trans hcontext, hshape, ha, q, happly, happly'⟩
  · intro hfits
    obtain ⟨q', happly₁, happly₂⟩ := hfits.same
    obtain rfl : q' = q := by
      obtain ⟨d₁, h₁⟩ := happly
      obtain ⟨d₂, h₂⟩ := happly₁
      exact (Prod.mk.inj (Except.ok.inj (h₂.symm.trans h₁))).1
    have hq : checkPatched B (buildContext B F a.inputProgram a.frozenContract)
        (a.submitted.toPatch [⟨"external single patch"⟩]) = .ok q' :=
      checkPatched_ok.mpr ⟨hfits.allowed, happly₂, hverifiable⟩
    have heval := evaluate_decided hfits.schema hself (hfits.bound.trans hcontext.symm)
      hfits.shape hq
    refine ⟨_, heval, ?_, ?_, ?_⟩
    · exact haccepted.symm
    · exact hstatus.symm
    · exact hfp.symm

/-- A decision replays exactly when its context is an exported one, and a replayed artifact
is decided again in the same way exactly when its submitted candidate fits it. -/
theorem external_agreement (B : Toolchain) (F : ExternalFormat) :
    (∀ contextText candidateText ctx a, F.readContext contextText = .ok ctx →
      evaluatePatch B F contextText candidateText = .ok a → a.verification.isSome = true →
      F.readArtifact (F.writeArtifact a) = .ok a → ContextUnique B F ctx →
      ((∃ res, replayExternalPatch B F (F.writeArtifact a) = .ok res ∧
        res.acceptedOk = some a.accepted) ↔ Exported B F ctx)) ∧
    ∀ text a res, F.readArtifact text = .ok a → replayExternalPatch B F text = .ok res →
      ProgramUnique B a →
      ((∃ a', evaluate B F (buildContext B F a.inputProgram a.frozenContract) a.submitted =
        .ok a' ∧ SameDecision a a') ↔ SubmittedFits B a) := by
  constructor
  · intro contextText candidateText ctx a hctx heval hv hround hunique
    rw [evaluatePatch, hctx] at heval
    simp only at heval
    split_ifs at heval with hschema
    cases hcandidate : F.readCandidate candidateText with
    | error e =>
        rw [hcandidate] at heval
        cases heval
    | ok candidate =>
        rw [hcandidate] at heval
        obtain ⟨hself, hs, hbound, hshape, q, hq, rfl⟩ := evaluate_verified heval hv
        rw [replayExternalPatch, hround]
        simp only
        constructor
        · rintro ⟨res, hres, -⟩
          exact exported_of_fingerprint hself hunique (replayExternal_ok.mp hres).2.1
        · intro hexp
          exact replay_of_exported hexp hshape hq
  · intro text a res hread hreplay hunique
    rw [replayExternalPatch, hread] at hreplay
    exact evaluate_iff_fits hreplay hunique

end Agreement

section Meetable

/-- A contract that every program meets. -/
def meetable : ContractSpec where
  name := "meetable"
  properties := [.reachability "start" .true]
  preserved := []
  assumptions := ⟨true, true⟩
  bounds := ⟨4, 4, 10, 10, 10⟩
  allowedScope := ⟨[], [], true, false⟩

def meetableTools : Toolchain :=
  { nestedTools with
    resolve := fun spec _ ↦ .ok ⟨[⟨"start", .reachability .true⟩], [], spec.bounds⟩ }

def meetableTexts (ctx : Except String RepairContextArtifact)
    (candidate : Except String ExternalPatchCandidate)
    (a : Except String ExternalPatchArtifact) : ExternalFormat where
  contextJson ctx := .ok (joinWith "," (ctx.functions.map (·.function)))
  readContext _ := ctx
  readCandidate _ := candidate
  writeArtifact _ := "artifact.json"
  readArtifact _ := a

def bareTexts : ExternalFormat := meetableTexts (.error "empty") (.error "empty") (.error "empty")

def exported : RepairContextArtifact := @buildContext meetableTools bareTexts .unused nested meetable

/-- The exported context without its functions, with the fingerprint of what is left. -/
def trimmed : RepairContextArtifact :=
  { exported with
    functions := []
    contextFingerprint := bareTexts.fingerprint { exported with functions := [] } }

def swapCandidate (context : String) : ExternalPatchCandidate where
  schemaVersion := candidateSchema
  contextFingerprint := context
  patch := ⟨"m", "main", fnv "mains0,s1", [.swapStatements "s0" "s1"]⟩

def evaluated (ctx : RepairContextArtifact) : Except String ExternalPatchArtifact :=
  @evaluate meetableTools bareTexts .unused ctx (swapCandidate ctx.contextFingerprint)

/-- The files of an evaluation. -/
def evaluationFiles (ctx : RepairContextArtifact) : ExternalFormat :=
  meetableTexts (.ok ctx) (.ok (swapCandidate ctx.contextFingerprint)) (evaluated ctx)

/-- The files of the evaluation of `nested` with another candidate put into the artifact. -/
def reboundFiles : ExternalFormat :=
  meetableTexts (.ok exported) (.ok (swapCandidate "elsewhere"))
    ((evaluated exported).map fun a ↦ { a with submitted := swapCandidate "elsewhere" })

theorem evaluatePatch_files {ctx : RepairContextArtifact} (h : ctx.schemaVersion = contextSchema) :
    @evaluatePatch meetableTools (evaluationFiles ctx) .unused "context.json" "candidate.json" =
      evaluated ctx := by
  rw [evaluatePatch]
  simp only [evaluationFiles, meetableTexts, h, ne_eq, not_true, if_false]
  rfl

theorem external_agreement_exported : ∃ a res,
    @evaluatePatch meetableTools (evaluationFiles exported) .unused "context.json"
      "candidate.json" = .ok a ∧
    @replayExternalPatch meetableTools (evaluationFiles exported) .unused "artifact.json" =
      .ok res ∧ res.acceptedOk = some a.accepted ∧
    ∃ a', @evaluate meetableTools (evaluationFiles exported) .unused
      (@buildContext meetableTools (evaluationFiles exported) .unused a.inputProgram
        a.frozenContract) a.submitted = .ok a' ∧ SameDecision a a' := by
  have hok : (evaluated exported).map (fun a ↦ (a.verification.isSome, a.inputProgram.program,
      a.accepted)) = .ok (true, "nested", true) := by decide +kernel
  cases he : evaluated exported with
  | error e =>
      rw [he] at hok
      cases hok
  | ok a =>
      rw [he] at hok
      have hv : a.verification.isSome = true := congrArg Prod.fst (Except.ok.inj hok)
      have heval : @evaluatePatch meetableTools (evaluationFiles exported) .unused "context.json"
          "candidate.json" = .ok a := (evaluatePatch_files rfl).trans he
      have hread : (evaluationFiles exported).readArtifact "artifact.json" = .ok a := he
      obtain ⟨-, hs, hbound, hshape, q, hq, ha⟩ := @evaluate_verified meetableTools bareTexts exported
        (swapCandidate exported.contextFingerprint) a .unused he hv
      obtain ⟨res, hres, hacc⟩ := ((@external_agreement .unused meetableTools
        (evaluationFiles exported)).1 "context.json" "candidate.json" exported a rfl heval hv hread
        (fun _ ↦ rfl)).mpr rfl
      obtain ⟨hallowed, happly, -⟩ := checkPatched_ok.mp hq
      have hunique : ProgramUnique meetableTools a := by
        rintro p p' ⟨d, hp⟩ ⟨d', hp'⟩ -
        rw [ha] at hp hp'
        exact (Prod.mk.inj (Except.ok.inj (hp.symm.trans hp'))).1
      have hfits : SubmittedFits meetableTools a := by
        rw [ha]
        exact ⟨hs, hbound, hshape, hallowed, q, happly, happly⟩
      exact ⟨a, res, heval, hres, hacc, ((@external_agreement .unused meetableTools
        (evaluationFiles exported)).2 "artifact.json" a res hread hres hunique).mpr hfits⟩

/-- A context that only agrees with itself is evaluated and does not replay, and replay
does not look at the submitted candidate. -/
theorem external_disagreement : (∃ a,
    @evaluatePatch meetableTools (evaluationFiles trimmed) .unused "context.json"
      "candidate.json" = .ok a ∧ a.verification.isSome = true ∧
    (evaluationFiles trimmed).readArtifact ((evaluationFiles trimmed).writeArtifact a) = .ok a ∧
    @ContextUnique .unused meetableTools (evaluationFiles trimmed) trimmed ∧
    ¬ ∃ res, @replayExternalPatch meetableTools (evaluationFiles trimmed) .unused
      ((evaluationFiles trimmed).writeArtifact a) = .ok res) ∧
    ∃ a res, reboundFiles.readArtifact "artifact.json" = .ok a ∧
      @replayExternalPatch meetableTools reboundFiles .unused "artifact.json" = .ok res ∧
      a.accepted = true ∧ ProgramUnique meetableTools a ∧
      ∃ a', @evaluate meetableTools reboundFiles .unused
        (@buildContext meetableTools reboundFiles .unused a.inputProgram a.frozenContract)
        a.submitted = .ok a' ∧ a'.accepted = false := by
  constructor
  · have hok : (evaluated trimmed).map (·.verification.isSome) = .ok true := by decide +kernel
    have hno : (@replayExternalPatch meetableTools (evaluationFiles trimmed) .unused
        "artifact.json").isOk = false := by decide +kernel
    have hne : (evaluationFiles trimmed).fingerprint trimmed ≠
        (evaluationFiles trimmed).fingerprint (@buildContext meetableTools
          (evaluationFiles trimmed) .unused trimmed.inputProgram trimmed.frozenContract) := by
      decide +kernel
    cases he : evaluated trimmed with
    | error e =>
        rw [he] at hok
        cases hok
    | ok a =>
        rw [he] at hok
        have heval := (@evaluatePatch_files trimmed rfl).trans he
        refine ⟨a, heval, Except.ok.inj hok, he, fun h ↦ absurd h hne, ?_⟩
        rintro ⟨res, hres⟩
        change @replayExternalPatch meetableTools (evaluationFiles trimmed) .unused
          "artifact.json" = .ok res at hres
        rw [hres] at hno
        cases hno
  · have hok : (evaluated exported).map (fun a ↦ (a.verification.isSome, a.accepted,
        (@evaluate meetableTools reboundFiles .unused
          (@buildContext meetableTools reboundFiles .unused a.inputProgram a.frozenContract)
          (swapCandidate "elsewhere")).map (·.accepted))) = .ok (true, true, .ok false) := by
      decide +kernel
    have hyes : (@replayExternalPatch meetableTools reboundFiles .unused
        "artifact.json").isOk = true := by decide +kernel
    cases he : evaluated exported with
    | error e =>
        rw [he] at hok
        cases hok
    | ok a =>
        rw [he] at hok
        have hfacts := Except.ok.inj hok
        have hv : a.verification.isSome = true := congrArg Prod.fst hfacts
        have hread : reboundFiles.readArtifact "artifact.json" =
            .ok { a with submitted := swapCandidate "elsewhere" } := by
          simp only [reboundFiles, meetableTexts, he, Except.map]
        obtain ⟨-, -, -, -, q, -, ha⟩ := @evaluate_verified meetableTools bareTexts exported
          (swapCandidate exported.contextFingerprint) a .unused he hv
        have hunique : ProgramUnique meetableTools
            { a with submitted := swapCandidate "elsewhere" } := by
          rintro p p' ⟨d, hp⟩ ⟨d', hp'⟩ -
          rw [ha] at hp hp'
          exact (Prod.mk.inj (Except.ok.inj (hp.symm.trans hp'))).1
        have hlast : (@evaluate meetableTools reboundFiles .unused
            (@buildContext meetableTools reboundFiles .unused a.inputProgram a.frozenContract)
            (swapCandidate "elsewhere")).map (·.accepted) = .ok false :=
          congrArg (fun t ↦ t.2.2) hfacts
        cases hres : @replayExternalPatch meetableTools reboundFiles .unused "artifact.json" with
        | error e =>
            rw [hres] at hyes
            cases hyes
        | ok res =>
            cases heval : @evaluate meetableTools reboundFiles .unused
                (@buildContext meetableTools reboundFiles .unused a.inputProgram
                  a.frozenContract) (swapCandidate "elsewhere") with
            | error e =>
                rw [heval] at hlast
                cases hlast
            | ok a' =>
                rw [heval] at hlast
                exact ⟨_, res, hread, rfl, congrArg (fun t ↦ t.2.1) hfacts, hunique, a', heval,
                  Except.ok.inj hlast⟩

end Meetable

end Repair

end ConcIR
