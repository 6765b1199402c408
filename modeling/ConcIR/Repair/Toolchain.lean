import ConcIR.Explore.Spec
import ConcIR.Explore.Verify
import ConcIR.Petri.Observe
import ConcIR.Sem.Monitor

/-!
# The checked entry point and its reports

What repair needs of the rest of the toolchain: serialised text and its hash, static
validation, lowering, contract resolution, and the verification of a source program with
the Petri engine.
-/

namespace ConcIR

namespace Repair

inductive BlockKind
  | lock
  | channelSend
  | channelRecv
  | condvar
  | semaphore
  | join
  | scope
deriving DecidableEq

structure BlockedRecord where
  thread : ThreadId
  kind : BlockKind
  resource : Option ResourceId
  resourceName : Option String
  holder : Option ThreadId
  waiting : ℕ
  detail : String
deriving DecidableEq

structure DoomWait where
  kind : String
  resource : Option String
deriving DecidableEq

structure DoomThread where
  thread : ℕ
  entryFunction : String
  function : String
  atSid : Option String
  holds : List String
  waitingOn : Option DoomWait
deriving DecidableEq

structure DoomState where
  threads : List DoomThread
  freeResources : List String
deriving DecidableEq

structure InstanceState where
  thread : ThreadId
  frame : Option FrameId
  function : FunctionId
  sid : Option ℕ
  status : String
deriving DecidableEq

structure CirStatementRef where
  module : String
  function : String
  sid : Option String
deriving DecidableEq

structure DiagnosticRecord where
  property : String
  outcome : Outcome
  message : String
  complete : Bool
  counterexample : List StepLabel
  finalInstances : List InstanceState
  blocked : List BlockedRecord
  cirStatements : List CirStatementRef
  provenFacts : List String
  repairHints : List String
  counterexampleNames : List String
  doomState : DoomState
deriving DecidableEq

/-- What a boundary event is bound to. -/
structure BoundaryBinding where
  thread : Option ThreadId
  frame : Option FrameId
  function : Option FunctionId
deriving DecidableEq

/-- A verification report with its evidence and the configuration it was made under. -/
structure Report extends VerificationReport where
  diagnostics : List DiagnosticRecord
  boundaryBindings : List BoundaryBinding
  modelFingerprint : String
  contractFingerprint : String
  assumptions : Assumptions
  bounds : AnalysisBounds
  analysisStarted : Bool
deriving DecidableEq

/-- What validation says: the errors, in order. -/
structure ValidationReport where
  valid : Bool
  errors : List Invalid

/-- The parts of the toolchain that repair calls. Serialisation is the JSON library's;
`diagnose` is the evidence a finished search gives for its verdicts. -/
structure Toolchain where
  functionJson : Ast.Function → Except String String
  programJson : Ast.Program → Except String String
  specJson : ContractSpec → Except String String
  debugString : String → String
  validate : Ast.Program → ValidationReport
  lower : Ast.Program → BackendResult SemProgram
  resolve : ContractSpec → SemProgram → Except ContractError VerificationContract
  diagnose : Engine → VerificationContract → List DiagnosticRecord × List BoundaryBinding
  crateVersion : String
  binaryFingerprint : String

section Hashes

def hexDigit (n : ℕ) : Char := if n < 10 then Char.ofNat (48 + n) else Char.ofNat (87 + n)

/-- `016x`. -/
def hex16 (h : UInt64) : String :=
  String.ofList ((List.range 16).map fun i ↦ hexDigit (h.toNat / 16 ^ (15 - i) % 16))

/-- FNV-1a over the bytes of a text. -/
def fnv (s : String) : String :=
  hex16 (s.toUTF8.data.toList.foldl (fun h b ↦ (h ^^^ b.toUInt64) * 0x100000001b3)
    0xcbf29ce484222325)

/-- `unwrap_or_default`. -/
def textOr (r : Except String String) : String :=
  match r with
  | .ok s => s
  | .error _ => ""

end Hashes

namespace Toolchain

variable (B : Toolchain)

def programFingerprint (p : Ast.Program) : String := fnv (textOr (B.programJson p))

def specFingerprint (spec : ContractSpec) : String := fnv (textOr (B.specJson spec))

/-- Every report names its inputs and the configuration that was asked for. -/
def finishMeta (p : Ast.Program) (spec : ContractSpec) (r : Report) : Report :=
  { r with
    modelFingerprint := B.programFingerprint p
    contractFingerprint := B.specFingerprint spec
    assumptions := spec.assumptions
    bounds := spec.bounds }

/-- The report of an analysis that never ran. -/
def synthetic (outcome : Outcome) (complete : Bool) (unsupported : List Unsupported)
    (invalid : List Invalid) : Report where
  outcome := outcome
  complete := complete
  statesExplored := 0
  transitionsExplored := 0
  properties := []
  boundaryEvents := []
  unsupported := unsupported
  invalid := invalid
  diagnostics := []
  boundaryBindings := []
  modelFingerprint := ""
  contractFingerprint := ""
  assumptions := ⟨true, true⟩
  bounds := ⟨16, 32, 200000, 400, 4096⟩
  analysisStarted := false

def errorMessage : BackendError → String
  | .unsupported u => "unsupported " ++ u.construct ++ ": " ++ u.detail
  | .invalid i => "invalid [" ++ i.code ++ "]: " ++ i.message

def errorLocation : BackendError → Option String
  | .unsupported u => u.location
  | .invalid i => i.location

/-- The constructs that keep a lowered program from being explored. -/
def unsupportedOf (sem : SemProgram) : List Unsupported :=
  let ef := sem.function sem.entry
  sem.unsupported ++
    if ef.isNobody && !ef.isTransparentNobody then
      [⟨"external entry function", none,
        "entry is body-less with declared effects, blocking, or a return"⟩]
    else []

variable [FloatArith]

/-- Exploration and property checks, with the evidence. -/
def analyse (sem : SemProgram) (contract : VerificationContract) : Report :=
  let E : Engine := ⟨sem, contract.bounds, MonitorConfig.fromPredicates contract.predicates⟩
  let evidence := B.diagnose E contract
  { verify E.petri contract with
    diagnostics := evidence.1
    boundaryBindings := evidence.2
    modelFingerprint := ""
    contractFingerprint := ""
    assumptions := ⟨true, true⟩
    bounds := contract.bounds
    analysisStarted := match E.petri.initial with
      | .ok _ => true
      | .error _ => false }

/-- `verify_program` with the Petri engine. -/
def verifyProgram (p : Ast.Program) (spec : ContractSpec) : Report :=
  B.finishMeta p spec <|
    if !(B.validate p).valid then synthetic .invalid true [] (B.validate p).errors
    else
      match B.lower p with
      | .error e => synthetic .invalid true [] [⟨"E100", errorMessage e, errorLocation e⟩]
      | .ok sem =>
          if unsupportedOf sem ≠ [] then synthetic .unsupported false (unsupportedOf sem) []
          else
            match B.resolve spec sem with
            | .error (.unsupported m) =>
                synthetic .unsupported false [⟨"contract", none, m⟩] []
            | .error (.invalid m) => synthetic .invalid true [] [⟨"C001", m, none⟩]
            | .ok contract => B.analyse sem contract

omit [FloatArith] in
theorem finishMeta_outcome (p : Ast.Program) (spec : ContractSpec) (r : Report) :
    (B.finishMeta p spec r).outcome = r.outcome ∧ (B.finishMeta p spec r).complete = r.complete :=
  ⟨rfl, rfl⟩

omit [FloatArith] in
theorem complete_of_verify {S : Type} {E : TransitionSystem S} {contract : VerificationContract}
    (h : (verify E contract).outcome = .pass) : (verify E contract).complete = true := by
  rw [verify] at h ⊢
  split at h
  · cases h
  · cases h
  · simp only [overall] at h
    split_ifs at h with h₁ h₂ h₃ h₄
    rw [Bool.or_eq_true, not_or] at h₄
    simpa using h₄.2

/-- A pass is the verdict of a complete search. -/
theorem complete_of_pass {p : Ast.Program} {spec : ContractSpec}
    (h : (B.verifyProgram p spec).outcome = .pass) :
    (B.verifyProgram p spec).complete = true := by
  rw [verifyProgram, (B.finishMeta_outcome p spec _).1] at h
  rw [verifyProgram, (B.finishMeta_outcome p spec _).2]
  split_ifs at h ⊢ with hv
  · cases h
  · cases hl : B.lower p with
    | error e =>
        rw [hl] at h
        cases h
    | ok sem =>
        rw [hl] at h
        simp only at h ⊢
        split_ifs at h ⊢ with hu
        · cases h
        · cases hr : B.resolve spec sem with
          | error e =>
              rw [hr] at h
              cases e <;> cases h
          | ok contract =>
              rw [hr] at h
              exact complete_of_verify h

end Toolchain

end Repair

end ConcIR
