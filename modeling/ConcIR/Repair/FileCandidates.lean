import ConcIR.Repair.Replays

/-!
# Candidate files

The repair loop asks a provider for one candidate a round. The provider of a candidate
file fills in a missing hash from the program, and a lookup that fails is told to the loop
by the value that also means the end of the file. The loop knows a duplicate by a text made
of the target and the changes, which leaves the expected hash out.
-/

namespace ConcIR

namespace Repair

section Considered

variable {α : Type} {p : α → Bool} {as bs : List α} {a : α} {n : ℕ}

/-- The elements a search with a budget looks at: up to the first one that is accepted. -/
def considered (p : α → Bool) : ℕ → List α → List α
  | 0, _ => []
  | _ + 1, [] => []
  | n + 1, a :: as => a :: if p a then [] else considered p n as

@[simp] theorem considered_nil : considered p n ([] : List α) = [] := by cases n <;> rfl

theorem considered_append (hbs : ∀ b ∈ bs, p b = false) :
    considered p (bs.length + n) (bs ++ as) = bs ++ considered p n as := by
  induction bs with
  | nil => rw [List.length_nil, Nat.zero_add, List.nil_append, List.nil_append]
  | cons b bs ih =>
      rw [List.length_cons, Nat.add_right_comm, List.cons_append, considered,
        hbs b List.mem_cons_self, ih fun c hc ↦ hbs c (List.mem_cons_of_mem _ hc)]
      rfl

theorem considered_of_accepted (h : p a = true) : considered p (n + 1) (a :: as) = [a] := by
  rw [considered, if_pos h]

theorem considered_of_rejected (h : p a = false) :
    considered p (n + 1) (a :: as) = a :: considered p n as := by
  rw [considered, h]
  rfl

/-- The first accepted element within a budget, when it does not come first. -/
theorem find?_take (hbs : ∀ b ∈ bs, p b = false) :
    ((bs ++ as).take (bs.length + n)).find? p = (as.take n).find? p := by
  have hnone : bs.find? p = none :=
    List.find?_eq_none.mpr fun b hb ↦ by rw [hbs b hb]; exact Bool.false_ne_true
  rw [List.take_length_add_append, List.find?_append, hnone, Option.none_or]

end Considered

structure RoundRecord where
  round : ℕ
  candidate : String
  accepted : Bool
  reason : String
  patchedOutcome : Option Outcome
  diff : Option String
deriving DecidableEq

structure RepairReport where
  outcome : RepairOutcome
  candidatesTried : ℕ
  rounds : List RoundRecord
  accepted : Option CirPatch
  acceptedProgram : Option Ast.Program
  acceptedReport : Option Report

/-- A change as the JSON library writes it. -/
def PatchChange.json : PatchChange → String
  | .swapStatements a b => "\x7b\"kind\":\"swap_statements\",\"a\":" ++ jsonString a ++
      ",\"b\":" ++ jsonString b ++ "\x7d"
  | .deleteStatement sid => "\x7b\"kind\":\"delete_statement\",\"sid\":" ++ jsonString sid ++
      "\x7d"

def contentKey (patch : CirPatch) : String :=
  patch.module ++ "::" ++ patch.function ++ "::" ++
    ("[" ++ joinWith "," (patch.changes.map PatchChange.json) ++ "]")

/-- What a round says of a candidate it has not seen before. -/
inductive Judgement
  | accepted (patched : Ast.Program) (report : Report) (diff : String)
  | rejected (reason : String) (outcome : Option Outcome) (diff : Option String)

def Judgement.isAccepted : Judgement → Bool
  | .accepted _ _ _ => true
  | .rejected _ _ _ => false

/-- The first finding of a failed verification. -/
def failSummary (report : Report) : String :=
  match report.diagnostics with
  | d :: _ => d.property ++ ": " ++ d.message
  | [] => "verification failed"

namespace Toolchain

variable (B : Toolchain) (program : Ast.Program) (spec : ContractSpec)

/-- The verdict on a verified candidate. -/
def judgeReport (patched : Ast.Program) (report : Report) (diff : String) : Judgement :=
  match report.outcome with
  | .pass => .accepted patched report diff
  | .fail => .rejected ("verification FAIL: " ++ failSummary report) (some .fail) (some diff)
  | .unknown => .rejected "verification UNKNOWN: incomplete search; not accepted"
      (some .unknown) (some diff)
  | .invalid => .rejected "verification INVALID: program has a semantic error"
      (some .invalid) (some diff)
  | .unsupported => .rejected "verification UNSUPPORTED" (some .unsupported) (some diff)

variable [FloatArith]

/-- Lowering, re-binding and verification of a patched program that is valid. -/
def judgePatched (patched : Ast.Program) (diff : String) : Judgement :=
  match B.lower patched with
  | .error e => .rejected ("lowering failed: " ++ errorMessage e) none (some diff)
  | .ok sem =>
      if sem.unsupported ≠ [] then
        .rejected ("unsupported constructs present: " ++
          joinWith ", " (sem.unsupported.map (·.construct))) none (some diff)
      else
        match B.resolve spec sem with
        | .error (.unsupported m) =>
            .rejected ("contract unsupported after patch: " ++ m) (some .unsupported) (some diff)
        | .error (.invalid m) =>
            .rejected ("contract cannot be re-bound after patch: " ++ m) (some .invalid)
              (some diff)
        | .ok _ => judgeReport patched (B.verifyProgram patched spec) diff

/-- What becomes of a candidate that is no duplicate. -/
def judge (candidate : CirPatch) : Judgement :=
  match checkAllowed spec.allowedScope candidate with
  | .error e => .rejected ("disallowed: " ++ e.display) none none
  | .ok _ =>
      match B.apply program candidate with
      | .error e => .rejected ("patch rejected: " ++ e.display) none none
      | .ok (patched, diff) =>
          if !(B.validate patched).valid then
            .rejected ("CIR static validation failed with " ++
              toString (B.validate patched).errors.length ++ " error(s)") none (some diff)
          else B.judgePatched spec patched diff

end Toolchain

/-- The variables of the loop. -/
structure LoopState where
  tried : List String
  rounds : List RoundRecord
  sawUnknown : Bool
  candidatesTried : ℕ

namespace LoopState

def initial : LoopState := ⟨[], [], false, 0⟩

/-- A report of a loop that ends without a repair. -/
def finish (v : LoopState) (outcome : RepairOutcome) : RepairReport where
  outcome := if v.sawUnknown then .analysisUnknown else outcome
  candidatesTried := v.candidatesTried
  rounds := v.rounds
  accepted := none
  acceptedProgram := none
  acceptedReport := none

def duplicate (v : LoopState) (round : ℕ) (candidate : CirPatch) : LoopState :=
  { v with
    rounds := v.rounds ++
      [⟨round, candidate.id, false, "duplicate candidate skipped", none, none⟩] }

def reject (v : LoopState) (round : ℕ) (candidate : CirPatch) (reason : String)
    (outcome : Option Outcome) (diff : Option String) : LoopState where
  tried := contentKey candidate :: v.tried
  rounds := v.rounds ++ [⟨round, candidate.id, false, reason, outcome, diff⟩]
  sawUnknown := v.sawUnknown || outcome = some .unknown
  candidatesTried := v.candidatesTried + 1

def accept (v : LoopState) (round : ℕ) (candidate : CirPatch) (patched : Ast.Program)
    (report : Report) (diff : String) : RepairReport where
  outcome := .repaired
  candidatesTried := v.candidatesTried + 1
  rounds := v.rounds ++ [⟨round, candidate.id, true,
    "all required properties and preserved behaviour hold", some .pass, some diff⟩]
  accepted := some candidate
  acceptedProgram := some patched
  acceptedReport := some report

end LoopState

section Loop

variable {σ : Type} (B : Toolchain) [FloatArith] (program : Ast.Program) (spec : ContractSpec)
  (next : σ → Option CirPatch × σ)

/-- The rounds from `round` on, `budget` of them at most. -/
def repairRounds (budget round : ℕ) (provider : σ) (v : LoopState) : RepairReport :=
  match budget with
  | 0 => v.finish .budgetExhausted
  | budget + 1 =>
      match next provider with
      | (none, _) => v.finish .noAcceptableCandidate
      | (some candidate, provider) =>
          if contentKey candidate ∈ v.tried then
            repairRounds budget (round + 1) provider (v.duplicate round candidate)
          else
            match B.judge program spec candidate with
            | .accepted patched report diff => v.accept round candidate patched report diff
            | .rejected reason outcome diff =>
                repairRounds budget (round + 1) provider
                  (v.reject round candidate reason outcome diff)

/-- The repair loop, for a provider that is asked with the program. -/
def runRepair (next : Ast.Program → σ → Option CirPatch × σ) (provider : σ) (budget : ℕ) :
    RepairReport :=
  repairRounds B program spec (next program) budget 0 provider .initial

end Loop

/-- An entry of a candidate file. -/
structure FilePatchSpec where
  module : String
  function : String
  id : Option String
  originalHash : Option String
  changes : List PatchChange
  provenance : List SourceRelation

/-- The patch of the entry at a place. -/
def FilePatchSpec.patch (s : FilePatchSpec) (i : ℕ) : CirPatch where
  id := s.id.getD ("file[" ++ toString i ++ "]")
  module := s.module
  function := s.function
  originalHash := s.originalHash.getD ""
  changes := s.changes
  provenance := s.provenance

structure FileCandidateProvider where
  patches : List CirPatch
  cursor : ℕ

namespace FileCandidateProvider

def ofSpecs (specs : List FilePatchSpec) : FileCandidateProvider where
  patches := specs.mapIdx fun i s ↦ s.patch i
  cursor := 0

variable (B : Toolchain)

/-- The next patch of the file. A missing hash is taken from the program; where there is
none, the answer is the one for the end of the file. -/
def nextCandidate (program : Ast.Program) (f : FileCandidateProvider) :
    Option CirPatch × FileCandidateProvider :=
  match f.patches[f.cursor]? with
  | none => (none, f)
  | some p =>
      if p.originalHash = "" then
        match B.functionHash program p.module p.function with
        | .error _ => (none, { f with cursor := f.cursor + 1 })
        | .ok hash => (some { p with originalHash := hash }, { f with cursor := f.cursor + 1 })
      else (some p, { f with cursor := f.cursor + 1 })

end FileCandidateProvider

section Meaning

variable (B : Toolchain) (program : Ast.Program) (spec : ContractSpec)

/-- The hash a patch expects; there is none where it is missing and cannot be looked up. -/
def expectedHash (p : CirPatch) : Option String :=
  if p.originalHash = "" then (B.functionHash program p.module p.function).toOption
  else some p.originalHash

/-- The candidate of a patch. -/
def resolved (p : CirPatch) : Option CirPatch :=
  (expectedHash B program p).map fun hash ↦ { p with originalHash := hash }

/-- Two patches that do the same to every program. -/
structure SameEffect (a b : CirPatch) : Prop where
  module : a.module = b.module
  function : a.function = b.function
  changes : a.changes = b.changes
  hash : expectedHash B program a = expectedHash B program b

variable [FloatArith]

/-- A patch that a repair may be made of. -/
def acceptable (p : CirPatch) : Bool :=
  match resolved B program p with
  | none => false
  | some candidate => (B.judge program spec candidate).isAccepted

omit [FloatArith] in
/-- A round skips a patch only after one that does the same. -/
def SkipsKnown (patches : List CirPatch) (rounds : List RoundRecord) : Prop :=
  ∀ i r, rounds[i]? = some r → r.reason = "duplicate candidate skipped" →
    ∃ b, patches[i]? = some b ∧ ∃ a ∈ patches.take i, SameEffect B program a b

/-- The file is tried to its end: the rounds go through the patches one by one up to the
first acceptable one, which is the repair, and a patch is skipped only after one that does
the same. -/
structure TriedToEnd (patches : List CirPatch) (budget : ℕ) (report : RepairReport) :
    Prop where
  rounds : report.rounds.map (fun r ↦ (r.candidate, r.accepted)) =
    (considered (acceptable B program spec) budget patches).map fun p ↦
      (p.id, acceptable B program spec p)
  accepted : report.accepted =
    ((patches.take budget).find? (acceptable B program spec)).bind (resolved B program)
  duplicates : SkipsKnown B program patches report.rounds

/-- Every patch that is looked at has a hash, and those with one key do the same. -/
structure Distinguished (ps : List CirPatch) : Prop where
  hashed : ∀ p ∈ ps, (expectedHash B program p).isSome
  keyed : ps.Pairwise fun a b ↦ contentKey a = contentKey b → SameEffect B program a b

end Meaning

section Effects

variable {B : Toolchain} {program : Ast.Program} {spec : ContractSpec} {a b c : CirPatch}

theorem SameEffect.refl (a : CirPatch) : SameEffect B program a a := ⟨rfl, rfl, rfl, rfl⟩

theorem SameEffect.symm (h : SameEffect B program a b) : SameEffect B program b a :=
  ⟨h.module.symm, h.function.symm, h.changes.symm, h.hash.symm⟩

theorem SameEffect.trans (h : SameEffect B program a b) (h' : SameEffect B program b c) :
    SameEffect B program a c :=
  ⟨h.module.trans h'.module, h.function.trans h'.function, h.changes.trans h'.changes,
    h.hash.trans h'.hash⟩

theorem SameEffect.key (h : SameEffect B program a b) : contentKey a = contentKey b := by
  rw [contentKey, contentKey, h.module, h.function, h.changes]

theorem contentKey_of_resolved (h : resolved B program a = some c) :
    contentKey c = contentKey a ∧ c.id = a.id := by
  obtain ⟨hash, -, rfl⟩ := Option.map_eq_some_iff.mp h
  exact ⟨rfl, rfl⟩

theorem resolved_isSome : (resolved B program a).isSome = (expectedHash B program a).isSome :=
  Option.isSome_map

variable [FloatArith]

theorem judge_congr (hm : a.module = b.module) (hf : a.function = b.function)
    (hc : a.changes = b.changes) (hh : a.originalHash = b.originalHash) :
    B.judge program spec a = B.judge program spec b := by
  rw [Toolchain.judge, Toolchain.judge, checkAllowed_congr hm hf hc,
    Toolchain.apply_congr hm hf hh hc]

theorem SameEffect.acceptable (h : SameEffect B program a b) :
    acceptable B program spec a = acceptable B program spec b := by
  rw [Repair.acceptable, Repair.acceptable, resolved, resolved, h.hash]
  cases expectedHash B program b with
  | none => rfl
  | some hash =>
      exact congrArg Judgement.isAccepted (judge_congr h.module h.function h.changes rfl)

omit [FloatArith] in
theorem reason_ne_of_judgeReport {reason : String} {outcome : Option Outcome}
    {diff : Option String} {patched : Ast.Program} {report : Report} {d : String}
    (h : Toolchain.judgeReport patched report d = .rejected reason outcome diff) :
    reason ≠ "duplicate candidate skipped" := by
  intro hdup
  have hlist := congrArg String.toList hdup
  rw [Toolchain.judgeReport] at h
  cases ho : report.outcome with
  | pass =>
      rw [ho] at h
      cases h
  | fail | unknown | invalid | unsupported =>
      rw [ho] at h
      obtain ⟨rfl, -, -⟩ := Judgement.rejected.inj h
      simp at hlist

theorem reason_ne_of_judgePatched {reason : String} {outcome : Option Outcome}
    {diff : Option String} {patched : Ast.Program} {d : String}
    (h : B.judgePatched spec patched d = .rejected reason outcome diff) :
    reason ≠ "duplicate candidate skipped" := by
  intro hdup
  have hlist := congrArg String.toList hdup
  rw [Toolchain.judgePatched] at h
  cases hlower : B.lower patched with
  | error e =>
      rw [hlower] at h
      obtain ⟨rfl, -, -⟩ := Judgement.rejected.inj h
      simp at hlist
  | ok sem =>
      simp only [hlower] at h
      split_ifs at h with hu
      · obtain ⟨rfl, -, -⟩ := Judgement.rejected.inj h
        simp at hlist
      · cases hresolve : B.resolve spec sem with
        | error e =>
            rw [hresolve] at h
            cases e with
            | unsupported m | invalid m =>
                obtain ⟨rfl, -, -⟩ := Judgement.rejected.inj h
                simp at hlist
        | ok contract =>
            rw [hresolve] at h
            exact reason_ne_of_judgeReport h hdup

/-- No other round says that it skips a duplicate. -/
theorem reason_ne_duplicate {reason : String} {outcome : Option Outcome} {diff : Option String}
    (h : B.judge program spec a = .rejected reason outcome diff) :
    reason ≠ "duplicate candidate skipped" := by
  intro hdup
  have hlist := congrArg String.toList hdup
  rw [Toolchain.judge] at h
  cases hallowed : checkAllowed spec.allowedScope a with
  | error e =>
      rw [hallowed] at h
      obtain ⟨rfl, -, -⟩ := Judgement.rejected.inj h
      simp at hlist
  | ok u =>
      rw [hallowed] at h
      cases happly : B.apply program a with
      | error e =>
          rw [happly] at h
          obtain ⟨rfl, -, -⟩ := Judgement.rejected.inj h
          simp at hlist
      | ok result =>
          obtain ⟨patched, d⟩ := result
          simp only [happly] at h
          split_ifs at h with hvalid
          · obtain ⟨rfl, -, -⟩ := Judgement.rejected.inj h
            simp at hlist
          · exact reason_ne_of_judgePatched h hdup

end Effects

section Rounds

variable {B : Toolchain} {program : Ast.Program} {spec : ContractSpec}
  {ps ds qs : List CirPatch} {q c : CirPatch} {v : LoopState} {n round : ℕ}

namespace FileCandidateProvider

theorem nextCandidate_cons : nextCandidate B program ⟨ds ++ q :: qs, ds.length⟩ =
    (resolved B program q, ⟨ds ++ q :: qs, ds.length + 1⟩) := by
  have hq : (ds ++ q :: qs)[ds.length]? = some q := by
    rw [List.getElem?_append_right le_rfl, Nat.sub_self, List.getElem?_cons_zero]
  rw [nextCandidate, resolved, expectedHash]
  simp only [hq]
  split_ifs with hempty
  · cases B.functionHash program q.module q.function with
    | error e => rfl
    | ok hash => rfl
  · rfl

theorem nextCandidate_end :
    nextCandidate B program ⟨ds ++ [], ds.length⟩ = (none, ⟨ds ++ [], ds.length⟩) := by
  rw [nextCandidate, List.append_nil, List.getElem?_eq_none le_rfl]

end FileCandidateProvider

variable [FloatArith]

/-- The rounds so far stay in the report. -/
theorem rounds_kept {σ : Type} {next : σ → Option CirPatch × σ} {provider : σ} :
    v.rounds <+: (repairRounds B program spec next n round provider v).rounds := by
  induction n generalizing round provider v with
  | zero => exact List.prefix_rfl
  | succ n ih =>
      rw [repairRounds]
      rcases hnext : next provider with ⟨_ | c, provider'⟩
      · exact List.prefix_rfl
      · simp only
        split_ifs with htried
        · exact (List.prefix_append v.rounds [_]).trans (ih (v := v.duplicate round c))
        · cases B.judge program spec c with
          | accepted patched report diff => exact List.prefix_append _ _
          | rejected reason outcome diff =>
              exact (List.prefix_append v.rounds [_]).trans
                (ih (v := v.reject round c reason outcome diff))

/-- The loop has looked at `ds`, as it should. -/
structure Seen (B : Toolchain) (program : Ast.Program) (spec : ContractSpec)
    (ds : List CirPatch) (v : LoopState) : Prop where
  rounds : v.rounds.map (fun r ↦ (r.candidate, r.accepted)) = ds.map fun d ↦ (d.id, false)
  tried : ∀ k, k ∈ v.tried ↔ ∃ d ∈ ds, contentKey d = k
  rejected : ∀ d ∈ ds, acceptable B program spec d = false
  distinguished : Distinguished B program ds
  duplicates : SkipsKnown B program ds v.rounds

theorem Seen.length (h : Seen B program spec ds v) : v.rounds.length = ds.length := by
  simpa using congrArg List.length h.rounds

theorem Seen.initial (B : Toolchain) (program : Ast.Program) (spec : ContractSpec) :
    Seen B program spec [] .initial where
  rounds := rfl
  tried := by simp [LoopState.initial]
  rejected := by simp
  distinguished := ⟨by simp, .nil⟩
  duplicates := by simp [LoopState.initial, SkipsKnown]

omit [FloatArith] in
theorem SkipsKnown.append {rounds : List RoundRecord} (h : SkipsKnown B program ds rounds)
    (qs : List CirPatch) : SkipsKnown B program (ds ++ qs) rounds := by
  intro i r hr hdup
  obtain ⟨b, hb, a, ha, hsame⟩ := h i r hr hdup
  have hi : i < ds.length := (List.getElem?_eq_some_iff.mp hb).1
  refine ⟨b, ?_, a, ?_, hsame⟩
  · rw [List.getElem?_append_left hi, hb]
  · rwa [List.take_append_of_le_length hi.le]

omit [FloatArith] in
theorem SkipsKnown.concat {rounds : List RoundRecord} {r : RoundRecord}
    (h : SkipsKnown B program ds rounds) (hlen : rounds.length = ds.length)
    (hr : r.reason = "duplicate candidate skipped" → ∃ a ∈ ds, SameEffect B program a q) :
    SkipsKnown B program (ds ++ [q]) (rounds ++ [r]) := by
  intro i r' hr' hdup
  rcases lt_or_ge i rounds.length with hi | hi
  · rw [List.getElem?_append_left hi] at hr'
    exact h.append [q] i r' hr' hdup
  · have hlt := (List.getElem?_eq_some_iff.mp hr').1
    rw [List.length_append, List.length_singleton] at hlt
    obtain rfl : i = rounds.length := by omega
    rw [List.getElem?_append_right le_rfl, Nat.sub_self] at hr'
    obtain rfl := Option.some.inj hr'
    obtain ⟨a, ha, hsame⟩ := hr hdup
    refine ⟨q, ?_, a, ?_, hsame⟩
    · rw [hlen, List.getElem?_append_right le_rfl, Nat.sub_self, List.getElem?_cons_zero]
    · rwa [hlen, List.take_append_of_le_length le_rfl, List.take_length]

omit [FloatArith] in
theorem Distinguished.append (h : Distinguished B program (ds ++ qs)) :
    Distinguished B program ds :=
  ⟨fun p hp ↦ h.hashed p (List.mem_append_left _ hp), (List.pairwise_append.mp h.keyed).1⟩

omit [FloatArith] in
theorem Distinguished.concat_iff (h : Distinguished B program ds) :
    Distinguished B program (ds ++ [q]) ↔ (expectedHash B program q).isSome ∧
      ∀ d ∈ ds, contentKey d = contentKey q → SameEffect B program d q := by
  constructor
  · intro h'
    refine ⟨h'.hashed q (List.mem_append_right _ List.mem_cons_self), fun d hd ↦ ?_⟩
    exact (List.pairwise_append.mp h'.keyed).2.2 d hd q List.mem_cons_self
  · rintro ⟨hq, hkey⟩
    refine ⟨fun p hp ↦ ?_, List.pairwise_append.mpr ⟨h.keyed, List.pairwise_singleton _ _, ?_⟩⟩
    · rcases List.mem_append.mp hp with hp | hp
      · exact h.hashed p hp
      · rwa [List.mem_singleton.mp hp]
    · intro d hd p hp
      rw [List.mem_singleton.mp hp]
      exact hkey d hd

theorem acceptable_of_resolved (hc : resolved B program q = some c) :
    acceptable B program spec q = (B.judge program spec c).isAccepted := by
  rw [acceptable, hc]

omit [FloatArith] in
theorem hash_of_resolved (hc : resolved B program q = some c) :
    (expectedHash B program q).isSome := by
  rw [← resolved_isSome, hc]
  rfl

section Step

variable (round) (h : Seen B program spec ds v) (hc : resolved B program q = some c)

include h hc

theorem Seen.duplicate {d : CirPatch} (hd : d ∈ ds)
    (hkey : ∀ d ∈ ds, contentKey d = contentKey q → SameEffect B program d q)
    (hdq : contentKey d = contentKey q) :
    Seen B program spec (ds ++ [q]) (v.duplicate round c) where
  rounds := by
    rw [LoopState.duplicate, List.map_append, h.rounds, List.map_append,
      List.map_singleton, List.map_singleton, (contentKey_of_resolved hc).2]
  tried k := by
    rw [LoopState.duplicate, h.tried k]
    constructor
    · rintro ⟨d, hd, rfl⟩
      exact ⟨d, List.mem_append_left _ hd, rfl⟩
    · rintro ⟨d', hd', rfl⟩
      rcases List.mem_append.mp hd' with hd' | hd'
      · exact ⟨d', hd', rfl⟩
      · rw [List.mem_singleton.mp hd']
        exact ⟨d, hd, hdq⟩
  rejected p hp := by
    rcases List.mem_append.mp hp with hp | hp
    · exact h.rejected p hp
    · rw [List.mem_singleton.mp hp, ← (hkey d hd hdq).acceptable]
      exact h.rejected d hd
  distinguished := h.distinguished.concat_iff.mpr ⟨hash_of_resolved hc, hkey⟩
  duplicates := h.duplicates.concat h.length fun _ ↦ ⟨d, hd, hkey d hd hdq⟩

theorem Seen.reject (hnew : contentKey c ∉ v.tried) {reason : String}
    {outcome : Option Outcome} {diff : Option String}
    (hj : B.judge program spec c = .rejected reason outcome diff) :
    Seen B program spec (ds ++ [q]) (v.reject round c reason outcome diff) where
  rounds := by
    rw [LoopState.reject, List.map_append, h.rounds, List.map_append,
      List.map_singleton, List.map_singleton, (contentKey_of_resolved hc).2]
  tried k := by
    rw [LoopState.reject, List.mem_cons, h.tried k, (contentKey_of_resolved hc).1]
    constructor
    · rintro (rfl | ⟨d, hd, rfl⟩)
      · exact ⟨q, List.mem_append_right _ List.mem_cons_self, rfl⟩
      · exact ⟨d, List.mem_append_left _ hd, rfl⟩
    · rintro ⟨d, hd, rfl⟩
      rcases List.mem_append.mp hd with hd | hd
      · exact .inr ⟨d, hd, rfl⟩
      · exact .inl (by rw [List.mem_singleton.mp hd])
  rejected p hp := by
    rcases List.mem_append.mp hp with hp | hp
    · exact h.rejected p hp
    · rw [List.mem_singleton.mp hp, acceptable_of_resolved hc, hj]
      rfl
  distinguished := by
    refine h.distinguished.concat_iff.mpr ⟨hash_of_resolved hc, fun d hd hkey ↦ ?_⟩
    refine absurd ((h.tried _).mpr ⟨d, hd, ?_⟩) hnew
    rw [hkey, (contentKey_of_resolved hc).1]
  duplicates := h.duplicates.concat h.length fun hdup ↦ absurd hdup (reason_ne_duplicate hj)

theorem Seen.accept (hnew : contentKey c ∉ v.tried) {patched : Ast.Program} {report : Report}
    {diff : String} (hj : B.judge program spec c = .accepted patched report diff) :
    Distinguished B program (ds ++ [q]) ∧
      TriedToEnd B program spec (ds ++ q :: qs) (ds.length + (n + 1))
        (v.accept round c patched report diff) := by
  have hacc : acceptable B program spec q = true := by
    rw [acceptable_of_resolved hc, hj]
    rfl
  refine ⟨?_, ?_, ?_, ?_⟩
  · refine h.distinguished.concat_iff.mpr ⟨hash_of_resolved hc, fun d hd hkey ↦ ?_⟩
    refine absurd ((h.tried _).mpr ⟨d, hd, ?_⟩) hnew
    rw [hkey, (contentKey_of_resolved hc).1]
  · rw [considered_append h.rejected, considered_of_accepted hacc, LoopState.accept,
      List.map_append, h.rounds, List.map_append, List.map_singleton, List.map_singleton,
      (contentKey_of_resolved hc).2, hacc]
    congr 1
    exact List.map_congr_left fun d hd ↦ by rw [h.rejected d hd]
  · rw [find?_take h.rejected, List.take_succ_cons, List.find?_cons_of_pos hacc]
    exact hc.symm
  · rw [List.append_cons]
    refine SkipsKnown.append ?_ qs
    refine h.duplicates.concat h.length fun hdup ↦ absurd (congrArg String.toList hdup) ?_
    simp

end Step

theorem Seen.finish (h : Seen B program spec ds v) (hend : qs.take n = []) {o : RepairOutcome} :
    TriedToEnd B program spec (ds ++ qs) (ds.length + n) (v.finish o) where
  rounds := by
    have hnone : considered (acceptable B program spec) n qs = [] := by
      rw [List.take_eq_nil_iff] at hend
      rcases hend with rfl | rfl
      · rfl
      · exact considered_nil
    rw [considered_append h.rejected, hnone, List.append_nil, LoopState.finish, h.rounds]
    exact List.map_congr_left fun d hd ↦ by rw [h.rejected d hd]
  accepted := by
    rw [find?_take h.rejected, hend]
    rfl
  duplicates := h.duplicates.append qs

/-- Every round has its record. -/
theorem TriedToEnd.length {report : RepairReport} {patches : List CirPatch}
    (h : TriedToEnd B program spec patches n report) : report.rounds.length =
      (considered (acceptable B program spec) n patches).length := by
  simpa using congrArg List.length h.rounds

/-- A run that ends at a patch without a hash hides that patch. -/
theorem Seen.not_triedToEnd_finish (h : Seen B program spec ds v) {o : RepairOutcome} :
    ¬ TriedToEnd B program spec (ds ++ q :: qs) (ds.length + (n + 1)) (v.finish o) := by
  intro hend
  have hlen := hend.length
  rw [considered_append h.rejected, LoopState.finish, h.length, considered,
    List.length_append, List.length_cons] at hlen
  omega

/-- A patch that is skipped as a duplicate does what an earlier one does. -/
theorem Seen.same_of_triedToEnd {report : RepairReport} (h : Seen B program spec ds v)
    (hpre : (v.duplicate round c).rounds <+: report.rounds)
    (hend : TriedToEnd B program spec (ds ++ q :: qs) n report) :
    ∃ a ∈ ds, SameEffect B program a q := by
  obtain ⟨rest, hrest⟩ := hpre
  have hr : report.rounds[ds.length]? =
      some ⟨round, c.id, false, "duplicate candidate skipped", none, none⟩ := by
    rw [← hrest, LoopState.duplicate, ← h.length, List.append_assoc,
      List.getElem?_append_right le_rfl, Nat.sub_self]
    rfl
  obtain ⟨b, hb, a, ha, hsame⟩ := hend.duplicates _ _ hr rfl
  rw [List.getElem?_append_right le_rfl, Nat.sub_self, List.getElem?_cons_zero] at hb
  obtain rfl := Option.some.inj hb
  rw [List.take_append_of_le_length le_rfl, List.take_length] at ha
  exact ⟨a, ha, hsame⟩

omit [FloatArith] in
/-- Among patches that are told apart by their keys, those with one key do the same. -/
theorem Distinguished.same {a b : CirPatch} (h : Distinguished B program ds) (ha : a ∈ ds)
    (hb : b ∈ ds) (hkey : contentKey a = contentKey b) : SameEffect B program a b := by
  have : Std.Symm fun a b ↦ contentKey a = contentKey b → SameEffect B program a b :=
    ⟨fun a b hab hba ↦ (hab hba.symm).symm⟩
  exact h.keyed.forall_of_forall (fun a _ _ ↦ .refl a) ha hb hkey

/-- From any point of a run, the rest of the file is tried to its end exactly when the
patches still to be looked at have hashes and are told apart. -/
theorem triedToEnd_repairRounds (qs : List CirPatch) (n round : ℕ)
    (h : Seen B program spec ds v) :
    TriedToEnd B program spec (ds ++ qs) (ds.length + n)
        (repairRounds B program spec (FileCandidateProvider.nextCandidate B program) n round
          ⟨ds ++ qs, ds.length⟩ v) ↔
      Distinguished B program (ds ++ considered (acceptable B program spec) n qs) := by
  induction n generalizing ds qs v round with
  | zero =>
      rw [repairRounds, considered, List.append_nil]
      exact iff_of_true (h.finish List.take_zero) h.distinguished
  | succ n ih =>
      rw [repairRounds]
      cases qs with
      | nil =>
          rw [FileCandidateProvider.nextCandidate_end, considered]
          refine iff_of_true (h.finish List.take_nil) ?_
          rw [List.append_nil]
          exact h.distinguished
      | cons q qs =>
          rw [FileCandidateProvider.nextCandidate_cons]
          cases hc : resolved B program q with
          | none =>
              refine iff_of_false h.not_triedToEnd_finish fun hd ↦ ?_
              have hq := hd.hashed q (List.mem_append_right _ List.mem_cons_self)
              rw [← resolved_isSome, hc] at hq
              cases hq
          | some c =>
              have hkey := (contentKey_of_resolved hc).1
              have hshift : ds ++ q :: qs = (ds ++ [q]) ++ qs := List.append_cons ds q qs
              have hlen : ds.length + (n + 1) = (ds ++ [q]).length + n := by
                rw [List.length_append, List.length_singleton]
                omega
              have hcur : ds.length + 1 = (ds ++ [q]).length := by
                rw [List.length_append, List.length_singleton]
              simp only
              split_ifs with htried
              · obtain ⟨d, hd, hdc⟩ := (h.tried _).mp htried
                by_cases hsame : ∀ d ∈ ds, contentKey d = contentKey q →
                    SameEffect B program d q
                · have hseen := h.duplicate round hc hd hsame (hdc.trans hkey)
                  have hrej := hseen.rejected q (List.mem_append_right _ List.mem_cons_self)
                  rw [considered_of_rejected hrej, List.append_cons ds q (considered _ _ _),
                    hlen, hcur, hshift]
                  exact ih qs (round + 1) hseen
                · refine iff_of_false (fun hend ↦ hsame fun d' hd' hkey' ↦ ?_) fun hdist ↦ ?_
                  · obtain ⟨a, ha, haq⟩ := h.same_of_triedToEnd (rounds_kept) hend
                    exact (h.distinguished.same hd' ha (hkey'.trans haq.key.symm)).trans haq
                  · rw [considered, List.append_cons] at hdist
                    exact hsame (h.distinguished.concat_iff.mp hdist.append).2
              · cases hj : B.judge program spec c with
                | accepted patched report diff =>
                    obtain ⟨hdist, hend⟩ := h.accept round hc htried hj
                    have hacc : acceptable B program spec q = true := by
                      rw [acceptable_of_resolved hc, hj]
                      rfl
                    rw [considered_of_accepted hacc]
                    exact iff_of_true hend hdist
                | rejected reason outcome diff =>
                    have hseen := h.reject round hc htried hj
                    have hrej := hseen.rejected q (List.mem_append_right _ List.mem_cons_self)
                    rw [considered_of_rejected hrej, List.append_cons ds q (considered _ _ _),
                      hlen, hcur, hshift]
                    exact ih qs (round + 1) hseen

/-- A candidate file is tried to its end exactly when every patch up to the first acceptable
one has a hash, given or looked up, and those of one target and changes expect one hash. -/
theorem triedToEnd_runRepair (B : Toolchain) (program : Ast.Program) (spec : ContractSpec)
    (specs : List FilePatchSpec) (budget : ℕ) :
    TriedToEnd B program spec (FileCandidateProvider.ofSpecs specs).patches budget
        (runRepair B program spec (FileCandidateProvider.nextCandidate B)
          (FileCandidateProvider.ofSpecs specs) budget) ↔
      Distinguished B program (considered (acceptable B program spec) budget
        (FileCandidateProvider.ofSpecs specs).patches) := by
  have hrun := triedToEnd_repairRounds (FileCandidateProvider.ofSpecs specs).patches budget 0
    (Seen.initial B program spec)
  rw [List.nil_append, List.length_nil, Nat.zero_add] at hrun
  exact hrun

end Rounds

section Hidden

/-- The toolchain on `nested` with a contract that every program meets. -/
def hiddenTools : Toolchain :=
  { nestedTools with resolve := fun _ _ ↦ .ok ⟨[], [], ⟨16, 32, 200, 40, 40⟩⟩ }

/-- A patch of a function that is gone, then a swap. -/
def hiddenSpecs : List FilePatchSpec :=
  [⟨"m", "gone", none, none, [.deleteStatement "s0"], []⟩,
    ⟨"m", "main", none, none, [.swapStatements "s0" "s1"], []⟩]

/-- The swap is acceptable, and no round gets to it. -/
theorem not_triedToEnd_hidden :
    (FileCandidateProvider.ofSpecs hiddenSpecs).patches.map
      (@acceptable hiddenTools nested unmeetable .unused) = [false, true] ∧
    (@runRepair _ hiddenTools .unused nested unmeetable
      (FileCandidateProvider.nextCandidate hiddenTools)
      (FileCandidateProvider.ofSpecs hiddenSpecs) 2).accepted = none ∧
    ¬ @TriedToEnd hiddenTools nested unmeetable .unused
      (FileCandidateProvider.ofSpecs hiddenSpecs).patches 2
      (@runRepair _ hiddenTools .unused nested unmeetable
        (FileCandidateProvider.nextCandidate hiddenTools)
        (FileCandidateProvider.ofSpecs hiddenSpecs) 2) := by
  refine ⟨by decide +kernel, rfl, fun h ↦ ?_⟩
  exact absurd (@TriedToEnd.rounds _ _ _ .unused _ _ _ h) (by decide +kernel)

end Hidden

end Repair

end ConcIR
