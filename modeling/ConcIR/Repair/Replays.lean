import ConcIR.Repair.Evidence
import ConcIR.Interp.Waits

/-!
# A live search replays

The artifact of every search passes every check of its replay.
-/

namespace ConcIR

namespace Repair

variable {B : Toolchain} [FloatArith] {spec : ContractSpec} {cfg : SearchConfig}
  {p q : Ast.Program} {v v' : SearchState} {nid i j k : ℕ} {node n m : Node} {c : CirPatch}
  {diff text : String} {x : AttemptReport} {xs : List AttemptReport} {nodes more : List Node}
  {reports : List NodeReport} {pending : List ℕ} {a : SearchArtifact} {r : NodeReport}

section Checks

omit [FloatArith]

theorem unit_bind_ok {α : Type} {f : Except String Unit} {next : Unit → Except String α} {y : α} :
    (f >>= next) = .ok y ↔ f = .ok () ∧ next () = .ok y := by
  cases f <;> simp [bind, Except.bind]

theorem allowedOr_ok {scope : PatchScope} :
    allowedOr scope c text = .ok () ↔ checkAllowed scope c = .ok () := by
  rw [allowedOr]
  cases checkAllowed scope c <;> simp

theorem appliedOr_bind_ok {α : Type} {next : Ast.Program → Except String α} {y : α} :
    (appliedOr B p c text >>= next) = .ok y ↔
      ∃ q, (∃ diff, B.apply p c = .ok (q, diff)) ∧ next q = .ok y := by
  rw [appliedOr]
  cases B.apply p c with
  | error e => simp [bind, Except.bind]
  | ok r => simp [Prod.ext_iff, bind, Except.bind]

theorem ok_bind {α β : Type} {next : α → Except String β} {z : α} :
    ((.ok z : Except String α) >>= next) = next z :=
  rfl

theorem except_bind_ok {α β : Type} {f : Except String α} {next : α → Except String β} {y : β} :
    (f >>= next) = .ok y ↔ ∃ z, f = .ok z ∧ next z = .ok y := by
  cases f <;> simp [bind, Except.bind]

/-- The shape of the root and of the other nodes. -/
inductive NodeShape (reports : List NodeReport) : ℕ → NodeReport → Prop
  | root {r : NodeReport} : r.id = 0 → r.parent = none → r.depth = 0 → r.totalEdits = 0 →
      r.incoming = none → NodeShape reports 0 r
  | child {i j : ℕ} {r s : NodeReport} {e : AppliedEdit} : r.id = i → r.parent = some j → j < i →
      reports[j]? = some s → r.incoming = some e → r.depth = s.depth + 1 →
      r.totalEdits = s.totalEdits + e.changes.length → NodeShape reports i r

theorem checkNode_ok : checkNode reports i r = .ok () ↔ NodeShape reports i r := by
  rw [checkNode, ensure_bind_ok]
  cases hp : r.parent with
  | none =>
      simp only [ensure_bind_ok, ensure_eq_ok]
      constructor
      · rintro ⟨hid, rfl, hd, he, hinc⟩
        exact .root hid hp hd he (Option.isNone_iff_eq_none.mp hinc)
      · intro h
        cases h with
        | root hid _ hd he hinc => exact ⟨hid, rfl, hd, he, by rw [hinc]; rfl⟩
        | child _ hpar => rw [hp] at hpar; cases hpar
  | some j =>
      simp only [ensure_bind_ok, ensure_eq_ok, present_bind_ok]
      constructor
      · rintro ⟨hid, -, hlt, s, hs, e, he, hd, ht⟩
        exact .child hid hp hlt hs he hd ht
      · intro h
        cases h with
        | root _ hpar => rw [hp] at hpar; cases hpar
        | child hid hpar hlt hs he hd ht =>
            obtain rfl := Option.some.inj (hp.symm.trans hpar)
            exact ⟨hid, by omega, hlt, _, hs, _, he, hd, ht⟩

theorem maxOf_le {ys : List ℕ} {b : ℕ} : maxOf ys ≤ b ↔ ∀ y ∈ ys, y ≤ b := by
  induction ys with
  | nil => simp [maxOf]
  | cons y ys ih =>
      change max y (maxOf ys) ≤ b ↔ _
      rw [max_le_iff, ih]
      simp

theorem checkCounts_ok : checkCounts a = .ok () ↔ a.counts = ⟨a.attempts.length, a.nodes.length,
    a.nodes.length, (a.attempts.filter (·.result = "reused")).length,
    (a.nodes.map (·.report.statesExplored)).sum, a.nodes.length⟩ := by
  rw [checkCounts]
  simp only [ensure_bind_ok, ensure_eq_ok]
  cases a.counts
  simp

/-- The recorded limits are kept. -/
structure WithinBudgets (a : SearchArtifact) : Prop where
  attempts : a.attempts.length ≤ a.effectiveConfig.candidateBudget
  verifications : a.counts.verificationCalls ≤ a.effectiveConfig.verificationBudget
  depth : ∀ r ∈ a.nodes, r.depth ≤ a.effectiveConfig.maxDepth
  edits : ∀ r ∈ a.nodes, r.totalEdits ≤ a.effectiveConfig.maxTotalEdits
  single : a.effectiveConfig.strategy = .single → (∀ r ∈ a.nodes, r.depth ≤ 1) ∧
    (∀ r ∈ a.nodes, r.id ≠ 0 → r.parent = some 0) ∧ ∀ x ∈ a.attempts, x.parent = 0
  zero : a.effectiveConfig.verificationBudget = 0 → a.nodes = [] ∧ a.counts.verificationCalls = 0

theorem checkBudgets_ok : checkBudgets a = .ok () ↔ WithinBudgets a := by
  rw [checkBudgets]
  simp only [ensure_bind_ok, ensure_eq_ok, maxOf_le, List.forall_mem_map, not_and, not_exists,
    not_not, not_or]
  constructor
  · rintro ⟨h₁, h₂, h₃, h₄, h₅, h₆, h₇, h₈⟩
    refine ⟨h₁, h₂, h₃, h₄, fun hs ↦ ⟨?_, h₆ hs, h₇ hs⟩, h₈⟩
    have := not_lt.mp (h₅ hs)
    rw [maxOf_le, List.forall_mem_map] at this
    exact this
  · intro h
    refine ⟨h.attempts, h.verifications, h.depth, h.edits, fun hs ↦ ?_,
      fun hs ↦ (h.single hs).2.1, fun hs ↦ (h.single hs).2.2, h.zero⟩
    rw [not_lt, maxOf_le, List.forall_mem_map]
    exact (h.single hs).1

theorem validateStructure_ok : validateStructure a = .ok () ↔
    a.schemaVersion = "concir-repair-artifact-v1" ∧
    (a.source.crateVersion ≠ "" ∧ a.source.binaryFingerprint ≠ "") ∧
    (∀ i r, a.nodes[i]? = some r → NodeShape a.nodes i r) ∧
    a.effectiveConfig.bounds = a.frozenContract.bounds ∧
    (∀ i x, a.attempts[i]? = some x → checkAttemptShape a.nodes i x = .ok ()) ∧
    checkCounts a = .ok () ∧ WithinBudgets a ∧ checkAccepted a = .ok () := by
  rw [validateStructure]
  simp only [unit_bind_ok, ensure_eq_ok, checkAll_ok, Nat.zero_add, checkNode_ok,
    checkBudgets_ok]

theorem reportsMatch_self (r : Report) (what : String) : reportsMatch B r r what = .ok () := by
  rw [reportsMatch]
  simp only [ensure_bind_ok, ensure_eq_ok, and_self]

/-- The input, or what the recorded edit makes of the parent. -/
theorem rebuildNode_ok {rebuilt : List Ast.Program} : rebuildNode B a rebuilt r = .ok q ↔
    (r.parent = none ∧ q = a.inputProgram) ∨ ∃ j base e, r.parent = some j ∧
      rebuilt[j]? = some base ∧ r.incoming = some e ∧ EditStep B a.frozenContract base e q ∧
      r.programFingerprint = B.programFingerprint q := by
  rw [rebuildNode]
  cases hp : r.parent with
  | none => simp [eq_comm]
  | some j =>
      simp only [present_bind_ok, unit_bind_ok, ensure_eq_ok, allowedOr_ok, appliedOr_bind_ok]
      constructor
      · rintro ⟨base, hbase, e, he, ha, hparent, q', happly, hfp, hresult, hq⟩
        obtain rfl := Except.ok.inj hq
        refine .inr ⟨j, base, e, rfl, hbase, he, ?_, hfp.symm⟩
        exact (editStep_iff _).mpr ⟨ha, happly, hparent, hresult.trans hfp.symm⟩
      · rintro (⟨h, -⟩ | ⟨j', base, e, hj, hbase, he, hstep, hfp⟩)
        · cases h
        · obtain rfl := Option.some.inj hj
          exact ⟨base, hbase, e, he, hstep.allowed _, hstep.parent, q, hstep.applied _, hfp.symm,
            hstep.result.trans hfp.symm, rfl⟩

variable (B a)

/-- An attempt whose patch explains its result, `k` nodes having been verified before. -/
inductive Explained (rebuilt : List Ast.Program) (k : ℕ) (x : AttemptReport) : ℕ → Prop
  | denied {p : Ast.Program} {c : CirPatch} : x.result = "denied" →
      rebuilt[x.parent]? = some p → x.patch = some c →
      checkAllowed a.frozenContract.allowedScope c ≠ .ok () → Explained rebuilt k x k
  | applyError {p : Ast.Program} {c : CirPatch} {e : PatchError} : x.result = "apply-error" →
      rebuilt[x.parent]? = some p → x.patch = some c →
      checkAllowed a.frozenContract.allowedScope c = .ok () → B.apply p c = .error e →
      Explained rebuilt k x k
  | staticInvalid {p q : Ast.Program} {c : CirPatch} {diff : String} :
      x.result = "static-invalid" → rebuilt[x.parent]? = some p → x.patch = some c →
      checkAllowed a.frozenContract.allowedScope c = .ok () → B.apply p c = .ok (q, diff) →
      (B.validate q).valid = false → Explained rebuilt k x k
  | verified {p q : Ast.Program} {c : CirPatch} {diff : String} {r : NodeReport}
      {e : AppliedEdit} : x.result = "verified" → rebuilt[x.parent]? = some p →
      x.patch = some c → checkAllowed a.frozenContract.allowedScope c = .ok () →
      B.apply p c = .ok (q, diff) → x.programFingerprint = some (B.programFingerprint q) →
      a.nodes[k]? = some r → r.programFingerprint = B.programFingerprint q →
      r.parent = some x.parent → r.incoming = some e →
      (e.module = c.module ∧ e.function = c.function ∧ e.changes = c.changes ∧
        e.originalFunctionHash = c.originalHash) → Explained rebuilt k x (k + 1)
  | reused {p q : Ast.Program} {c : CirPatch} {diff : String} {t : ℕ} {r : NodeReport} :
      x.result = "reused" → rebuilt[x.parent]? = some p → x.patch = some c →
      checkAllowed a.frozenContract.allowedScope c = .ok () → B.apply p c = .ok (q, diff) →
      x.programFingerprint = some (B.programFingerprint q) → x.reusedNode = some t → t < k →
      a.nodes[t]? = some r → r.programFingerprint = B.programFingerprint q →
      Explained rebuilt k x k
  | blocked {p q : Ast.Program} {c : CirPatch} {diff : String} :
      x.result = "budget-blocked" → rebuilt[x.parent]? = some p → x.patch = some c →
      checkAllowed a.frozenContract.allowedScope c = .ok () → B.apply p c = .ok (q, diff) →
      x.programFingerprint = some (B.programFingerprint q) → (B.validate q).valid = true →
      (∀ r ∈ a.nodes, r.programFingerprint ≠ B.programFingerprint q) →
      a.effectiveConfig.verificationBudget ≤ k → Explained rebuilt k x k

variable {B a}

theorem validateAttempt_of_explained {rebuilt : List Ast.Program} {k' : ℕ}
    (h : Explained B a rebuilt k x k') : validateAttempt B a rebuilt i x k = .ok k' := by
  rw [validateAttempt]
  simp only [present_bind_ok]
  cases h with
  | denied hx hp hc ha => exact ⟨_, hp, _, hc, by simp [hx, ensure, ha, bind, Except.bind]⟩
  | applyError hx hp hc ha he =>
      refine ⟨_, hp, _, hc, ?_⟩
      simp only [hx, String.reduceEq, if_false, if_true, unit_bind_ok, allowedOr_ok]
      exact ⟨ha, by rw [he]⟩
  | staticInvalid hx hp hc ha hq hv =>
      refine ⟨_, hp, _, hc, ?_⟩
      simp only [hx, String.reduceEq, if_false, if_true, unit_bind_ok, allowedOr_ok,
        appliedOr_bind_ok, ensure_eq_ok]
      exact ⟨ha, _, ⟨_, hq⟩, hv, trivial⟩
  | verified hx hp hc ha hq hfp hr hrfp hparent he hpatch =>
      refine ⟨_, hp, _, hc, ?_⟩
      simp only [hx, String.reduceEq, if_false, if_true, unit_bind_ok, allowedOr_ok,
        appliedOr_bind_ok, ensure_eq_ok, present_bind_ok]
      refine ⟨ha, _, ⟨_, hq⟩, hfp, _, ?_, _, he, hpatch, trivial⟩
      rw [hr, Option.filter_some, hrfp, hparent]
      simp
  | reused hx hp hc ha hq hfp ht hlt hr hrfp =>
      refine ⟨_, hp, _, hc, ?_⟩
      simp only [hx, String.reduceEq, if_false, if_true, unit_bind_ok, allowedOr_ok,
        appliedOr_bind_ok, ensure_eq_ok, present_bind_ok]
      exact ⟨ha, _, ⟨_, hq⟩, hfp, _, ht, hlt, _, hr, hrfp, trivial⟩
  | blocked hx hp hc ha hq hfp hv hall hb =>
      refine ⟨_, hp, _, hc, ?_⟩
      simp only [hx, String.reduceEq, if_false, if_true, unit_bind_ok, allowedOr_ok,
        appliedOr_bind_ok, ensure_eq_ok]
      exact ⟨ha, _, ⟨_, hq⟩, hfp, hv, hall, hb, trivial⟩

end Checks

section Records

variable (B spec cfg p)

omit [FloatArith] in
/-- An artifact records a search. -/
structure RecordOf (v : SearchState) (a : SearchArtifact) : Prop where
  schema : a.schemaVersion = "concir-repair-artifact-v1"
  source : a.source = ⟨B.crateVersion, B.binaryFingerprint⟩
  input : a.inputProgram = p
  contract : a.frozenContract = spec
  config : a.effectiveConfig = ⟨cfg, spec.bounds⟩
  nodes : a.nodes = v.nodeReports
  attempts : a.attempts = v.attempts
  counts : a.counts = ⟨v.proposals, v.nodes.length, v.verifications, v.cacheHits, v.statesExplored,
    v.nodeReports.length⟩
  sawUnknown : a.sawUnknown = v.sawUnknown

variable {B spec cfg p}

omit [FloatArith] in
/-- Every report is the report of a node. -/
theorem Reported.nodeOf (h : Reported B nodes reports) (hr : reports[i]? = some r) :
    ∃ n note, nodes[i]? = some n ∧ r = n.toReport i (B.editOf nodes i) note := by
  have hlt := (List.getElem?_eq_some_iff.mp hr).1
  rw [h.1] at hlt
  obtain ⟨note, hnote⟩ := h.2 i _ (List.getElem?_eq_getElem hlt)
  exact ⟨_, note, List.getElem?_eq_getElem hlt, Option.some.inj (hr.symm.trans hnote)⟩

omit [FloatArith] in
theorem Reported.mem (h : Reported B nodes reports) (hr : r ∈ reports) :
    ∃ (i : ℕ) (n : Node) (note : Option String), nodes[i]? = some n ∧
      r = n.toReport i (B.editOf nodes i) note := by
  obtain ⟨i, hi⟩ := List.mem_iff_getElem?.mp hr
  obtain ⟨n, note, hn, hrep⟩ := h.nodeOf hi
  exact ⟨i, n, note, hn, hrep⟩

omit [FloatArith] in
/-- A fact about the reports that the nodes decide. -/
theorem Reported.map_eq {α : Type} (h : Reported B nodes reports) {f : NodeReport → α}
    {g : Node → α} (hfg : ∀ i n e note, f (Node.toReport n i e note) = g n) :
    reports.map f = nodes.map g := by
  apply List.ext_getElem?
  intro i
  rw [List.getElem?_map, List.getElem?_map]
  cases hn : nodes[i]? with
  | none =>
      have hlen := List.getElem?_eq_none_iff.mp hn
      rw [List.getElem?_eq_none (h.1 ▸ hlen)]
      rfl
  | some n =>
      obtain ⟨note, hr⟩ := h.2 i n hn
      rw [hr, Option.map_some, Option.map_some, hfg]

/-- The nodes of a search have the shape of a tree. -/
theorem Reported.shape (h : Reported B nodes reports) (ho : Origins B spec p nodes)
    (hr : reports[i]? = some r) : NodeShape reports i r := by
  obtain ⟨n, note, hn, rfl⟩ := h.nodeOf hr
  cases ho i n hn with
  | root =>
      rw [editOf_root hn]
      exact .root rfl rfl rfl rfl rfl
  | child hj hm ha hp hv =>
      rw [editOf_child hn hm]
      obtain ⟨note', hs⟩ := h.2 _ _ hm
      exact .child rfl rfl hj hs rfl rfl rfl

/-- One fingerprint, one node. -/
theorem Recorded.unique (h : Recorded B spec cfg p v) {i j : ℕ} {n m : Node}
    (hi : v.nodes[i]? = some n) (hj : v.nodes[j]? = some m) (hfp : n.fingerprint = m.fingerprint) :
    i = j := by
  have h₁ := (h.indexed m.fingerprint i).mpr ⟨n, hi, hfp⟩
  have h₂ := (h.indexed m.fingerprint j).mpr ⟨m, hj, rfl⟩
  exact Option.some.inj (h₁.symm.trans h₂)

/-- The shape of the attempts of a search. -/
theorem Fits.shape (h : Fits B spec cfg v.nodes k x) (hr : Recorded B spec cfg p v)
    (hrep : Reported B v.nodes v.nodeReports) (hid : x.id = i) :
    checkAttemptShape v.nodeReports i x = .ok () := by
  rw [checkAttemptShape]
  simp only [ensure_bind_ok]
  have hlow : ∀ {j : ℕ} {m : Node}, v.nodes[j]? = some m → j < v.nodeReports.length := by
    intro j m hm
    rw [hrep.1]
    exact (List.getElem?_eq_some_iff.mp hm).1
  cases h with
  | denied hm _ => exact ⟨hid, hlow hm, rfl, by simp [ensure]⟩
  | applyError hm _ _ => exact ⟨hid, hlow hm, rfl, by simp [ensure]⟩
  | staticInvalid hm _ _ _ => exact ⟨hid, hlow hm, rfl, by simp [ensure]⟩
  | blocked hm _ _ _ _ _ => exact ⟨hid, hlow hm, rfl, by simp [ensure, bind, Except.bind]⟩
  | @reused _ _ t m n _ _ _ _ hm _ _ _ hn _ =>
      obtain ⟨note, hnote⟩ := hrep.2 t n hn
      refine ⟨hid, hlow hm, rfl, ?_⟩
      simp [present, hnote, ensure, Node.toReport, bind, Except.bind]
  | @verified _ j m c q _ _ hm _ _ hk =>
      refine ⟨hid, hlow hm, rfl, ?_⟩
      obtain ⟨note, hnote⟩ := hrep.2 k _ hk
      cases hf : v.nodeReports.find? (·.programFingerprint = B.programFingerprint q) with
      | none =>
          have := List.find?_eq_none.mp hf _ (List.mem_of_getElem? hnote)
          simp [Node.toReport, childNode] at this
      | some s =>
          have hfp : s.programFingerprint = B.programFingerprint q := by
            simpa using List.find?_some hf
          obtain ⟨t, n, note', hn, rfl⟩ := hrep.mem (List.mem_of_find?_eq_some hf)
          obtain rfl := hr.unique hn hk hfp
          obtain rfl := Option.some.inj (hn.symm.trans hk)
          simp [present, hf, ensure, Node.toReport, childNode, bind, Except.bind]

theorem RecordOf.structure (h : RecordOf B spec cfg p v a) (hr : Recorded B spec cfg p v)
    (he : Evidence B spec cfg v) (hsource : B.crateVersion ≠ "" ∧ B.binaryFingerprint ≠ "")
    (hacc : checkAccepted a = .ok ()) : validateStructure a = .ok () := by
  have hmem : ∀ {r}, r ∈ a.nodes → ∃ (i : ℕ) (n : Node) (note : Option String),
      v.nodes[i]? = some n ∧ r = n.toReport i (B.editOf v.nodes i) note := by
    intro r hmem
    rw [h.nodes] at hmem
    exact he.reported.mem hmem
  have hlen : v.nodeReports.length = v.nodes.length := he.reported.1
  refine validateStructure_ok.mpr ⟨h.schema, ?_, ?_, ?_, ?_, ?_, ?_, hacc⟩
  · rw [h.source]
    exact hsource
  · rw [h.nodes]
    exact fun i r hi ↦ he.reported.shape hr.origins hi
  · rw [h.config, h.contract]
  · rw [h.nodes, h.attempts]
    intro i x hx
    obtain ⟨hid, hfit⟩ := he.fits i x hx
    exact hfit.shape hr he.reported hid
  · have hstates : v.nodeReports.map (·.report.statesExplored) =
        v.nodes.map (·.report.statesExplored) := he.reported.map_eq fun _ _ _ _ ↦ rfl
    rw [checkCounts_ok, h.counts, h.attempts, h.nodes, hlen, hr.proposals, hr.verifications,
      he.cacheHits, he.states, hstates]
  · refine ⟨?_, ?_, ?_, ?_, ?_, ?_⟩
    · rw [h.attempts, h.config, ← hr.proposals]
      exact hr.proposals_le
    · rw [h.counts, h.config]
      exact hr.verifications_le
    · intro r hmem'
      obtain ⟨i, n, note, hn, rfl⟩ := hmem hmem'
      rw [h.config]
      exact hr.depth_le n (List.mem_of_getElem? hn)
    · intro r hmem'
      obtain ⟨i, n, note, hn, rfl⟩ := hmem hmem'
      rw [h.config]
      exact hr.edits_le n (List.mem_of_getElem? hn)
    · intro hs
      rw [h.config] at hs
      obtain ⟨hparent, hattempt⟩ := he.single hs
      refine ⟨?_, ?_, h.attempts ▸ hattempt⟩
      · intro r hmem'
        obtain ⟨i, n, note, hn, rfl⟩ := hmem hmem'
        cases hr.origins i n hn with
        | root => exact Nat.zero_le _
        | child hj hm _ _ _ =>
            have hzero := Option.some.inj (hparent _ _ hn (by omega))
            subst hzero
            cases hr.origins 0 _ hm with
            | root => exact le_rfl
            | child hj' => omega
      · intro r hmem' hne
        obtain ⟨i, n, note, hn, rfl⟩ := hmem hmem'
        exact hparent i n hn hne
    · intro hz
      rw [h.config] at hz
      have := hr.verifications_le
      have hver : v.verifications = 0 := Nat.le_zero.mp (hz ▸ this)
      rw [h.nodes, h.counts]
      refine ⟨List.eq_nil_of_length_eq_zero ?_, hver⟩
      rw [hlen, ← hr.verifications, hver]

/-- Every node is rebuilt from its parent. -/
theorem RecordOf.rebuild (h : RecordOf B spec cfg p v a) (hr : Recorded B spec cfg p v)
    (he : Evidence B spec cfg v) {done : List Node} {rest : List NodeReport} {left : List Node}
    (hnodes : v.nodes = done ++ left) (hreports : v.nodeReports.drop done.length = rest) :
    rebuildFrom B a (done.map (·.program)) rest = .ok (v.nodes.map (·.program)) := by
  induction left generalizing done rest with
  | nil =>
      rw [List.append_nil] at hnodes
      have hnil : rest = [] := by
        rw [← hreports, ← hnodes, ← he.reported.1, List.drop_length]
      rw [hnil, rebuildFrom, hnodes]
  | cons n left ih =>
      have hn : v.nodes[done.length]? = some n := by
        rw [hnodes, List.getElem?_append_right le_rfl, Nat.sub_self]
        rfl
      obtain ⟨note, hnote⟩ := he.reported.2 _ _ hn
      obtain ⟨hlt, hget⟩ := List.getElem?_eq_some_iff.mp hnote
      rw [List.drop_eq_getElem_cons hlt, hget] at hreports
      subst hreports
      have horigin := hr.origins _ _ hn
      have hnode : rebuildNode B a (done.map (·.program))
          (n.toReport done.length (B.editOf v.nodes done.length) note) = .ok n.program := by
        rw [rebuildNode_ok]
        generalize hk : done.length = k at hn horigin
        cases horigin with
        | root => exact .inl ⟨rfl, h.input.symm⟩
        | @child _ j m c q diff hj hm ha hp hv =>
            have hstep := editStep_of_apply ha hp
            rw [← (hr.origins j m hm).fingerprint, ← h.contract] at hstep
            refine .inr ⟨j, m.program, _, rfl, ?_, editOf_child hn hm, hstep, rfl⟩
            rw [hnodes, List.getElem?_append_left (by omega)] at hm
            rw [List.getElem?_map, hm]
            rfl
      have hmatch : reportsMatch B (B.verifyProgram n.program a.frozenContract)
          (n.toReport done.length (B.editOf v.nodes done.length) note).report
          s!"node {(n.toReport done.length (B.editOf v.nodes done.length) note).id}" = .ok () := by
        rw [h.contract, ← horigin.report]
        exact reportsMatch_self _ _
      rw [rebuildFrom, except_bind_ok]
      refine ⟨n.program, hnode, ?_⟩
      rw [unit_bind_ok]
      refine ⟨hmatch, ?_⟩
      have hdone : done.map (·.program) ++ [n.program] = (done ++ [n]).map (·.program) := by
        rw [List.map_append]
        rfl
      rw [hdone]
      refine ih ?_ ?_
      · rw [hnodes, List.append_assoc]
        rfl
      · rw [List.length_append]
        rfl

/-- Every attempt is explained. -/
theorem Fits.explained (h : Fits B spec cfg v.nodes k x) (hrec : RecordOf B spec cfg p v a)
    (he : Evidence B spec cfg v) :
    Explained B a (v.nodes.map (·.program)) k x
      (k + if x.result = "verified" then 1 else 0) := by
  have hprog : ∀ {j : ℕ} {m : Node}, v.nodes[j]? = some m →
      (v.nodes.map (·.program))[j]? = some m.program := by
    intro j m hm
    rw [List.getElem?_map, hm]
    rfl
  have hscope : a.frozenContract.allowedScope = spec.allowedScope := by rw [hrec.contract]
  cases h with
  | denied hm ha =>
      refine .denied rfl (hprog hm) rfl ?_
      rw [hscope, ha]
      intro hok
      cases hok
  | applyError hm ha hp => exact .applyError rfl (hprog hm) rfl (hscope ▸ ha) hp
  | staticInvalid hm ha hp hv => exact .staticInvalid rfl (hprog hm) rfl (hscope ▸ ha) hp hv
  | @reused _ _ t m n _ _ _ _ hm ha hp ht hn hfp =>
      obtain ⟨note, hnote⟩ := he.reported.2 t n hn
      rw [← hrec.nodes] at hnote
      exact .reused rfl (hprog hm) rfl (hscope ▸ ha) hp (congrArg some hfp) rfl ht hnote hfp
  | @verified _ j m c q _ _ hm ha hp hk =>
      obtain ⟨note, hnote⟩ := he.reported.2 k _ hk
      rw [← hrec.nodes] at hnote
      have hstep := editStep_of_apply ha hp
      have hhash := Toolchain.hash_of_apply hp
      refine .verified rfl (hprog hm) rfl (hscope ▸ ha) hp rfl hnote rfl rfl (editOf_child hk hm) ?_
      exact ⟨rfl, rfl, rfl, Except.ok.inj (hstep.hash.symm.trans hhash)⟩
  | blocked hm ha hp hv hall hb =>
      refine .blocked rfl (hprog hm) rfl (hscope ▸ ha) hp rfl hv ?_ (by rw [hrec.config]; exact hb)
      intro r hmem
      rw [hrec.nodes] at hmem
      obtain ⟨i, n, note, hn, rfl⟩ := he.reported.mem hmem
      exact hall n (List.mem_of_getElem? hn)

theorem RecordOf.attemptsFrom (h : RecordOf B spec cfg p v a) (he : Evidence B spec cfg v) {done rest : List AttemptReport}
    (hall : v.attempts = done ++ rest) :
    attemptsFrom B a (v.nodes.map (·.program)) done.length (created done) rest =
      .ok (created v.attempts) := by
  induction rest generalizing done with
  | nil =>
      rw [List.append_nil] at hall
      rw [Repair.attemptsFrom, hall]
  | cons x rest ih =>
      have hx : v.attempts[done.length]? = some x := by
        rw [hall, List.getElem?_append_right le_rfl, Nat.sub_self]
        rfl
      obtain ⟨-, hfit⟩ := he.fits _ _ hx
      rw [hall, List.take_left' rfl] at hfit
      have hex := hfit.explained h he
      have hnext : created done + (if x.result = "verified" then 1 else 0) =
          created (done ++ [x]) := by
        by_cases hv : x.result = "verified"
        · rw [if_pos hv, created_append_verified hv]
        · rw [if_neg hv, created_append_of_ne hv, Nat.add_zero]
      rw [hnext] at hex
      rw [Repair.attemptsFrom, except_bind_ok]
      refine ⟨_, validateAttempt_of_explained hex, ?_⟩
      have hlen : done.length + 1 = (done ++ [x]).length := by simp
      rw [hlen]
      refine ih ?_
      rw [hall, List.append_assoc]
      rfl

theorem RecordOf.attempts_ok (h : RecordOf B spec cfg p v a) (he : Evidence B spec cfg v) : validateAttempts B a (v.nodes.map (·.program)) = .ok () := by
  have hlen : a.nodes.length = v.nodes.length := by
    rw [h.nodes]
    exact he.reported.1
  have hne : a.nodes ≠ [] := by
    intro hnil
    have hcount := he.created
    rw [← hlen, hnil, created] at hcount
    simp at hcount
    omega
  have hfrom := h.attemptsFrom he (List.nil_append v.attempts).symm
  rw [validateAttempts, except_bind_ok, if_neg hne]
  refine ⟨created v.attempts, ?_, ?_⟩
  · rw [h.attempts]
    exact hfrom
  · rw [ensure_eq_ok, hlen]
    exact he.created.symm

theorem RecordOf.states (h : RecordOf B spec cfg p v a) (hr : Recorded B spec cfg p v)
    (he : Evidence B spec cfg v) :
    freshStates B a (v.nodes.map (·.program)) = a.counts.statesExplored := by
  rw [freshStates, h.counts, he.states, h.contract, List.map_map]
  congr 1
  apply List.map_congr_left
  intro n hn
  obtain ⟨i, hi⟩ := List.mem_iff_getElem?.mp hn
  rw [(hr.origins i n hi).report]
  rfl

end Records

section Outcomes

omit [FloatArith] in
theorem Reported.any_iff (h : Reported B nodes reports) {f : NodeReport → Bool}
    {P : ℕ → Node → Prop} (hf : ∀ i n e note, f (Node.toReport n i e note) = true ↔ P i n) :
    reports.any f = true ↔ ∃ i n, nodes[i]? = some n ∧ P i n := by
  rw [List.any_eq_true]
  constructor
  · rintro ⟨r, hr, hfr⟩
    obtain ⟨i, n, note, hn, rfl⟩ := h.mem hr
    exact ⟨i, n, hn, (hf i n _ note).mp hfr⟩
  · rintro ⟨i, n, hn, hP⟩
    obtain ⟨note, hnote⟩ := h.2 i n hn
    exact ⟨_, List.mem_of_getElem? hnote, (hf i n _ note).mpr hP⟩

omit [FloatArith] in
theorem nodeIsExpandable_iff {e : Option AppliedEdit} {note : Option String} :
    nodeIsExpandable cfg.strategy (n.toReport i e note) = true ↔ Expands cfg i n := by
  rw [nodeIsExpandable, Expands]
  split_ifs with hf
  · simp only [false_iff]
    exact fun hexp ↦ hf hexp.1
  · rw [Bool.or_eq_true, decide_eq_true_eq, decide_eq_true_eq]
    exact (and_iff_right (not_not.mp hf)).symm

section Facts

variable (h : RecordOf B spec cfg p v a) (he : Evidence B spec cfg v)
include h he

theorem RecordOf.depth_iff : (deriveTerminalFacts a).depthTruncated = true ↔
    ∃ i n, v.nodes[i]? = some n ∧ Expands cfg i n ∧ cfg.maxDepth ≤ n.depth := by
  rw [deriveTerminalFacts, h.nodes, h.config]
  refine he.reported.any_iff fun i n e note ↦ ?_
  rw [Bool.and_eq_true, nodeIsExpandable_iff, decide_eq_true_eq]
  rfl

theorem RecordOf.edits_iff : (deriveTerminalFacts a).editsTruncated = true ↔
    ∃ i n, v.nodes[i]? = some n ∧ Expands cfg i n ∧ n.depth < cfg.maxDepth ∧
      cfg.maxTotalEdits ≤ n.totalEdits := by
  rw [deriveTerminalFacts, h.nodes, h.config]
  refine he.reported.any_iff fun i n e note ↦ ?_
  rw [Bool.and_eq_true, Bool.and_eq_true, nodeIsExpandable_iff, decide_eq_true_eq,
    decide_eq_true_eq, and_assoc]
  rfl

omit he [FloatArith] in
theorem RecordOf.blocked_iff : (deriveTerminalFacts a).verificationBudgetHit = true ↔
    ∃ x ∈ v.attempts, x.result = "budget-blocked" := by
  rw [deriveTerminalFacts, h.attempts]
  simp

theorem RecordOf.candidates_iff : (deriveTerminalFacts a).candidateBudgetHit = true ↔
    (∀ x ∈ v.attempts, x.result ≠ "budget-blocked") ∧ cfg.candidateBudget ≤ v.proposals ∧
    ∃ i n, v.nodes[i]? = some n ∧ Expands cfg i n ∧ n.depth < cfg.maxDepth ∧
      n.totalEdits < cfg.maxTotalEdits := by
  have hcan : (a.nodes.any fun n ↦ nodeIsExpandable cfg.strategy n &&
      decide (n.depth < cfg.maxDepth) && decide (n.totalEdits < cfg.maxTotalEdits)) = true ↔
      ∃ i n, v.nodes[i]? = some n ∧ Expands cfg i n ∧ n.depth < cfg.maxDepth ∧
        n.totalEdits < cfg.maxTotalEdits := by
    rw [h.nodes]
    refine he.reported.any_iff fun i n e note ↦ ?_
    rw [Bool.and_eq_true, Bool.and_eq_true, nodeIsExpandable_iff, decide_eq_true_eq,
      decide_eq_true_eq, and_assoc]
    rfl
  rw [← hcan, deriveTerminalFacts, h.attempts, h.config, h.counts]
  simp [and_assoc]

theorem RecordOf.unknown_eq : (deriveTerminalFacts a).sawUnknown = v.sawUnknown := by
  have hmap : a.nodes.map (·.report.outcome) = v.nodes.map (·.report.outcome) := by
    rw [h.nodes]
    exact he.reported.map_eq fun _ _ _ _ ↦ rfl
  have hany : ∀ {α : Type} (f : α → Outcome) (ys : List α),
      ys.any (fun y ↦ f y = .unknown) = (ys.map f).any (· = .unknown) := by
    intro α f ys
    rw [List.any_map]
    rfl
  rw [he.unknown, deriveTerminalFacts]
  change a.nodes.any (fun r ↦ r.report.outcome = .unknown) = _
  rw [hany (fun r : NodeReport ↦ r.report.outcome), hmap, ← hany]

theorem RecordOf.root_known (hroot : ∃ n, v.nodes[0]? = some n ∧ n.report.outcome = .fail) :
    (deriveTerminalFacts a).rootUnknown = false := by
  obtain ⟨n, hn, hf⟩ := hroot
  obtain ⟨note, hnote⟩ := he.reported.2 0 n hn
  rw [← h.nodes] at hnote
  rw [deriveTerminalFacts]
  cases hnodes : a.nodes with
  | nil => rfl
  | cons r rest =>
      rw [hnodes] at hnote
      obtain rfl := Option.some.inj hnote
      cases rest with
      | nil => simp [Node.toReport, hf]
      | cons _ _ => rfl

/-- The facts derived from the record classify the search as the search did. -/
theorem RecordOf.classify_eq (hroot : ∃ n, v.nodes[0]? = some n ∧ n.report.outcome = .fail)
    (hend : Ending cfg v) : (deriveTerminalFacts a).classify = v.facts.classify := by
  have hknown := h.root_known he hroot
  have hsaw := h.unknown_eq he
  cases hend with
  | dry hf hasked =>
      have hblocked : (deriveTerminalFacts a).verificationBudgetHit = v.verificationBudgetHit := by
        rw [hf.verifications, ← Bool.not_eq_true, h.blocked_iff]
        rintro ⟨x, hx, hres⟩
        exact hf.unblocked x hx hres
      have hcand : (deriveTerminalFacts a).candidateBudgetHit = v.candidateBudgetHit := by
        rw [hf.candidates, ← Bool.not_eq_true, h.candidates_iff he]
        rintro ⟨-, hle, k, n, hk, hexp, hd, hedit⟩
        exact absurd (hasked k n hk hexp hd hedit) (not_lt.mpr hle)
      have hdepth : (deriveTerminalFacts a).depthTruncated = v.depthTruncated := by
        rw [Bool.eq_iff_iff, h.depth_iff he]
        refine ⟨?_, hf.depth_of⟩
        rintro ⟨k, n, hk, hexp, hd⟩
        exact hf.deep k n hk hexp List.not_mem_nil hd
      have hedits : (deriveTerminalFacts a).editsTruncated = v.editsTruncated := by
        rw [Bool.eq_iff_iff, h.edits_iff he]
        refine ⟨?_, hf.edits_of⟩
        rintro ⟨k, n, hk, hexp, hd, hedit⟩
        exact hf.edited k n hk hexp List.not_mem_nil hd hedit
      have hfacts : deriveTerminalFacts a = v.facts := by
        cases hd : deriveTerminalFacts a
        rw [hd] at hknown hsaw hblocked hcand hdepth hedits
        simp only at hknown hsaw hblocked hcand hdepth hedits
        rw [hknown, hsaw, hblocked, hcand, hdepth, hedits]
        rfl
      rw [hfacts]
  | candidates hhit hver hopen hle hk hexp hd hedit =>
      have hcand := (h.candidates_iff he).mpr ⟨hopen, hle, _, _, hk, hexp, hd, hedit⟩
      rw [TerminalFacts.classify, TerminalFacts.classify, hknown, hcand, SearchState.facts, hhit]
      rfl
  | verifications hcand hhit hx hres =>
      have hblocked := h.blocked_iff.mpr ⟨_, hx, hres⟩
      have hno : (deriveTerminalFacts a).candidateBudgetHit = false := by
        rw [← Bool.not_eq_true, h.candidates_iff he]
        rintro ⟨hopen, -⟩
        exact hopen _ hx hres
      rw [TerminalFacts.classify, TerminalFacts.classify, hknown, hno, hblocked,
        SearchState.facts, hhit, hcand]
      rfl

end Facts

omit [FloatArith] in
/-- A chain that leads somewhere replays. -/
theorem Follows.replay {es : List AppliedEdit} (h : Follows B a.frozenContract p es q)
    (i edits : ℕ) : replayChain B a i p (B.programFingerprint p) edits es =
      .ok (q, B.programFingerprint q, edits + (es.map (·.changes.length)).sum) := by
  induction h generalizing i edits with
  | nil => rfl
  | @cons p q r e es hstep _ ih =>
      rw [replayChain]
      simp only [unit_bind_ok, allowedOr_ok, appliedOr_bind_ok, ensure_eq_ok]
      refine ⟨hstep.allowed _, hstep.parent, q, hstep.applied _, hstep.result.symm, ?_⟩
      rw [ih, List.map_cons, List.sum_cons, Nat.add_assoc]

theorem RecordOf.root (h : RecordOf B spec cfg p v a) (hr : Recorded B spec cfg p v)
    (he : Evidence B spec cfg v) : ∃ note rest,
    a.nodes = (B.rootNode p spec).toReport 0 none note :: rest := by
  have hpos : 0 < v.nodes.length := by
    rw [he.created, created]
    omega
  have hzero := List.getElem?_eq_getElem hpos
  have hroot : v.nodes[0]? = some (B.rootNode p spec) := by
    generalize v.nodes[0] = n at hzero
    cases hr.origins 0 n hzero with
    | root => exact hzero
    | child hj => omega
  obtain ⟨note, hnote⟩ := he.reported.2 0 _ hroot
  rw [editOf_root hroot, ← h.nodes] at hnote
  cases hnodes : a.nodes with
  | nil =>
      rw [hnodes] at hnote
      cases hnote
  | cons r rest =>
      rw [hnodes] at hnote
      obtain rfl := Option.some.inj hnote
      exact ⟨note, rest, rfl⟩

/-- The checks that do not depend on the outcome succeed. -/
theorem RecordOf.replays (h : RecordOf B spec cfg p v a) (hr : Recorded B spec cfg p v)
    (he : Evidence B spec cfg v) (hsource : B.crateVersion ≠ "" ∧ B.binaryFingerprint ≠ "")
    (hacc : checkAccepted a = .ok ()) (hev : validateOutcomeEvidence B a = .ok ())
    (hrest : a.outcome = .repaired ∧ (∃ id, replayAccepted B a = .ok id) ∨
      a.outcome ≠ .repaired ∧ a.acceptedProgram.isNone ∧ a.acceptedReport.isNone) :
    ∃ res, replayParsed B a = .ok res ∧ res.outcome = a.outcome := by
  obtain ⟨note, rest, hnodes⟩ := h.root hr he
  have hmatch : reportsMatch B (B.verifyProgram a.inputProgram a.frozenContract)
      ((B.rootNode p spec).toReport 0 none note).report "root node" = .ok () := by
    rw [h.input, h.contract]
    exact reportsMatch_self _ _
  have hbuild : rebuildFrom B a [] a.nodes = .ok (v.nodes.map (·.program)) := by
    rw [h.nodes]
    exact @RecordOf.rebuild B _ spec cfg p v a h hr he [] _ _ rfl rfl
  rw [replayParsed, hnodes]
  simp only [unit_bind_ok, replayNodes, ensure_eq_ok, hbuild, ok_bind]
  have hfp : ((B.rootNode p spec).toReport 0 none note).programFingerprint =
      B.programFingerprint a.inputProgram := by
    rw [h.input]
    rfl
  have hstructure := h.structure hr he hsource hacc
  rcases hrest with ⟨hrep, id, hid⟩ | ⟨hne, hnone⟩
  · rw [if_pos hrep, hid]
    exact ⟨_, ⟨hstructure, hfp, hmatch, h.attempts_ok he, hev, h.states hr he, rfl⟩, rfl⟩
  · rw [if_neg hne]
    simp only [unit_bind_ok, ensure_eq_ok]
    exact ⟨_, ⟨hstructure, hfp, hmatch, h.attempts_ok he, hev, h.states hr he, hnone, rfl⟩, rfl⟩

omit [FloatArith] in
/-- The outcomes of a search that was left. -/
theorem classify_cases (f : TerminalFacts) : f.classify.1 = .analysisUnknown ∨
    f.classify.1 = .budgetExhausted ∨ f.classify.1 = .noAcceptableCandidate := by
  rw [TerminalFacts.classify]
  split_ifs <;> simp

omit [FloatArith] in
/-- The recorded classification is the derived one. -/
theorem evidence_of_classify (hsaw : a.sawUnknown = (deriveTerminalFacts a).sawUnknown)
    (h : (a.outcome, a.stopReason, a.truncation) = (deriveTerminalFacts a).classify) :
    validateOutcomeEvidence B a = .ok () ∧
      (a.acceptedProgram.isNone → a.patchChain = [] → a.nodes ≠ [] → checkAccepted a = .ok ()) := by
  have hout : a.outcome = (deriveTerminalFacts a).classify.1 := congrArg Prod.fst h
  have hstop : a.stopReason = (deriveTerminalFacts a).classify.2.1 :=
    congrArg (fun t ↦ t.2.1) h
  have htrunc : a.truncation = (deriveTerminalFacts a).classify.2.2 :=
    congrArg (fun t ↦ t.2.2) h
  rw [validateOutcomeEvidence, checkAccepted]
  rcases classify_cases (deriveTerminalFacts a) with hc | hc | hc
  · rw [hout, hc]
    simp only [ensure_bind_ok, ensure_eq_ok]
    exact ⟨⟨hsaw, hc.symm, hstop, htrunc⟩, fun h₁ h₂ h₃ ↦ ⟨⟨h₁, h₂⟩, h₃⟩⟩
  · rw [hout, hc]
    simp only [ensure_bind_ok, ensure_eq_ok]
    exact ⟨⟨hsaw, hc.symm, hstop, htrunc⟩, fun h₁ h₂ h₃ ↦ ⟨⟨h₁, h₂⟩, h₃⟩⟩
  · rw [hout, hc]
    simp only [ensure_bind_ok, ensure_eq_ok]
    exact ⟨⟨hsaw, hc.symm, hstop, htrunc⟩, fun h₁ h₂ h₃ ↦ ⟨⟨h₁, h₂⟩, h₃⟩⟩

/-- A search that was left without a repair replays. -/
theorem Ended.replays (h : Ended B spec cfg p v)
    (hsource : B.crateVersion ≠ "" ∧ B.binaryFingerprint ≠ "") :
    ∃ res, replayParsed B ((v.finish cfg spec.bounds v.facts.classify.1 v.facts.classify.2.1
      v.facts.classify.2.2 [] none none).artifact B p spec cfg) = .ok res ∧
      res.outcome = v.facts.classify.1 := by
  have hrec : RecordOf B spec cfg p v ((v.finish cfg spec.bounds v.facts.classify.1
      v.facts.classify.2.1 v.facts.classify.2.2 [] none none).artifact B p spec cfg) :=
    ⟨rfl, rfl, rfl, rfl, rfl, rfl, rfl, rfl, rfl⟩
  have hclass := hrec.classify_eq h.evidence h.root h.ending
  obtain ⟨hev, hacc⟩ := evidence_of_classify (B := B) (hrec.unknown_eq h.evidence).symm
    (by rw [hclass]; rfl)
  obtain ⟨note, rest, hnodes⟩ := hrec.root h.recorded h.evidence
  refine hrec.replays h.recorded h.evidence hsource (hacc rfl rfl ?_) hev (.inr ⟨?_, rfl, rfl⟩)
  · rw [hnodes]
    exact List.cons_ne_nil _ _
  · exact classify_ne_repaired _

/-- An accepted repair replays. -/
theorem Accepted.replays (h : Accepted B spec cfg p v k)
    (hsource : B.crateVersion ≠ "" ∧ B.binaryFingerprint ≠ "") :
    ∃ res, replayParsed B ((B.repaired spec cfg v k).artifact B p spec cfg) = .ok res ∧
      res.outcome = .repaired := by
  obtain ⟨n, hn, hpass, hcomplete⟩ := h.node
  have hrec : RecordOf B spec cfg p v ((B.repaired spec cfg v k).artifact B p spec cfg) :=
    ⟨rfl, rfl, rfl, rfl, rfl, rfl, rfl, rfl, rfl⟩
  have horigin := h.recorded.origins k n hn
  have hreport := horigin.report
  obtain ⟨hfol, hlen, hsum⟩ := h.recorded.origins.follows hn (Nat.lt_succ_self k)
  have hprogram : ((B.repaired spec cfg v k).artifact B p spec cfg).acceptedProgram =
      some n.program := by
    change v.nodes[k]?.map (·.program) = _
    rw [hn]
    rfl
  have hacceptedReport : ((B.repaired spec cfg v k).artifact B p spec cfg).acceptedReport =
      some n.report := by
    change v.nodes[k]?.map (·.report) = _
    rw [hn]
    rfl
  have hdepth : n.depth ≠ 0 := by
    generalize hk : k = k' at horigin
    cases horigin with
    | root =>
        obtain ⟨m, hm, hf⟩ := h.root
        rw [hk] at hn
        obtain rfl := Option.some.inj (hn.symm.trans hm)
        rw [hpass] at hf
        cases hf
    | child => exact Nat.succ_ne_zero _
  have hchain : ((B.repaired spec cfg v k).artifact B p spec cfg).patchChain =
      (lineage v.nodes (k + 1) k).filterMap (B.editOf v.nodes) := rfl
  have hacc : checkAccepted ((B.repaired spec cfg v k).artifact B p spec cfg) = .ok () := by
    change ensure _ _ = _
    rw [ensure_eq_ok, hprogram, hacceptedReport, hchain]
    refine ⟨rfl, rfl, rfl, fun hnil ↦ hdepth ?_⟩
    rw [← hlen, hnil]
    rfl
  have hev : validateOutcomeEvidence B ((B.repaired spec cfg v k).artifact B p spec cfg) =
      .ok () := by
    change (ensure _ _ >>= fun _ ↦ simpleEvidence _ _) = _
    rw [ensure_bind_ok, simpleEvidence, ensure_bind_ok, ensure_eq_ok]
    exact ⟨(hrec.unknown_eq h.evidence).symm, rfl, rfl⟩
  refine hrec.replays h.recorded h.evidence hsource hacc hev (.inl ⟨rfl, k, ?_⟩)
  obtain ⟨note, hnote⟩ := h.evidence.reported.2 k n hn
  have hreplay := Follows.replay (a := (B.repaired spec cfg v k).artifact B p spec cfg) hfol 0 0
  rw [replayAccepted]
  simp only [present_bind_ok, unit_bind_ok, ensure_eq_ok]
  refine ⟨k, rfl, _, hnote, ?_, ?_⟩
  · rw [hchain, hlen]
    rfl
  · rw [hchain]
    change (replayChain B _ 0 p (B.programFingerprint p) 0 _ >>= _) = _
    rw [hreplay, ok_bind]
    simp only [present_bind_ok, unit_bind_ok, ensure_eq_ok]
    refine ⟨?_, horigin.fingerprint.symm, _, hprogram, rfl, _, hacceptedReport, ?_, ?_, ?_, trivial⟩
    · rw [hsum, Nat.zero_add]
      rfl
    · change reportsMatch B (B.verifyProgram n.program spec) n.report _ = _
      rw [← hreport]
      exact reportsMatch_self _ _
    · change reportsMatch B (B.verifyProgram n.program spec) n.report _ = _
      rw [← hreport]
      exact reportsMatch_self _ _
    · change (B.verifyProgram n.program spec).outcome = .pass ∧
        (B.verifyProgram n.program spec).complete = true
      rw [← hreport]
      exact ⟨hpass, hcomplete⟩

end Outcomes

section Runs

/-- The evidence of the root. -/
theorem evidence_start (hv : v = { B.startState p spec with
    sawUnknown := decide ((B.verifyProgram p spec).outcome = .unknown) }) :
    Evidence B spec cfg v := by
  subst hv
  refine ⟨⟨rfl, ?_⟩, ?_, rfl, rfl, ?_, ?_, ?_⟩
  · intro i n hi
    cases i with
    | zero =>
        obtain rfl : B.rootNode p spec = n := Option.some.inj hi
        exact ⟨none, rfl⟩
    | succ i => cases hi
  · intro i x hx
    cases hx
  · simp [Toolchain.startState, Toolchain.rootNode]
  · simp [Toolchain.startState, Toolchain.rootNode]
  · refine fun _ ↦ ⟨fun i n hi hne ↦ ?_, fun x hx ↦ ?_⟩
    · cases i with
      | zero => exact absurd rfl hne
      | succ i => cases hi
    · cases hx

/-- The frontier of a root that fails is the root. -/
theorem searching_start (hb : cfg.verificationBudget ≠ 0)
    (hf : (B.verifyProgram p spec).outcome = .fail) :
    Searching B spec cfg p (B.startState p spec) := by
  have hroot : (B.startState p spec).nodes[0]? = some (B.rootNode p spec) := rfl
  have hzero : ∀ (k : ℕ) (n : Node), (B.startState p spec).nodes[k]? = some n →
      k ∈ (B.startState p spec).queue := by
    intro k n hk
    cases k with
    | zero => exact List.mem_cons_self
    | succ k => cases hk
  have hev : Evidence B spec cfg (B.startState p spec) := by
    refine evidence_start (p := p) ?_
    rw [hf]
    rfl
  refine ⟨recorded_startState hb, hev, ⟨⟨_, hroot, hf⟩, ?_, ?_, ?_, ?_, ?_, rfl, rfl, ?_⟩, ?_⟩
  · intro k hk
    rw [List.mem_singleton.mp hk]
    exact ⟨_, hroot, hf, .inl rfl⟩
  · exact fun k n hk _ hno ↦ absurd (hzero k n hk) hno
  · exact fun k n hk _ hno ↦ absurd (hzero k n hk) hno
  · intro h
    cases h
  · intro h
    cases h
  · exact fun x hx ↦ absurd hx List.not_mem_nil
  · exact fun k n hk _ hno ↦ absurd (hzero k n hk) hno

theorem searchFrom_replays (h : Searching B spec cfg p v)
    (hfuel : v.queue.length + (cfg.candidateBudget - v.proposals) < cfg.candidateBudget + 2)
    (hsource : B.crateVersion ≠ "" ∧ B.binaryFingerprint ≠ "") :
    ∃ res, replayParsed B ((B.searchFrom spec cfg v).artifact B p spec cfg) = .ok res ∧
      res.outcome = (B.searchFrom spec cfg v).outcome := by
  have hends := searching_rule.loop h hfuel
  rw [Toolchain.searchFrom]
  cases hl : B.searchLoop spec cfg (cfg.candidateBudget + 2) v with
  | next v' =>
      rw [hl] at hends
      cases hends
  | stop v' =>
      rw [hl] at hends
      exact Ended.replays hends hsource
  | done r =>
      rw [hl] at hends
      obtain ⟨w, k, rfl, hacc⟩ := hends
      exact hacc.replays hsource

/-- A search that ended at its root replays. -/
theorem rootOnly_replays (hb : cfg.verificationBudget ≠ 0)
    (hsource : B.crateVersion ≠ "" ∧ B.binaryFingerprint ≠ "")
    (hv : v = { B.startState p spec with
      sawUnknown := decide ((B.verifyProgram p spec).outcome = .unknown) })
    {outcome : RepairOutcome} {stopReason : String} (hne : outcome ≠ .repaired)
    (hacc : checkAccepted ((Toolchain.rootOnly spec cfg v outcome stopReason).artifact B p spec
      cfg) = .ok ())
    (hev : ∀ a : SearchArtifact, a =
      (Toolchain.rootOnly spec cfg v outcome stopReason).artifact B p spec cfg →
      a.sawUnknown = (deriveTerminalFacts a).sawUnknown → validateOutcomeEvidence B a = .ok ()) :
    ∃ res, replayParsed B ((Toolchain.rootOnly spec cfg v outcome stopReason).artifact B p spec
      cfg) = .ok res ∧ res.outcome = outcome := by
  have hev' : Evidence B spec cfg v := evidence_start hv
  have hstart : Recorded B spec cfg p v := by
    rw [hv]
    exact { recorded_startState hb with }
  have hrec : RecordOf B spec cfg p v
      ((Toolchain.rootOnly spec cfg v outcome stopReason).artifact B p spec cfg) := by
    rw [hv]
    exact ⟨rfl, rfl, rfl, rfl, rfl, rfl, rfl, rfl, rfl⟩
  exact hrec.replays hstart hev' hsource hacc (hev _ rfl (hrec.unknown_eq hev').symm)
    (.inr ⟨hne, rfl, rfl⟩)

omit [FloatArith] in
theorem evidence_of_simple {want : String} (h : a.stopReason = want) (ht : a.truncation = none) :
    simpleEvidence a want = .ok () := by
  rw [simpleEvidence, ensure_bind_ok, ensure_eq_ok, ht]
  exact ⟨h, rfl⟩

/-- The artifact of every run is accepted, with the outcome of the run. -/
theorem replayParsed_runSearch (hsource : B.crateVersion ≠ "" ∧ B.binaryFingerprint ≠ "") :
    ∃ res, replayParsed B ((B.runSearch spec cfg p).artifact B p spec cfg) = .ok res ∧
      res.outcome = (B.runSearch spec cfg p).outcome := by
  rw [Toolchain.runSearch]
  split_ifs with hb
  · rw [replayParsed, validateStructure_ok.mpr]
    · exact ⟨_, rfl, rfl⟩
    · refine ⟨rfl, hsource, ?_, rfl, ?_, rfl, ?_, rfl⟩
      · intro i r h
        cases h
      · intro i x h
        cases h
      · refine ⟨Nat.zero_le _, Nat.zero_le _, ?_, ?_, ?_, fun _ ↦ ⟨rfl, rfl⟩⟩
        · exact fun r h ↦ absurd h List.not_mem_nil
        · exact fun r h ↦ absurd h List.not_mem_nil
        · intro _
          exact ⟨fun r h ↦ absurd h List.not_mem_nil, fun r h ↦ absurd h List.not_mem_nil,
            fun x h ↦ absurd h List.not_mem_nil⟩
  · have hfrom : (B.verifyProgram p spec).outcome = .fail → ∃ res,
        replayParsed B ((B.searchFrom spec cfg (B.startState p spec)).artifact B p spec cfg) =
          .ok res ∧ res.outcome = (B.searchFrom spec cfg (B.startState p spec)).outcome := by
      intro hf
      refine searchFrom_replays (searching_start hb hf) ?_ hsource
      change 1 + (cfg.candidateBudget - 0) < cfg.candidateBudget + 2
      omega
    simp only
    cases ho : (B.verifyProgram p spec).outcome with
    | fail => exact hfrom ho
    | pass =>
        have hc := B.complete_of_pass ho
        rw [if_pos hc]
        refine rootOnly_replays hb hsource (by rw [ho]; rfl) (by decide) ?_ ?_
        · exact ensure_eq_ok.mpr ⟨rfl, ⟨_, rfl, ho, hc⟩, rfl, rfl⟩
        · rintro a rfl hsaw
          exact ensure_bind_ok.mpr ⟨hsaw, evidence_of_simple rfl rfl⟩
    | invalid =>
        refine rootOnly_replays hb hsource (by rw [ho]; rfl) (by decide) ?_ ?_
        · exact ensure_bind_ok.mpr ⟨⟨rfl, rfl, rfl⟩, ensure_eq_ok.mpr ⟨_, rfl, ho⟩⟩
        · rintro a rfl hsaw
          exact ensure_bind_ok.mpr ⟨hsaw, evidence_of_simple rfl rfl⟩
    | unsupported =>
        refine rootOnly_replays hb hsource (by rw [ho]; rfl) (by decide) ?_ ?_
        · exact ensure_bind_ok.mpr ⟨⟨rfl, rfl, rfl⟩, ensure_eq_ok.mpr ⟨_, rfl, ho⟩⟩
        · rintro a rfl hsaw
          exact ensure_bind_ok.mpr ⟨hsaw, evidence_of_simple rfl rfl⟩
    | unknown =>
        refine rootOnly_replays hb hsource (by rw [ho]; rfl) (by decide) ?_ ?_
        · exact ensure_bind_ok.mpr ⟨⟨rfl, rfl⟩, ensure_eq_ok.mpr (List.cons_ne_nil _ _)⟩
        · rintro a rfl hsaw
          refine (evidence_of_classify hsaw ?_).1
          rw [TerminalFacts.classify, if_pos]
          · rfl
          · exact decide_eq_true ho

/-- A live search replays: the written artifact is read, accepted, and has the same outcome. -/
theorem replayArtifact_runSearch (B : Toolchain) (F : ArtifactFormat) (spec : ContractSpec)
    (cfg : SearchConfig) (p : Ast.Program)
    (hsource : B.crateVersion ≠ "" ∧ B.binaryFingerprint ≠ "")
    (hround : F.read (F.write ((B.runSearch spec cfg p).artifact B p spec cfg)) =
      .ok ((B.runSearch spec cfg p).artifact B p spec cfg)) :
    ∃ res, replayArtifact B F (F.write ((B.runSearch spec cfg p).artifact B p spec cfg)) =
      .ok res ∧ res.outcome = (B.runSearch spec cfg p).outcome := by
  rw [replayArtifact, hround]
  exact replayParsed_runSearch hsource

end Runs

section Nested

/-- One function that takes two locks. -/
def nested : Ast.Program where
  program := "nested"
  version := "1"
  modules := [{
    name := "m"
    provides := ⟨[], [], []⟩
    requires := ⟨[], [], []⟩
    types := []
    resources := [⟨"a", "sync", "Mutex", none, none, none, none, none⟩,
      ⟨"b", "sync", "Mutex", none, none, none, none, none⟩]
    protection := []
    functions := [{
      name := "main"
      kind := "normal"
      form := "body"
      params := []
      returns := none
      locals := []
      body := [⟨"s0", .mutexLock "a"⟩, ⟨"s1", .mutexLock "b"⟩]
      effects := none
      mayBlock := none
      locks := ⟨[], [], []⟩
      bound := none }] }]
  entry := "m::main"

def nestedSem : SemProgram where
  moduleNames := ["m"]
  functions := [⟨0, "main", false, true, none, none, [], [⟨"s0", .mutexLock 0⟩,
    ⟨"s1", .mutexLock 1⟩], none⟩]
  resources := [⟨0, "a", .mutex, none, 0, 0, none⟩, ⟨0, "b", .mutex, none, 0, 0, none⟩]
  entry := 0
  unsupported := []
  entry_lt := by decide
  functions_ok := by decide
  resources_ok := by decide

/-- A contract that nothing meets. -/
def unmeetable : ContractSpec where
  name := "unmeetable"
  properties := [.unreachable "never" .true]
  preserved := []
  assumptions := ⟨true, true⟩
  bounds := ⟨1, 1, 1, 1, 1⟩
  allowedScope := ⟨[], [], true, false⟩

/-- The toolchain on the programs with the statements of `nested`. -/
def nestedTools : Toolchain where
  functionJson f := .ok (f.name ++ joinWith "," (f.body.map (·.sid)))
  programJson p := .ok (joinWith ";" (p.modules.flatMap fun m ↦ m.functions.map fun f ↦
    f.name ++ joinWith "," (f.body.map (·.sid))))
  specJson spec := .ok spec.name
  debugString s := s
  validate _ := ⟨true, []⟩
  lower _ := .ok nestedSem
  resolve spec _ := .ok ⟨[⟨"never", .unreachable .true⟩], [], spec.bounds⟩
  diagnose _ _ := ([], [])
  crateVersion := "0.1.0"
  binaryFingerprint := "unknown"

def nestedConfig : SearchConfig := ⟨.composite, 64, 64, 4, 4⟩

/-- The artifact of a search in `nested`. -/
def nestedArtifact : SearchArtifact :=
  (@Toolchain.runSearch nestedTools .unused unmeetable nestedConfig nested).artifact nestedTools
    nested unmeetable nestedConfig

/-- A file that holds the artifact. -/
def nestedFile : ArtifactFormat where
  write _ := "artifact.json"
  read _ := .ok nestedArtifact

omit [FloatArith] in
/-- The search tries the swap and the swap back and accepts neither. -/
theorem replayArtifact_runSearch_nested : (∃ res,
    @replayArtifact nestedTools .unused nestedFile (nestedFile.write nestedArtifact) = .ok res ∧
      res.outcome = nestedArtifact.outcome) ∧
    nestedArtifact.outcome = .noAcceptableCandidate ∧
    nestedArtifact.attempts.map (·.result) = ["verified", "reused"] := by
  refine ⟨?_, by decide +kernel, by decide +kernel⟩
  exact @replayArtifact_runSearch .unused nestedTools nestedFile unmeetable nestedConfig nested
    ⟨by decide, by decide⟩ rfl

end Nested

end Repair

end ConcIR
