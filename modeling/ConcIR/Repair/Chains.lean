import ConcIR.Repair.Nodes

/-!
# Accepted repairs

The edits recorded on the way to a node take the input program to the program of the node.
No search exceeds its budgets.
-/

namespace ConcIR

namespace Repair

/-- The patch an applied edit records. -/
def patchFromEdit (id : String) (e : AppliedEdit) : CirPatch where
  id := id
  module := e.module
  function := e.function
  originalHash := e.originalFunctionHash
  changes := e.changes
  provenance := e.provenance

variable {B : Toolchain} [FloatArith] {spec : ContractSpec} {cfg : SearchConfig}
  {p q r : Ast.Program} {v v' : SearchState} {nid i j : ℕ} {node n m : Node} {c : CirPatch}
  {diff : String} {flow : Flow} {e : AppliedEdit} {es : List AppliedEdit} {nodes : List Node}

section Follows

variable (B spec)

omit [FloatArith] in
/-- An edit that is allowed, fits the function it is for and leads from one program to
another. -/
structure EditStep (p : Ast.Program) (e : AppliedEdit) (q : Ast.Program) : Prop where
  allowed : ∀ id, checkAllowed spec.allowedScope (patchFromEdit id e) = .ok ()
  hash : B.functionHash p e.module e.function = .ok e.originalFunctionHash
  applied : ∀ id, ∃ diff, B.apply p (patchFromEdit id e) = .ok (q, diff)
  parent : e.parentFingerprint = B.programFingerprint p
  result : e.programFingerprint = B.programFingerprint q

/-- Edits applied one after the other. -/
inductive Follows : Ast.Program → List AppliedEdit → Ast.Program → Prop
  | nil {p : Ast.Program} : Follows p [] p
  | cons {p q r : Ast.Program} {e : AppliedEdit} {es : List AppliedEdit} :
      EditStep B spec p e q → Follows q es r → Follows p (e :: es) r

variable {B spec}

omit [FloatArith] in
/-- The id of the patch does not matter. -/
theorem editStep_iff (id : String) : EditStep B spec p e q ↔
    checkAllowed spec.allowedScope (patchFromEdit id e) = .ok () ∧
    (∃ diff, B.apply p (patchFromEdit id e) = .ok (q, diff)) ∧
    e.parentFingerprint = B.programFingerprint p ∧
    e.programFingerprint = B.programFingerprint q := by
  constructor
  · intro h
    exact ⟨h.allowed id, h.applied id, h.parent, h.result⟩
  · rintro ⟨ha, ⟨diff, hp⟩, hparent, hresult⟩
    refine ⟨fun id' ↦ ?_, Toolchain.hash_of_apply hp, fun id' ↦ ⟨diff, ?_⟩, hparent, hresult⟩
    · rw [← ha]
      exact checkAllowed_congr rfl rfl rfl
    · rw [← hp]
      exact Toolchain.apply_congr rfl rfl rfl rfl

omit [FloatArith] in
theorem Follows.snoc (h : Follows B spec p es q) (he : EditStep B spec q e r) :
    Follows B spec p (es ++ [e]) r := by
  induction h with
  | nil => exact .cons he .nil
  | cons hd _ ih => exact .cons hd (ih he)

omit [FloatArith] in
/-- The edit recorded for a patch that was allowed and applied. -/
theorem editStep_of_apply (ha : checkAllowed spec.allowedScope c = .ok ())
    (hp : B.apply p c = .ok (q, diff)) :
    EditStep B spec p (B.appliedEdit c (B.programFingerprint p) (B.programFingerprint q) p) q := by
  have hh := Toolchain.hash_of_apply hp
  have horig : (B.appliedEdit c (B.programFingerprint p) (B.programFingerprint q)
      p).originalFunctionHash = c.originalHash := by
    rw [Toolchain.appliedEdit, hh]
  refine ⟨fun id ↦ ?_, ?_, fun id ↦ ⟨diff, ?_⟩, rfl, rfl⟩
  · rw [← ha]
    exact checkAllowed_congr rfl rfl rfl
  · rw [horig]
    exact hh
  · rw [← hp]
    exact Toolchain.apply_congr rfl rfl horig rfl

end Follows

section Origins

variable (B spec p)

/-- Where a node comes from. -/
inductive Origin (nodes : List Node) : ℕ → Node → Prop
  | root : Origin nodes 0 (B.rootNode p spec)
  | child {i j : ℕ} {m : Node} {c : CirPatch} {q : Ast.Program} {diff : String} :
      j < i → nodes[j]? = some m → checkAllowed spec.allowedScope c = .ok () →
      B.apply m.program c = .ok (q, diff) → (B.validate q).valid = true →
      Origin nodes i (childNode B spec j m c q)

def Origins (nodes : List Node) : Prop :=
  ∀ i n, nodes[i]? = some n → Origin B spec p nodes i n

variable {B spec p}

theorem Origin.fingerprint (h : Origin B spec p nodes i n) :
    n.fingerprint = B.programFingerprint n.program := by
  cases h <;> rfl

theorem Origin.report (h : Origin B spec p nodes i n) :
    n.report = B.verifyProgram n.program spec := by
  cases h <;> rfl

theorem Origin.append (h : Origin B spec p nodes i n) (more : List Node) :
    Origin B spec p (nodes ++ more) i n := by
  cases h with
  | root => exact .root
  | child hj hm ha hp hv =>
      refine .child hj ?_ ha hp hv
      rw [List.getElem?_append_left (List.getElem?_eq_some_iff.mp hm).1]
      exact hm

/-- A child joins the nodes. -/
theorem Origins.child (h : Origins B spec p nodes) (hm : nodes[j]? = some m)
    (ha : checkAllowed spec.allowedScope c = .ok ()) (hp : B.apply m.program c = .ok (q, diff))
    (hv : (B.validate q).valid = true) : Origins B spec p (nodes ++ [childNode B spec j m c q]) := by
  intro i n hi
  rw [List.getElem?_append] at hi
  split_ifs at hi with hlt
  · exact (h i n hi).append _
  · obtain ⟨hz, rfl⟩ : i - nodes.length = 0 ∧ childNode B spec j m c q = n := by
      cases hk : i - nodes.length with
      | zero =>
          rw [hk] at hi
          exact ⟨rfl, Option.some.inj hi⟩
      | succ k =>
          rw [hk] at hi
          cases hi
    have hj := (List.getElem?_eq_some_iff.mp hm).1
    refine .child (by omega) ?_ ha hp hv
    rw [List.getElem?_append_left hj]
    exact hm

end Origins

section Lineage

/-- The edit of a node that came from another. -/
theorem editOf_child (hi : nodes[i]? = some (childNode B spec j m c q)) (hm : nodes[j]? = some m) :
    B.editOf nodes i = some (B.appliedEdit c m.fingerprint (B.programFingerprint q) m.program) := by
  simp only [Toolchain.editOf, hi, childNode, Option.bind_eq_bind, Option.bind_some, hm,
    Option.map_some, Option.getD_some]

theorem editOf_root (hi : nodes[i]? = some (B.rootNode p spec)) : B.editOf nodes i = none := by
  simp only [Toolchain.editOf, hi, Toolchain.rootNode, Option.bind_eq_bind, Option.bind_some,
    Option.bind_none]

/-- The edits of the ancestors lead from the input to the node. -/
theorem Origins.follows (h : Origins B spec p nodes) {fuel : ℕ} (hi : nodes[i]? = some n)
    (hf : i < fuel) :
    Follows B spec p ((lineage nodes fuel i).filterMap (B.editOf nodes)) n.program ∧
      ((lineage nodes fuel i).filterMap (B.editOf nodes)).length = n.depth ∧
      (((lineage nodes fuel i).filterMap (B.editOf nodes)).map (·.changes.length)).sum =
        n.totalEdits := by
  induction fuel generalizing i n with
  | zero => omega
  | succ fuel ih =>
      have ho := h i n hi
      cases ho with
      | root =>
          have hnone := editOf_root hi
          have hlin : lineage nodes (fuel + 1) 0 = [0] := by
            simp only [lineage, hi, Option.bind_some, Toolchain.rootNode]
          rw [hlin, List.filterMap_cons, hnone]
          exact ⟨.nil, rfl, rfl⟩
      | @child _ j m c q diff hj hm ha hp hv =>
          obtain ⟨hfol, hlen, hsum⟩ := ih hm (by omega)
          have hedit := editOf_child hi hm
          rw [(h j m hm).fingerprint] at hedit
          have hlin : lineage nodes (fuel + 1) i = lineage nodes fuel j ++ [i] := by
            simp only [lineage, hi, Option.bind_some, childNode]
          rw [hlin, List.filterMap_append, List.filterMap_cons, hedit, List.filterMap_nil,
            List.length_append, List.map_append, List.sum_append, hlen, hsum]
          exact ⟨hfol.snoc (editStep_of_apply ha hp), rfl, rfl⟩

end Lineage

section Budgets

variable (B spec cfg p)

/-- What holds of the variables of a search: every node has an origin and keeps the
limits, and the counters stay within the budgets. -/
structure Recorded (v : SearchState) : Prop where
  origins : Origins B spec p v.nodes
  depth_le : ∀ n ∈ v.nodes, n.depth ≤ cfg.maxDepth
  edits_le : ∀ n ∈ v.nodes, n.totalEdits ≤ cfg.maxTotalEdits
  indexed : Indexed v
  verifications : v.verifications = v.nodes.length
  proposals : v.proposals = v.attempts.length
  verifications_le : v.verifications ≤ cfg.verificationBudget
  proposals_le : v.proposals ≤ cfg.candidateBudget
  queued : ∀ k ∈ v.queue, k < v.nodes.length

variable {B spec cfg p}

theorem Recorded.of_nodes (h : Recorded B spec cfg p v) (hn : v'.nodes = v.nodes)
    (hx : v'.nodeByFp = v.nodeByFp) (hv : v'.verifications = v.verifications)
    (hq : ∀ k ∈ v'.queue, k ∈ v.queue) (hp : v'.proposals = v'.attempts.length)
    (hle : v'.proposals ≤ cfg.candidateBudget) : Recorded B spec cfg p v' where
  origins := by
    rw [hn]
    exact h.origins
  depth_le := by
    rw [hn]
    exact h.depth_le
  edits_le := by
    rw [hn]
    exact h.edits_le
  indexed := by
    rw [Indexed, hn, hx]
    exact h.indexed
  verifications := by
    rw [hn, hv]
    exact h.verifications
  proposals := hp
  verifications_le := by
    rw [hv]
    exact h.verifications_le
  proposals_le := hle
  queued k hk := by
    rw [hn]
    exact h.queued k (hq k hk)

omit [FloatArith] in
theorem note_eq (text : String) :
    v.note nid text = { v with nodeReports := (v.note nid text).nodeReports } := by
  rw [SearchState.note]
  split <;> rfl

theorem Recorded.note (h : Recorded B spec cfg p v) (nid : ℕ) (text : String) :
    Recorded B spec cfg p (v.note nid text) := by
  rw [note_eq]
  exact h.of_nodes rfl rfl rfl (fun _ hk ↦ hk) h.proposals h.proposals_le

theorem Indexed.grown (h : Indexed v)
    (hfresh : ∀ m ∈ v.nodes, m.fingerprint ≠ B.programFingerprint q) :
    Indexed (grown B spec nid node c q v) := by
  intro fp k
  change ((B.programFingerprint q, v.nodes.length) :: v.nodeByFp).lookup fp = some k ↔
    ∃ n, (v.nodes ++ [childNode B spec nid node c q])[k]? = some n ∧ n.fingerprint = fp
  have hlast : (v.nodes ++ [childNode B spec nid node c q])[v.nodes.length]? =
      some (childNode B spec nid node c q) := List.getElem?_concat_length
  have hlow : ∀ {k n}, (v.nodes ++ [childNode B spec nid node c q])[k]? = some n →
      k = v.nodes.length ∧ n = childNode B spec nid node c q ∨ v.nodes[k]? = some n := by
    intro k n hk
    rcases Nat.lt_trichotomy k v.nodes.length with hlt | rfl | hgt
    · rw [List.getElem?_append_left hlt] at hk
      exact .inr hk
    · rw [hlast] at hk
      exact .inl ⟨rfl, (Option.some.inj hk).symm⟩
    · rw [List.getElem?_eq_none (by simpa using hgt)] at hk
      cases hk
  rw [List.lookup_cons]
  by_cases hfp : fp = B.programFingerprint q
  · subst hfp
    simp only [beq_self_eq_true]
    constructor
    · intro hk
      obtain rfl := Option.some.inj hk
      exact ⟨_, hlast, rfl⟩
    · rintro ⟨n, hn, hfp⟩
      rcases hlow hn with ⟨rfl, -⟩ | hold
      · rfl
      · exact absurd hfp (hfresh n (List.mem_of_getElem? hold))
  · have hne : (fp == B.programFingerprint q) = false := by simpa using hfp
    simp only [hne, h fp k]
    constructor
    · rintro ⟨n, hn, hfp⟩
      refine ⟨n, ?_, hfp⟩
      rw [List.getElem?_append_left (List.getElem?_eq_some_iff.mp hn).1]
      exact hn
    · rintro ⟨n, hn, rfl⟩
      rcases hlow hn with ⟨-, rfl⟩ | hold
      · exact absurd rfl hfp
      · exact ⟨n, hold, rfl⟩

/-- A verified proposal is recorded. -/
theorem Recorded.grown (h : Recorded B spec cfg p v) (hn : v.nodes[nid]? = some node)
    (hd : node.depth < cfg.maxDepth) (he : node.totalEdits + c.changes.length ≤ cfg.maxTotalEdits)
    (hc : v.proposals < cfg.candidateBudget) (ha : checkAllowed spec.allowedScope c = .ok ())
    (hp : B.apply node.program c = .ok (q, diff)) (hv : (B.validate q).valid = true)
    (hfresh : ∀ m ∈ v.nodes, m.fingerprint ≠ B.programFingerprint q)
    (hb : v.verifications < cfg.verificationBudget) :
    Recorded B spec cfg p (grown B spec nid node c q v) where
  origins := h.origins.child hn ha hp hv
  depth_le := by
    intro n hn
    rcases List.mem_append.mp hn with hold | hnew
    · exact h.depth_le n hold
    · rw [List.mem_singleton.mp hnew]
      exact hd
  edits_le := by
    intro n hn
    rcases List.mem_append.mp hn with hold | hnew
    · exact h.edits_le n hold
    · rw [List.mem_singleton.mp hnew]
      exact he
  indexed := h.indexed.grown hfresh
  verifications := by
    change v.verifications + 1 = (v.nodes ++ [_]).length
    rw [List.length_append, h.verifications]
    rfl
  proposals := by
    change v.proposals + 1 = (v.attempts ++ [_]).length
    rw [List.length_append, h.proposals]
    rfl
  verifications_le := hb
  proposals_le := hc
  queued k hk := (h.queued k hk).trans_le (by simp [Repair.grown])

end Budgets

section Acceptance

variable (B spec cfg p)

/-- A search that was left with what it had recorded. -/
def Left (v : SearchState) : Prop := Recorded B spec cfg p v

/-- A report of an accepted node that was recorded. -/
def AcceptedAt (r : SearchReport) : Prop :=
  ∃ v k n, r = B.repaired spec cfg v k ∧ Recorded B spec cfg p v ∧ v.nodes[k]? = some n ∧
    n.report.outcome = .pass ∧ n.report.complete = true

/-- A node being expanded while everything is recorded. -/
structure Expanding (nid : ℕ) (node : Node) (v : SearchState) : Prop where
  recorded : Recorded B spec cfg p v
  known : v.nodes[nid]? = some node
  depth : node.depth < cfg.maxDepth
  edits : node.totalEdits < cfg.maxTotalEdits

variable {B spec cfg p}

theorem Expanding.of_nodes (h : Expanding B spec cfg p nid node v) (hn : v'.nodes = v.nodes)
    (hr : Recorded B spec cfg p v') : Expanding B spec cfg p nid node v' := by
  refine ⟨hr, ?_, h.depth, h.edits⟩
  rw [hn]
  exact h.known

theorem Expanding.proposed (h : Expanding B spec cfg p nid node v)
    (hlt : v.proposals < cfg.candidateBudget) (hn : v'.nodes = v.nodes)
    (hx : v'.nodeByFp = v.nodeByFp) (hv : v'.verifications = v.verifications)
    (hq : v'.queue = v.queue) (hp : v'.proposals = v.proposals + 1)
    (ha : v'.attempts.length = v.attempts.length + 1) : Recorded B spec cfg p v' := by
  refine h.recorded.of_nodes hn hx hv (fun k hk ↦ hq ▸ hk) ?_ ?_
  · rw [hp, ha, h.recorded.proposals]
  · rw [hp]
    exact hlt

/-- A verified proposal keeps the record, whatever the verdict. -/
theorem Expanding.verdict (h : Expanding B spec cfg p nid node v)
    (hg : Recorded B spec cfg p (grown B spec nid node c q v)) :
    match verdictFlow B spec cfg (grown B spec nid node c q v) v.nodes.length
      (B.verifyProgram q spec) with
    | .next v => Expanding B spec cfg p nid node v
    | .stop v => Left B spec cfg p v
    | .done r => AcceptedAt B spec cfg p r := by
  have hlast : (grown B spec nid node c q v).nodes[v.nodes.length]? =
      some (childNode B spec nid node c q) := List.getElem?_concat_length
  have hnode : (grown B spec nid node c q v).nodes[nid]? = some node := by
    rw [← h.known]
    exact List.getElem?_append_left (List.getElem?_eq_some_iff.mp h.known).1
  have hkeep : Expanding B spec cfg p nid node (grown B spec nid node c q v) :=
    ⟨hg, hnode, h.depth, h.edits⟩
  rw [verdictFlow]
  split_ifs with hpass hfail hsingle hunknown
  · rw [Bool.and_eq_true, decide_eq_true_eq] at hpass
    exact ⟨_, _, _, rfl, hg, hlast, hpass⟩
  · exact hkeep
  · refine hkeep.of_nodes rfl { hg with queued := ?_ }
    intro k hk
    rcases List.mem_append.mp hk with hold | hnew
    · exact hg.queued k hold
    · rw [List.mem_singleton.mp hnew]
      exact (List.getElem?_eq_some_iff.mp hlast).1
  · exact hkeep.of_nodes rfl { hg with }
  · exact hkeep

/-- The record is kept all through the search. -/
theorem recorded_rule : SearchRule B spec cfg (Recorded B spec cfg p) (Expanding B spec cfg p)
    (Left B spec cfg p) (AcceptedAt B spec cfg p) where
  known h hq := ⟨_, List.getElem?_eq_getElem (h.queued _ (hq ▸ List.mem_cons_self))⟩
  dry h _ := h
  deep h hq _ _ := by
    apply Recorded.note
    refine h.of_nodes rfl rfl rfl (fun k hk ↦ ?_) h.proposals h.proposals_le
    rw [hq]
    exact List.mem_cons_of_mem _ hk
  edited h hq _ _ _ := by
    apply Recorded.note
    refine h.of_nodes rfl rfl rfl (fun k hk ↦ ?_) h.proposals h.proposals_le
    rw [hq]
    exact List.mem_cons_of_mem _ hk
  enter h hq hn hd he := by
    refine ⟨h.of_nodes rfl rfl rfl (fun k hk ↦ ?_) h.proposals h.proposals_le, hn, hd, he⟩
    rw [hq]
    exact List.mem_cons_of_mem _ hk
  index h := ⟨h.recorded.indexed, h.known⟩
  tried h hlt hc ht := by
    have hone := Enumerator.length_changes hc
    cases ht with
    | denied _ | applyError _ _ | staticInvalid _ _ _ | reused _ _ _ _ _ =>
        exact h.of_nodes rfl (h.proposed hlt rfl rfl rfl rfl rfl (List.length_append ..))
    | blocked _ _ _ _ _ => exact h.proposed hlt rfl rfl rfl rfl rfl (List.length_append ..)
    | verified ha hp hv hfresh hb =>
        have hedits := h.edits
        exact h.verdict (h.recorded.grown h.known h.depth (by omega) hlt ha hp hv hfresh hb)
  leave h _ := h.recorded
  hit h _ := h.recorded.of_nodes rfl rfl rfl (fun _ hk ↦ hk) h.recorded.proposals
    h.recorded.proposals_le

/-- The search starts with the root recorded. -/
theorem recorded_startState (hb : cfg.verificationBudget ≠ 0) :
    Recorded B spec cfg p (B.startState p spec) where
  origins := by
    intro i n hi
    cases i with
    | zero =>
        obtain rfl : B.rootNode p spec = n := Option.some.inj hi
        exact .root
    | succ i => cases hi
  depth_le n hn := by
    rw [List.mem_singleton.mp hn]
    exact Nat.zero_le _
  edits_le n hn := by
    rw [List.mem_singleton.mp hn]
    exact Nat.zero_le _
  indexed := by
    intro fp k
    change [(B.programFingerprint p, 0)].lookup fp = some k ↔
      ∃ n, [B.rootNode p spec][k]? = some n ∧ n.fingerprint = fp
    rw [List.lookup_cons]
    by_cases hfp : fp = B.programFingerprint p
    · cases k <;> simp [hfp, Toolchain.rootNode]
    · have hne : (fp == B.programFingerprint p) = false := by simpa using hfp
      cases k <;> simp [hne, Toolchain.rootNode, eq_comm, hfp]
  verifications := rfl
  proposals := rfl
  verifications_le := Nat.one_le_iff_ne_zero.mpr hb
  proposals_le := Nat.zero_le _
  queued k hk := by
    rw [List.mem_singleton.mp hk]
    exact Nat.one_pos

variable (B spec cfg p)

/-- What a search promises of its report. -/
structure SearchSound (r : SearchReport) : Prop where
  verifications_le : r.verifications ≤ cfg.verificationBudget
  verified : r.verifications = r.uniquePrograms
  proposals_le : r.proposals ≤ cfg.candidateBudget
  proposed : r.proposals = r.attempts.length
  accepted : r.outcome = .repaired → ∃ q, r.acceptedProgram = some q ∧
    r.acceptedReport = some (B.verifyProgram q spec) ∧ Follows B spec p r.patchChain q ∧
    (B.validate q).valid = true ∧ (B.verifyProgram q spec).outcome = .pass ∧
    (B.verifyProgram q spec).complete = true ∧ r.patchChain.length ≤ cfg.maxDepth ∧
    (r.patchChain.map (·.changes.length)).sum ≤ cfg.maxTotalEdits

variable {B spec cfg p}

/-- A program that passes was validated. -/
theorem valid_of_pass (h : (B.verifyProgram q spec).outcome = .pass) :
    (B.validate q).valid = true := by
  rw [Toolchain.verifyProgram, (B.finishMeta_outcome q spec _).1] at h
  split_ifs at h with hv
  · cases h
  · simpa using hv

theorem AcceptedAt.sound {r : SearchReport} (h : AcceptedAt B spec cfg p r) :
    SearchSound B spec cfg p r := by
  obtain ⟨v, k, n, rfl, hr, hn, hpass, hcomplete⟩ := h
  have hmem := List.mem_of_getElem? hn
  have hreport := (hr.origins k n hn).report
  obtain ⟨hfol, hlen, hsum⟩ := hr.origins.follows hn (Nat.lt_succ_self k)
  have hacc : (B.repaired spec cfg v k).acceptedProgram = some n.program := by
    rw [Toolchain.repaired, SearchState.finish, hn]
    rfl
  have hrep : (B.repaired spec cfg v k).acceptedReport = some (B.verifyProgram n.program spec) := by
    rw [Toolchain.repaired, SearchState.finish, hn, ← hreport]
    rfl
  rw [hreport] at hpass hcomplete
  refine ⟨hr.verifications_le, hr.verifications, hr.proposals_le, hr.proposals, fun _ ↦ ?_⟩
  refine ⟨n.program, hacc, hrep, hfol, valid_of_pass hpass, hpass, hcomplete, ?_, ?_⟩
  · change ((lineage v.nodes (k + 1) k).filterMap (B.editOf v.nodes)).length ≤ _
    rw [hlen]
    exact hr.depth_le n hmem
  · change (((lineage v.nodes (k + 1) k).filterMap (B.editOf v.nodes)).map _).sum ≤ _
    rw [hsum]
    exact hr.edits_le n hmem

theorem Recorded.sound (h : Recorded B spec cfg p v) {bounds : AnalysisBounds}
    {outcome : RepairOutcome} {stopReason : String} {truncation : Option String}
    (hne : outcome ≠ .repaired) :
    SearchSound B spec cfg p (v.finish cfg bounds outcome stopReason truncation [] none none) where
  verifications_le := h.verifications_le
  verified := h.verifications
  proposals_le := h.proposals_le
  proposed := h.proposals
  accepted hr := absurd hr hne

omit [FloatArith] in
theorem classify_ne_repaired (f : TerminalFacts) : f.classify.1 ≠ .repaired := by
  rw [TerminalFacts.classify]
  split_ifs <;> decide

theorem searchFrom_sound (h : Recorded B spec cfg p v)
    (hfuel : v.queue.length + (cfg.candidateBudget - v.proposals) < cfg.candidateBudget + 2) :
    SearchSound B spec cfg p (B.searchFrom spec cfg v) := by
  have hends := recorded_rule.loop h hfuel
  rw [Toolchain.searchFrom]
  cases hl : B.searchLoop spec cfg (cfg.candidateBudget + 2) v with
  | next v' =>
      rw [hl] at hends
      cases hends
  | stop v' =>
      rw [hl] at hends
      exact Recorded.sound hends (classify_ne_repaired _)
  | done r =>
      rw [hl] at hends
      exact hends.sound

/-- A repair that the search accepts is what its patches make of the input and passes. -/
theorem runSearch_sound (B : Toolchain) (spec : ContractSpec) (cfg : SearchConfig)
    (p : Ast.Program) : SearchSound B spec cfg p (B.runSearch spec cfg p) := by
  rw [Toolchain.runSearch]
  split_ifs with hb
  · refine ⟨Nat.zero_le _, rfl, Nat.zero_le _, rfl, ?_⟩
    intro h
    cases h
  · have hstart : Recorded B spec cfg p (B.startState p spec) := recorded_startState hb
    have hfrom : SearchSound B spec cfg p (B.searchFrom spec cfg (B.startState p spec)) := by
      refine searchFrom_sound hstart ?_
      change 1 + (cfg.candidateBudget - 0) < cfg.candidateBudget + 2
      omega
    have hunknown : Recorded B spec cfg p { B.startState p spec with sawUnknown := true } :=
      { hstart with }
    simp only
    split
    · split_ifs with hc
      · exact hstart.sound (by decide)
      · exact hfrom
    · exact hstart.sound (by decide)
    · exact hstart.sound (by decide)
    · exact hunknown.sound (by decide)
    · exact hfrom

end Acceptance

end Repair

end ConcIR
