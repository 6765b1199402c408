import ConcIR.Repair.Search

/-!
# The nodes of a search

Every node was verified and comes from its parent by a patch that the scope allows and
that was made for the parent's function. The chain of a node reproduces its program.
-/

namespace ConcIR

namespace Repair

section Reasons

theorem startsWith_append {head other : String} (tail : String)
    (h : other.toList.isPrefixOf head.toList = true) : startsWith (head ++ tail) other = true := by
  rw [List.isPrefixOf_iff_prefix] at h
  rw [startsWith, String.toList_append, List.isPrefixOf_iff_prefix]
  exact h.trans (List.prefix_append _ _)

theorem not_startsWith_append {head other : String} (tail : String)
    (h : other.toList.length ≤ head.toList.length)
    (hne : other.toList.isPrefixOf head.toList = false) :
    startsWith (head ++ tail) other = false := by
  rw [← Bool.not_eq_true, List.isPrefixOf_iff_prefix] at hne
  rw [startsWith, String.toList_append, ← Bool.not_eq_true, List.isPrefixOf_iff_prefix]
  intro hp
  exact hne (List.prefix_of_prefix_length_le hp (List.prefix_append _ _) h)

theorem rejectedResult_denied (e : String) : rejectedResult ("disallowed: " ++ e) = "denied" := by
  rw [rejectedResult, startsWith_append e (by decide), if_pos rfl]

theorem rejectedResult_apply (e : String) :
    rejectedResult ("apply error: " ++ e) = "apply-error" := by
  rw [rejectedResult, not_startsWith_append e (by decide) (by decide),
    startsWith_append e (by decide)]
  rfl

theorem rejectedResult_static : rejectedResult "static validation failed" = "static-invalid" := by
  decide

end Reasons

variable {B : Toolchain} [FloatArith] {spec : ContractSpec} {cfg : SearchConfig}
  {p q q' : Ast.Program} {v v' : SearchState} {nid i j k : ℕ} {node n m : Node} {c : CirPatch}
  {diff : String} {flow : Flow}

section Attempts

variable (B spec)

/-- The node a candidate leads to. -/
def childNode (nid : ℕ) (node : Node) (c : CirPatch) (patched : Ast.Program) : Node where
  parent := some nid
  depth := node.depth + 1
  totalEdits := node.totalEdits + c.changes.length
  program := patched
  fingerprint := B.programFingerprint patched
  report := B.verifyProgram patched spec
  incoming := some c

/-- The report of a node that has its number and the edit that led to it. -/
def Node.toReport (n : Node) (id : ℕ) (edit : Option AppliedEdit) (note : Option String) :
    NodeReport where
  id := id
  parent := n.parent
  depth := n.depth
  totalEdits := n.totalEdits
  programFingerprint := n.fingerprint
  incoming := edit
  report := n.report
  note := note

/-- A proposal that was verified and recorded. -/
def grown (nid : ℕ) (node : Node) (c : CirPatch) (patched : Ast.Program) (v : SearchState) :
    SearchState :=
  let child := childNode B spec nid node c patched
  { v with
    nodes := v.nodes ++ [child]
    nodeReports := v.nodeReports ++ [child.toReport v.nodes.length
      (some (B.appliedEdit c node.fingerprint child.fingerprint node.program))
      (Toolchain.childNote child.report)]
    nodeByFp := (child.fingerprint, v.nodes.length) :: v.nodeByFp
    proposals := v.proposals + 1
    verifications := v.verifications + 1
    statesExplored := v.statesExplored + child.report.statesExplored
    attempts := v.attempts ++ [⟨v.attempts.length, nid, some c, "verified", none,
      some child.fingerprint, some child.report.outcome, none⟩] }

/-- How the search goes on after a verified proposal. -/
def verdictFlow (cfg : SearchConfig) (v : SearchState) (k : ℕ) (report : Report) : Flow :=
  if report.outcome = .pass && report.complete then .done (B.repaired spec cfg v k)
  else if report.outcome = .fail then
    .next (if cfg.strategy = .single then v else { v with queue := v.queue ++ [k] })
  else if report.outcome = .unknown then .next { v with sawUnknown := true }
  else .next v

/-- What becomes of a candidate, by the first check that decides it. -/
inductive Tried (cfg : SearchConfig) (nid : ℕ) (node : Node) (c : CirPatch) (v : SearchState) :
    Flow → Prop
  | denied {e : PatchError} : checkAllowed spec.allowedScope c = .error e →
      Tried cfg nid node c v (.next ({ v with proposals := v.proposals + 1 }.recordAttempt nid c
        "denied" none none none (some ("disallowed: " ++ e.display))))
  | applyError {e : PatchError} : checkAllowed spec.allowedScope c = .ok () →
      B.apply node.program c = .error e →
      Tried cfg nid node c v (.next ({ v with proposals := v.proposals + 1 }.recordAttempt nid c
        "apply-error" none none none (some ("apply error: " ++ e.display))))
  | staticInvalid {patched : Ast.Program} {diff : String} :
      checkAllowed spec.allowedScope c = .ok () → B.apply node.program c = .ok (patched, diff) →
      (B.validate patched).valid = false →
      Tried cfg nid node c v (.next ({ v with proposals := v.proposals + 1 }.recordAttempt nid c
        "static-invalid" none none none (some "static validation failed")))
  | reused {patched : Ast.Program} {diff : String} {k : ℕ} {m : Node} :
      checkAllowed spec.allowedScope c = .ok () → B.apply node.program c = .ok (patched, diff) →
      (B.validate patched).valid = true → v.nodes[k]? = some m →
      m.fingerprint = B.programFingerprint patched →
      Tried cfg nid node c v (.next ({ v with
          proposals := v.proposals + 1
          cacheHits := v.cacheHits + 1 }.recordAttempt nid c "reused" (some k)
        (some m.fingerprint) (some m.report.outcome)
        (some "equivalent candidate already verified")))
  | blocked {patched : Ast.Program} {diff : String} :
      checkAllowed spec.allowedScope c = .ok () → B.apply node.program c = .ok (patched, diff) →
      (B.validate patched).valid = true →
      (∀ m ∈ v.nodes, m.fingerprint ≠ B.programFingerprint patched) →
      cfg.verificationBudget ≤ v.verifications →
      Tried cfg nid node c v (.stop ({ v with
          proposals := v.proposals + 1
          verificationBudgetHit := true }.recordAttempt nid c "budget-blocked" none
        (some (B.programFingerprint patched)) none
        (some "verification budget exhausted before this candidate was verified")))
  | verified {patched : Ast.Program} {diff : String} :
      checkAllowed spec.allowedScope c = .ok () → B.apply node.program c = .ok (patched, diff) →
      (B.validate patched).valid = true →
      (∀ m ∈ v.nodes, m.fingerprint ≠ B.programFingerprint patched) →
      v.verifications < cfg.verificationBudget →
      Tried cfg nid node c v (verdictFlow B spec cfg (grown B spec nid node c patched v)
        v.nodes.length (B.verifyProgram patched spec))

end Attempts

section Lookup

/-- The index of the fingerprints finds every node and nothing else. -/
def Indexed (v : SearchState) : Prop :=
  ∀ fp k, v.nodeByFp.lookup fp = some k ↔ ∃ n, v.nodes[k]? = some n ∧ n.fingerprint = fp

omit [FloatArith] in
theorem Indexed.fresh (h : Indexed v) {fp : String} (hl : v.nodeByFp.lookup fp = none) :
    ∀ m ∈ v.nodes, m.fingerprint ≠ fp := by
  intro m hm he
  obtain ⟨k, hk⟩ := List.mem_iff_getElem?.mp hm
  rw [(h fp k).mpr ⟨m, hk, he⟩] at hl
  cases hl

/-- What trying a candidate does. -/
theorem tried_of_tryCandidate (hi : Indexed v) (hn : v.nodes[nid]? = some node) :
    Tried B spec cfg nid node c v (B.tryCandidate spec cfg nid node c v) := by
  rw [Toolchain.tryCandidate, Toolchain.attemptOutcome]
  cases hal : checkAllowed spec.allowedScope c with
  | error e =>
      simp only [rejectedResult_denied]
      exact .denied hal
  | ok u =>
      cases u
      cases hap : B.apply node.program c with
      | error e =>
          simp only [rejectedResult_apply]
          exact .applyError hal hap
      | ok r =>
          obtain ⟨patched, diff⟩ := r
          cases hval : (B.validate patched).valid with
          | false =>
              simp only [hval, Bool.not_false, if_true, rejectedResult_static]
              exact .staticInvalid hal hap hval
          | true =>
              simp only [hval, Bool.not_true, Bool.false_eq_true, if_false]
              cases hl : v.nodeByFp.lookup (B.programFingerprint patched) with
              | some k =>
                  obtain ⟨m, hm, hfp⟩ := (hi _ k).mp hl
                  simp only [SearchState.fingerprintOf, hm, Option.map_some, Option.getD_some]
                  exact .reused hal hap hval hm hfp
              | none =>
                  by_cases hb : cfg.verificationBudget ≤ v.verifications
                  · simp only [if_pos hb]
                    exact .blocked hal hap hval (hi.fresh hl) hb
                  · simp only [if_neg hb]
                    have hparent := (hi _ nid).mpr ⟨node, hn, rfl⟩
                    simp only [Toolchain.verifyChild, hparent, hn, Option.getD_some,
                      Option.map_some, SearchState.recordAttempt, SearchState.fingerprintOf,
                      SearchState.outcomeOf, List.getElem?_concat_length, Option.some.injEq]
                    exact .verified hal hap hval (hi.fresh hl) (not_le.mp hb)

end Lookup

section Loop

def Flow.Ends (S : SearchState → Prop) (D : SearchReport → Prop) : Flow → Prop
  | .next _ => False
  | .stop v => S v
  | .done r => D r

variable (B spec cfg)

/-- A rule for the search loop: `I` holds whenever a node is taken from the queue, `J`
while a node is expanded, `S` where the loops are left and `D` of an accepted repair. -/
structure SearchRule (I : SearchState → Prop) (J : ℕ → Node → SearchState → Prop)
    (S : SearchState → Prop) (D : SearchReport → Prop) : Prop where
  known : ∀ {v nid rest}, I v → v.queue = nid :: rest → ∃ node, v.nodes[nid]? = some node
  dry : ∀ {v}, I v → v.queue = [] → S v
  deep : ∀ {v nid rest node}, I v → v.queue = nid :: rest → v.nodes[nid]? = some node →
    cfg.maxDepth ≤ node.depth → I ({ v with queue := rest, depthTruncated := true }.note nid
      "not expanded: max_depth")
  edited : ∀ {v nid rest node}, I v → v.queue = nid :: rest → v.nodes[nid]? = some node →
    node.depth < cfg.maxDepth → cfg.maxTotalEdits ≤ node.totalEdits →
    I ({ v with queue := rest, editsTruncated := true }.note nid
      "not expanded: max_total_edits")
  enter : ∀ {v nid rest node}, I v → v.queue = nid :: rest → v.nodes[nid]? = some node →
    node.depth < cfg.maxDepth → node.totalEdits < cfg.maxTotalEdits →
    J nid node { v with queue := rest }
  index : ∀ {v nid node}, J nid node v → Indexed v ∧ v.nodes[nid]? = some node
  tried : ∀ {v nid node c flow}, J nid node v → v.proposals < cfg.candidateBudget →
    c ∈ B.candidatesOf spec cfg node → Tried B spec cfg nid node c v flow →
    match flow with
    | .next v => J nid node v
    | .stop v => S v
    | .done r => D r
  leave : ∀ {v nid node}, J nid node v → v.proposals < cfg.candidateBudget → I v
  hit : ∀ {v nid node}, J nid node v → cfg.candidateBudget ≤ v.proposals →
    S { v with candidateBudgetHit := true }

variable {B spec cfg}

/-- A proposal is counted and adds at most one node to the queue. -/
theorem Tried.measure (h : Tried B spec cfg nid node c v (.next v')) :
    v'.proposals = v.proposals + 1 ∧ v'.queue.length ≤ v.queue.length + 1 := by
  generalize he : Flow.next v' = flow at h
  cases h with
  | verified _ _ _ _ _ =>
      rw [verdictFlow] at he
      split_ifs at he with h₁ h₂ h₃ h₄ <;> cases he
      · exact ⟨rfl, Nat.le_succ _⟩
      · exact ⟨rfl, by simp [grown]⟩
      · exact ⟨rfl, Nat.le_succ _⟩
      · exact ⟨rfl, Nat.le_succ _⟩
  | blocked => cases he
  | _ =>
      cases he
      exact ⟨rfl, Nat.le_succ _⟩

variable {I : SearchState → Prop} {J : ℕ → Node → SearchState → Prop}
  {S : SearchState → Prop} {D : SearchReport → Prop}

theorem SearchRule.expand (h : SearchRule B spec cfg I J S D) {cs : List CirPatch}
    (hcs : ∀ c ∈ cs, c ∈ B.candidatesOf spec cfg node) (hJ : J nid node v) :
    match B.expandNode spec cfg nid node cs v with
    | .next v' => J nid node v' ∧ v'.proposals < cfg.candidateBudget ∧
        v'.queue.length + (cfg.candidateBudget - v'.proposals) ≤
          v.queue.length + (cfg.candidateBudget - v.proposals)
    | .stop v' => S v'
    | .done r => D r := by
  induction cs generalizing v with
  | nil =>
      rw [Toolchain.expandNode]
      split_ifs with hb
      · exact h.hit hJ hb
      · exact ⟨hJ, not_le.mp hb, le_rfl⟩
  | cons c cs ih =>
      rw [Toolchain.expandNode]
      split_ifs with hb
      · exact h.hit hJ hb
      · have hlt := not_le.mp hb
        obtain ⟨hidx, hn⟩ := h.index hJ
        have ht : Tried B spec cfg nid node c v (B.tryCandidate spec cfg nid node c v) :=
          tried_of_tryCandidate hidx hn
        have hstep := h.tried hJ hlt (hcs c List.mem_cons_self) ht
        cases hf : B.tryCandidate spec cfg nid node c v with
        | next v' =>
            rw [hf] at hstep ht
            obtain ⟨hp, hq⟩ := ht.measure
            have hrest := ih (fun c hc ↦ hcs c (List.mem_cons_of_mem _ hc)) hstep
            simp only
            split at hrest
            · exact ⟨hrest.1, hrest.2.1, hrest.2.2.trans (by omega)⟩
            · exact hrest
            · exact hrest
        | stop v' =>
            rw [hf] at hstep
            exact hstep
        | done r =>
            rw [hf] at hstep
            exact hstep

/-- The loop runs dry, is left or accepts before its rounds are used up. -/
theorem SearchRule.loop (h : SearchRule B spec cfg I J S D) {fuel : ℕ} (hI : I v)
    (hfuel : v.queue.length + (cfg.candidateBudget - v.proposals) < fuel) :
    (B.searchLoop spec cfg fuel v).Ends S D := by
  induction fuel generalizing v with
  | zero => omega
  | succ fuel ih =>
      rw [Toolchain.searchLoop]
      cases hq : v.queue with
      | nil => exact h.dry hI hq
      | cons nid rest =>
          rw [hq, List.length_cons] at hfuel
          obtain ⟨node, hn⟩ := h.known hI hq
          simp only [hn]
          split_ifs with hd he
          · refine ih (h.deep hI hq hn hd) ?_
            rw [SearchState.note]
            split <;> exact Nat.lt_of_succ_lt_succ (by simpa [Nat.add_right_comm] using hfuel)
          · refine ih (h.edited hI hq hn (not_le.mp hd) he) ?_
            rw [SearchState.note]
            split <;> exact Nat.lt_of_succ_lt_succ (by simpa [Nat.add_right_comm] using hfuel)
          · have hx := h.expand (fun c hc ↦ hc) (h.enter hI hq hn (not_le.mp hd) (not_le.mp he))
            cases hf : B.expandNode spec cfg nid node (B.candidatesOf spec cfg node)
                { v with queue := rest } with
            | next v' =>
                rw [hf] at hx
                obtain ⟨hJ, hlt, hm⟩ := hx
                refine ih (h.leave hJ hlt) ?_
                change _ ≤ rest.length + (cfg.candidateBudget - v.proposals) at hm
                omega
            | stop v' =>
                rw [hf] at hx
                exact hx
            | done r =>
                rw [hf] at hx
                exact hx

end Loop

end Repair

end ConcIR
