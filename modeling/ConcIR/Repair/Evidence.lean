import ConcIR.Repair.Replay

/-!
# The evidence a search leaves

What the reports, attempts and counters of a search say about its nodes, and which nodes
it has still to expand. Both are kept by every step of the search.
-/

namespace ConcIR

namespace Repair

variable {B : Toolchain} [FloatArith] {spec : ContractSpec} {cfg : SearchConfig}
  {p q : Ast.Program} {v v' : SearchState} {nid i j k : ℕ} {node n m : Node} {c : CirPatch}
  {diff text : String} {x : AttemptReport} {xs : List AttemptReport} {nodes more : List Node}
  {reports : List NodeReport} {pending : List ℕ}

section Attempts

variable (B spec cfg)

/-- Nodes there are when these attempts have been made. -/
def created (xs : List AttemptReport) : ℕ := 1 + (xs.filter (·.result = "verified")).length

/-- An attempt that was recorded when there were `k` nodes. -/
inductive Fits (nodes : List Node) (k : ℕ) : AttemptReport → Prop
  | denied {id j : ℕ} {m : Node} {c : CirPatch} {e : PatchError} {reason : Option String} :
      nodes[j]? = some m → checkAllowed spec.allowedScope c = .error e →
      Fits nodes k ⟨id, j, some c, "denied", none, none, none, reason⟩
  | applyError {id j : ℕ} {m : Node} {c : CirPatch} {e : PatchError} {reason : Option String} :
      nodes[j]? = some m → checkAllowed spec.allowedScope c = .ok () →
      B.apply m.program c = .error e →
      Fits nodes k ⟨id, j, some c, "apply-error", none, none, none, reason⟩
  | staticInvalid {id j : ℕ} {m : Node} {c : CirPatch} {q : Ast.Program} {diff : String}
      {reason : Option String} :
      nodes[j]? = some m → checkAllowed spec.allowedScope c = .ok () →
      B.apply m.program c = .ok (q, diff) → (B.validate q).valid = false →
      Fits nodes k ⟨id, j, some c, "static-invalid", none, none, none, reason⟩
  | reused {id j i : ℕ} {m n : Node} {c : CirPatch} {q : Ast.Program} {diff : String}
      {reason : Option String} :
      nodes[j]? = some m → checkAllowed spec.allowedScope c = .ok () →
      B.apply m.program c = .ok (q, diff) → i < k → nodes[i]? = some n →
      n.fingerprint = B.programFingerprint q →
      Fits nodes k ⟨id, j, some c, "reused", some i, some n.fingerprint, some n.report.outcome,
        reason⟩
  | verified {id j : ℕ} {m : Node} {c : CirPatch} {q : Ast.Program} {diff : String}
      {reason : Option String} :
      nodes[j]? = some m → checkAllowed spec.allowedScope c = .ok () →
      B.apply m.program c = .ok (q, diff) → nodes[k]? = some (childNode B spec j m c q) →
      Fits nodes k ⟨id, j, some c, "verified", none, some (B.programFingerprint q),
        some (B.verifyProgram q spec).outcome, reason⟩
  | blocked {id j : ℕ} {m : Node} {c : CirPatch} {q : Ast.Program} {diff : String}
      {reason : Option String} :
      nodes[j]? = some m → checkAllowed spec.allowedScope c = .ok () →
      B.apply m.program c = .ok (q, diff) → (B.validate q).valid = true →
      (∀ n ∈ nodes, n.fingerprint ≠ B.programFingerprint q) → cfg.verificationBudget ≤ k →
      Fits nodes k ⟨id, j, some c, "budget-blocked", none, some (B.programFingerprint q), none,
        reason⟩

variable {B spec cfg}

omit [FloatArith] in
theorem getElem?_append_of_some {α : Type} {ys : List α} {y : α} (h : ys[i]? = some y)
    (more : List α) : (ys ++ more)[i]? = some y := by
  rw [List.getElem?_append_left (List.getElem?_eq_some_iff.mp h).1]
  exact h

omit [FloatArith] in
/-- What is known at each place of a list still holds when one more entry comes. -/
theorem getElem?_concat_cases {α : Type} {ys : List α} {y z : α} (h : (ys ++ [y])[i]? = some z) :
    ys[i]? = some z ∨ i = ys.length ∧ z = y := by
  rcases Nat.lt_trichotomy i ys.length with hlt | rfl | hgt
  · rw [List.getElem?_append_left hlt] at h
    exact .inl h
  · rw [List.getElem?_concat_length] at h
    exact .inr ⟨rfl, (Option.some.inj h).symm⟩
  · rw [List.getElem?_eq_none (by simpa using hgt)] at h
    cases h

/-- What an attempt says stays true when nodes are added. -/
theorem Fits.append (h : Fits B spec cfg nodes k x) (hx : x.result ≠ "budget-blocked")
    (more : List Node) : Fits B spec cfg (nodes ++ more) k x := by
  cases h with
  | denied hm ha => exact .denied (getElem?_append_of_some hm _) ha
  | applyError hm ha hp => exact .applyError (getElem?_append_of_some hm _) ha hp
  | staticInvalid hm ha hp hv => exact .staticInvalid (getElem?_append_of_some hm _) ha hp hv
  | reused hm ha hp hi hn hfp =>
      exact .reused (getElem?_append_of_some hm _) ha hp hi (getElem?_append_of_some hn _) hfp
  | verified hm ha hp hk =>
      exact .verified (getElem?_append_of_some hm _) ha hp (getElem?_append_of_some hk _)
  | blocked => exact absurd rfl hx

omit [FloatArith] in
theorem created_append_of_ne (hx : x.result ≠ "verified") : created (xs ++ [x]) = created xs := by
  rw [created, created, List.filter_append, List.length_append]
  simp [hx]

omit [FloatArith] in
theorem created_append_verified (hx : x.result = "verified") :
    created (xs ++ [x]) = created xs + 1 := by
  rw [created, created, List.filter_append, List.length_append]
  simp [hx]
  omega

end Attempts

section Records

variable (B spec cfg)

/-- Every node has its report. -/
def Reported (nodes : List Node) (reports : List NodeReport) : Prop :=
  reports.length = nodes.length ∧ ∀ (i : ℕ) (n : Node), nodes[i]? = some n →
    ∃ note, reports[i]? = some (n.toReport i (B.editOf nodes i) note)

/-- What the records of a search say about its nodes. -/
structure Evidence (v : SearchState) : Prop where
  reported : Reported B v.nodes v.nodeReports
  fits : ∀ i x, v.attempts[i]? = some x →
    x.id = i ∧ Fits B spec cfg v.nodes (created (v.attempts.take i)) x
  created : v.nodes.length = created v.attempts
  cacheHits : v.cacheHits = (v.attempts.filter (·.result = "reused")).length
  states : v.statesExplored = (v.nodes.map (·.report.statesExplored)).sum
  unknown : v.sawUnknown = v.nodes.any (·.report.outcome = .unknown)
  single : cfg.strategy = .single → (∀ i n, v.nodes[i]? = some n → i ≠ 0 → n.parent = some 0) ∧
    ∀ x ∈ v.attempts, x.parent = 0

variable {B spec cfg}

omit [FloatArith] in
theorem Reported.note (h : Reported B v.nodes v.nodeReports) (nid : ℕ) (text : String) :
    Reported B (v.note nid text).nodes (v.note nid text).nodeReports := by
  rw [SearchState.note]
  split
  · exact h
  · next t ht =>
    refine ⟨by simpa using h.1, fun i n hi ↦ ?_⟩
    obtain ⟨note, hr⟩ := h.2 i n hi
    simp only [List.getElem?_modify, hr]
    by_cases hti : t = i
    · exact ⟨some text, by simp [hti, Node.toReport]⟩
    · exact ⟨note, by simp [hti]⟩

theorem Evidence.note (h : Evidence B spec cfg v) (nid : ℕ) (text : String) :
    Evidence B spec cfg (v.note nid text) := by
  have hr := h.reported.note nid text
  rw [note_eq] at hr ⊢
  exact { h with reported := hr }

/-- The edits of the nodes do not change when nodes are added. -/
theorem editOf_append (h : Origins B spec p nodes) (hi : nodes[i]? = some n) (more : List Node) :
    B.editOf (nodes ++ more) i = B.editOf nodes i := by
  cases h i n hi with
  | root => rw [editOf_root hi, editOf_root (getElem?_append_of_some hi more)]
  | child hj hm ha hp hv =>
      rw [editOf_child hi hm,
        editOf_child (getElem?_append_of_some hi more) (getElem?_append_of_some hm more)]

/-- An attempt that adds no node is recorded. -/
theorem Evidence.attempt (h : Evidence B spec cfg v) (hn : v'.nodes = v.nodes)
    (hr : v'.nodeReports = v.nodeReports) (ha : v'.attempts = v.attempts ++ [x])
    (hc : v'.cacheHits = v.cacheHits + if x.result = "reused" then 1 else 0)
    (hs : v'.statesExplored = v.statesExplored) (hu : v'.sawUnknown = v.sawUnknown)
    (hid : x.id = v.attempts.length) (hx : x.result ≠ "verified")
    (hfit : Fits B spec cfg v.nodes (ConcIR.Repair.created v.attempts) x)
    (hp : cfg.strategy = .single → x.parent = 0) : Evidence B spec cfg v' where
  reported := by
    rw [hn, hr]
    exact h.reported
  fits i y hy := by
    rw [ha] at hy ⊢
    rw [hn]
    rcases Nat.lt_trichotomy i v.attempts.length with hlt | rfl | hgt
    · rw [List.getElem?_append_left hlt] at hy
      rw [List.take_append_of_le_length hlt.le]
      exact h.fits i y hy
    · rw [List.getElem?_concat_length] at hy
      obtain rfl := Option.some.inj hy
      rw [List.take_left']
      · exact ⟨hid, hfit⟩
      · rfl
    · rw [List.getElem?_eq_none (by simpa using hgt)] at hy
      cases hy
  created := by
    rw [hn, ha, created_append_of_ne hx]
    exact h.created
  cacheHits := by
    rw [hc, ha, List.filter_append, List.length_append, h.cacheHits]
    by_cases hres : x.result = "reused" <;> simp [hres]
  states := by
    rw [hs, hn]
    exact h.states
  unknown := by
    rw [hu, hn]
    exact h.unknown
  single hsingle := by
    rw [hn, ha]
    refine ⟨(h.single hsingle).1, fun y hy ↦ ?_⟩
    rcases List.mem_append.mp hy with hold | hnew
    · exact (h.single hsingle).2 y hold
    · rw [List.mem_singleton.mp hnew]
      exact hp hsingle

/-- A verified proposal is recorded with its node. -/
theorem Evidence.grown (h : Evidence B spec cfg v) (hr : Recorded B spec cfg p v)
    (hn : v.nodes[nid]? = some node) (ha : checkAllowed spec.allowedScope c = .ok ())
    (hp : B.apply node.program c = .ok (q, diff))
    (hopen : ∀ x ∈ v.attempts, x.result ≠ "budget-blocked")
    (hzero : cfg.strategy = .single → nid = 0)
    (hnodes : v'.nodes = (grown B spec nid node c q v).nodes)
    (hreports : v'.nodeReports = (grown B spec nid node c q v).nodeReports)
    (hattempts : v'.attempts = (grown B spec nid node c q v).attempts)
    (hcache : v'.cacheHits = v.cacheHits)
    (hstates : v'.statesExplored = (grown B spec nid node c q v).statesExplored)
    (hunknown : v'.sawUnknown =
      (v.sawUnknown || decide ((B.verifyProgram q spec).outcome = .unknown))) :
    Evidence B spec cfg v' := by
  have hnodes' : v'.nodes = v.nodes ++ [childNode B spec nid node c q] := hnodes
  have hedit : B.editOf v'.nodes v.nodes.length =
      some (B.appliedEdit c node.fingerprint (B.programFingerprint q) node.program) := by
    rw [hnodes']
    exact editOf_child List.getElem?_concat_length (getElem?_append_of_some hn _)
  have hattempts' : v'.attempts = v.attempts ++ [⟨v.attempts.length, nid, some c, "verified", none,
      some (B.programFingerprint q), some (B.verifyProgram q spec).outcome, none⟩] := hattempts
  refine ⟨⟨?_, ?_⟩, ?_, ?_, ?_, ?_, ?_, ?_⟩
  · rw [hreports, hnodes]
    change (v.nodeReports ++ [_]).length = (v.nodes ++ [_]).length
    rw [List.length_append, List.length_append, h.reported.1]
    rfl
  · intro i n hi
    rw [hnodes'] at hi
    rw [hreports]
    rcases getElem?_concat_cases hi with hold | ⟨rfl, rfl⟩
    · obtain ⟨note, hrep⟩ := h.reported.2 i n hold
      refine ⟨note, ?_⟩
      rw [hnodes', editOf_append hr.origins hold]
      exact getElem?_append_of_some hrep _
    · refine ⟨Toolchain.childNote (B.verifyProgram q spec), ?_⟩
      change (v.nodeReports ++ [_])[v.nodes.length]? = _
      rw [hedit, ← h.reported.1, List.getElem?_concat_length]
      rfl
  · intro i x hx
    rw [hattempts'] at hx ⊢
    rw [hnodes']
    rcases getElem?_concat_cases hx with hold | ⟨rfl, rfl⟩
    · obtain ⟨hid, hfit⟩ := h.fits i x hold
      have hlt := (List.getElem?_eq_some_iff.mp hold).1
      rw [List.take_append_of_le_length hlt.le]
      exact ⟨hid, hfit.append (hopen x (List.mem_of_getElem? hold)) _⟩
    · rw [List.take_left' rfl, ← h.created]
      exact ⟨rfl, .verified (getElem?_append_of_some hn _) ha hp List.getElem?_concat_length⟩
  · rw [hnodes', hattempts', created_append_verified rfl, List.length_append, h.created]
    rfl
  · rw [hcache, hattempts', List.filter_append, List.length_append, h.cacheHits]
    rfl
  · rw [hstates, hnodes', List.map_append, List.sum_append, ← h.states]
    rfl
  · rw [hunknown, hnodes', List.any_append, h.unknown]
    simp [childNode]
  · intro hsingle
    obtain ⟨hnode, hattempt⟩ := h.single hsingle
    refine ⟨fun i n hi hne ↦ ?_, fun x hx ↦ ?_⟩
    · rw [hnodes'] at hi
      rcases getElem?_concat_cases hi with hold | ⟨-, rfl⟩
      · exact hnode i n hold hne
      · rw [← hzero hsingle]
        rfl
    · rw [hattempts'] at hx
      rcases List.mem_append.mp hx with hold | hnew
      · exact hattempt x hold
      · rw [List.mem_singleton.mp hnew]
        exact hzero hsingle

end Records

section Frontier

variable (B spec cfg p)

/-- The strategy expands the node when it gets to it. -/
def Expands (cfg : SearchConfig) (k : ℕ) (n : Node) : Prop :=
  n.report.outcome = .fail ∧ (k = 0 ∨ cfg.strategy ≠ .single)

/-- The nodes that are still to be expanded, and what the limits kept from it. -/
structure Frontier (cfg : SearchConfig) (v : SearchState) (pending : List ℕ) : Prop where
  root : ∃ n, v.nodes[0]? = some n ∧ n.report.outcome = .fail
  ahead : ∀ k ∈ pending, ∃ n, v.nodes[k]? = some n ∧ Expands cfg k n
  deep : ∀ (k : ℕ) (n : Node), v.nodes[k]? = some n → Expands cfg k n → k ∉ pending →
    cfg.maxDepth ≤ n.depth → v.depthTruncated = true
  edited : ∀ (k : ℕ) (n : Node), v.nodes[k]? = some n → Expands cfg k n → k ∉ pending →
    n.depth < cfg.maxDepth → cfg.maxTotalEdits ≤ n.totalEdits → v.editsTruncated = true
  depth_of : v.depthTruncated = true → ∃ k n, v.nodes[k]? = some n ∧ Expands cfg k n ∧
    cfg.maxDepth ≤ n.depth
  edits_of : v.editsTruncated = true → ∃ k n, v.nodes[k]? = some n ∧ Expands cfg k n ∧
    n.depth < cfg.maxDepth ∧ cfg.maxTotalEdits ≤ n.totalEdits
  candidates : v.candidateBudgetHit = false
  verifications : v.verificationBudgetHit = false
  unblocked : ∀ x ∈ v.attempts, x.result ≠ "budget-blocked"

/-- Why the loops were left. -/
inductive Ending (cfg : SearchConfig) (v : SearchState) : Prop
  | dry : Frontier cfg v [] →
      (∀ k n, v.nodes[k]? = some n → Expands cfg k n → n.depth < cfg.maxDepth →
        n.totalEdits < cfg.maxTotalEdits → v.proposals < cfg.candidateBudget) → Ending cfg v
  | candidates {k : ℕ} {n : Node} : v.candidateBudgetHit = true →
      v.verificationBudgetHit = false → (∀ x ∈ v.attempts, x.result ≠ "budget-blocked") →
      cfg.candidateBudget ≤ v.proposals → v.nodes[k]? = some n → Expands cfg k n →
      n.depth < cfg.maxDepth → n.totalEdits < cfg.maxTotalEdits → Ending cfg v
  | verifications {x : AttemptReport} : v.candidateBudgetHit = false →
      v.verificationBudgetHit = true → x ∈ v.attempts → x.result = "budget-blocked" →
      Ending cfg v

/-- The search between two nodes. -/
structure Searching (v : SearchState) : Prop where
  recorded : Recorded B spec cfg p v
  evidence : Evidence B spec cfg v
  frontier : Frontier cfg v v.queue
  asked : ∀ (k : ℕ) (n : Node), v.nodes[k]? = some n → Expands cfg k n → k ∉ v.queue →
    n.depth < cfg.maxDepth → n.totalEdits < cfg.maxTotalEdits → v.proposals < cfg.candidateBudget

/-- The search at a node. -/
structure AtNode (nid : ℕ) (node : Node) (v : SearchState) : Prop where
  expanding : Expanding B spec cfg p nid node v
  evidence : Evidence B spec cfg v
  frontier : Frontier cfg v (nid :: v.queue)

/-- A search that was left without a repair. -/
structure Ended (v : SearchState) : Prop where
  recorded : Recorded B spec cfg p v
  evidence : Evidence B spec cfg v
  ending : Ending cfg v
  root : ∃ n, v.nodes[0]? = some n ∧ n.report.outcome = .fail

/-- A node that was accepted. -/
structure Accepted (v : SearchState) (k : ℕ) : Prop where
  recorded : Recorded B spec cfg p v
  evidence : Evidence B spec cfg v
  node : ∃ n, v.nodes[k]? = some n ∧ n.report.outcome = .pass ∧ n.report.complete = true
  root : ∃ n, v.nodes[0]? = some n ∧ n.report.outcome = .fail

variable {B spec cfg p}

omit [FloatArith] in
theorem Frontier.attempt (h : Frontier cfg v pending) (hn : v'.nodes = v.nodes)
    (hd : v'.depthTruncated = v.depthTruncated) (he : v'.editsTruncated = v.editsTruncated)
    (hc : v'.candidateBudgetHit = v.candidateBudgetHit)
    (hv : v'.verificationBudgetHit = v.verificationBudgetHit) (ha : v'.attempts = v.attempts ++ [x])
    (hx : x.result ≠ "budget-blocked") : Frontier cfg v' pending := by
  refine ⟨?_, ?_, ?_, ?_, ?_, ?_, hc.trans h.candidates, hv.trans h.verifications, ?_⟩
  · rw [hn]
    exact h.root
  · rw [hn]
    exact h.ahead
  · rw [hn, hd]
    exact h.deep
  · rw [hn, he]
    exact h.edited
  · rw [hn, hd]
    exact h.depth_of
  · rw [hn, he]
    exact h.edits_of
  · intro y hy
    rw [ha] at hy
    rcases List.mem_append.mp hy with hold | hnew
    · exact h.unblocked y hold
    · rw [List.mem_singleton.mp hnew]
      exact hx

omit [FloatArith] in
/-- A node that is not to be expanded, or is put in line, joins the others. -/
theorem Frontier.grown (h : Frontier cfg v pending) {ahead : List ℕ}
    (hn : v'.nodes = v.nodes ++ [n]) (hd : v'.depthTruncated = v.depthTruncated)
    (he : v'.editsTruncated = v.editsTruncated)
    (hc : v'.candidateBudgetHit = v.candidateBudgetHit)
    (hv : v'.verificationBudgetHit = v.verificationBudgetHit) (ha : v'.attempts = v.attempts ++ [x])
    (hx : x.result ≠ "budget-blocked") (hsub : ∀ k ∈ pending, k ∈ ahead)
    (hnew : ∀ k ∈ ahead, k ∈ pending ∨ k = v.nodes.length ∧ Expands cfg k n)
    (hline : Expands cfg v.nodes.length n → v.nodes.length ∈ ahead) : Frontier cfg v' ahead := by
  have hkeep : ∀ {k : ℕ} {m : Node}, v.nodes[k]? = some m → v'.nodes[k]? = some m := by
    intro k m hk
    rw [hn]
    exact getElem?_append_of_some hk _
  have hcases : ∀ {k : ℕ} {m : Node}, v'.nodes[k]? = some m → Expands cfg k m → k ∉ ahead →
      v.nodes[k]? = some m ∧ k ∉ pending := by
    intro k m hk hexp hno
    rw [hn] at hk
    rcases getElem?_concat_cases hk with hold | ⟨rfl, rfl⟩
    · exact ⟨hold, fun hp ↦ hno (hsub k hp)⟩
    · exact absurd (hline hexp) hno
  refine ⟨?_, ?_, ?_, ?_, ?_, ?_, hc.trans h.candidates, hv.trans h.verifications, ?_⟩
  · obtain ⟨m, hm, hf⟩ := h.root
    exact ⟨m, hkeep hm, hf⟩
  · intro k hk
    rcases hnew k hk with hold | ⟨rfl, hexp⟩
    · obtain ⟨m, hm, hf⟩ := h.ahead k hold
      exact ⟨m, hkeep hm, hf⟩
    · refine ⟨n, ?_, hexp⟩
      rw [hn]
      exact List.getElem?_concat_length
  · intro k m hk hexp hno hdeep
    obtain ⟨hold, hp⟩ := hcases hk hexp hno
    rw [hd]
    exact h.deep k m hold hexp hp hdeep
  · intro k m hk hexp hno hdepth hedits
    obtain ⟨hold, hp⟩ := hcases hk hexp hno
    rw [he]
    exact h.edited k m hold hexp hp hdepth hedits
  · intro ht
    rw [hd] at ht
    obtain ⟨k, m, hk, hm⟩ := h.depth_of ht
    exact ⟨k, m, hkeep hk, hm⟩
  · intro ht
    rw [he] at ht
    obtain ⟨k, m, hk, hm⟩ := h.edits_of ht
    exact ⟨k, m, hkeep hk, hm⟩
  · intro y hy
    rw [ha] at hy
    rcases List.mem_append.mp hy with hold | hlast
    · exact h.unblocked y hold
    · rw [List.mem_singleton.mp hlast]
      exact hx

omit [FloatArith] in
theorem Frontier.note (h : Frontier cfg v pending) (nid : ℕ) (text : String) :
    Frontier cfg (v.note nid text) pending := by
  rw [note_eq]
  exact { h with }

/-- The single-edit strategy is at the root. -/
theorem AtNode.zero (h : AtNode B spec cfg p nid node v) (hs : cfg.strategy = .single) :
    nid = 0 := by
  obtain ⟨n, -, -, hzero | hne⟩ := h.frontier.ahead nid List.mem_cons_self
  · exact hzero
  · exact absurd hs hne

theorem AtNode.expands (h : AtNode B spec cfg p nid node v) : Expands cfg nid node := by
  obtain ⟨n, hn, hexp⟩ := h.frontier.ahead nid List.mem_cons_self
  obtain rfl : node = n := Option.some.inj (h.expanding.known.symm.trans hn)
  exact hexp

/-- A proposal that adds no node leaves the search at its node. -/
theorem AtNode.attempt (h : AtNode B spec cfg p nid node v) (hlt : v.proposals < cfg.candidateBudget)
    (hn : v'.nodes = v.nodes) (hr : v'.nodeReports = v.nodeReports)
    (hx : v'.nodeByFp = v.nodeByFp) (hv : v'.verifications = v.verifications)
    (hq : v'.queue = v.queue) (hp : v'.proposals = v.proposals + 1)
    (ha : v'.attempts = v.attempts ++ [x])
    (hc : v'.cacheHits = v.cacheHits + if x.result = "reused" then 1 else 0)
    (hs : v'.statesExplored = v.statesExplored) (hu : v'.sawUnknown = v.sawUnknown)
    (hd : v'.depthTruncated = v.depthTruncated) (he : v'.editsTruncated = v.editsTruncated)
    (hcand : v'.candidateBudgetHit = v.candidateBudgetHit)
    (hver : v'.verificationBudgetHit = v.verificationBudgetHit)
    (hid : x.id = v.attempts.length) (hparent : x.parent = nid) (hne : x.result ≠ "verified")
    (hopen : x.result ≠ "budget-blocked")
    (hfit : Fits B spec cfg v.nodes (created v.attempts) x) : AtNode B spec cfg p nid node v' := by
  have hlen : v'.attempts.length = v.attempts.length + 1 := by
    rw [ha]
    exact List.length_append
  refine ⟨h.expanding.of_nodes hn (h.expanding.proposed hlt hn hx hv hq hp hlen),
    h.evidence.attempt hn hr ha hc hs hu hid hne hfit (fun hs ↦ hparent.trans (h.zero hs)), ?_⟩
  rw [hq]
  exact h.frontier.attempt hn hd he hcand hver ha hopen

/-- A verified proposal is an accepted node, or leaves the search at its node. -/
theorem AtNode.verified (h : AtNode B spec cfg p nid node v)
    (hlt : v.proposals < cfg.candidateBudget) (hone : c.changes.length = 1)
    (ha : checkAllowed spec.allowedScope c = .ok ()) (hp : B.apply node.program c = .ok (q, diff))
    (hv : (B.validate q).valid = true)
    (hfresh : ∀ m ∈ v.nodes, m.fingerprint ≠ B.programFingerprint q)
    (hb : v.verifications < cfg.verificationBudget) :
    match verdictFlow B spec cfg (grown B spec nid node c q v) v.nodes.length
      (B.verifyProgram q spec) with
    | .next v => AtNode B spec cfg p nid node v
    | .stop v => Ended B spec cfg p v
    | .done r => ∃ v k, r = B.repaired spec cfg v k ∧ Accepted B spec cfg p v k := by
  have hedits := h.expanding.edits
  have hrec : Recorded B spec cfg p (grown B spec nid node c q v) :=
    h.expanding.recorded.grown h.expanding.known h.expanding.depth (by omega) hlt ha hp hv hfresh hb
  have hnode : (grown B spec nid node c q v).nodes[nid]? = some node :=
    getElem?_append_of_some h.expanding.known _
  have hpos : v.nodes.length ≠ 0 := by
    have := (List.getElem?_eq_some_iff.mp h.expanding.known).1
    omega
  have hcount : v.nodes.length < (grown B spec nid node c q v).nodes.length := by
    simp [Repair.grown]
  have hev : ∀ w : SearchState, w.nodes = (grown B spec nid node c q v).nodes →
      w.nodeReports = (grown B spec nid node c q v).nodeReports →
      w.attempts = (grown B spec nid node c q v).attempts → w.cacheHits = v.cacheHits →
      w.statesExplored = (grown B spec nid node c q v).statesExplored →
      w.sawUnknown = (v.sawUnknown || decide ((B.verifyProgram q spec).outcome = .unknown)) →
      Evidence B spec cfg w := fun w ↦
    h.evidence.grown h.expanding.recorded h.expanding.known ha hp h.frontier.unblocked h.zero
  have hquiet : ¬ Expands cfg v.nodes.length (childNode B spec nid node c q) →
      Frontier cfg (grown B spec nid node c q v) (nid :: v.queue) := by
    intro hno
    exact h.frontier.grown rfl rfl rfl rfl rfl rfl (by simp) (fun _ hk ↦ hk) (fun _ hk ↦ .inl hk)
      (fun hexp ↦ absurd hexp hno)
  rw [verdictFlow]
  split_ifs with hpass hfail hsingle hunknown
  · rw [Bool.and_eq_true, decide_eq_true_eq] at hpass
    refine ⟨_, _, rfl, hrec, hev _ rfl rfl rfl rfl rfl ?_, ?_, ?_⟩
    · simp [hpass.1, Repair.grown]
    · exact ⟨childNode B spec nid node c q, List.getElem?_concat_length, hpass⟩
    · obtain ⟨m, hm, hf⟩ := h.frontier.root
      exact ⟨m, getElem?_append_of_some hm _, hf⟩
  · refine ⟨⟨hrec, hnode, h.expanding.depth, h.expanding.edits⟩,
      hev _ rfl rfl rfl rfl rfl (by simp [hfail, Repair.grown]), hquiet ?_⟩
    rintro ⟨-, hzero | hne⟩
    · exact hpos hzero
    · exact hne hsingle
  · have hexp : Expands cfg v.nodes.length (childNode B spec nid node c q) := ⟨hfail, .inr hsingle⟩
    refine ⟨⟨{ hrec with queued := ?_ }, hnode, h.expanding.depth, h.expanding.edits⟩,
      hev _ rfl rfl rfl rfl rfl (by simp [hfail, Repair.grown]), ?_⟩
    · intro k hk
      rcases List.mem_append.mp hk with hold | hnew
      · exact hrec.queued k hold
      · rw [List.mem_singleton.mp hnew]
        exact hcount
    · refine h.frontier.grown (n := childNode B spec nid node c q) rfl rfl rfl rfl rfl rfl (by simp)
        ?_ ?_ ?_
      · intro k hk
        exact List.mem_append_left [v.nodes.length] hk
      · intro k hk
        rcases List.mem_append.mp (show k ∈ (nid :: v.queue) ++ [v.nodes.length] from hk) with
          hold | hnew
        · exact .inl hold
        · obtain rfl := List.mem_singleton.mp hnew
          exact .inr ⟨rfl, hexp⟩
      · intro _
        exact List.mem_append_right (nid :: v.queue) (List.mem_singleton.mpr rfl)
  · refine ⟨⟨{ hrec with }, hnode, h.expanding.depth, h.expanding.edits⟩,
      hev _ rfl rfl rfl rfl rfl (by simp [hunknown]), { hquiet ?_ with }⟩
    exact fun hexp ↦ hfail hexp.1
  · refine ⟨⟨hrec, hnode, h.expanding.depth, h.expanding.edits⟩,
      hev _ rfl rfl rfl rfl rfl (by simp [hunknown, Repair.grown]), hquiet ?_⟩
    exact fun hexp ↦ hfail hexp.1

/-- The evidence and the frontier are kept all through the search. -/
theorem searching_rule : SearchRule B spec cfg (Searching B spec cfg p) (AtNode B spec cfg p)
    (Ended B spec cfg p)
    (fun r ↦ ∃ v k, r = B.repaired spec cfg v k ∧ Accepted B spec cfg p v k) where
  known h hq := recorded_rule.known h.recorded hq
  dry h hq := by
    have hf := h.frontier
    have hasked := h.asked
    rw [hq] at hf hasked
    exact ⟨h.recorded, h.evidence,
      .dry hf fun k n hk hexp ↦ hasked k n hk hexp List.not_mem_nil, hf.root⟩
  deep {v nid rest node} h hq hn hd := by
    have hf := h.frontier
    have hexp : Expands cfg nid node := by
      obtain ⟨n, hn', hexp⟩ := hf.ahead nid (hq ▸ List.mem_cons_self)
      obtain rfl : node = n := Option.some.inj (hn.symm.trans hn')
      exact hexp
    have hfront : Frontier cfg { v with queue := rest, depthTruncated := true } rest := by
      refine { hf with ahead := ?_, deep := ?_, edited := ?_, depth_of := ?_ }
      · intro k hk
        exact hf.ahead k (hq ▸ List.mem_cons_of_mem _ hk)
      · intros
        rfl
      · intro k m hk hexp hno hdepth
        refine hf.edited k m hk hexp ?_ hdepth
        rw [hq, List.mem_cons]
        rintro (rfl | hrest)
        · obtain rfl : node = m := Option.some.inj (hn.symm.trans hk)
          omega
        · exact hno hrest
      · intro _
        exact ⟨nid, node, hn, hexp, hd⟩
    have hev : Evidence B spec cfg { v with queue := rest, depthTruncated := true } :=
      { h.evidence with }
    have hnote := hfront.note nid "not expanded: max_depth"
    have hevn := hev.note nid "not expanded: max_depth"
    rw [note_eq] at hnote hevn
    refine ⟨recorded_rule.deep h.recorded hq hn hd, ?_, ?_, ?_⟩
    · rw [note_eq]
      exact hevn
    · rw [note_eq]
      exact hnote
    · rw [note_eq]
      intro k m hk hexp hno hdepth hedits
      refine h.asked k m hk hexp ?_ hdepth hedits
      rw [hq, List.mem_cons]
      rintro (rfl | hrest)
      · obtain rfl : node = m := Option.some.inj (hn.symm.trans hk)
        omega
      · exact hno hrest
  edited {v nid rest node} h hq hn hd he := by
    have hf := h.frontier
    have hexp : Expands cfg nid node := by
      obtain ⟨n, hn', hexp⟩ := hf.ahead nid (hq ▸ List.mem_cons_self)
      obtain rfl : node = n := Option.some.inj (hn.symm.trans hn')
      exact hexp
    have hfront : Frontier cfg { v with queue := rest, editsTruncated := true } rest := by
      refine { hf with ahead := ?_, deep := ?_, edited := ?_, edits_of := ?_ }
      · intro k hk
        exact hf.ahead k (hq ▸ List.mem_cons_of_mem _ hk)
      · intro k m hk hexp hno hdepth
        refine hf.deep k m hk hexp ?_ hdepth
        rw [hq, List.mem_cons]
        rintro (rfl | hrest)
        · obtain rfl : node = m := Option.some.inj (hn.symm.trans hk)
          omega
        · exact hno hrest
      · intros
        rfl
      · intro _
        exact ⟨nid, node, hn, hexp, hd, he⟩
    have hev : Evidence B spec cfg { v with queue := rest, editsTruncated := true } :=
      { h.evidence with }
    have hnote := hfront.note nid "not expanded: max_total_edits"
    have hevn := hev.note nid "not expanded: max_total_edits"
    rw [note_eq] at hnote hevn
    refine ⟨recorded_rule.edited h.recorded hq hn hd he, ?_, ?_, ?_⟩
    · rw [note_eq]
      exact hevn
    · rw [note_eq]
      exact hnote
    · rw [note_eq]
      intro k m hk hexp hno hdepth hedits
      refine h.asked k m hk hexp ?_ hdepth hedits
      rw [hq, List.mem_cons]
      rintro (rfl | hrest)
      · obtain rfl : node = m := Option.some.inj (hn.symm.trans hk)
        omega
      · exact hno hrest
  enter h hq hn hd he := by
    refine ⟨recorded_rule.enter h.recorded hq hn hd he, { h.evidence with }, ?_⟩
    have hf := h.frontier
    rw [hq] at hf
    exact { hf with }
  index h := recorded_rule.index h.expanding
  tried h hlt hc ht := by
    have hn := h.expanding.known
    have hlen := h.evidence.created
    cases ht with
    | denied ha =>
        exact h.attempt hlt rfl rfl rfl rfl rfl rfl rfl (by simp [SearchState.recordAttempt])
          rfl rfl rfl rfl rfl rfl rfl rfl (by simp) (by simp) (.denied hn ha)
    | applyError ha hp =>
        exact h.attempt hlt rfl rfl rfl rfl rfl rfl rfl (by simp [SearchState.recordAttempt])
          rfl rfl rfl rfl rfl rfl rfl rfl (by simp) (by simp) (.applyError hn ha hp)
    | staticInvalid ha hp hv =>
        exact h.attempt hlt rfl rfl rfl rfl rfl rfl rfl (by simp [SearchState.recordAttempt])
          rfl rfl rfl rfl rfl rfl rfl rfl (by simp) (by simp) (.staticInvalid hn ha hp hv)
    | reused ha hp hv hm hfp =>
        have hlow := (List.getElem?_eq_some_iff.mp hm).1
        exact h.attempt hlt rfl rfl rfl rfl rfl rfl rfl (by simp [SearchState.recordAttempt])
          rfl rfl rfl rfl rfl rfl rfl rfl (by simp) (by simp) (.reused hn ha hp (hlen ▸ hlow) hm hfp)
    | blocked ha hp hv hfresh hb =>
        refine ⟨recorded_rule.tried h.expanding hlt hc (.blocked ha hp hv hfresh hb), ?_, ?_,
          h.frontier.root⟩
        · refine h.evidence.attempt rfl rfl rfl (by simp [SearchState.recordAttempt]) rfl rfl rfl
            (by simp) (.blocked hn ha hp hv hfresh ?_) h.zero
          rw [← hlen, ← h.expanding.recorded.verifications]
          exact hb
        · exact .verifications h.frontier.candidates rfl
            (List.mem_append_right _ (List.mem_singleton.mpr rfl)) rfl
    | verified ha hp hv hfresh hb =>
        exact h.verified hlt (Enumerator.length_changes hc) ha hp hv hfresh hb
  leave {v nid node} h hlt := by
    have hf := h.frontier
    have hdepth := h.expanding.depth
    have hedits := h.expanding.edits
    refine ⟨h.expanding.recorded, h.evidence, { hf with ahead := ?_, deep := ?_, edited := ?_ },
      fun _ _ _ _ _ _ _ ↦ hlt⟩
    · exact fun k hk ↦ hf.ahead k (List.mem_cons_of_mem _ hk)
    · intro k n hk hexp hno hd
      refine hf.deep k n hk hexp ?_ hd
      rw [List.mem_cons]
      rintro (rfl | hrest)
      · obtain rfl : node = n := Option.some.inj (h.expanding.known.symm.trans hk)
        omega
      · exact hno hrest
    · intro k n hk hexp hno hd he
      refine hf.edited k n hk hexp ?_ hd he
      rw [List.mem_cons]
      rintro (rfl | hrest)
      · obtain rfl : node = n := Option.some.inj (h.expanding.known.symm.trans hk)
        omega
      · exact hno hrest
  hit h hle := ⟨recorded_rule.hit h.expanding hle, { h.evidence with },
    .candidates rfl h.frontier.verifications h.frontier.unblocked hle h.expanding.known h.expands
      h.expanding.depth h.expanding.edits, h.frontier.root⟩

end Frontier

end Repair

end ConcIR
