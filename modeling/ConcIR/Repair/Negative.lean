import ConcIR.Repair.Replays

/-!
# What an accepted negative outcome says

Replay looks at what an artifact records. Its nodes are verified again and its attempts
explained, so a recorded limit was really met; candidates that were never recorded are not
looked for.
-/

namespace ConcIR

namespace Repair

variable {B : Toolchain} [FloatArith] {a : SearchArtifact} {res : ReplayResult}
  {p q : Ast.Program} {r : NodeReport} {x : AttemptReport} {i j k k' : ℕ}
  {rebuilt done programs : List Ast.Program} {rs : List NodeReport} {xs : List AttemptReport}

section Inversion

omit [FloatArith] in
/-- The results an attempt can have. -/
def KnownResult (result : String) : Prop :=
  result = "verified" ∨ result = "reused" ∨ result = "budget-blocked" ∨ result = "denied" ∨
    result = "apply-error" ∨ result = "static-invalid"

omit [FloatArith] in
theorem known_of_shape (h : checkAttemptShape rs i x = .ok ()) :
    KnownResult x.result ∧ x.parent < rs.length := by
  rw [checkAttemptShape] at h
  simp only [ensure_bind_ok] at h
  obtain ⟨-, hparent, -, h⟩ := h
  refine ⟨?_, hparent⟩
  rw [KnownResult]
  split_ifs at h with h₁ h₂ h₃ h₄
  · exact .inl h₁
  · exact .inr (.inl h₂)
  · exact .inr (.inr (.inl h₃))
  · exact .inr (.inr (.inr h₄))

omit [FloatArith] in
/-- An attempt that was accepted is explained. -/
theorem explained_of_validateAttempt (hx : KnownResult x.result)
    (h : validateAttempt B a rebuilt i x k = .ok k') : Explained B a rebuilt k x k' := by
  rw [validateAttempt] at h
  simp only [present_bind_ok] at h
  obtain ⟨p, hp, c, hc, h⟩ := h
  rcases hx with hx | hx | hx | hx | hx | hx
  · simp only [hx, String.reduceEq, if_false, if_true, unit_bind_ok, allowedOr_ok,
      appliedOr_bind_ok, ensure_eq_ok, present_bind_ok] at h
    obtain ⟨ha, q, ⟨diff, hq⟩, hfp, r, hr, e, he, hpatch, hk⟩ := h
    obtain rfl := Except.ok.inj hk
    obtain ⟨hr, hfilter⟩ := Option.filter_eq_some_iff.mp hr
    rw [Bool.and_eq_true, decide_eq_true_eq, decide_eq_true_eq] at hfilter
    exact .verified hx hp hc ha hq hfp hr hfilter.1 hfilter.2 he hpatch
  · simp only [hx, String.reduceEq, if_false, if_true, unit_bind_ok, allowedOr_ok,
      appliedOr_bind_ok, ensure_eq_ok, present_bind_ok] at h
    obtain ⟨ha, q, ⟨diff, hq⟩, hfp, t, ht, hlt, r, hr, hrfp, hk⟩ := h
    obtain rfl := Except.ok.inj hk
    exact .reused hx hp hc ha hq hfp ht hlt hr hrfp
  · simp only [hx, String.reduceEq, if_false, if_true, unit_bind_ok, allowedOr_ok,
      appliedOr_bind_ok, ensure_eq_ok] at h
    obtain ⟨ha, q, ⟨diff, hq⟩, hfp, hv, hall, hb, hk⟩ := h
    obtain rfl := Except.ok.inj hk
    exact .blocked hx hp hc ha hq hfp hv hall hb
  · simp only [hx, String.reduceEq, if_true, unit_bind_ok, ensure_eq_ok] at h
    obtain ⟨ha, hk⟩ := h
    obtain rfl := Except.ok.inj hk
    exact .denied hx hp hc ha
  · simp only [hx, String.reduceEq, if_false, if_true, unit_bind_ok, allowedOr_ok] at h
    obtain ⟨ha, hk⟩ := h
    cases he : B.apply p c with
    | ok _ =>
        rw [he] at hk
        cases hk
    | error e =>
        rw [he] at hk
        obtain rfl := Except.ok.inj hk
        exact .applyError hx hp hc ha he
  · simp only [hx, String.reduceEq, if_false, if_true, unit_bind_ok, allowedOr_ok,
      appliedOr_bind_ok, ensure_eq_ok] at h
    obtain ⟨ha, q, ⟨diff, hq⟩, hv, hk⟩ := h
    obtain rfl := Except.ok.inj hk
    exact .staticInvalid hx hp hc ha hq hv

omit [FloatArith] in
theorem Explained.le (h : Explained B a rebuilt k x k') : k ≤ k' := by
  cases h <;> omega

omit [FloatArith] in
/-- Every attempt was explained with the nodes there were. -/
theorem explained_of_attemptsFrom (h : attemptsFrom B a rebuilt i k xs = .ok k')
    (hx : ∀ x ∈ xs, KnownResult x.result) : k ≤ k' ∧
      ∀ x ∈ xs, ∃ k₁ k₂, Explained B a rebuilt k₁ x k₂ ∧ k₁ ≤ k' := by
  induction xs generalizing i k with
  | nil =>
      rw [attemptsFrom] at h
      obtain rfl := Except.ok.inj h
      exact ⟨le_rfl, fun x hmem ↦ absurd hmem List.not_mem_nil⟩
  | cons y ys ih =>
      rw [attemptsFrom, except_bind_ok] at h
      obtain ⟨k₁, hy, hrest⟩ := h
      have hex := explained_of_validateAttempt (hx y List.mem_cons_self) hy
      obtain ⟨hle, hall⟩ := ih hrest fun x hmem ↦ hx x (List.mem_cons_of_mem _ hmem)
      refine ⟨hex.le.trans hle, fun x hmem ↦ ?_⟩
      rcases List.mem_cons.mp hmem with rfl | hmem
      · exact ⟨k, k₁, hex, hex.le.trans hle⟩
      · exact hall x hmem

omit [FloatArith] in
/-- Two reports that match agree on the verdict. -/
theorem outcome_of_match {s t : Report} {what : String} (h : reportsMatch B s t what = .ok ()) :
    s.outcome = t.outcome ∧ s.complete = t.complete := by
  rw [reportsMatch] at h
  simp only [ensure_bind_ok] at h
  exact ⟨h.1, h.2.1⟩

variable (B a)

/-- The programs of the recorded nodes: the input and what the recorded edits make of the
parents, with the verdicts that verification gives them. -/
structure Rebuilt (programs : List Ast.Program) : Prop where
  length : programs.length = a.nodes.length
  node : ∀ (i : ℕ) (r : NodeReport) (q : Ast.Program), a.nodes[i]? = some r →
    programs[i]? = some q → (r.parent = none ∧ q = a.inputProgram ∨
      ∃ j base e, r.parent = some j ∧ programs[j]? = some base ∧ r.incoming = some e ∧
        EditStep B a.frozenContract base e q)
  verdict : ∀ (i : ℕ) (r : NodeReport) (q : Ast.Program), a.nodes[i]? = some r →
    programs[i]? = some q → (B.verifyProgram q a.frozenContract).outcome = r.report.outcome ∧
      (B.verifyProgram q a.frozenContract).complete = r.report.complete

variable {B a}

theorem rebuildFrom_inv (h : rebuildFrom B a done rs = .ok programs) :
    programs.length = done.length + rs.length ∧
    (∀ (i : ℕ) (q : Ast.Program), done[i]? = some q → programs[i]? = some q) ∧
    ∀ (i : ℕ) (r : NodeReport), rs[i]? = some r → ∃ q, programs[done.length + i]? = some q ∧
      rebuildNode B a (programs.take (done.length + i)) r = .ok q ∧
      ∃ what, reportsMatch B (B.verifyProgram q a.frozenContract) r.report what = .ok () := by
  induction rs generalizing done with
  | nil =>
      rw [rebuildFrom] at h
      obtain rfl := Except.ok.inj h
      refine ⟨rfl, fun _ _ hq ↦ hq, ?_⟩
      intro i r hi
      cases hi
  | cons r rs ih =>
      rw [rebuildFrom, except_bind_ok] at h
      obtain ⟨q, hq, h⟩ := h
      rw [unit_bind_ok] at h
      obtain ⟨hmatch, h⟩ := h
      obtain ⟨hlen, hkeep, hall⟩ := ih h
      rw [List.length_append, List.length_singleton] at hlen
      have hdone : ∀ (i : ℕ) (q : Ast.Program), done[i]? = some q → programs[i]? = some q :=
        fun i q hi ↦ hkeep i q (getElem?_append_of_some hi _)
      have hlast : programs[done.length]? = some q := hkeep _ _ List.getElem?_concat_length
      have htake : programs.take done.length = done := by
        apply List.ext_getElem?
        intro i
        rw [List.getElem?_take]
        split_ifs with hi
        · obtain ⟨q', hq'⟩ : ∃ q', done[i]? = some q' := ⟨_, List.getElem?_eq_getElem hi⟩
          rw [hq', hdone i q' hq']
        · rw [List.getElem?_eq_none (not_lt.mp hi)]
      refine ⟨by rw [List.length_cons]; omega, hdone, fun i s hi ↦ ?_⟩
      cases i with
      | zero =>
          obtain rfl := Option.some.inj hi
          exact ⟨q, hlast, by rw [Nat.add_zero, htake]; exact hq, _, hmatch⟩
      | succ i =>
          have hrest := hall i s hi
          rw [List.length_append, List.length_singleton, Nat.add_assoc, Nat.add_comm 1 i] at hrest
          exact hrest

theorem rebuilt_of_rebuildFrom (h : rebuildFrom B a [] a.nodes = .ok programs) :
    Rebuilt B a programs := by
  obtain ⟨hlen, -, hall⟩ := rebuildFrom_inv h
  have hat : ∀ {i : ℕ} {r : NodeReport} {q : Ast.Program}, a.nodes[i]? = some r →
      programs[i]? = some q → rebuildNode B a (programs.take i) r = .ok q ∧
        ∃ what, reportsMatch B (B.verifyProgram q a.frozenContract) r.report what = .ok () := by
    intro i r q hr hq
    have := hall i r hr
    simp only [List.length_nil, Nat.zero_add] at this
    obtain ⟨q', hq', hnode, hmatch⟩ := this
    obtain rfl := Option.some.inj (hq.symm.trans hq')
    exact ⟨hnode, hmatch⟩
  refine ⟨by simpa using hlen, fun i r q hr hq ↦ ?_, fun i r q hr hq ↦ ?_⟩
  · rcases rebuildNode_ok.mp (hat hr hq).1 with hroot | ⟨j, base, e, hj, hbase, he, hstep, -⟩
    · exact .inl hroot
    · refine .inr ⟨j, base, e, hj, ?_, he, hstep⟩
      rw [List.getElem?_take] at hbase
      split_ifs at hbase
      exact hbase
  · obtain ⟨-, what, hmatch⟩ := hat hr hq
    exact outcome_of_match hmatch

end Inversion

section Accepted

variable (B a)

/-- What replay has checked of an artifact with nodes. -/
structure Checked (programs : List Ast.Program) : Prop where
  rebuilt : Rebuilt B a programs
  budgets : WithinBudgets a
  counts : a.counts.proposals = a.attempts.length ∧ a.counts.verificationCalls = a.nodes.length
  explained : ∀ x ∈ a.attempts, ∃ k k', Explained B a programs k x k' ∧ k ≤ a.nodes.length
  known : ∀ x ∈ a.attempts, KnownResult x.result
  evidence : validateOutcomeEvidence B a = .ok ()

variable {B a}

omit [FloatArith] in
theorem counts_of_structure (h : validateStructure a = .ok ()) :
    a.counts.proposals = a.attempts.length ∧ a.counts.verificationCalls = a.nodes.length := by
  obtain ⟨-, -, -, -, -, hcounts, -⟩ := validateStructure_ok.mp h
  rw [checkCounts_ok.mp hcounts]
  exact ⟨rfl, rfl⟩

/-- Nothing was recorded, or everything recorded has been checked. -/
theorem checked_of_replay (h : replayParsed B a = .ok res) :
    (a.nodes = [] ∧ a.attempts = [] ∧ a.outcome = .invalidConfig) ∨
      a.nodes ≠ [] ∧ a.outcome ≠ .invalidConfig ∧ ∃ programs, Checked B a programs := by
  rw [replayParsed, unit_bind_ok] at h
  obtain ⟨hstructure, h⟩ := h
  obtain ⟨-, -, -, -, hattempts, -, hbudgets, haccepted⟩ := validateStructure_ok.mp hstructure
  have hshape : ∀ x ∈ a.attempts, KnownResult x.result ∧ x.parent < a.nodes.length := by
    intro x hx
    obtain ⟨i, hi⟩ := List.mem_iff_getElem?.mp hx
    exact known_of_shape (hattempts i x hi)
  cases hnodes : a.nodes with
  | nil =>
      rw [hnodes] at h
      simp only [ensure_bind_ok] at h
      refine .inl ⟨rfl, List.eq_nil_iff_forall_not_mem.mpr fun x hx ↦ ?_, h.1⟩
      have := (hshape x hx).2
      rw [hnodes] at this
      exact absurd this (Nat.not_lt_zero _)
  | cons root rest =>
      rw [hnodes] at h
      simp only [replayNodes, unit_bind_ok] at h
      obtain ⟨-, -, h⟩ := h
      rw [except_bind_ok] at h
      obtain ⟨programs, hbuild, h⟩ := h
      simp only [unit_bind_ok] at h
      obtain ⟨hexplained, hevidence, -⟩ := h
      refine .inr ⟨List.cons_ne_nil _ _, ?_, programs, ?_⟩
      · intro hinvalid
        rw [checkAccepted, hinvalid] at haccepted
        have := (ensure_eq_ok.mp haccepted).1
        rw [hnodes] at this
        cases this
      · rw [validateAttempts, except_bind_ok] at hexplained
        obtain ⟨k, hfrom, hk⟩ := hexplained
        rw [ensure_eq_ok] at hk
        obtain ⟨-, hall⟩ := explained_of_attemptsFrom hfrom fun x hx ↦ (hshape x hx).1
        refine ⟨rebuilt_of_rebuildFrom hbuild, hbudgets, counts_of_structure hstructure,
          fun x hx ↦ ?_, fun x hx ↦ (hshape x hx).1, hevidence⟩
        obtain ⟨k₁, k₂, hex, hle⟩ := hall x hx
        exact ⟨k₁, k₂, hex, hk ▸ hle⟩

omit [FloatArith] in
theorem classify_noCandidate {f : TerminalFacts}
    (h : f.classify.1 = .noAcceptableCandidate) : f.candidateBudgetHit = false ∧
      f.depthTruncated = false ∧ f.editsTruncated = false ∧ f.sawUnknown = false ∧
      f.verificationBudgetHit = false := by
  rw [TerminalFacts.classify] at h
  split_ifs at h
  simp_all

omit [FloatArith] in
theorem classify_exhausted {f : TerminalFacts} (h : f.classify.1 = .budgetExhausted) :
    f.candidateBudgetHit = true ∨ f.verificationBudgetHit = true ∨ f.depthTruncated = true ∨
      f.editsTruncated = true := by
  rw [TerminalFacts.classify] at h
  split_ifs at h <;> simp_all

omit [FloatArith] in
/-- The outcome of a search that was left is the derived one. -/
theorem classify_of_evidence (h : validateOutcomeEvidence B a = .ok ())
    (ho : a.outcome = .noAcceptableCandidate ∨ a.outcome = .budgetExhausted) :
    (deriveTerminalFacts a).classify.1 = a.outcome := by
  rw [validateOutcomeEvidence, ensure_bind_ok] at h
  rcases ho with ho | ho
  · rw [ho] at h ⊢
    exact (ensure_bind_ok.mp h.2).1.symm
  · rw [ho] at h ⊢
    exact (ensure_bind_ok.mp h.2).1.symm

variable (B a)

/-- The recorded limit that stopped a search was met. -/
def LimitMet (programs : List Ast.Program) : Prop :=
  let cfg := a.effectiveConfig
  (a.attempts.length = cfg.candidateBudget ∧ ∃ r ∈ a.nodes,
    nodeIsExpandable cfg.strategy r = true ∧ r.depth < cfg.maxDepth ∧
      r.totalEdits < cfg.maxTotalEdits) ∨
  (a.nodes.length = cfg.verificationBudget ∧ ∃ x ∈ a.attempts, x.result = "budget-blocked" ∧
    ∃ k, Explained B a programs k x k) ∨
  (∃ r ∈ a.nodes, nodeIsExpandable cfg.strategy r = true ∧ r.depth = cfg.maxDepth) ∨
  ∃ r ∈ a.nodes, nodeIsExpandable cfg.strategy r = true ∧ r.totalEdits = cfg.maxTotalEdits

/-- What an accepted negative outcome says about what was recorded. -/
structure NegativeEvidence : Prop where
  noCandidate : a.outcome = .noAcceptableCandidate → ∃ programs, Rebuilt B a programs ∧
    (∀ x ∈ a.attempts, x.result ≠ "budget-blocked" ∧ ∃ k k', Explained B a programs k x k') ∧
    a.attempts.length ≤ a.effectiveConfig.candidateBudget ∧
    a.nodes.length ≤ a.effectiveConfig.verificationBudget ∧
    (∀ r ∈ a.nodes, r.report.outcome ≠ .unknown) ∧
    ∀ r ∈ a.nodes, nodeIsExpandable a.effectiveConfig.strategy r = true →
      r.depth < a.effectiveConfig.maxDepth ∧ r.totalEdits < a.effectiveConfig.maxTotalEdits ∧
      a.attempts.length < a.effectiveConfig.candidateBudget
  invalidConfig : a.outcome = .invalidConfig → a.nodes = [] ∧ a.attempts = []
  exhausted : a.outcome = .budgetExhausted → ∃ programs, Rebuilt B a programs ∧
    LimitMet B a programs

variable {B a}

theorem Checked.noCandidate (h : Checked B a programs)
    (hf : (deriveTerminalFacts a).classify.1 = .noAcceptableCandidate) :
    (∀ x ∈ a.attempts, x.result ≠ "budget-blocked") ∧
    (∀ r ∈ a.nodes, r.report.outcome ≠ .unknown) ∧
    ∀ r ∈ a.nodes, nodeIsExpandable a.effectiveConfig.strategy r = true →
      r.depth < a.effectiveConfig.maxDepth ∧ r.totalEdits < a.effectiveConfig.maxTotalEdits ∧
      a.attempts.length < a.effectiveConfig.candidateBudget := by
  obtain ⟨hcand, hdepth, hedits, hunknown, hblocked⟩ := classify_noCandidate hf
  simp only [deriveTerminalFacts, List.any_eq_false, Bool.and_eq_true, decide_eq_true_eq,
    not_and, not_le] at hdepth hedits hunknown hblocked
  refine ⟨hblocked, hunknown, fun r hr hexp ↦ ?_⟩
  have hd := hdepth r hr hexp
  have he := hedits r hr ⟨hexp, hd⟩
  refine ⟨hd, he, ?_⟩
  have hno : (a.attempts.any (·.result = "budget-blocked")) = false := by
    simpa [List.any_eq_false] using hblocked
  rw [deriveTerminalFacts, hno] at hcand
  simp only [Bool.not_false, Bool.true_and, Bool.and_eq_false_iff, decide_eq_false_iff_not,
    not_le, List.any_eq_false, Bool.and_eq_true, decide_eq_true_eq, not_and] at hcand
  rcases hcand with hlt | hall
  · exact h.counts.1 ▸ hlt
  · exact absurd he (hall r hr ⟨hexp, hd⟩)

theorem Checked.limitMet (h : Checked B a programs)
    (hf : (deriveTerminalFacts a).classify.1 = .budgetExhausted) : LimitMet B a programs := by
  rcases classify_exhausted hf with hcand | hblocked | hdepth | hedits
  · simp only [deriveTerminalFacts, Bool.and_eq_true, decide_eq_true_eq, List.any_eq_true] at hcand
    obtain ⟨⟨-, hle⟩, r, hr, ⟨hexp, hd⟩, he⟩ := hcand
    rw [h.counts.1] at hle
    exact .inl ⟨le_antisymm h.budgets.attempts hle, r, hr, hexp, hd, he⟩
  · simp only [deriveTerminalFacts, decide_eq_true_eq, List.any_eq_true] at hblocked
    obtain ⟨x, hx, hres⟩ := hblocked
    obtain ⟨k, k', hex, hk⟩ := h.explained x hx
    have hver := h.budgets.verifications
    rw [h.counts.2] at hver
    refine .inr (.inl ⟨?_, x, hx, hres, k, ?_⟩)
    · cases hex with
      | blocked _ _ _ _ _ _ _ _ hb => exact le_antisymm hver (hb.trans hk)
      | denied hx' | applyError hx' | staticInvalid hx' | verified hx' | reused hx' =>
          rw [hres] at hx'
          simp at hx'
    · cases hex with
      | blocked h₁ h₂ h₃ h₄ h₅ h₆ h₇ h₈ h₉ => exact .blocked h₁ h₂ h₃ h₄ h₅ h₆ h₇ h₈ h₉
      | denied hx' | applyError hx' | staticInvalid hx' | verified hx' | reused hx' =>
          rw [hres] at hx'
          simp at hx'
  · simp only [deriveTerminalFacts, Bool.and_eq_true, decide_eq_true_eq, List.any_eq_true]
      at hdepth
    obtain ⟨r, hr, hexp, hd⟩ := hdepth
    exact .inr (.inr (.inl ⟨r, hr, hexp, le_antisymm (h.budgets.depth r hr) hd⟩))
  · simp only [deriveTerminalFacts, Bool.and_eq_true, decide_eq_true_eq, List.any_eq_true]
      at hedits
    obtain ⟨r, hr, ⟨hexp, -⟩, he⟩ := hedits
    exact .inr (.inr (.inr ⟨r, hr, hexp, le_antisymm (h.budgets.edits r hr) he⟩))

theorem negativeEvidence_of_parsed (h : replayParsed B a = .ok res) : NegativeEvidence B a := by
  rcases checked_of_replay h with ⟨hnodes, hattempts, hout⟩ | ⟨-, hne, programs, hc⟩
  · refine ⟨fun ho ↦ ?_, fun _ ↦ ⟨hnodes, hattempts⟩, fun ho ↦ ?_⟩
    · rw [hout] at ho
      cases ho
    · rw [hout] at ho
      cases ho
  · refine ⟨fun ho ↦ ?_, fun ho ↦ absurd ho hne, fun ho ↦ ?_⟩
    · have hf := (classify_of_evidence hc.evidence (.inl ho)).trans ho
      obtain ⟨hopen, hknown, hlimits⟩ := hc.noCandidate hf
      have hver := hc.budgets.verifications
      rw [hc.counts.2] at hver
      refine ⟨programs, hc.rebuilt, fun x hx ↦ ⟨hopen x hx, ?_⟩, hc.budgets.attempts, hver, hknown,
        hlimits⟩
      obtain ⟨k, k', hex, -⟩ := hc.explained x hx
      exact ⟨k, k', hex⟩
    · have hf := (classify_of_evidence hc.evidence (.inr ho)).trans ho
      exact ⟨programs, hc.rebuilt, hc.limitMet hf⟩

/-- A negative outcome that replay accepts is supported by what was recorded. -/
theorem negativeEvidence_of_replay (B : Toolchain) (F : ArtifactFormat) (text : String)
    (res : ReplayResult) (h : replayArtifact B F text = .ok res) :
    ∃ a, F.read text = .ok a ∧ NegativeEvidence B a := by
  rw [replayArtifact] at h
  cases hr : F.read text with
  | error e =>
      rw [hr] at h
      cases h
  | ok a =>
      rw [hr] at h
      exact ⟨a, rfl, negativeEvidence_of_parsed h⟩

end Accepted

section Silent

variable (B a)

omit [FloatArith] in
/-- The node was tried with every candidate of its enumerator, and none was accepted. -/
def Exhaustive (programs : List Ast.Program) : Prop :=
  ∀ i r p, a.nodes[i]? = some r → programs[i]? = some p →
    nodeIsExpandable a.effectiveConfig.strategy r = true →
    ∀ c ∈ (Toolchain.enumerator a.effectiveConfig.strategy).candidates B
      ⟨p, a.frozenContract, r.report⟩,
    ∃ x ∈ a.attempts, x.parent = i ∧ x.patch = some c ∧ x.result ≠ "budget-blocked" ∧
      x.outcome ≠ some .pass

/-- A negative outcome means that nothing was left out. -/
structure NegativeSound : Prop where
  noCandidate : a.outcome = .noAcceptableCandidate → ∀ programs, Rebuilt B a programs →
    Exhaustive B a programs
  invalidConfig : a.outcome = .invalidConfig → a.effectiveConfig.verificationBudget = 0
  exhausted : a.outcome = .budgetExhausted → ∃ programs, Rebuilt B a programs ∧
    LimitMet B a programs

variable {B a}

/-- The artifact of a search in `nested` with its attempts taken out. -/
def silentArtifact : SearchArtifact :=
  ((@Toolchain.startState nestedTools .unused nested unmeetable).finish nestedConfig
    unmeetable.bounds .noAcceptableCandidate "no-acceptable-candidate" none [] none
    none).artifact nestedTools nested unmeetable nestedConfig

def silentFile : ArtifactFormat where
  write _ := "artifact.json"
  read _ := .ok silentArtifact

omit [FloatArith] in
theorem silent_accepted :
    ∃ res, @replayArtifact nestedTools .unused silentFile "artifact.json" = .ok res := by
  have hok : (@replayArtifact nestedTools .unused silentFile "artifact.json").isOk = true := by
    decide +kernel
  cases h : @replayArtifact nestedTools .unused silentFile "artifact.json" with
  | error e =>
      rw [h] at hok
      cases hok
  | ok res => exact ⟨res, rfl⟩

omit [FloatArith] in
/-- What was recorded supports the outcome. -/
theorem negativeEvidence_of_replay_silent :
    ∃ a, silentFile.read "artifact.json" = .ok a ∧ @NegativeEvidence nestedTools .unused a := by
  obtain ⟨res, h⟩ := silent_accepted
  exact @negativeEvidence_of_replay .unused nestedTools silentFile "artifact.json" res h

omit [FloatArith] in
/-- Replay does not miss the attempts. -/
theorem silent_not_negativeSound :
    (∃ res, @replayArtifact nestedTools .unused silentFile "artifact.json" = .ok res) ∧
      silentFile.read "artifact.json" = .ok silentArtifact ∧
      ¬ @NegativeSound nestedTools .unused silentArtifact := by
  let _ : FloatArith := .unused
  refine ⟨silent_accepted, rfl, fun hsound ↦ ?_⟩
  obtain ⟨res, hres⟩ := silent_accepted
  rcases @checked_of_replay nestedTools .unused silentArtifact res hres with
    ⟨hnil, -⟩ | ⟨-, -, programs, hc⟩
  · cases hnil
  · have hlen := hc.rebuilt.length
    obtain ⟨p, hp⟩ : ∃ p, programs[0]? = some p :=
      ⟨_, List.getElem?_eq_getElem (hlen ▸ Nat.one_pos)⟩
    have hroot := hc.rebuilt.node 0 _ p rfl hp
    have hinput : p = nested := by
      rcases hroot with ⟨-, hq⟩ | ⟨_, _, _, hj, -⟩
      · exact hq
      · cases hj
    subst hinput
    have hcs : (Toolchain.enumerator .composite).candidates nestedTools ⟨nested, unmeetable,
        @Toolchain.verifyProgram nestedTools .unused nested unmeetable⟩ ≠ [] := by decide +kernel
    obtain ⟨c, hc'⟩ := List.exists_mem_of_ne_nil _ hcs
    have hexp : nodeIsExpandable .composite (Node.toReport
        (@Toolchain.rootNode nestedTools .unused nested unmeetable) 0 none none) = true := by
      decide +kernel
    obtain ⟨x, hx, -⟩ := hsound.noCandidate rfl programs hc.rebuilt 0 _ nested rfl hp hexp c hc'
    cases hx

end Silent

end Repair

end ConcIR
