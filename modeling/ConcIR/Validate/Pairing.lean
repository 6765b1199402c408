import ConcIR.Validate.Locks

/-!
# The pairing of locks

What the check reports about a function body is what its control-flow paths do: the locks
held along a path start with those the function requires, and the check has something to
say about a statement exactly if some path reaches it with locks for which it does.
-/

namespace ConcIR.Validate

open Ast

section Paths

variable (p : Program) (m : Module) (f : Function) (locks : List String) (entry : Finset String)

/-- The locks held after the statements of a path. -/
def heldAlong (is : List ℕ) : Finset String :=
  is.foldl (fun held i ↦ match f.body[i]? with
    | none => held
    | some stmt => heldAfter p m locks stmt.op held) entry

variable {p m f locks entry}

theorem heldAlong_concat {is : List ℕ} {i : ℕ} {stmt : Stmt} (hi : f.body[i]? = some stmt) :
    heldAlong p m f locks entry (is ++ [i]) =
      heldAfter p m locks stmt.op (heldAlong p m f locks entry is) := by
  rw [heldAlong, List.foldl_append, List.foldl_cons, List.foldl_nil, hi]
  rfl

theorem mem_pairingNext {i j : ℕ} {held held' : Finset String} :
    (j, held') ∈ pairingNext p m f (buildCfg f) locks (i, held) ↔
      ∃ stmt, f.body[i]? = some stmt ∧ j ∈ (buildCfg f).next i ∧
        held' = heldAfter p m locks stmt.op held := by
  rw [pairingNext]
  cases hi : f.body[i]? with
  | none => simp
  | some stmt =>
      simp only [List.mem_map, Prod.mk.injEq, Option.some.injEq, exists_eq_left']
      constructor
      · rintro ⟨k, hk, rfl, rfl⟩
        exact ⟨hk, rfl⟩
      · rintro ⟨hj, rfl⟩
        exact ⟨j, hj, rfl, rfl⟩

/-- The worklist reaches a statement with the locks that some path to it holds. -/
theorem reach_iff {i : ℕ} {held : Finset String} :
    Walk.Reach (pairingNext p m f (buildCfg f) locks) (0, entry) (i, held) ↔
      ∃ is, (buildCfg f).Path is i ∧ held = heldAlong p m f locks entry is := by
  constructor
  · intro h
    generalize hs : ((i, held) : ℕ × Finset String) = s at h
    induction h generalizing i held with
    | refl =>
        obtain ⟨rfl, rfl⟩ := Prod.mk.inj hs
        exact ⟨[], .entry, rfl⟩
    | @tail a b _ hstep ih =>
        subst hs
        obtain ⟨j, before⟩ := a
        obtain ⟨stmt, hj, hi, rfl⟩ := mem_pairingNext.mp hstep
        obtain ⟨is, hpath, rfl⟩ := ih rfl
        exact ⟨is ++ [j], hpath.step hi, (heldAlong_concat hj).symm⟩
  · rintro ⟨is, hpath, rfl⟩
    induction hpath with
    | entry => exact .refl
    | @step is i j hpath hj ih =>
        have hlt : i < f.body.length := by
          by_contra hge
          rw [next_buildCfg, if_neg hge] at hj
          exact absurd hj List.not_mem_nil
        obtain ⟨stmt, hi⟩ : ∃ stmt, f.body[i]? = some stmt :=
          ⟨_, List.getElem?_eq_getElem hlt⟩
        exact ih.tail (mem_pairingNext.mpr ⟨stmt, hi, hj, heldAlong_concat hi⟩)

theorem heldAfter_subset {U held : Finset String} {stmt : Stmt} (hstmt : stmt ∈ f.body)
    (hU : lockUniverse p m f locks entry ⊆ U) (h : held ⊆ U) :
    heldAfter p m locks stmt.op held ⊆ U := by
  rw [heldAfter]
  cases ht : lockTaken p m locks stmt.op with
  | some l =>
      refine Finset.insert_subset (hU ?_) h
      exact Finset.mem_union_right _
        (List.mem_toFinset.mpr (List.mem_filterMap.mpr ⟨stmt, hstmt, ht⟩))
  | none =>
      cases lockGiven p m locks stmt.op with
      | some l => exact (Finset.erase_subset l held).trans h
      | none => exact h

/-- A worklist over statements and held locks runs empty, whatever it reports. -/
theorem stack_walk {D : Type} (emit : ℕ × Finset String → List D) :
    (Walk.run (pairingNext p m f (buildCfg f) locks) emit
      (pairingRounds p m f (buildCfg f) locks entry) (.start (0, entry))).stack = [] := by
  have hclosed : ∀ i held, ∀ t ∈ pairingNext p m f (buildCfg f) locks (i, held),
      t.1 < f.body.length ∧ (held ⊆ lockUniverse p m f locks entry →
        t.2 ⊆ lockUniverse p m f locks entry) := by
    rintro i held ⟨j, held'⟩ ht
    obtain ⟨stmt, hi, hj, rfl⟩ := mem_pairingNext.mp ht
    exact ⟨next_lt hj, fun h ↦ heldAfter_subset (List.mem_of_getElem? hi) subset_rfl h⟩
  -- the statements with the sets of locks that can be held, and the start of an empty body
  set U := Finset.range f.body.length ×ˢ (lockUniverse p m f locks entry).powerset with hU
  have hsum : ∑ s ∈ U, (pairingNext p m f (buildCfg f) locks s).length =
      2 ^ (lockUniverse p m f locks entry).card *
        ∑ i ∈ Finset.range f.body.length, ((buildCfg f).next i).length := by
    rw [hU, Finset.sum_product, Finset.mul_sum]
    refine Finset.sum_congr rfl fun i hi ↦ ?_
    have hout : ∀ held : Finset String,
        (pairingNext p m f (buildCfg f) locks (i, held)).length =
          ((buildCfg f).next i).length := by
      intro held
      rw [pairingNext, List.getElem?_eq_getElem (Finset.mem_range.mp hi)]
      exact List.length_map _
    rw [Finset.sum_congr rfl fun held _ ↦ hout held, Finset.sum_const, Finset.card_powerset,
      smul_eq_mul]
  by_cases hbody : f.body.length = 0
  · have hnone : pairingNext p m f (buildCfg f) locks (0, entry) = [] := by
      rw [pairingNext, List.getElem?_eq_none hbody.le]
    refine @Walk.stack_run_start _ _ _ _ (0, entry) _ {(0, entry)} ?_ (Finset.mem_singleton_self _)
      _ ?_
    · intro s hs t ht
      rw [Finset.mem_singleton.mp hs, hnone] at ht
      exact absurd ht List.not_mem_nil
    · rw [Finset.sum_singleton, hnone, pairingRounds]
      exact Nat.le_add_right 1 _
  · refine @Walk.stack_run_start _ _ _ _ (0, entry) _ U ?_ ?_ _ (congrArg (1 + ·) hsum).le
    · rintro ⟨i, held⟩ hs t ht
      obtain ⟨hlt, hsub⟩ := hclosed i held t ht
      have hheld := Finset.mem_powerset.mp (Finset.mem_product.mp hs).2
      exact Finset.mem_product.mpr ⟨Finset.mem_range.mpr hlt, Finset.mem_powerset.mpr (hsub hheld)⟩
    · exact Finset.mem_product.mpr ⟨Finset.mem_range.mpr (Nat.pos_of_ne_zero hbody),
        Finset.mem_powerset.mpr Finset.subset_union_left⟩

theorem stack_pairingWalk (fnPath : String) :
    (pairingWalk p m f (buildCfg f) locks entry fnPath).stack = [] :=
  stack_walk _

theorem inv_pairingWalk {fnPath : String} : Walk.Inv (pairingNext p m f (buildCfg f) locks)
    (pairingDiags p m f locks entry fnPath) (0, entry)
      (pairingWalk p m f (buildCfg f) locks entry fnPath) :=
  (Walk.inv_start _ _ _).run _

theorem mem_pairingWalk {fnPath : String} {s : ℕ × Finset String} :
    s ∈ (pairingWalk p m f (buildCfg f) locks entry fnPath).visited ↔
      ∃ is, (buildCfg f).Path is s.1 ∧ s.2 = heldAlong p m f locks entry is :=
  (inv_pairingWalk.mem_visited (stack_pairingWalk fnPath)).trans reach_iff

/-- The check reports what it says about the statements at the ends of the paths. -/
theorem mem_checkLockDropPairing {fnPath : String} {d : Diagnostic} :
    d ∈ checkLockDropPairing p m f (buildCfg f) locks entry fnPath ↔
      ∃ is i, (buildCfg f).Path is i ∧
        d ∈ pairingDiags p m f locks entry fnPath (i, heldAlong p m f locks entry is) := by
  rw [checkLockDropPairing]
  split_ifs with hbody
  · refine iff_of_false List.not_mem_nil ?_
    rintro ⟨is, i, -, hd⟩
    rw [pairingDiags, List.getElem?_eq_none (by omega)] at hd
    exact absurd hd List.not_mem_nil
  · rw [inv_pairingWalk.mem_out (stack_pairingWalk fnPath)]
    constructor
    · rintro ⟨⟨i, held⟩, hreach, hd⟩
      obtain ⟨is, hpath, rfl⟩ := reach_iff.mp hreach
      exact ⟨is, i, hpath, hd⟩
    · rintro ⟨is, i, hpath, hd⟩
      exact ⟨(i, _), reach_iff.mpr ⟨is, hpath, rfl⟩, hd⟩

end Paths

section Entry

variable {p : Program} {m : Module}

/-- A required lock is resolved as an operand of the function's own statements is. -/
theorem canonicalResource_qualify {name : String} (hm : isIdent m.name = true)
    (hname : isIdent name = true ∨ (splitFqn name).isSome = true) :
    (canonicalResource p (qualify m.name name)).getD name = canonicalFrom p m.name name := by
  rw [canonicalResource, canonicalFrom]
  refine congrArg (fun q ↦ (Option.map _ q).getD name) ?_
  rw [qualify]
  split_ifs with hfqn
  · obtain ⟨q, hq⟩ := Option.isSome_iff_exists.mp hfqn
    simp only [Program.lookupResource, resolveName, hq, Option.getD_some]
  · have hsplit : splitFqn name = none := Option.not_isSome_iff_eq_none.mp hfqn
    have hid : isIdent name = true := hname.resolve_right hfqn
    simp only [Program.lookupResource, resolveName, hsplit, splitFqn_fqn hm hid,
      Option.getD_some, Option.getD_none]

theorem entryHeld_eq {f : Function} (hm : isIdent m.name = true)
    (hnames : ∀ name ∈ f.locks.requiresHeld,
      isIdent name = true ∨ (splitFqn name).isSome = true) :
    entryHeld p m f = (f.locks.requiresHeld.map (canonicalFrom p m.name)).toFinset := by
  rw [entryHeld]
  exact congrArg List.toFinset (List.map_congr_left fun name hname ↦
    canonicalResource_qualify hm (hnames name hname))

end Entry

section Codes

variable {p : Program} {m : Module} {f : Function} {locks : List String}
  {entry held : Finset String} {fnPath : String} {i : ℕ} {stmt : Stmt} {l : String}

theorem isLockAcquire_of_release {op : Op} {r : String} (h : op.isLockRelease = some r) :
    op.isLockAcquire = none := by
  cases op <;> first | rfl | cases h

theorem exists_release (h : lockGiven p m locks stmt.op = some l) :
    ∃ r, stmt.op.isLockRelease = some r := by
  obtain ⟨hmap, -⟩ := Option.filter_eq_some_iff.mp h
  obtain ⟨r, hr, -⟩ := Option.map_eq_some_iff.mp hmap
  exact ⟨r, hr⟩

theorem exists_acquire (h : lockTaken p m locks stmt.op = some l) :
    ∃ r, stmt.op.isLockAcquire = some r := by
  obtain ⟨hmap, -⟩ := Option.filter_eq_some_iff.mp h
  obtain ⟨r, hr, -⟩ := Option.map_eq_some_iff.mp hmap
  exact ⟨r, hr⟩

/-- Each report about a statement, by its code. -/
theorem mem_pairingDiags (hi : f.body[i]? = some stmt) {d : Diagnostic} :
    d ∈ pairingDiags p m f locks entry fnPath (i, held) ↔
      (∃ r l, stmt.op.isLockAcquire = some r ∧ lockTaken p m locks stmt.op = some l ∧ l ∈ held ∧
        d = doubleLock m f fnPath i stmt r) ∨
      (∃ r l, stmt.op.isLockRelease = some r ∧ lockGiven p m locks stmt.op = some l ∧ l ∉ held ∧
        d = unlockWithoutLock m f fnPath i stmt r) ∨
      (stmt.isReturn = true ∧ ∃ l ∈ heldAfter p m locks stmt.op held, l ∉ entry ∧
        d = notUnlocked m f fnPath i stmt l) := by
  rw [pairingDiags, hi]
  simp only [List.mem_append]
  rw [← or_assoc]
  refine or_congr ?_ ?_
  · cases hacq : stmt.op.isLockAcquire with
    | some r =>
        have hrel : stmt.op.isLockRelease = none := by
          cases hr : stmt.op.isLockRelease with
          | none => rfl
          | some r' => rw [isLockAcquire_of_release hr] at hacq; cases hacq
        cases ht : lockTaken p m locks stmt.op with
        | none => simp [hrel]
        | some l => by_cases hl : l ∈ held <;> simp [hrel, hl]
    | none =>
        cases hrel : stmt.op.isLockRelease with
        | none => simp
        | some r =>
            cases hg : lockGiven p m locks stmt.op with
            | none => simp
            | some l => by_cases hl : l ∈ held <;> simp [hl]
  · by_cases hret : stmt.isReturn = true
    · simp [hret, eq_comm, and_assoc]
    · simp [hret]

end Codes

section Exact

variable (p : Program) (m : Module) (f : Function)

/-- Some path reaches a statement with locks for which `bad` holds. -/
def OnSomePath (bad : Stmt → Finset String → Prop) : Prop :=
  ∃ is i stmt, (buildCfg f).Path is i ∧ f.body[i]? = some stmt ∧
    bad stmt (heldAlong p m f (lockResources p) (entryHeld p m f) is)

/-- The check of one function. -/
def pairing (fnPath : String) : List Diagnostic :=
  checkLockDropPairing p m f (buildCfg f) (lockResources p) (entryHeld p m f) fnPath

def Reports (ds : List Diagnostic) (code : String) : Prop := ∃ d ∈ ds, d.code = code

variable {p m f}

theorem reports_pairing {fnPath code : String} {bad : Stmt → Finset String → Prop}
    (h : ∀ i stmt held, f.body[i]? = some stmt →
      (Reports (pairingDiags p m f (lockResources p) (entryHeld p m f) fnPath (i, held)) code ↔
        bad stmt held)) :
    Reports (pairing p m f fnPath) code ↔ OnSomePath p m f bad := by
  constructor
  · rintro ⟨d, hd, hcode⟩
    obtain ⟨is, i, hpath, hd⟩ := mem_checkLockDropPairing.mp hd
    cases hi : f.body[i]? with
    | none =>
        rw [pairingDiags, hi] at hd
        exact absurd hd List.not_mem_nil
    | some stmt => exact ⟨is, i, stmt, hpath, hi, (h i stmt _ hi).mp ⟨d, hd, hcode⟩⟩
  · rintro ⟨is, i, stmt, hpath, hi, hbad⟩
    obtain ⟨d, hd, hcode⟩ := (h i stmt _ hi).mpr hbad
    exact ⟨d, mem_checkLockDropPairing.mpr ⟨is, i, hpath, hd⟩, hcode⟩

end Exact

section Claim

variable (p : Program) (m : Module) (f : Function)

/-- The worklist ends, and it reports a code exactly if some path from the entry does what
the code stands for. -/
theorem pairing_exact (fnPath : String) :
    (pairingWalk p m f (buildCfg f) (lockResources p) (entryHeld p m f) fnPath).stack = [] ∧
      (Reports (pairing p m f fnPath) "E502" ↔ OnSomePath p m f fun stmt held ↦
        ∃ l, lockGiven p m (lockResources p) stmt.op = some l ∧ l ∉ held) ∧
      (Reports (pairing p m f fnPath) "E503" ↔ OnSomePath p m f fun stmt held ↦
        ∃ l, lockTaken p m (lockResources p) stmt.op = some l ∧ l ∈ held) ∧
      (Reports (pairing p m f fnPath) "E501" ↔ OnSomePath p m f fun stmt held ↦
        stmt.isReturn = true ∧ ∃ l ∈ held, l ∉ entryHeld p m f) := by
  have hne : ("E501" : String) ≠ "E502" ∧ ("E501" : String) ≠ "E503" ∧ ("E502" : String) ≠ "E503" := by
    decide
  refine ⟨stack_pairingWalk fnPath, ?_, ?_, ?_⟩
  · refine reports_pairing fun i stmt held hi ↦ ?_
    constructor
    · rintro ⟨d, hd, hcode⟩
      rcases (mem_pairingDiags hi).mp hd with ⟨r, l, -, -, -, rfl⟩ | ⟨r, l, -, hl, hnot, -⟩ |
        ⟨-, l, -, -, rfl⟩
      · exact absurd hcode.symm hne.2.2
      · exact ⟨l, hl, hnot⟩
      · exact absurd hcode hne.1
    · rintro ⟨l, hl, hnot⟩
      obtain ⟨r, hr⟩ := exists_release hl
      exact ⟨_, (mem_pairingDiags hi).mpr (.inr (.inl ⟨r, l, hr, hl, hnot, rfl⟩)), rfl⟩
  · refine reports_pairing fun i stmt held hi ↦ ?_
    constructor
    · rintro ⟨d, hd, hcode⟩
      rcases (mem_pairingDiags hi).mp hd with ⟨r, l, -, hl, hin, -⟩ | ⟨r, l, -, -, -, rfl⟩ |
        ⟨-, l, -, -, rfl⟩
      · exact ⟨l, hl, hin⟩
      · exact absurd hcode hne.2.2
      · exact absurd hcode hne.2.1
    · rintro ⟨l, hl, hin⟩
      obtain ⟨r, hr⟩ := exists_acquire hl
      exact ⟨_, (mem_pairingDiags hi).mpr (.inl ⟨r, l, hr, hl, hin, rfl⟩), rfl⟩
  · refine reports_pairing fun i stmt held hi ↦ ?_
    have hsame : stmt.isReturn = true →
        heldAfter p m (lockResources p) stmt.op held = held := by
      intro hret
      rw [Stmt.isReturn] at hret
      rw [heldAfter, lockTaken, lockGiven]
      cases hop : stmt.op <;> rw [hop] at hret <;> first | rfl | cases hret
    constructor
    · rintro ⟨d, hd, hcode⟩
      rcases (mem_pairingDiags hi).mp hd with ⟨r, l, -, -, -, rfl⟩ | ⟨r, l, -, -, -, rfl⟩ |
        ⟨hret, l, hl, hnot, -⟩
      · exact absurd hcode.symm hne.2.1
      · exact absurd hcode.symm hne.1
      · exact ⟨hret, l, hsame hret ▸ hl, hnot⟩
    · rintro ⟨hret, l, hl, hnot⟩
      exact ⟨_, (mem_pairingDiags hi).mpr (.inr (.inr ⟨hret, l, (hsame hret).symm ▸ hl, hnot, rfl⟩)),
        rfl⟩

end Claim

end ConcIR.Validate
