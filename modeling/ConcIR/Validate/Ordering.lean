import ConcIR.Validate.Pairing

/-!
# The order in which locks are taken

The check compares the sequences in which whole paths acquire locks. A lock stays in the
sequence when it is given back, so two paths that take two locks one after the other, in
opposite orders and never both at once, are reported as well; and a path that comes to no
end, or is not reached before the exploration stops, adds no sequence.
-/

namespace ConcIR.Validate

open Ast

section Lists

variable {α β : Type} {a b c : α} {l : List α}

theorem pair_sublist_cons : [a, b].Sublist (c :: l) ↔ [a, b].Sublist l ∨ a = c ∧ b ∈ l := by
  rw [List.cons_sublist_cons', List.singleton_sublist]

theorem mem_pairsOf : (a, b) ∈ pairsOf l ↔ [a, b].Sublist l := by
  induction l with
  | nil => simp [pairsOf]
  | cons c l ih =>
      rw [pairsOf, List.mem_append, ih, pair_sublist_cons, or_comm]
      refine or_congr_right ?_
      simp [eq_comm, and_comm]

theorem pair_sublist_getElem? : [a, b].Sublist l ↔
    ∃ i j : ℕ, i < j ∧ l[i]? = some a ∧ l[j]? = some b := by
  induction l with
  | nil => simp
  | cons c l ih =>
      rw [pair_sublist_cons, ih]
      constructor
      · rintro (⟨i, j, hij, hi, hj⟩ | ⟨rfl, hb⟩)
        · exact ⟨i + 1, j + 1, by omega, by simpa using hi, by simpa using hj⟩
        · obtain ⟨j, hj⟩ := List.getElem?_of_mem hb
          exact ⟨0, j + 1, by omega, rfl, by simpa using hj⟩
      · rintro ⟨i, j, hij, hi, hj⟩
        obtain ⟨j, rfl⟩ : ∃ k, j = k + 1 := ⟨j - 1, by omega⟩
        rw [List.getElem?_cons_succ] at hj
        cases i with
        | zero => exact .inr ⟨(Option.some.inj hi).symm, List.mem_of_getElem? hj⟩
        | succ i =>
            rw [List.getElem?_cons_succ] at hi
            exact .inl ⟨i, j, by omega, hi, hj⟩

theorem pair_sublist_filterMap {g : α → Option β} {x y : β} :
    [x, y].Sublist (l.filterMap g) ↔ ∃ a b, [a, b].Sublist l ∧ g a = some x ∧ g b = some y := by
  induction l with
  | nil => simp
  | cons c l ih =>
      have hcons : (∃ a b, [a, b].Sublist (c :: l) ∧ g a = some x ∧ g b = some y) ↔
          (∃ a b, [a, b].Sublist l ∧ g a = some x ∧ g b = some y) ∨
            g c = some x ∧ y ∈ l.filterMap g := by
        simp only [pair_sublist_cons, List.mem_filterMap]
        constructor
        · rintro ⟨a, b, h | ⟨rfl, hb⟩, hx, hy⟩
          · exact .inl ⟨a, b, h, hx, hy⟩
          · exact .inr ⟨hx, b, hb, hy⟩
        · rintro (⟨a, b, h, hx, hy⟩ | ⟨hx, b, hb, hy⟩)
          · exact ⟨a, b, .inl h, hx, hy⟩
          · exact ⟨c, b, .inr ⟨rfl, hb⟩, hx, hy⟩
      rw [hcons, ← ih, List.filterMap_cons]
      cases hc : g c with
      | none => simp
      | some z => simp [pair_sublist_cons, eq_comm]

theorem pair_sublist_concat : [a, b].Sublist (l ++ [c]) ↔ [a, b].Sublist l ∨ b = c ∧ a ∈ l := by
  have hrev : ∀ {l : List α}, [a, b].Sublist l ↔ [b, a].Sublist l.reverse := fun {l} ↦
    List.reverse_sublist.symm
  rw [hrev, List.reverse_append, List.reverse_singleton, List.singleton_append,
    pair_sublist_cons, List.mem_reverse, ← hrev]

/-- Of two elements of a list without repetition one comes first. -/
theorem pair_sublist_or (ha : a ∈ l) (hb : b ∈ l) (hne : a ≠ b) :
    [a, b].Sublist l ∨ [b, a].Sublist l := by
  obtain ⟨i, hi⟩ := List.getElem?_of_mem ha
  obtain ⟨j, hj⟩ := List.getElem?_of_mem hb
  rcases lt_trichotomy i j with hij | rfl | hij
  · exact .inl (pair_sublist_getElem?.mpr ⟨i, j, hij, hi, hj⟩)
  · exact absurd (Option.some.inj (hi.symm.trans hj)) hne
  · exact .inr (pair_sublist_getElem?.mpr ⟨j, i, hij, hj, hi⟩)

theorem not_pair_sublist_swap (hl : l.Nodup) (h : [a, b].Sublist l) : ¬[b, a].Sublist l := by
  intro h'
  obtain ⟨i, j, hij, hi, hj⟩ := pair_sublist_getElem?.mp h
  obtain ⟨k, n, hkn, hk, hn⟩ := pair_sublist_getElem?.mp h'
  have hin : i = n :=
    (List.getElem?_inj (List.getElem?_eq_some_iff.mp hi).1 hl).mp (hi.trans hn.symm)
  have hjk : j = k :=
    (List.getElem?_inj (List.getElem?_eq_some_iff.mp hj).1 hl).mp (hj.trans hk.symm)
  omega

end Lists

/-- Without repetition the first place of a lock is its only one. -/
theorem hasOrderConflict_iff {a b : List String} (hb : b.Nodup) :
    hasOrderConflict a b = true ↔ ∃ l₁ l₂, [l₁, l₂].Sublist a ∧ [l₂, l₁].Sublist b := by
  have hidx : ∀ {l : String} {k : ℕ}, b.idxOf? l = some k ↔ b[k]? = some l := by
    intro l k
    rw [List.idxOf?_eq_some_iff, List.getElem?_eq_some_iff]
    refine exists_congr fun hk ↦ ⟨fun h ↦ h.1, fun h ↦ ⟨h, fun j hj heq ↦ ?_⟩⟩
    exact absurd ((List.Nodup.getElem_inj_iff hb).mp (heq.trans h.symm)) hj.ne
  constructor
  · intro h
    obtain ⟨i, hi, h⟩ := List.any_eq_true.mp h
    obtain ⟨j, hj, h⟩ := List.any_eq_true.mp h
    obtain ⟨hij, -⟩ := List.mem_range'_1.mp hj
    cases hai : a[i]? with
    | none => simp [hai] at h
    | some l₁ =>
        cases haj : a[j]? with
        | none => simp [hai, haj] at h
        | some l₂ =>
            cases hp₁ : b.idxOf? l₁ with
            | none => simp [hai, haj, hp₁] at h
            | some p₁ =>
                cases hp₂ : b.idxOf? l₂ with
                | none => simp [hai, haj, hp₁, hp₂] at h
                | some p₂ =>
                    simp only [hai, haj, hp₁, hp₂] at h
                    refine ⟨l₁, l₂, pair_sublist_getElem?.mpr ⟨i, j, hij, hai, haj⟩, ?_⟩
                    exact pair_sublist_getElem?.mpr
                      ⟨p₂, p₁, of_decide_eq_true h, hidx.mp hp₂, hidx.mp hp₁⟩
  · rintro ⟨l₁, l₂, ha, hb'⟩
    obtain ⟨i, j, hij, hi, hj⟩ := pair_sublist_getElem?.mp ha
    obtain ⟨p₂, p₁, hlt, hp₂, hp₁⟩ := pair_sublist_getElem?.mp hb'
    have hjlt : j < a.length := (List.getElem?_eq_some_iff.mp hj).1
    refine List.any_eq_true.mpr ⟨i, List.mem_range.mpr (hij.trans hjlt), ?_⟩
    refine List.any_eq_true.mpr ⟨j, List.mem_range'_1.mpr ⟨hij, by omega⟩, ?_⟩
    simp only [hi, hj, hidx.mpr hp₁, hidx.mpr hp₂]
    exact decide_eq_true hlt

section Paths

variable (p : Program) (m : Module) (f : Function) (locks : List String) (entry : Finset String)

/-- The locks acquired along a path in order, after those it is entered with, and the
locks held at its end. -/
def orderAlong (is : List ℕ) : List String × Finset String :=
  is.foldl (fun s i ↦ match f.body[i]? with
    | none => s
    | some stmt => (orderAfter p m locks stmt.op s.1 s.2, heldAfter p m locks stmt.op s.2))
    (orderStart entry).2

def acquiredAlong (is : List ℕ) : List String := (orderAlong p m f locks entry is).1

variable {p m f locks entry} {is js : List ℕ} {i j : ℕ} {stmt : Stmt}

@[simp] theorem acquiredAlong_nil :
    acquiredAlong p m f locks entry [] = entry.sort (· ≤ ·) := rfl

theorem orderAlong_concat (hi : f.body[i]? = some stmt) :
    orderAlong p m f locks entry (is ++ [i]) =
      (orderAfter p m locks stmt.op (orderAlong p m f locks entry is).1
        (orderAlong p m f locks entry is).2,
        heldAfter p m locks stmt.op (orderAlong p m f locks entry is).2) := by
  rw [orderAlong, List.foldl_append, List.foldl_cons, List.foldl_nil, hi]
  rfl

/-- There is no statement beyond the body. -/
theorem orderAlong_skip (hi : f.body[i]? = none) :
    orderAlong p m f locks entry (is ++ [i]) = orderAlong p m f locks entry is := by
  rw [orderAlong, List.foldl_append, List.foldl_cons, List.foldl_nil, hi]
  rfl

theorem orderAlong_held (is : List ℕ) :
    (orderAlong p m f locks entry is).2 = heldAlong p m f locks entry is := by
  induction is using List.reverseRecOn with
  | nil => rfl
  | append_singleton is i ih =>
      cases hi : f.body[i]? with
      | none =>
          rw [orderAlong_skip hi, heldAlong, List.foldl_append, List.foldl_cons, List.foldl_nil, hi]
          exact ih
      | some stmt => rw [orderAlong_concat hi, heldAlong_concat hi, ih]

theorem acquiredAlong_concat (hi : f.body[i]? = some stmt) :
    acquiredAlong p m f locks entry (is ++ [i]) =
      orderAfter p m locks stmt.op (acquiredAlong p m f locks entry is)
        (heldAlong p m f locks entry is) := by
  rw [acquiredAlong, orderAlong_concat hi, orderAlong_held]
  rfl

/-- What a path has acquired stays in the sequence. -/
theorem acquiredAlong_mono (is js : List ℕ) :
    acquiredAlong p m f locks entry is <+: acquiredAlong p m f locks entry (is ++ js) := by
  induction js using List.reverseRecOn with
  | nil => rw [List.append_nil]
  | append_singleton js i ih =>
      rw [← List.append_assoc]
      refine ih.trans ?_
      cases hi : f.body[i]? with
      | none =>
          rw [acquiredAlong, acquiredAlong, orderAlong_skip hi]
      | some stmt =>
          rw [acquiredAlong_concat hi, orderAfter]
          split
          · split_ifs
            · exact List.prefix_rfl
            · exact List.prefix_append _ _
          · exact List.prefix_rfl

/-- A lock that is held was acquired, or the path was entered with it. -/
theorem heldAlong_subset (is : List ℕ) :
    ∀ l ∈ heldAlong p m f locks entry is, l ∈ acquiredAlong p m f locks entry is := by
  induction is using List.reverseRecOn with
  | nil => exact fun l hl ↦ (Finset.mem_sort _).mpr hl
  | append_singleton is i ih =>
      intro l hl
      cases hi : f.body[i]? with
      | none =>
          rw [← orderAlong_held, orderAlong_skip hi, orderAlong_held] at hl
          rw [acquiredAlong, orderAlong_skip hi]
          exact ih l hl
      | some stmt =>
          rw [heldAlong_concat hi, heldAfter] at hl
          rw [acquiredAlong_concat hi, orderAfter]
          cases ht : lockTaken p m locks stmt.op with
          | some l' =>
              simp only [ht] at hl ⊢
              rcases Finset.mem_insert.mp hl with rfl | hl
              · split_ifs with hin
                · exact ih l hin
                · exact List.mem_append_right _ (List.mem_singleton_self l)
              · split_ifs
                · exact ih l hl
                · exact List.mem_append_left _ (ih l hl)
          | none =>
              simp only [ht] at hl
              split at hl
              · exact ih l (Finset.mem_of_mem_erase hl)
              · exact ih l hl

theorem next_of_isReturn (hi : f.body[i]? = some stmt) (hret : stmt.isReturn = true) :
    (buildCfg f).next i = [] := by
  have hsucc : f.successors i = [] := by
    rw [Stmt.isReturn] at hret
    cases hop : stmt.op with
    | ret _ => simp only [Function.successors, hi, Stmt.successors, hop]
    | _ => rw [hop] at hret; cases hret
  rw [next_buildCfg, hsucc]
  split_ifs <;> rfl

theorem body_of_next (hj : j ∈ (buildCfg f).next i) : ∃ stmt, f.body[i]? = some stmt := by
  by_cases hlt : i < f.body.length
  · exact ⟨_, List.getElem?_eq_getElem hlt⟩
  · rw [next_buildCfg, if_neg hlt] at hj
    exact absurd hj List.not_mem_nil

theorem mem_orderNext {s t : OrderState} : t ∈ orderNext p m f (buildCfg f) locks s ↔
    ∃ stmt, f.body[s.1]? = some stmt ∧ t.1 ∈ (buildCfg f).next s.1 ∧
      t.2 = (orderAfter p m locks stmt.op s.2.1 s.2.2, heldAfter p m locks stmt.op s.2.2) := by
  obtain ⟨j, t⟩ := t
  rw [orderNext]
  cases hi : f.body[s.1]? with
  | none => simp
  | some stmt =>
      simp only [Option.some.injEq, exists_eq_left']
      split_ifs with hret
      · simp [next_of_isReturn hi hret]
      · rw [List.mem_map]
        constructor
        · rintro ⟨k, hk, heq⟩
          obtain ⟨rfl, hpair⟩ := Prod.mk.inj heq
          exact ⟨hk, hpair.symm⟩
        · rintro ⟨hj, hpair⟩
          exact ⟨j, hj, Prod.ext rfl hpair.symm⟩

/-- The exploration reaches a statement with what some path to it has acquired and holds. -/
theorem order_reach_iff {s : OrderState} :
    Walk.Reach (orderNext p m f (buildCfg f) locks) (orderStart entry) s ↔
      ∃ is, (buildCfg f).Path is s.1 ∧ s.2 = orderAlong p m f locks entry is := by
  constructor
  · intro h
    induction h with
    | refl => exact ⟨[], .entry, rfl⟩
    | @tail a b _ hstep ih =>
        obtain ⟨stmt, hi, hj, hpair⟩ := mem_orderNext.mp hstep
        obtain ⟨is, hpath, hs⟩ := ih
        refine ⟨is ++ [a.1], hpath.step hj, ?_⟩
        rw [hpair, orderAlong_concat hi, hs]
  · obtain ⟨j, t⟩ := s
    rintro ⟨is, hpath, rfl⟩
    replace hpath : (buildCfg f).Path is j := hpath
    induction hpath with
    | entry => exact .refl
    | @step is i j hpath hj ih =>
        obtain ⟨stmt, hi⟩ := body_of_next hj
        exact ih.tail (mem_orderNext.mpr ⟨stmt, hi, hj, orderAlong_concat hi⟩)

end Paths

section Exploration

variable {p : Program} {m : Module} {f : Function} {locks : List String} {entry : Finset String}

variable (p m f locks entry) in
/-- What the paths reach, a statement with the sequence acquired and the locks held there,
has fewer edges than the exploration has rounds. -/
def WithinCap : Prop :=
  ∃ U : Finset OrderState,
    (∀ is i, (buildCfg f).Path is i → (i, orderAlong p m f locks entry is) ∈ U) ∧
      1 + ∑ s ∈ U, ((buildCfg f).next s.1).length ≤ f.body.length * 100

variable (p m f locks entry) in
def orderWalk : Walk OrderState (List String) :=
  Walk.run (orderNext p m f (buildCfg f) locks)
    (fun s ↦ (orderRecorded p m f (buildCfg f) locks s).toList) (f.body.length * 100)
      (.start (orderStart entry))

theorem inv_orderWalk : Walk.Inv (orderNext p m f (buildCfg f) locks)
    (fun s ↦ (orderRecorded p m f (buildCfg f) locks s).toList) (orderStart entry)
      (orderWalk p m f locks entry) :=
  (Walk.inv_start _ _ _).run _

theorem allOrders_eq : allOrders p m f (buildCfg f) locks entry =
    (orderWalk p m f locks entry).visited.reverse.filterMap
      (orderRecorded p m f (buildCfg f) locks) := by
  rw [List.filterMap_eq_flatMap_toList]
  exact inv_orderWalk.out

theorem stack_orderWalk (h : WithinCap p m f locks entry) :
    (orderWalk p m f locks entry).stack = [] := by
  classical
  obtain ⟨U, hU, hsize⟩ := h
  have hin : ∀ {s}, Walk.Reach (orderNext p m f (buildCfg f) locks) (orderStart entry) s →
      s ∈ U := by
    rintro ⟨i, t⟩ hs
    obtain ⟨is, hpath, rfl⟩ := order_reach_iff.mp hs
    exact hU is i hpath
  refine @Walk.stack_run_start _ _ _ _ _ _
    (U.filter (Walk.Reach (orderNext p m f (buildCfg f) locks) (orderStart entry))) ?_ ?_ _ ?_
  · intro s hs t ht
    have hreach := (Finset.mem_filter.mp hs).2.tail ht
    exact Finset.mem_filter.mpr ⟨hin hreach, hreach⟩
  · exact Finset.mem_filter.mpr ⟨hin .refl, .refl⟩
  · refine le_trans (Nat.add_le_add_left ?_ 1) hsize
    refine (Finset.sum_le_sum_of_subset (Finset.filter_subset _ _)).trans
      (Finset.sum_le_sum fun s _ ↦ ?_)
    rw [orderNext]
    split
    · exact Nat.zero_le _
    · split_ifs
      · exact Nat.zero_le _
      · exact (List.length_map _).le

/-- Within its rounds the exploration sees every path. -/
theorem mem_orderWalk (h : WithinCap p m f locks entry) {s : OrderState} :
    s ∈ (orderWalk p m f locks entry).visited ↔
      ∃ is, (buildCfg f).Path is s.1 ∧ s.2 = orderAlong p m f locks entry is :=
  (inv_orderWalk.mem_visited (stack_orderWalk h)).trans order_reach_iff

/-- What is recorded at the end of a path is the sequence it has acquired. -/
theorem orderRecorded_eq_some {is : List ℕ} {i : ℕ} {o : List String} (hbody : f.body ≠ [])
    (hpath : (buildCfg f).Path is i) :
    orderRecorded p m f (buildCfg f) locks (i, orderAlong p m f locks entry is) = some o ↔
      (buildCfg f).next i = [] ∧ o = acquiredAlong p m f locks entry (is ++ [i]) ∧
        2 ≤ o.length := by
  have hlt : i < f.body.length := by
    cases hpath with
    | entry => exact List.length_pos_iff.mpr hbody
    | step _ hj => exact next_lt hj
  have hi : f.body[i]? = some f.body[i] := List.getElem?_eq_getElem hlt
  have hend : (f.body[i].isReturn || ((buildCfg f).next i).isEmpty) =
      ((buildCfg f).next i).isEmpty := by
    cases hret : f.body[i].isReturn with
    | false => rfl
    | true => rw [next_of_isReturn hi hret]; rfl
  rw [orderRecorded, hi, acquiredAlong_concat hi, ← orderAlong_held]
  simp only [hend, Option.ite_none_right_eq_some, Bool.and_eq_true, List.isEmpty_iff,
    decide_eq_true_eq, Option.some.injEq]
  rw [acquiredAlong]
  constructor
  · rintro ⟨⟨hnext, hlen⟩, rfl⟩
    exact ⟨hnext, rfl, hlen⟩
  · rintro ⟨hnext, rfl, hlen⟩
    exact ⟨⟨hnext, hlen⟩, rfl⟩

theorem reports_ordering {fnPath : String} :
    Reports (checkLockOrdering p m f (buildCfg f) locks entry fnPath) "E505" ↔
      f.body ≠ [] ∧ ∃ a b, [a, b].Sublist (allOrders p m f (buildCfg f) locks entry) ∧
        hasOrderConflict a b = true := by
  rw [checkLockOrdering]
  split_ifs with hbody
  · refine iff_of_false ?_ fun h ↦ h.1 (List.length_eq_zero_iff.mp hbody)
    rintro ⟨d, hd, -⟩
    exact absurd hd List.not_mem_nil
  · constructor
    · rintro ⟨d, hd, -⟩
      obtain ⟨⟨a, b⟩, hab, -⟩ := List.mem_map.mp hd
      obtain ⟨hpair, hconf⟩ := List.mem_filter.mp (Worklist.firsts_subset _ hab)
      exact ⟨fun h ↦ hbody (List.length_eq_zero_iff.mpr h), a, b, mem_pairsOf.mp hpair, hconf⟩
    · rintro ⟨-, a, b, hpair, hconf⟩
      have hab : (a, b) ∈ (pairsOf (allOrders p m f (buildCfg f) locks entry)).filter
          fun ab ↦ hasOrderConflict ab.1 ab.2 :=
        List.mem_filter.mpr ⟨mem_pairsOf.mpr hpair, hconf⟩
      obtain ⟨ab', hin, -⟩ : ∃ ab' ∈ Worklist.firsts
          (fun ab : List String × List String ↦ (ab.1.toFinset, ab.2.toFinset)) _, _ :=
        Worklist.exists_mem_firsts hab
      exact ⟨_, List.mem_map_of_mem hin, rfl⟩

end Exploration

section Exact

variable (p : Program) (m : Module) (f : Function)

/-- Some path takes the second lock while it holds the first. -/
def Nested (l₁ l₂ : String) : Prop :=
  ∃ is i stmt, (buildCfg f).Path is i ∧ f.body[i]? = some stmt ∧
    lockTaken p m (lockResources p) stmt.op = some l₂ ∧
    l₂ ∉ heldAlong p m f (lockResources p) (entryHeld p m f) is ∧
    l₁ ∈ heldAlong p m f (lockResources p) (entryHeld p m f) is

def NestedBothWays : Prop := ∃ l₁ l₂, l₁ ≠ l₂ ∧ Nested p m f l₁ l₂ ∧ Nested p m f l₂ l₁

/-- What a path has acquired when it has executed the statement `i`. -/
def acquired (is : List ℕ) (i : ℕ) : List String :=
  acquiredAlong p m f (lockResources p) (entryHeld p m f) (is ++ [i])

/-- Some path acquires two locks in one order and some path in the other, whether or not
the first was given back in between. -/
def OppositeOrders : Prop :=
  ∃ is i js j l₁ l₂, (buildCfg f).Path is i ∧ (buildCfg f).Path js j ∧
    [l₁, l₂].Sublist (acquired p m f is i) ∧ [l₂, l₁].Sublist (acquired p m f js j)

/-- No path acquires a lock twice. -/
def AcquiresOnce : Prop := ∀ is i, (buildCfg f).Path is i → (acquired p m f is i).Nodup

/-- Every path can be continued to a statement without successors. -/
def ReachesEnd : Prop :=
  ∀ is i, (buildCfg f).Path is i → ∃ js k, (buildCfg f).Path js k ∧
    is ++ [i] <+: js ++ [k] ∧ (buildCfg f).next k = []

def ordering (fnPath : String) : List Diagnostic :=
  checkLockOrdering p m f (buildCfg f) (lockResources p) (entryHeld p m f) fnPath

variable {p m f}

theorem NestedBothWays.oppositeOrders (h : NestedBothWays p m f) : OppositeOrders p m f := by
  have hpair : ∀ {l₁ l₂}, Nested p m f l₁ l₂ → ∃ is i, (buildCfg f).Path is i ∧
      [l₁, l₂].Sublist (acquired p m f is i) := by
    rintro l₁ l₂ ⟨is, i, stmt, hpath, hi, ht, hnot, hin⟩
    refine ⟨is, i, hpath, ?_⟩
    rw [acquired, acquiredAlong_concat hi, orderAfter, ht]
    simp only [if_neg hnot]
    exact (List.singleton_sublist.mpr (heldAlong_subset is l₁ hin)).append (List.Sublist.refl [l₂])
  obtain ⟨l₁, l₂, -, h₁, h₂⟩ := h
  obtain ⟨is, i, his, hs₁⟩ := hpair h₁
  obtain ⟨js, j, hjs, hs₂⟩ := hpair h₂
  exact ⟨is, i, js, j, l₁, l₂, his, hjs, hs₁, hs₂⟩

/-- What the check reports, when it gets to see every path to its end. -/
theorem reports_iff_oppositeOrders (honce : AcquiresOnce p m f) (hend : ReachesEnd f)
    (hcap : WithinCap p m f (lockResources p) (entryHeld p m f)) (fnPath : String) :
    Reports (ordering p m f fnPath) "E505" ↔ OppositeOrders p m f := by
  rw [ordering, reports_ordering, allOrders_eq]
  constructor
  · rintro ⟨hbody, a, b, hab, hconf⟩
    obtain ⟨s, t, hst, hs, ht⟩ := pair_sublist_filterMap.mp hab
    obtain ⟨is, his, hsp⟩ := (mem_orderWalk hcap).mp
      (List.mem_reverse.mp (hst.subset List.mem_cons_self))
    obtain ⟨js, hjs, htp⟩ := (mem_orderWalk hcap).mp
      (List.mem_reverse.mp (hst.subset (List.mem_cons_of_mem s List.mem_cons_self)))
    obtain ⟨i, s⟩ := s
    obtain ⟨j, t⟩ := t
    obtain rfl : s = _ := hsp
    obtain rfl : t = _ := htp
    obtain ⟨-, rfl, -⟩ := (orderRecorded_eq_some hbody his).mp hs
    obtain ⟨-, rfl, -⟩ := (orderRecorded_eq_some hbody hjs).mp ht
    obtain ⟨l₁, l₂, h₁, h₂⟩ := (hasOrderConflict_iff (honce js j hjs)).mp hconf
    exact ⟨is, i, js, j, l₁, l₂, his, hjs, h₁, h₂⟩
  · rintro ⟨is, i, js, j, l₁, l₂, his, hjs, h₁, h₂⟩
    have hbody : f.body ≠ [] := by
      intro hnil
      have hone : ∀ {ks k}, (buildCfg f).Path ks k → ks = [] ∧ k = 0 := by
        intro ks k hpath
        cases hpath with
        | entry => exact ⟨rfl, rfl⟩
        | step _ hj => exact absurd (next_lt hj) (by simp [hnil])
      obtain ⟨rfl, rfl⟩ := hone his
      obtain ⟨rfl, rfl⟩ := hone hjs
      exact not_pair_sublist_swap (honce _ _ his) h₁ h₂
    -- every path is recorded at the end it can be continued to
    have hrecorded : ∀ {is i l₁ l₂}, (buildCfg f).Path is i →
        [l₁, l₂].Sublist (acquired p m f is i) →
        ∃ s o, s ∈ (orderWalk p m f (lockResources p) (entryHeld p m f)).visited ∧
          orderRecorded p m f (buildCfg f) (lockResources p) s = some o ∧ o.Nodup ∧
            [l₁, l₂].Sublist o := by
      intro is i l₁ l₂ hpath hsub
      obtain ⟨ks, k, hk, ⟨rest, hrest⟩, hnext⟩ := hend is i hpath
      have hsub' : [l₁, l₂].Sublist (acquired p m f ks k) := by
        rw [acquired, ← hrest]
        exact hsub.trans (acquiredAlong_mono _ rest).sublist
      exact ⟨_, _, (mem_orderWalk hcap).mpr ⟨ks, hk, rfl⟩,
        (orderRecorded_eq_some hbody hk).mpr ⟨hnext, rfl, hsub'.length_le⟩, honce ks k hk, hsub'⟩
    obtain ⟨s, a, hs, hsa, ha, hsub₁⟩ := hrecorded his h₁
    obtain ⟨t, b, ht, htb, hb, hsub₂⟩ := hrecorded hjs h₂
    have hne : s ≠ t := by
      rintro rfl
      obtain rfl := Option.some.inj (hsa.symm.trans htb)
      exact not_pair_sublist_swap ha hsub₁ hsub₂
    refine ⟨hbody, ?_⟩
    rcases pair_sublist_or (List.mem_reverse.mpr hs) (List.mem_reverse.mpr ht) hne with hst | hts
    · exact ⟨a, b, pair_sublist_filterMap.mpr ⟨s, t, hst, hsa, htb⟩,
        (hasOrderConflict_iff hb).mpr ⟨l₁, l₂, hsub₁, hsub₂⟩⟩
    · exact ⟨b, a, pair_sublist_filterMap.mpr ⟨t, s, hts, htb, hsa⟩,
        (hasOrderConflict_iff ha).mpr ⟨l₂, l₁, hsub₂, hsub₁⟩⟩

variable (p m f) in
/-- A path acquires a lock only while it holds everything it has acquired. -/
def KeepsLocks : Prop :=
  ∀ is i stmt l, (buildCfg f).Path is i → f.body[i]? = some stmt →
    lockTaken p m (lockResources p) stmt.op = some l →
    l ∉ heldAlong p m f (lockResources p) (entryHeld p m f) is →
      ∀ l' ∈ acquiredAlong p m f (lockResources p) (entryHeld p m f) is,
        l' ∈ heldAlong p m f (lockResources p) (entryHeld p m f) is

theorem KeepsLocks.nodup (h : KeepsLocks p m f) {is : List ℕ} {i : ℕ}
    (hpath : (buildCfg f).Path is i) :
    (acquiredAlong p m f (lockResources p) (entryHeld p m f) is).Nodup ∧
      (acquired p m f is i).Nodup := by
  have hstep : ∀ {is i}, (buildCfg f).Path is i →
      (acquiredAlong p m f (lockResources p) (entryHeld p m f) is).Nodup →
        (acquired p m f is i).Nodup := by
    intro is i hpath hnodup
    cases hi : f.body[i]? with
    | none =>
        rw [acquired, acquiredAlong, orderAlong_skip hi]
        exact hnodup
    | some stmt =>
        rw [acquired, acquiredAlong_concat hi, orderAfter]
        cases ht : lockTaken p m (lockResources p) stmt.op with
        | none => exact hnodup
        | some l =>
            simp only
            split_ifs with hin
            · exact hnodup
            · refine List.Nodup.append hnodup (List.nodup_singleton l) ?_
              rw [List.disjoint_singleton]
              exact fun hl ↦ hin (h is i stmt l hpath hi ht hin l hl)
  induction hpath with
  | entry =>
      have hentry : (acquiredAlong p m f (lockResources p) (entryHeld p m f) []).Nodup := by
        rw [acquiredAlong_nil]
        exact Finset.sort_nodup _ _
      exact ⟨hentry, hstep .entry hentry⟩
  | step hpath hj ih => exact ⟨ih.2, hstep (hpath.step hj) ih.2⟩

/-- The later of two locks of a sequence was taken when the earlier was in it, unless the
path was entered with both. -/
theorem pair_acquired {l₁ l₂ : String} {is : List ℕ} {i : ℕ} (hpath : (buildCfg f).Path is i)
    (h : [l₁, l₂].Sublist (acquired p m f is i)) :
    [l₁, l₂].Sublist ((entryHeld p m f).sort (· ≤ ·)) ∨
      ∃ js j stmt, (buildCfg f).Path js j ∧ f.body[j]? = some stmt ∧
        lockTaken p m (lockResources p) stmt.op = some l₂ ∧
        l₂ ∉ heldAlong p m f (lockResources p) (entryHeld p m f) js ∧
        l₁ ∈ acquiredAlong p m f (lockResources p) (entryHeld p m f) js := by
  have hstep : ∀ {is i}, (buildCfg f).Path is i → [l₁, l₂].Sublist (acquired p m f is i) →
      [l₁, l₂].Sublist (acquiredAlong p m f (lockResources p) (entryHeld p m f) is) ∨
        ∃ js j stmt, (buildCfg f).Path js j ∧ f.body[j]? = some stmt ∧
          lockTaken p m (lockResources p) stmt.op = some l₂ ∧
          l₂ ∉ heldAlong p m f (lockResources p) (entryHeld p m f) js ∧
          l₁ ∈ acquiredAlong p m f (lockResources p) (entryHeld p m f) js := by
    intro is i hpath h
    cases hi : f.body[i]? with
    | none =>
        rw [acquired, acquiredAlong, orderAlong_skip hi] at h
        exact .inl h
    | some stmt =>
        rw [acquired, acquiredAlong_concat hi, orderAfter] at h
        cases ht : lockTaken p m (lockResources p) stmt.op with
        | none =>
            rw [ht] at h
            exact .inl h
        | some l =>
            simp only [ht] at h
            split_ifs at h with hin
            · exact .inl h
            · rcases pair_sublist_concat.mp h with hsub | ⟨rfl, hmem⟩
              · exact .inl hsub
              · exact .inr ⟨is, i, stmt, hpath, hi, ht, hin, hmem⟩
  induction hpath with
  | entry => exact hstep .entry h
  | step hpath hj ih =>
      rcases hstep (hpath.step hj) h with h | h
      · exact ih h
      · exact .inr h

theorem KeepsLocks.nestedBothWays (h : KeepsLocks p m f) (hopp : OppositeOrders p m f) :
    NestedBothWays p m f := by
  obtain ⟨is, i, js, j, l₁, l₂, his, hjs, h₁, h₂⟩ := hopp
  have hne : l₁ ≠ l₂ := by
    rintro rfl
    have hdup := List.Nodup.sublist h₁ (h.nodup his).2
    exact absurd List.mem_cons_self (List.nodup_cons.mp hdup).1
  -- a lock of the entry is in every sequence, so it is never taken anew
  have hentry : ∀ {k₁ k₂}, [k₁, k₂].Sublist ((entryHeld p m f).sort (· ≤ ·)) →
      ¬∃ ks k stmt, (buildCfg f).Path ks k ∧ f.body[k]? = some stmt ∧
        lockTaken p m (lockResources p) stmt.op = some k₁ ∧
        k₁ ∉ heldAlong p m f (lockResources p) (entryHeld p m f) ks ∧
        k₂ ∈ acquiredAlong p m f (lockResources p) (entryHeld p m f) ks := by
    rintro k₁ k₂ hsub ⟨ks, k, stmt, hk, hbody, ht, hnot, -⟩
    have hpre : acquiredAlong p m f (lockResources p) (entryHeld p m f) [] <+:
        acquiredAlong p m f (lockResources p) (entryHeld p m f) ks := acquiredAlong_mono [] ks
    have hin := hpre.subset (hsub.subset List.mem_cons_self)
    exact hnot (h ks k stmt k₁ hk hbody ht hnot k₁ hin)
  rcases pair_acquired his h₁ with he₁ | hn₁
  · rcases pair_acquired hjs h₂ with he₂ | hn₂
    · exact absurd he₂ (not_pair_sublist_swap (Finset.sort_nodup _ _) he₁)
    · exact absurd hn₂ (hentry he₁)
  · rcases pair_acquired hjs h₂ with he₂ | hn₂
    · exact absurd hn₁ (hentry he₂)
    · obtain ⟨ks, k, stmt, hk, hbody, ht, hnot, hin⟩ := hn₁
      obtain ⟨ks', k', stmt', hk', hbody', ht', hnot', hin'⟩ := hn₂
      exact ⟨l₁, l₂, hne,
        ⟨ks, k, stmt, hk, hbody, ht, hnot, h ks k stmt l₂ hk hbody ht hnot l₁ hin⟩,
        ⟨ks', k', stmt', hk', hbody', ht', hnot', h ks' k' stmt' l₁ hk' hbody' ht' hnot' l₂ hin'⟩⟩

/-- In particular it is right where every path takes its locks before it gives one back. -/
theorem KeepsLocks.reports_iff (h : KeepsLocks p m f) (hend : ReachesEnd f)
    (hcap : WithinCap p m f (lockResources p) (entryHeld p m f)) (fnPath : String) :
    Reports (ordering p m f fnPath) "E505" ↔ NestedBothWays p m f :=
  (reports_iff_oppositeOrders (fun _ _ hpath ↦ (h.nodup hpath).2) hend hcap fnPath).trans
    ⟨h.nestedBothWays, NestedBothWays.oppositeOrders⟩

end Exact

section Turns

/-- A function that takes two mutexes one after the other, never both at once, in one
order on one branch and in the other on the other branch. -/
def turnsMain : Function where
  name := "main"
  kind := "normal"
  form := "function"
  params := []
  returns := none
  locals := []
  body :=
    [⟨"s0", .branch "c" "s1" "s6"⟩,
      ⟨"s1", .mutexLock "a"⟩, ⟨"s2", .mutexUnlock "a"⟩,
      ⟨"s3", .mutexLock "b"⟩, ⟨"s4", .mutexUnlock "b"⟩, ⟨"s5", .ret none⟩,
      ⟨"s6", .mutexLock "b"⟩, ⟨"s7", .mutexUnlock "b"⟩,
      ⟨"s8", .mutexLock "a"⟩, ⟨"s9", .mutexUnlock "a"⟩, ⟨"s10", .ret none⟩]
  effects := none
  mayBlock := none
  locks := ⟨[], [], []⟩
  bound := none

def turnsModule : Module where
  name := "m"
  provides := ⟨[], [], []⟩
  requires := ⟨[], [], []⟩
  types := []
  resources :=
    [⟨"a", "sync", "Mutex", some "Sync", none, none, none, none⟩,
      ⟨"b", "sync", "Mutex", some "Sync", none, none, none, none⟩,
      ⟨"c", "var", "Var", none, none, some (.primitive "Bool"), none, none⟩]
  protection := []
  functions := [turnsMain]

def turns : Program := ⟨"turns", "1", [turnsModule], "m::main"⟩

/-- The paths of the function. -/
def turnsPaths : List (List ℕ × ℕ) :=
  [([], 0), ([0], 1), ([0, 1], 2), ([0, 1, 2], 3), ([0, 1, 2, 3], 4), ([0, 1, 2, 3, 4], 5),
    ([0], 6), ([0, 6], 7), ([0, 6, 7], 8), ([0, 6, 7, 8], 9), ([0, 6, 7, 8, 9], 10)]

theorem mem_turnsPaths {is : List ℕ} {i : ℕ} :
    (buildCfg turnsMain).Path is i ↔ (is, i) ∈ turnsPaths := by
  have hclosed : ∀ q ∈ turnsPaths, ∀ j ∈ (buildCfg turnsMain).next q.2,
      (q.1 ++ [q.2], j) ∈ turnsPaths := by decide +kernel
  have hback : ∀ q ∈ turnsPaths, q = ([], 0) ∨ ∃ r ∈ turnsPaths, r.1.length < q.1.length ∧
      q.2 ∈ (buildCfg turnsMain).next r.2 ∧ q.1 = r.1 ++ [r.2] := by decide +kernel
  constructor
  · intro h
    induction h with
    | entry => exact List.mem_cons_self
    | step _ hj ih => exact hclosed _ ih _ hj
  · intro h
    generalize hn : is.length = n
    induction n using Nat.strong_induction_on generalizing is i with
    | _ n ih =>
        rcases hback _ h with heq | ⟨⟨js, j⟩, hr, hlt, hnext, heq⟩
        · obtain ⟨rfl, rfl⟩ := Prod.mk.inj heq
          exact .entry
        · obtain rfl : is = js ++ [j] := heq
          exact (ih js.length (hn ▸ hlt) hr rfl).step hnext

end Turns

end ConcIR.Validate
