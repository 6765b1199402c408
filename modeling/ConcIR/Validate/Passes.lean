import Mathlib

/-!
# Passes over a list until nothing changes

A set grows by passes over a list. A pass visits each item once, with the set as the items
before it have left it; an item adds its own element if the set enables it. After a pass
that has added something there is another one. The passes come to an end, and the set they
end with is the least one that contains the first set and the element of every item that it
enables.
-/

namespace ConcIR.Validate

namespace Passes

variable {α ι : Type*} [DecidableEq α]

section Definitions

variable (enabled : Finset α → ι → Bool) (element : ι → α)

/-- The set and whether this pass has changed it. -/
def visit (acc : Finset α × Bool) (x : ι) : Finset α × Bool :=
  if element x ∈ acc.1 then acc
  else if enabled acc.1 x then (insert (element x) acc.1, true)
  else acc

def pass (xs : List ι) (s : Finset α) : Finset α × Bool :=
  xs.foldl (visit enabled element) (s, false)

/-- At most `n` passes. -/
def run (xs : List ι) : ℕ → Finset α → Finset α
  | 0, s => s
  | n + 1, s =>
      let r := pass enabled element xs s
      if r.2 then run xs n r.1 else r.1

/-- The set contains the element of every item that it enables. -/
def Closed (xs : List ι) (s : Finset α) : Prop :=
  ∀ x ∈ xs, enabled s x = true → element x ∈ s

end Definitions

variable {enabled : Finset α → ι → Bool} {element : ι → α} {xs : List ι} {s : Finset α}

/-- What every visit keeps, a pass keeps. -/
theorem foldl_visit_induction {P : Finset α → Prop} (xs : List ι) (acc : Finset α × Bool)
    (h : P acc.1)
    (hstep : ∀ s, ∀ x ∈ xs, P s → enabled s x = true → P (insert (element x) s)) :
    P (xs.foldl (visit enabled element) acc).1 := by
  induction xs generalizing acc with
  | nil => exact h
  | cons x xs ih =>
      refine ih _ ?_ fun s y hy ↦ hstep s y (List.mem_cons_of_mem x hy)
      rw [visit]
      split_ifs with hin hen
      · exact h
      · exact hstep acc.1 x List.mem_cons_self h hen
      · exact h

theorem subset_foldl_visit (xs : List ι) (acc : Finset α × Bool) :
    acc.1 ⊆ (xs.foldl (visit enabled element) acc).1 :=
  foldl_visit_induction (P := (acc.1 ⊆ ·)) xs acc subset_rfl fun _ _ _ h _ ↦
    h.trans (Finset.subset_insert _ _)

/-- The flag goes up with the first addition and stays up. -/
theorem foldl_visit_flag (xs : List ι) (acc : Finset α × Bool)
    (h : (xs.foldl (visit enabled element) acc).2 = false) :
    acc.2 = false ∧ (xs.foldl (visit enabled element) acc).1 = acc.1 ∧
      Closed enabled element xs acc.1 := by
  induction xs generalizing acc with
  | nil => exact ⟨h, rfl, fun x hx ↦ absurd hx List.not_mem_nil⟩
  | cons x xs ih =>
      obtain ⟨hflag, heq, hclosed⟩ := ih (visit enabled element acc x) h
      rw [List.foldl_cons, heq]
      by_cases hin : element x ∈ acc.1
      · have hsame : visit enabled element acc x = acc := if_pos hin
        rw [hsame] at hflag hclosed ⊢
        exact ⟨hflag, rfl, List.forall_mem_cons.mpr ⟨fun _ ↦ hin, hclosed⟩⟩
      · by_cases hen : enabled acc.1 x = true
        · rw [visit, if_neg hin, if_pos hen] at hflag
          cases hflag
        · have hsame : visit enabled element acc x = acc := by
            rw [visit, if_neg hin, if_neg hen]
          rw [hsame] at hflag hclosed ⊢
          exact ⟨hflag, rfl, List.forall_mem_cons.mpr ⟨fun h ↦ absurd h hen, hclosed⟩⟩

/-- An addition makes the set larger. -/
theorem foldl_visit_card (xs : List ι) (acc : Finset α × Bool) (hflag : acc.2 = false)
    (h : (xs.foldl (visit enabled element) acc).2 = true) :
    acc.1.card < (xs.foldl (visit enabled element) acc).1.card := by
  induction xs generalizing acc with
  | nil =>
      rw [List.foldl_nil, hflag] at h
      cases h
  | cons x xs ih =>
      rw [List.foldl_cons] at h ⊢
      by_cases hin : element x ∈ acc.1
      · have hsame : visit enabled element acc x = acc := if_pos hin
        rw [hsame] at h ⊢
        exact ih acc hflag h
      · by_cases hen : enabled acc.1 x = true
        · have hnew : visit enabled element acc x = (insert (element x) acc.1, true) := by
            rw [visit, if_neg hin, if_pos hen]
          calc acc.1.card < (insert (element x) acc.1).card := by
                rw [Finset.card_insert_of_notMem hin]
                exact Nat.lt_succ_self _
            _ ≤ _ := by
                rw [hnew]
                exact Finset.card_le_card (subset_foldl_visit xs (insert (element x) acc.1, true))
        · have hsame : visit enabled element acc x = acc := by
            rw [visit, if_neg hin, if_neg hen]
          rw [hsame] at h ⊢
          exact ih acc hflag h

theorem run_induction {P : Finset α → Prop} (n : ℕ) (h : P s)
    (hstep : ∀ s, ∀ x ∈ xs, P s → enabled s x = true → P (insert (element x) s)) :
    P (run enabled element xs n s) := by
  induction n generalizing s with
  | zero => exact h
  | succ n ih =>
      have hpass : P (pass enabled element xs s).1 := foldl_visit_induction xs _ h hstep
      rw [run]
      split_ifs
      · exact ih hpass
      · exact hpass

theorem subset_run (n : ℕ) : s ⊆ run enabled element xs n s :=
  run_induction (P := (s ⊆ ·)) n subset_rfl fun _ _ _ h _ ↦ h.trans (Finset.subset_insert _ _)

theorem pass_of_closed (h : (pass enabled element xs s).2 = false) :
    pass enabled element xs s = (s, false) :=
  Prod.ext (foldl_visit_flag xs (s, false) h).2.1 h

/-- The passes end by themselves before they run out: the set can grow as often as there
are elements outside it. -/
theorem pass_run {U : Finset α} (hU : ∀ x ∈ xs, element x ∈ U) (n : ℕ) (hs : s ⊆ U)
    (hn : U.card < s.card + n) :
    pass enabled element xs (run enabled element xs n s) =
      (run enabled element xs n s, false) := by
  induction n generalizing s with
  | zero => exact absurd (Finset.card_le_card hs) (Nat.not_le.mpr hn)
  | succ n ih =>
      rw [run]
      cases hflag : (pass enabled element xs s).2 with
      | false =>
          have heq := pass_of_closed hflag
          rw [heq]
          exact heq
      | true =>
          have hsub : (pass enabled element xs s).1 ⊆ U :=
            foldl_visit_induction (P := (· ⊆ U)) xs _ hs fun t x hx ht _ ↦
              Finset.insert_subset (hU x hx) ht
          have hcard : s.card < (pass enabled element xs s).1.card :=
            foldl_visit_card xs (s, false) rfl hflag
          exact ih hsub (by omega)

/-- Passes after the last one change nothing. -/
theorem run_of_pass {n k : ℕ}
    (h : pass enabled element xs (run enabled element xs n s) =
      (run enabled element xs n s, false)) :
    run enabled element xs (n + k) s = run enabled element xs n s := by
  induction n generalizing s with
  | zero =>
      have hs : pass enabled element xs s = (s, false) := h
      cases k with
      | zero => rfl
      | succ k =>
          rw [Nat.zero_add, run, run, hs]
          rfl
  | succ n ih =>
      rw [Nat.succ_add, run, run]
      cases hflag : (pass enabled element xs s).2 with
      | false => rfl
      | true =>
          rw [run, hflag] at h
          exact ih h

theorem closed_of_pass (h : pass enabled element xs s = (s, false)) :
    Closed enabled element xs s :=
  (foldl_visit_flag xs (s, false) (congrArg Prod.snd h)).2.2

end Passes

end ConcIR.Validate
