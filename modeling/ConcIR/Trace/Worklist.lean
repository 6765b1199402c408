import Mathlib

/-!
# Worklists with keys

A search that expands what it has found in the order it was found, keeps the first
element of every key, and stops expanding once it has seen more keys than a limit.
Two rules describe it: what it finds is reached from where it started, and if the
limit was not passed then every successor of an element found shares its key with
an element found.
-/

structure Worklist (α K : Type*) where
  found : List α
  visited : List K

namespace Worklist

variable {α K : Type*}

section Definitions

variable [DecidableEq K] (key : α → K) (next : α → List α) (limit : ℕ)

/-- Append `a` unless its key has been seen. -/
def push (w : Worklist α K) (a : α) : Worklist α K :=
  if key a ∈ w.visited then w else ⟨w.found ++ [a], key a :: w.visited⟩

def expandFrom : ℕ → ℕ → Worklist α K → Worklist α K
  | 0, _, w => w
  | fuel + 1, i, w =>
      match w.found[i]? with
      | none => w
      | some a =>
          if limit < w.visited.length then w
          else expandFrom fuel (i + 1) ((next a).foldl (push key) w)

def start (as : List α) : Worklist α K := ⟨as, (as.map key).dedup⟩

/-- Every round looks at one more element, and there are at most as many elements as
there were at the start and keys since, so the rounds given here are never used up. -/
def expand (as : List α) : Worklist α K :=
  expandFrom key next limit (limit + 1 + as.length) 0 (start key as)

/-- The first element of every key. -/
def firsts (as : List α) : List α := (as.foldl (push key) ⟨[], []⟩).found

end Definitions

/-- How a worklist grows. -/
structure Grows (P : α → Prop) (w w' : Worklist α K) : Prop where
  found : ∃ as, w'.found = w.found ++ as ∧ ∀ a ∈ as, P a
  visited : w.visited ⊆ w'.visited
  size : w'.found.length + w.visited.length = w.found.length + w'.visited.length

namespace Grows

variable {P Q : α → Prop} {w w₁ w₂ : Worklist α K}

theorem refl (P : α → Prop) (w : Worklist α K) : Grows P w w :=
  ⟨⟨[], by simp, by simp⟩, List.Subset.refl _, rfl⟩

theorem trans (h : Grows P w w₁) (h' : Grows P w₁ w₂) : Grows P w w₂ := by
  obtain ⟨as, has, hP⟩ := h.found
  obtain ⟨bs, hbs, hP'⟩ := h'.found
  refine ⟨⟨as ++ bs, by rw [hbs, has, List.append_assoc], ?_⟩, List.Subset.trans h.visited h'.visited, ?_⟩
  · intro a ha
    rcases List.mem_append.mp ha with ha | ha
    · exact hP a ha
    · exact hP' a ha
  · have h₁ := h.size
    have h₂ := h'.size
    omega

theorem mono (h : Grows P w w₁) (hPQ : ∀ a, P a → Q a) : Grows Q w w₁ := by
  obtain ⟨as, has, hP⟩ := h.found
  exact ⟨⟨as, has, fun a ha ↦ hPQ a (hP a ha)⟩, h.visited, h.size⟩

theorem getElem? (h : Grows P w w₁) {i : ℕ} (hi : i < w.found.length) :
    w₁.found[i]? = w.found[i]? := by
  obtain ⟨as, has, -⟩ := h.found
  rw [has, List.getElem?_append_left hi]

theorem subset (h : Grows P w w₁) : w.found ⊆ w₁.found := by
  obtain ⟨as, has, -⟩ := h.found
  rw [has]
  exact List.subset_append_left _ _

theorem length_le (h : Grows P w w₁) : w.found.length ≤ w₁.found.length := by
  obtain ⟨as, has, -⟩ := h.found
  rw [has, List.length_append]
  omega

end Grows

section Rules

variable {key : α → K} {next : α → List α} {limit : ℕ}

/-- Every key seen is the key of an element found. -/
def Keyed (key : α → K) (w : Worklist α K) : Prop :=
  ∀ k ∈ w.visited, ∃ a ∈ w.found, key a = k

/-- Nothing found is left unexpanded. -/
def Closed (key : α → K) (next : α → List α) (w : Worklist α K) : Prop :=
  ∀ a ∈ w.found, ∀ b ∈ next a, ∃ c ∈ w.found, key c = key b

/-- The invariant of the rounds: the first `i` elements have had their turn. -/
structure Inv (key : α → K) (next : α → List α) (as : List α) (i : ℕ) (w : Worklist α K) :
    Prop where
  le : i ≤ w.found.length
  size : w.found.length ≤ as.length + w.visited.length
  keyed : Keyed key w
  start : as ⊆ w.found
  done : ∀ j < i, ∀ a, w.found[j]? = some a → ∀ b ∈ next a, key b ∈ w.visited

theorem Inv.closed {as : List α} {i : ℕ} {w : Worklist α K} (h : Inv key next as i w)
    (hi : w.found.length ≤ i) : Closed key next w := by
  intro a ha b hb
  obtain ⟨j, hj⟩ := List.getElem?_of_mem ha
  have hlt : j < w.found.length := (List.getElem?_eq_some_iff.mp hj).1
  exact h.keyed _ (h.done j (hlt.trans_le hi) a hj b hb)

variable [DecidableEq K]

theorem grows_push (w : Worklist α K) (a : α) : Grows (· = a) w (push key w a) := by
  rw [push]
  split_ifs with h
  · exact .refl _ w
  · exact ⟨⟨[a], rfl, fun b hb ↦ List.mem_singleton.mp hb⟩, List.subset_cons_self _ _, by
      simp only [List.length_append, List.length_cons, List.length_nil]
      omega⟩

theorem key_mem_push (w : Worklist α K) (a : α) : key a ∈ (push key w a).visited := by
  rw [push]
  split_ifs with h
  · exact h
  · exact List.mem_cons_self

theorem grows_foldl (key : α → K) (bs : List α) (w : Worklist α K) :
    Grows (· ∈ bs) w (bs.foldl (push key) w) := by
  induction bs generalizing w with
  | nil => exact .refl _ w
  | cons b bs ih =>
      have hb : Grows (· ∈ b :: bs) w (push key w b) :=
        (grows_push w b).mono fun a ha ↦ ha ▸ List.mem_cons_self
      exact hb.trans ((ih (push key w b)).mono fun a ha ↦ List.mem_cons_of_mem b ha)

theorem key_mem_foldl {bs : List α} (w : Worklist α K) {b : α} (hb : b ∈ bs) :
    key b ∈ (bs.foldl (push key) w).visited := by
  induction bs generalizing w with
  | nil => exact absurd hb List.not_mem_nil
  | cons c bs ih =>
      rcases List.mem_cons.mp hb with rfl | hb
      · exact (grows_foldl key bs _).visited (key_mem_push w b)
      · exact ih (push key w c) hb

theorem Keyed.push {w : Worklist α K} (h : Keyed key w) (a : α) : Keyed key (push key w a) := by
  rw [Worklist.push]
  split_ifs with ha
  · exact h
  · intro k hk
    rcases List.mem_cons.mp hk with rfl | hk
    · exact ⟨a, List.mem_append_right _ List.mem_cons_self, rfl⟩
    · obtain ⟨b, hb, rfl⟩ := h k hk
      exact ⟨b, List.mem_append_left _ hb, rfl⟩

theorem Keyed.foldl {w : Worklist α K} (h : Keyed key w) (bs : List α) :
    Keyed key (bs.foldl (Worklist.push key) w) := by
  induction bs generalizing w with
  | nil => exact h
  | cons b bs ih => exact ih (h.push b)

theorem keyed_start (as : List α) : Keyed key (start key as) := by
  intro k hk
  obtain ⟨a, ha, rfl⟩ := List.mem_map.mp (List.mem_dedup.mp hk)
  exact ⟨a, ha, rfl⟩

section Soundness

variable {P : α → Prop}

theorem forall_expandFrom (hstep : ∀ a, P a → ∀ b ∈ next a, P b) (fuel i : ℕ)
    {w : Worklist α K} (h : ∀ a ∈ w.found, P a) :
    ∀ a ∈ (expandFrom key next limit fuel i w).found, P a := by
  induction fuel generalizing i w with
  | zero => exact h
  | succ fuel ih =>
      rw [expandFrom]
      split
      case _ => exact h
      case _ a ha =>
        split_ifs
        · exact h
        · refine ih (i + 1) ?_
          obtain ⟨bs, hbs, hin⟩ := (grows_foldl key (next a) w).found
          intro b hb
          rw [hbs] at hb
          rcases List.mem_append.mp hb with hb | hb
          · exact h b hb
          · exact hstep a (h a (List.mem_of_getElem? ha)) b (hin b hb)

/-- The soundness rule: what holds at the start and of every successor holds of
everything found. -/
theorem forall_expand {as : List α} (h : ∀ a ∈ as, P a)
    (hstep : ∀ a, P a → ∀ b ∈ next a, P b) : ∀ a ∈ (expand key next limit as).found, P a :=
  forall_expandFrom hstep _ 0 h

end Soundness

theorem inv_start (as : List α) : Inv key next as 0 (start key as) where
  le := Nat.zero_le _
  size := Nat.le_add_right _ _
  keyed := keyed_start as
  start := List.Subset.refl _
  done j hj := absurd hj (Nat.not_lt_zero j)

theorem Inv.round {as : List α} {i : ℕ} {w : Worklist α K} (h : Inv key next as i w) {a : α}
    (ha : w.found[i]? = some a) : Inv key next as (i + 1) ((next a).foldl (push key) w) := by
  have hg := grows_foldl key (next a) w
  have hi : i < w.found.length := (List.getElem?_eq_some_iff.mp ha).1
  refine ⟨hi.trans_le hg.length_le, ?_, h.keyed.foldl _, List.Subset.trans h.start hg.subset, ?_⟩
  · have h₁ := h.size
    have h₂ := hg.size
    omega
  · intro j hj b hb c hc
    rcases Nat.lt_succ_iff_lt_or_eq.mp hj with hj | rfl
    · rw [hg.getElem? (hj.trans_le h.le)] at hb
      exact hg.visited (h.done j hj b hb c hc)
    · rw [hg.getElem? hi, ha] at hb
      obtain rfl := Option.some.inj hb
      exact key_mem_foldl w hc

theorem Inv.expandFrom {as : List α} {fuel i : ℕ} {w : Worklist α K}
    (h : Inv key next as i w) (hfuel : as.length + limit + 1 ≤ fuel + i)
    (hlim : (expandFrom key next limit fuel i w).visited.length ≤ limit) :
    as ⊆ (expandFrom key next limit fuel i w).found ∧
      Closed key next (expandFrom key next limit fuel i w) := by
  induction fuel generalizing i w with
  | zero =>
      have hle := h.le
      have hsize := h.size
      rw [Worklist.expandFrom] at hlim
      omega
  | succ fuel ih =>
      rw [Worklist.expandFrom] at hlim ⊢
      split at hlim
      case _ hnone => exact ⟨h.start, h.closed (List.getElem?_eq_none_iff.mp hnone)⟩
      case _ a ha =>
        split_ifs at hlim with hlt
        · omega
        · rw [if_neg hlt]
          exact ih (h.round ha) (by omega) hlim

theorem subset_expandFrom (fuel i : ℕ) (w : Worklist α K) :
    w.found ⊆ (expandFrom key next limit fuel i w).found := by
  induction fuel generalizing i w with
  | zero => exact List.Subset.refl _
  | succ fuel ih =>
      rw [expandFrom]
      split
      case _ => exact List.Subset.refl _
      case _ a _ =>
        split_ifs
        · exact List.Subset.refl _
        · exact List.Subset.trans (grows_foldl key (next a) w).subset (ih (i + 1) _)

/-- A search keeps what it started from, however far it gets. -/
theorem subset_expand (as : List α) : as ⊆ (expand key next limit as).found :=
  subset_expandFrom _ 0 (start key as)

/-- The completeness rule: a search that stays within its limit keeps what it started
from, and every successor of an element found shares its key with an element found. -/
theorem closed_expand {as : List α} (hlim : (expand key next limit as).visited.length ≤ limit) :
    as ⊆ (expand key next limit as).found ∧ Closed key next (expand key next limit as) :=
  (inv_start as).expandFrom (by omega) hlim

theorem firsts_subset (as : List α) : firsts key as ⊆ as := by
  obtain ⟨bs, hbs, hin⟩ := (grows_foldl key as ⟨[], []⟩).found
  intro a ha
  rw [firsts, hbs] at ha
  exact hin a ha

theorem exists_mem_firsts {as : List α} {a : α} (ha : a ∈ as) :
    ∃ b ∈ firsts key as, key b = key a := by
  have hk : Keyed key (⟨[], []⟩ : Worklist α K) := fun k hk ↦ absurd hk List.not_mem_nil
  exact hk.foldl as _ (key_mem_foldl ⟨[], []⟩ ha)

end Rules

end Worklist
