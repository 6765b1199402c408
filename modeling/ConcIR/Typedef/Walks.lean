import Mathlib

/-!
# Walks that remember where they have been

A search follows a relation and keeps the places it has come through on a stack. It meets
the stack again exactly where a cycle can be reached. The places that are not on the stack
become fewer with each step.
-/

namespace ConcIR

namespace Walks

open Relation

variable {α : Type*} {r : α → α → Prop} {a b c : α} {l : List α}

theorem reaches_of_mem (h : List.IsChain r (a :: l)) (hc : c ∈ a :: l) : ReflTransGen r a c := by
  induction l generalizing a with
  | nil =>
      obtain rfl := List.mem_singleton.mp hc
      exact .refl
  | cons b l ih =>
      obtain ⟨hab, hl⟩ := List.isChain_cons_cons.mp h
      rcases List.mem_cons.mp hc with rfl | hc
      · exact .refl
      · exact (ih hl hc).head hab

theorem exists_walk_of_reaches (h : ReflTransGen r a b) :
    ∃ l, List.IsChain r (a :: l) ∧ b ∈ a :: l := by
  obtain ⟨l, hl, hlast⟩ := List.exists_isChain_cons_of_relationReflTransGen h
  exact ⟨l, hl, hlast ▸ List.getLast_mem _⟩

/-- A place that is visited twice is on a cycle. -/
theorem cycle_of_repeat (h : List.IsChain r l) (hn : ¬l.Nodup) : ∃ c ∈ l, TransGen r c c := by
  induction l with
  | nil => exact absurd List.nodup_nil hn
  | cons a l ih =>
      by_cases ha : a ∈ l
      · cases l with
        | nil => exact absurd ha List.not_mem_nil
        | cons b l =>
            obtain ⟨hab, hl⟩ := List.isChain_cons_cons.mp h
            exact ⟨a, List.mem_cons_self, .head' hab (reaches_of_mem hl ha)⟩
      · have hl : ¬l.Nodup := fun hl ↦ hn (List.nodup_cons.mpr ⟨ha, hl⟩)
        obtain ⟨c, hc, hcycle⟩ := ih h.of_cons hl
        exact ⟨c, List.mem_cons_of_mem a hc, hcycle⟩

/-- The walks that repeat a place are those that reach a cycle and go round it. -/
theorem exists_repeat_iff : (∃ l, List.IsChain r (a :: l) ∧ ¬(a :: l).Nodup) ↔
    ∃ c, ReflTransGen r a c ∧ TransGen r c c := by
  constructor
  · rintro ⟨l, hl, hn⟩
    obtain ⟨c, hc, hcycle⟩ := cycle_of_repeat hl hn
    exact ⟨c, reaches_of_mem hl hc, hcycle⟩
  · rintro ⟨c, hreach, hcycle⟩
    induction hreach using ReflTransGen.head_induction_on with
    | refl =>
        obtain ⟨d, hcd, hdc⟩ := TransGen.head'_iff.mp hcycle
        obtain ⟨l, hl, hmem⟩ := exists_walk_of_reaches hdc
        exact ⟨d :: l, List.isChain_cons_cons.mpr ⟨hcd, hl⟩,
          fun hn ↦ (List.nodup_cons.mp hn).1 hmem⟩
    | head hab _ ih =>
        obtain ⟨l, hl, hn⟩ := ih
        exact ⟨_ :: l, List.isChain_cons_cons.mpr ⟨hab, hl⟩,
          fun hnodup ↦ hn (List.nodup_cons.mp hnodup).2⟩

section Stack

variable [DecidableEq α] {keys stack : List α}

/-- How many of the keys are not on the stack. -/
def unseen (keys stack : List α) : ℕ := (keys.toFinset \ stack.toFinset).card

theorem unseen_lt (ha : a ∈ keys) (hs : a ∉ stack) : unseen keys (a :: stack) < unseen keys stack := by
  refine Finset.card_lt_card ((Finset.ssubset_iff_of_subset ?_).mpr ⟨a, ?_, ?_⟩)
  · refine Finset.sdiff_subset_sdiff (Finset.Subset.refl _) fun b hb ↦ ?_
    exact List.mem_toFinset.mpr (List.mem_cons_of_mem a (List.mem_toFinset.mp hb))
  · exact Finset.mem_sdiff.mpr
      ⟨List.mem_toFinset.mpr ha, fun h ↦ hs (List.mem_toFinset.mp h)⟩
  · exact fun h ↦ (Finset.mem_sdiff.mp h).2 (List.mem_toFinset.mpr List.mem_cons_self)

end Stack

end Walks

end ConcIR
