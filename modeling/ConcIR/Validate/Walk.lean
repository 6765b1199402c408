import Mathlib

/-!
# Walks with a stack

A search that keeps its open nodes on a stack. A node is looked at when it comes off the
stack: it is dropped if it was seen before, and otherwise its successors go on the stack.
What the search reports is what each node it has seen contributes, in the order the nodes
were seen. Where the nodes that can be reached are finitely many, the stack runs empty
after as many rounds as there are edges between them, and one more.
-/

namespace ConcIR.Validate

/-- The stack has its top first. -/
structure Walk (S D : Type*) where
  visited : List S
  stack : List S
  out : List D

namespace Walk

variable {S D : Type*}

/-- The nodes that can be reached. -/
def Reach (next : S → List S) (s₀ : S) : S → Prop := Relation.ReflTransGen (fun s t ↦ t ∈ next s) s₀

section Definitions

variable [DecidableEq S] (next : S → List S) (emit : S → List D)

def start (s₀ : S) : Walk S D := ⟨[], [s₀], []⟩

/-- Look at the node `s`; the others on the stack are `rest`. The successors go on the
stack one after the other, so the last one comes off first. -/
def round (w : Walk S D) (s : S) (rest : List S) : Walk S D :=
  if s ∈ w.visited then { w with stack := rest }
  else ⟨s :: w.visited, (next s).reverse ++ rest, w.out ++ emit s⟩

/-- At most `n` rounds. -/
def run : ℕ → Walk S D → Walk S D
  | 0, w => w
  | n + 1, w =>
      match w.stack with
      | [] => w
      | s :: rest => run n (round next emit w s rest)

end Definitions

/-- What the rounds keep. -/
structure Inv (next : S → List S) (emit : S → List D) (s₀ : S) (w : Walk S D) : Prop where
  out : w.out = w.visited.reverse.flatMap emit
  nodup : w.visited.Nodup
  visited : ∀ s ∈ w.visited, Reach next s₀ s
  stack : ∀ s ∈ w.stack, Reach next s₀ s
  root : s₀ ∈ w.visited ∨ s₀ ∈ w.stack
  closed : ∀ s ∈ w.visited, ∀ t ∈ next s, t ∈ w.visited ∨ t ∈ w.stack

section Rules

variable {next : S → List S} {emit : S → List D} {s₀ : S} {w : Walk S D}

theorem inv_start (next : S → List S) (emit : S → List D) (s₀ : S) :
    Inv next emit s₀ (start s₀) where
  out := rfl
  nodup := List.nodup_nil
  visited _ hs := absurd hs List.not_mem_nil
  stack _ hs := List.mem_singleton.mp hs ▸ .refl
  root := .inr List.mem_cons_self
  closed _ hs := absurd hs List.not_mem_nil

/-- An empty stack means that everything that can be reached has been seen. -/
theorem Inv.mem_visited (h : Inv next emit s₀ w) (hw : w.stack = []) {s : S} :
    s ∈ w.visited ↔ Reach next s₀ s := by
  constructor
  · exact h.visited s
  · intro hs
    induction hs with
    | refl => exact h.root.resolve_right (hw ▸ List.not_mem_nil)
    | tail _ ht ih => exact (h.closed _ ih _ ht).resolve_right (hw ▸ List.not_mem_nil)

theorem Inv.mem_out (h : Inv next emit s₀ w) (hw : w.stack = []) {d : D} :
    d ∈ w.out ↔ ∃ s, Reach next s₀ s ∧ d ∈ emit s := by
  rw [h.out, List.mem_flatMap]
  refine exists_congr fun s ↦ and_congr_left fun _ ↦ ?_
  rw [List.mem_reverse]
  exact h.mem_visited hw

variable [DecidableEq S]

theorem Inv.round (h : Inv next emit s₀ w) {s : S} {rest : List S} (hw : w.stack = s :: rest) :
    Inv next emit s₀ (round next emit w s rest) := by
  have hs : Reach next s₀ s := h.stack s (hw ▸ List.mem_cons_self)
  have hrest : ∀ t ∈ rest, Reach next s₀ t := fun t ht ↦
    h.stack t (hw ▸ List.mem_cons_of_mem s ht)
  rw [Walk.round]
  split_ifs with hseen
  · refine ⟨h.out, h.nodup, h.visited, hrest, ?_, ?_⟩
    · rcases h.root with hr | hr
      · exact .inl hr
      · rcases List.mem_cons.mp (hw ▸ hr) with rfl | hr
        · exact .inl hseen
        · exact .inr hr
    · intro a ha t ht
      rcases h.closed a ha t ht with hv | hv
      · exact .inl hv
      · rcases List.mem_cons.mp (hw ▸ hv) with rfl | hv
        · exact .inl hseen
        · exact .inr hv
  · refine ⟨?_, List.nodup_cons.mpr ⟨hseen, h.nodup⟩, ?_, ?_, ?_, ?_⟩
    · rw [List.reverse_cons, List.flatMap_append, ← h.out, List.flatMap_singleton]
    · exact List.forall_mem_cons.mpr ⟨hs, h.visited⟩
    · intro t ht
      rcases List.mem_append.mp ht with ht | ht
      · exact hs.tail (List.mem_reverse.mp ht)
      · exact hrest t ht
    · rcases h.root with hr | hr
      · exact .inl (List.mem_cons_of_mem s hr)
      · rcases List.mem_cons.mp (hw ▸ hr) with rfl | hr
        · exact .inl List.mem_cons_self
        · exact .inr (List.mem_append_right _ hr)
    · intro a ha t ht
      rcases List.mem_cons.mp ha with rfl | ha
      · exact .inr (List.mem_append_left _ (List.mem_reverse.mpr ht))
      · rcases h.closed a ha t ht with hv | hv
        · exact .inl (List.mem_cons_of_mem s hv)
        · rcases List.mem_cons.mp (hw ▸ hv) with rfl | hv
          · exact .inl List.mem_cons_self
          · exact .inr (List.mem_append_right _ hv)

theorem Inv.run (h : Inv next emit s₀ w) (n : ℕ) : Inv next emit s₀ (run next emit n w) := by
  induction n generalizing w with
  | zero => exact h
  | succ n ih =>
      rw [Walk.run]
      split
      case _ => exact h
      case _ s rest hw => exact ih (h.round hw)

/-- What is open: the stack and the edges from the nodes not seen yet. -/
def measure (next : S → List S) (U : Finset S) (w : Walk S D) : ℕ :=
  w.stack.length + ∑ s ∈ U \ w.visited.toFinset, (next s).length

/-- Each round takes one edge. -/
theorem measure_round {U : Finset S} {s : S} {rest : List S} (hw : w.stack = s :: rest)
    (hs : s ∈ U) : measure next U (Walk.round next emit w s rest) + 1 = measure next U w := by
  rw [Walk.round]
  split_ifs with hseen
  · simp only [measure, hw, List.length_cons]
    omega
  · have hin : s ∈ U \ w.visited.toFinset :=
      Finset.mem_sdiff.mpr ⟨hs, fun hv ↦ hseen (List.mem_toFinset.mp hv)⟩
    have herase : U \ (s :: w.visited).toFinset = (U \ w.visited.toFinset).erase s := by
      rw [List.toFinset_cons, Finset.sdiff_insert]
    have hsum := Finset.add_sum_erase (U \ w.visited.toFinset) (fun s ↦ (next s).length) hin
    simp only [measure, hw, herase, List.length_append, List.length_reverse, List.length_cons]
    omega

/-- The rounds come to an end: there are at most as many as there are edges between the
nodes of a set that contains the first node and is closed under successors, and one more. -/
theorem stack_run {U : Finset S} (hU : ∀ s ∈ U, ∀ t ∈ next s, t ∈ U) (n : ℕ)
    (hw : ∀ s ∈ w.stack, s ∈ U) (hn : measure next U w ≤ n) :
    (Walk.run next emit n w).stack = [] := by
  induction n generalizing w with
  | zero =>
      have hlen : w.stack.length = 0 := by
        rw [measure] at hn
        omega
      exact List.eq_nil_of_length_eq_zero hlen
  | succ n ih =>
      rw [Walk.run]
      split
      case _ hnil => exact hnil
      case _ s rest hcons =>
        have hs : s ∈ U := hw s (hcons ▸ List.mem_cons_self)
        apply ih
        · intro t ht
          rw [Walk.round] at ht
          split_ifs at ht
          · exact hw t (hcons ▸ List.mem_cons_of_mem s ht)
          · rcases List.mem_append.mp ht with ht | ht
            · exact hU s hs t (List.mem_reverse.mp ht)
            · exact hw t (hcons ▸ List.mem_cons_of_mem s ht)
        · have hm := @measure_round _ _ next emit w _ U s rest hcons hs
          omega

theorem stack_run_start {U : Finset S} (hU : ∀ s ∈ U, ∀ t ∈ next s, t ∈ U) (hs₀ : s₀ ∈ U)
    {n : ℕ} (hn : 1 + ∑ s ∈ U, (next s).length ≤ n) :
    (Walk.run next emit n (start s₀)).stack = [] := by
  refine stack_run hU n (fun s hs ↦ List.mem_singleton.mp hs ▸ hs₀) ?_
  simpa [measure, start] using hn

end Rules

end Walk

end ConcIR.Validate
