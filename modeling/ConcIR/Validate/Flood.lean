import ConcIR.Validate.Walk

/-!
# Breadth-first marking

A search that marks a node when it puts it into the queue. What comes out of the queue has its
unmarked successors marked and put in at the end. Every node is put in at most once, so the
queue runs empty.
-/

namespace ConcIR.Validate

/-- The queue has its front first. -/
structure Flood (V : Type*) where
  marked : List V
  queue : List V

namespace Flood

open Walk (Reach)

variable {V : Type*} [DecidableEq V]

section Definitions

variable (next : V → List V)

def start (v₀ : V) : Flood V := ⟨[v₀], [v₀]⟩

def mark (w : Flood V) (v : V) : Flood V :=
  if v ∈ w.marked then w else ⟨v :: w.marked, w.queue ++ [v]⟩

/-- Take `v` out of the queue. -/
def round (w : Flood V) (v : V) (rest : List V) : Flood V :=
  (next v).foldl mark { w with queue := rest }

/-- The marked nodes when the queue is empty; `none` if that takes more than `n` rounds. -/
def run : ℕ → Flood V → Option (List V)
  | _, ⟨marked, []⟩ => some marked
  | 0, ⟨_, _ :: _⟩ => none
  | n + 1, ⟨marked, v :: rest⟩ => run n (round next ⟨marked, v :: rest⟩ v rest)

end Definitions

variable {next : V → List V} {v₀ v : V} {w : Flood V}

/-- What the rounds keep. -/
structure Inv (next : V → List V) (v₀ : V) (w : Flood V) : Prop where
  nodup : w.marked.Nodup
  root : v₀ ∈ w.marked
  queue : ∀ v ∈ w.queue, v ∈ w.marked
  reach : ∀ v ∈ w.marked, Reach next v₀ v
  closed : ∀ v ∈ w.marked, v ∈ w.queue ∨ ∀ t ∈ next v, t ∈ w.marked

omit [DecidableEq V] in
theorem inv_start (next : V → List V) (v₀ : V) : Inv next v₀ (start v₀) where
  nodup := List.nodup_singleton v₀
  root := List.mem_cons_self
  queue _ hv := hv
  reach _ hv := List.mem_singleton.mp hv ▸ .refl
  closed _ hv := .inl hv

/-- What marking adds: the nodes that were not marked before, each of them once, and all of
them are put into the queue. -/
theorem foldl_mark (ts : List V) (w : Flood V) :
    ∃ new : List V, (ts.foldl mark w).marked = new.reverse ++ w.marked ∧
      (ts.foldl mark w).queue = w.queue ++ new ∧ new.Nodup ∧ (∀ t ∈ new, t ∈ ts ∧ t ∉ w.marked) ∧
        ∀ t ∈ ts, t ∈ w.marked ∨ t ∈ new := by
  induction ts generalizing w with
  | nil => exact ⟨[], by simp⟩
  | cons t ts ih =>
      rw [List.foldl_cons]
      obtain ⟨new, hmarked, hqueue, hnodup, hnew, hall⟩ := ih (mark w t)
      by_cases ht : t ∈ w.marked
      · have hsame : mark w t = w := if_pos ht
        rw [hsame] at hmarked hqueue hnew hall ⊢
        refine ⟨new, hmarked, hqueue, hnodup, fun u hu ↦ ?_, List.forall_mem_cons.mpr ⟨.inl ht, hall⟩⟩
        exact ⟨List.mem_cons_of_mem t (hnew u hu).1, (hnew u hu).2⟩
      · have hadd : mark w t = ⟨t :: w.marked, w.queue ++ [t]⟩ := if_neg ht
        rw [hadd] at hmarked hqueue hnew hall ⊢
        refine ⟨t :: new, by simp [hmarked], by simp [hqueue], ?_, ?_, ?_⟩
        · exact List.nodup_cons.mpr ⟨fun hin ↦ (hnew t hin).2 List.mem_cons_self, hnodup⟩
        · refine List.forall_mem_cons.mpr ⟨⟨List.mem_cons_self, ht⟩, fun u hu ↦ ?_⟩
          obtain ⟨hts, hun⟩ := hnew u hu
          exact ⟨List.mem_cons_of_mem t hts, fun h ↦ hun (List.mem_cons_of_mem t h)⟩
        · refine List.forall_mem_cons.mpr ⟨.inr List.mem_cons_self, fun u hu ↦ ?_⟩
          rcases hall u hu with h | h
          · rcases List.mem_cons.mp h with rfl | h
            · exact .inr List.mem_cons_self
            · exact .inl h
          · exact .inr (List.mem_cons_of_mem t h)

theorem Inv.round {marked rest : List V} (h : Inv next v₀ ⟨marked, v :: rest⟩) :
    Inv next v₀ (round next ⟨marked, v :: rest⟩ v rest) := by
  have hv : v ∈ marked := h.queue v List.mem_cons_self
  obtain ⟨new, hmarked, hqueue, hnodup, hnew, hall⟩ := foldl_mark (next v) ⟨marked, rest⟩
  have hold : ∀ t ∈ marked, t ∈ (Flood.round next ⟨marked, v :: rest⟩ v rest).marked := by
    intro t ht
    rw [Flood.round, hmarked]
    exact List.mem_append_right _ ht
  have hadd : ∀ t ∈ new, t ∈ (Flood.round next ⟨marked, v :: rest⟩ v rest).marked := by
    intro t ht
    rw [Flood.round, hmarked]
    exact List.mem_append_left _ (List.mem_reverse.mpr ht)
  refine ⟨?_, hold _ h.root, ?_, ?_, ?_⟩
  · rw [Flood.round, hmarked]
    refine List.nodup_append.mpr ⟨List.nodup_reverse.mpr hnodup, h.nodup, ?_⟩
    rintro t ht _ hm rfl
    exact (hnew t (List.mem_reverse.mp ht)).2 hm
  · intro t ht
    rw [Flood.round, hqueue] at ht
    rcases List.mem_append.mp ht with ht | ht
    · exact hold t (h.queue t (List.mem_cons_of_mem v ht))
    · exact hadd t ht
  · intro t ht
    rw [Flood.round, hmarked] at ht
    rcases List.mem_append.mp ht with ht | ht
    · exact (h.reach v hv).tail (hnew t (List.mem_reverse.mp ht)).1
    · exact h.reach t ht
  · intro t ht
    have hclosed : ∀ u ∈ marked, u ≠ v → u ∈ rest ++ new ∨ ∀ x ∈ next u, x ∈ marked := by
      intro u hu huv
      rcases h.closed u hu with hq | hq
      · exact .inl (List.mem_append_left _ ((List.mem_cons.mp hq).resolve_left huv))
      · exact .inr hq
    have hq : (Flood.round next ⟨marked, v :: rest⟩ v rest).queue = rest ++ new := hqueue
    rw [hq]
    rw [Flood.round, hmarked] at ht
    by_cases htv : t = v
    · subst htv
      refine .inr fun u hu ↦ ?_
      rcases hall u hu with h | h
      · exact hold u h
      · exact hadd u h
    · rcases List.mem_append.mp ht with ht | ht
      · exact .inl (List.mem_append_right _ (List.mem_reverse.mp ht))
      · exact (hclosed t ht htv).imp_right fun h x hx ↦ hold x (h x hx)

omit [DecidableEq V] in
/-- With an empty queue exactly the nodes that can be reached are marked. -/
theorem Inv.mem_marked {marked : List V} (h : Inv next v₀ ⟨marked, []⟩) :
    v ∈ marked ↔ Reach next v₀ v := by
  refine ⟨h.reach v, fun hv ↦ ?_⟩
  induction hv with
  | refl => exact h.root
  | tail _ ht ih => exact (h.closed _ ih).resolve_left List.not_mem_nil _ ht

/-- The search ends with the nodes that can be reached: there is a round for each of them. -/
theorem run_eq {U : Finset V} (hU : ∀ v ∈ U, ∀ t ∈ next v, t ∈ U) (n : ℕ) (h : Inv next v₀ w)
    (hw : ∀ v ∈ w.marked, v ∈ U) (hn : U.card + w.queue.length ≤ n + w.marked.length) :
    ∃ marked, run next n w = some marked ∧ ∀ v, v ∈ marked ↔ Reach next v₀ v := by
  induction n generalizing w with
  | zero =>
      obtain ⟨marked, queue⟩ := w
      cases queue with
      | nil => exact ⟨marked, by rw [run], fun v ↦ h.mem_marked⟩
      | cons v rest =>
          have hsub : marked.toFinset ⊆ U := fun v hv ↦ hw v (List.mem_toFinset.mp hv)
          have hcard := Finset.card_le_card hsub
          rw [List.toFinset_card_of_nodup h.nodup] at hcard
          simp only [List.length_cons] at hn hcard
          omega
  | succ n ih =>
      obtain ⟨marked, queue⟩ := w
      cases queue with
      | nil => exact ⟨marked, by rw [run], fun v ↦ h.mem_marked⟩
      | cons v rest =>
          obtain ⟨new, hmarked, hqueue, -, hnew, -⟩ := foldl_mark (next v) ⟨marked, rest⟩
          have hv : v ∈ U := hw v (h.queue v List.mem_cons_self)
          refine ih h.round (fun t ht ↦ ?_) ?_
          · rw [Flood.round, hmarked] at ht
            rcases List.mem_append.mp ht with ht | ht
            · exact hU v hv t (hnew t (List.mem_reverse.mp ht)).1
            · exact hw t ht
          · rw [Flood.round, hmarked, hqueue]
            simp only [List.length_append, List.length_reverse, List.length_cons] at hn ⊢
            omega

theorem run_start {U : Finset V} (hU : ∀ v ∈ U, ∀ t ∈ next v, t ∈ U) (hv₀ : v₀ ∈ U) :
    ∃ marked, run next U.card (start v₀) = some marked ∧ ∀ v, v ∈ marked ↔ Reach next v₀ v :=
  run_eq hU _ (inv_start next v₀) (fun _ hv ↦ List.mem_singleton.mp hv ▸ hv₀) le_rfl

end Flood

end ConcIR.Validate
