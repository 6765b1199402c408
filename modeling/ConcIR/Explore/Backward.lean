import ConcIR.Explore.Verify

/-!
# Backward reachability over the explored graph

The worklist of `reverseReachable` computes exactly the states with a path to a
root, and its fuel never runs out.
-/

namespace ConcIR.Graph

variable {S : Type} (g : Graph S)

/-- `j` is the target of an edge of `i`. -/
def Edge (i j : ℕ) : Prop := ∃ es, g.edges[i]? = some es ∧ ∃ l, (j, l) ∈ es

/-- A path of explored edges. -/
abbrev Path : ℕ → ℕ → Prop := Relation.ReflTransGen g.Edge

theorem mem_predecessors (hlen : g.edges.length = g.states.length) {i p : ℕ} :
    p ∈ g.predecessors i ↔ g.Edge p i := by
  simp only [predecessors, List.mem_flatMap, List.mem_range, List.mem_map, List.mem_filter,
    decide_eq_true_eq, exists_and_right, Edge]
  constructor
  · rintro ⟨q, hq, ⟨e, he, rfl⟩, rfl⟩
    rw [← hlen] at hq
    refine ⟨g.edges[q], List.getElem?_eq_getElem hq, e.2, ?_⟩
    rwa [List.getElem?_eq_getElem hq] at he
  · rintro ⟨es, hes, l, hl⟩
    have hlt := (List.getElem?_eq_some_iff.mp hes).1
    refine ⟨p, by rwa [← hlen], ⟨(i, l), ?_, rfl⟩, rfl⟩
    rw [hes]
    exact hl

theorem foldl_discover (ps : List ℕ) : ∀ seen stack : List ℕ,
    (∀ x, x ∈ (ps.foldl discover (seen, stack)).1 ↔ x ∈ seen ∨ x ∈ ps) ∧
      ∃ new, (ps.foldl discover (seen, stack)).2 = new ++ stack ∧ new.Nodup ∧
        ∀ x, x ∈ new ↔ x ∈ ps ∧ x ∉ seen := by
  induction ps with
  | nil => intro seen stack; simp
  | cons p ps ih =>
      intro seen stack
      by_cases hp : p ∈ seen
      · obtain ⟨h₁, new, h₂, h₃, h₄⟩ := ih seen stack
        have hd : discover (seen, stack) p = (seen, stack) := by simp [discover, hp]
        rw [List.foldl_cons, hd]
        refine ⟨fun x ↦ ?_, new, h₂, h₃, fun x ↦ ?_⟩
        · rw [h₁, List.mem_cons]
          exact ⟨fun h ↦ h.imp_right .inr, fun h ↦ h.elim .inl fun h ↦ h.elim
            (fun h ↦ .inl (h ▸ hp)) .inr⟩
        · rw [h₄, List.mem_cons]
          exact ⟨fun h ↦ ⟨.inr h.1, h.2⟩, fun h ↦ ⟨h.1.resolve_left fun he ↦ h.2 (he ▸ hp), h.2⟩⟩
      · obtain ⟨h₁, new, h₂, h₃, h₄⟩ := ih (p :: seen) (p :: stack)
        have hd : discover (seen, stack) p = (p :: seen, p :: stack) := by simp [discover, hp]
        rw [List.foldl_cons, hd]
        refine ⟨fun x ↦ ?_, new ++ [p], ?_, ?_, fun x ↦ ?_⟩
        · rw [h₁, List.mem_cons, List.mem_cons]
          tauto
        · rw [h₂, List.append_assoc, List.singleton_append]
        · have hn : p ∉ new := fun h ↦ ((h₄ p).mp h).2 List.mem_cons_self
          simpa [List.nodup_append] using ⟨h₃, fun a ha h ↦ hn (h ▸ ha)⟩
        · rw [List.mem_append, List.mem_singleton, h₄, List.mem_cons, List.mem_cons]
          by_cases hx : x = p
          · simp [hx, hp]
          · simp [hx]

/-- The worklist invariant: `done` are the states already popped. -/
structure Backward (roots done seen stack : List ℕ) : Prop where
  split : ∀ x, x ∈ seen ↔ x ∈ done ∨ x ∈ stack
  nodup : (done ++ stack).Nodup
  lt : ∀ x ∈ seen, x < g.states.length
  closed : ∀ x ∈ done, ∀ p, g.Edge p x → p ∈ seen
  roots_seen : ∀ r ∈ roots, r ∈ seen
  sound : ∀ x ∈ seen, ∃ r ∈ roots, g.Path x r

theorem length_le_of_nodup {xs : List ℕ} {n : ℕ} (hn : xs.Nodup) (hlt : ∀ x ∈ xs, x < n) :
    xs.length ≤ n := by
  have h : xs.length ≤ (List.range n).length :=
    (hn.subperm fun x hx ↦ List.mem_range.mpr (hlt x hx)).length_le
  rwa [List.length_range] at h

theorem mem_reverseLoop (hlen : g.edges.length = g.states.length) {roots : List ℕ} (fuel : ℕ) :
    ∀ done seen stack, g.Backward roots done seen stack →
      g.states.length < fuel + done.length →
        ∀ x, x ∈ g.reverseLoop fuel (seen, stack) ↔ ∃ r ∈ roots, g.Path x r := by
  induction fuel with
  | zero =>
      intro done seen stack h hf
      have hle := length_le_of_nodup (List.nodup_append.mp h.nodup).1
        fun x hx ↦ h.lt x ((h.split x).mpr (.inl hx))
      omega
  | succ fuel ih =>
      intro done seen stack h hf x
      cases stack with
      | nil =>
          rw [reverseLoop]
          refine ⟨h.sound x, ?_⟩
          rintro ⟨r, hr, hp⟩
          -- Every state seen has been popped, so the closure reaches back to `x`.
          induction hp using Relation.ReflTransGen.head_induction_on with
          | refl => exact h.roots_seen r hr
          | head he _ ih =>
              exact h.closed _ (((h.split _).mp ih).resolve_right List.not_mem_nil) _ he
      | cons i stack =>
          obtain ⟨hmem, new, hstack, hnew, hnewmem⟩ :=
            foldl_discover (g.predecessors i) seen stack
          rw [reverseLoop]
          have hi : i ∈ seen := (h.split i).mpr (.inr List.mem_cons_self)
          have heq : (g.predecessors i).foldl discover (seen, stack) =
              (((g.predecessors i).foldl discover (seen, stack)).1, new ++ stack) :=
            Prod.ext rfl hstack
          rw [heq]
          refine ih (i :: done) _ _ ⟨fun y ↦ ?_, ?_, fun y hy ↦ ?_, fun y hy p hp ↦ ?_,
            fun r hr ↦ (hmem r).mpr (.inl (h.roots_seen r hr)), fun y hy ↦ ?_⟩
            (by simp only [List.length_cons]; omega) x
          · rw [hmem, List.mem_append, hnewmem, List.mem_cons]
            have := h.split y
            rw [List.mem_cons] at this
            tauto
          · have hfresh : ∀ a ∈ new, a ∉ done ++ i :: stack := fun a ha hmem' ↦
              ((hnewmem a).mp ha).2 ((h.split a).mpr (List.mem_append.mp hmem'))
            have hperm : (i :: done ++ (new ++ stack)).Perm (new ++ (done ++ i :: stack)) := by
              refine List.Perm.trans ?_ (List.perm_append_comm_assoc done new (i :: stack))
              exact (List.perm_middle.symm.trans
                (List.Perm.append_left done List.perm_middle.symm))
            exact hperm.nodup_iff.mpr (List.nodup_append.mpr
              ⟨hnew, h.nodup, fun a ha b hb hab ↦ hfresh a ha (hab ▸ hb)⟩)
          · rcases (hmem y).mp hy with hy | hy
            · exact h.lt y hy
            · obtain ⟨es, hes, -⟩ := (g.mem_predecessors hlen).mp hy
              exact hlen ▸ (List.getElem?_eq_some_iff.mp hes).1
          · rcases List.mem_cons.mp hy with rfl | hy
            · exact (hmem p).mpr (.inr ((g.mem_predecessors hlen).mpr hp))
            · exact (hmem p).mpr (.inl (h.closed y hy p hp))
          · rcases (hmem y).mp hy with hy | hy
            · exact h.sound y hy
            · obtain ⟨r, hr, hp⟩ := h.sound i hi
              exact ⟨r, hr, .head ((g.mem_predecessors hlen).mp hy) hp⟩

/-- The backward closure of the roots is the set of states with a path to one. -/
theorem mem_reverseReachable (hlen : g.edges.length = g.states.length) {roots : List ℕ}
    (hn : roots.Nodup) (hlt : ∀ r ∈ roots, r < g.states.length) (x : ℕ) :
    x ∈ g.reverseReachable roots ↔ ∃ r ∈ roots, g.Path x r := by
  refine g.mem_reverseLoop hlen _ [] roots roots.reverse ⟨fun y ↦ by simp, by simpa using hn,
    hlt, by simp, fun r hr ↦ hr, fun y hy ↦ ⟨y, hy, .refl⟩⟩ (by simp) x

end ConcIR.Graph
