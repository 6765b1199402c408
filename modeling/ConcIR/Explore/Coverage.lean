import ConcIR.Explore.Search
import ConcIR.Explore.Backward

/-!
# The explored graph and the full transition system

Under the law of state keys, a search that met no bound has a representative for
every reachable state, and explored paths and real runs correspond.
-/

namespace ConcIR

variable {S : Type} {T : TransitionSystem S}

namespace TransitionSystem

/-- Two states fail together, or offer steps to the same keys. -/
def SuccessorsAgree (T : TransitionSystem S) (s t : S) : Prop :=
  match T.successors s, T.successors t with
  | .ok a, .ok b => ∀ k, (∃ st ∈ a.steps, T.stateKey st.state = k) ↔
      ∃ st ∈ b.steps, T.stateKey st.state = k
  | .error _, .error _ => True
  | _, _ => False

/-- The law of state keys, required of reachable states only: equal keys imply
the same predicates and the same successors up to key. -/
structure KeyLaw (T : TransitionSystem S) : Prop where
  satisfied : ∀ s t, T.Reachable s → T.Reachable t → T.stateKey s = T.stateKey t →
    ∀ p, T.satisfied s p = T.satisfied t p
  isFinished : ∀ s t, T.Reachable s → T.Reachable t → T.stateKey s = T.stateKey t →
    T.isFinished s = T.isFinished t
  successors : ∀ s t, T.Reachable s → T.Reachable t → T.stateKey s = T.stateKey t →
    T.SuccessorsAgree s t

theorem KeyLaw.next (hk : T.KeyLaw) {s t s' : S} (hs : T.Reachable s) (ht : T.Reachable t)
    (h : T.stateKey s = T.stateKey t) (hn : T.Next s s') :
    ∃ t', T.Next t t' ∧ T.stateKey t' = T.stateKey s' := by
  obtain ⟨en, hen, st, hst, rfl⟩ := hn
  have hagree := hk.successors s t hs ht h
  rw [SuccessorsAgree, hen] at hagree
  cases hen' : T.successors t with
  | error e => simp [hen'] at hagree
  | ok en' =>
      simp only [hen'] at hagree
      obtain ⟨st', hst', hkey⟩ := (hagree _).mp ⟨st, hst, rfl⟩
      exact ⟨st'.state, ⟨en', hen', st', hst', rfl⟩, hkey⟩

end TransitionSystem

namespace Search

variable {s : Search S}

theorem Done.edges_length (hd : Done T s) :
    s.graph.edges.length = s.graph.states.length := by
  obtain ⟨m, q, hinv, -⟩ := hd
  exact hinv.core.edges_length

theorem Done.reach (hd : Done T s) {i : ℕ} {u : S} (hu : s.graph.states[i]? = some u) :
    T.Reachable u := by
  obtain ⟨m, q, hinv, -⟩ := hd
  exact hinv.core.reach u (List.mem_of_getElem? hu)

theorem Done.root (hd : Done T s) : ∃ t, T.initial = .ok t ∧ s.graph.states[0]? = some t := by
  obtain ⟨m, q, hinv, -⟩ := hd
  exact hinv.core.root

/-- Every explored state is dealt with when no bound was met. -/
theorem Done.expanded (hd : Done T s) (hb : s.boundaryEvents = []) {i : ℕ} {u : S}
    (hu : s.graph.states[i]? = some u) : Expanded T s i u := by
  obtain ⟨m, q, hinv, hm⟩ := hd
  have hi : i < m := hm hb ▸ (List.getElem?_eq_some_iff.mp hu).1
  exact (hinv.expanded i hi u hu).mono (List.prefix_refl _) rfl rfl id id id

/-- An edge stands for a step to a state with the target's key. -/
theorem Done.edge_sound (hd : Done T s) {i j : ℕ} {u : S} (hu : s.graph.states[i]? = some u)
    (he : s.graph.Edge i j) : ∃ t v, T.Next u t ∧ s.graph.states[j]? = some v ∧
      T.stateKey v = T.stateKey t := by
  obtain ⟨m, q, hinv, -⟩ := hd
  obtain ⟨es, hes, l, hl⟩ := he
  have hlt := (List.getElem?_eq_some_iff.mp hu).1
  have hexp : Expanded T s i u := by
    by_cases hi : i < m
    · exact (hinv.expanded i hi u hu).mono (List.prefix_refl _) rfl rfl id id id
    · -- A state still queued has no edges.
      have hnil := (hinv.core.fresh i (not_lt.mp hi) hlt).1
      rw [show s.graph.edges[i]? = some [] from hnil] at hes
      cases Option.some.inj hes
      cases hl
  cases hexp with
  | cut _ h _ => rw [h] at hes; cases hes; cases hl
  | error _ _ h _ _ => rw [h] at hes; cases hes; cases hl
  | ok en hen es' he' hrec _ _ =>
      rw [he'] at hes
      cases hes
      obtain ⟨k, hk, hget⟩ := List.getElem_of_mem hl
      have hk' : k < en.steps.length := hrec.length_eq ▸ hk
      obtain ⟨-, v, hv, hkey⟩ := (List.forall₂_iff_get.mp hrec).2 k hk hk'
      rw [List.get_eq_getElem, hget] at hv
      exact ⟨en.steps[k].state, v, ⟨en, hen, en.steps[k], List.getElem_mem hk', rfl⟩, hv, hkey⟩

/-- The edge that records an offered step. -/
theorem edge_of_step {i : ℕ} {es : List (ℕ × StepLabel)} {sts : List (Step S)} {st : Step S}
    (he : s.graph.edges[i]? = some es) (hrec : List.Forall₂ (Records T s.graph) es sts)
    (hst : st ∈ sts) : ∃ j v, s.graph.Edge i j ∧ s.graph.states[j]? = some v ∧
      T.stateKey v = T.stateKey st.state := by
  obtain ⟨k, hk, hget⟩ := List.getElem_of_mem hst
  have hk' : k < es.length := hrec.length_eq ▸ hk
  obtain ⟨-, v, hv, hkey⟩ := (List.forall₂_iff_get.mp hrec).2 k hk' hk
  refine ⟨(es[k]).1, v, ⟨es, he, (es[k]).2, List.getElem_mem hk'⟩, hv, ?_⟩
  rwa [List.get_eq_getElem, hget] at hkey

/-- Without a bound met, every step of an explored state has its edge. -/
theorem Done.edge_complete (hd : Done T s) (hb : s.boundaryEvents = []) {i : ℕ} {u t : S}
    (hu : s.graph.states[i]? = some u) (hn : T.Next u t) :
    ∃ j v, s.graph.Edge i j ∧ s.graph.states[j]? = some v ∧ T.stateKey v = T.stateKey t := by
  obtain ⟨en, hen, st, hst, rfl⟩ := hn
  cases hd.expanded hb hu with
  | cut _ _ h => exact absurd hb h
  | error e h _ _ _ => rw [hen] at h; cases h
  | ok en' hen' es he hrec _ _ =>
      rw [hen] at hen'
      cases hen'
      exact edge_of_step he hrec hst

/-- A run from a state follows explored edges from any representative of it. -/
theorem Done.follow (hd : Done T s) (hk : T.KeyLaw) (hb : s.boundaryEvents = []) {i : ℕ}
    {u t t' : S} (hu : s.graph.states[i]? = some u) (hkey : T.stateKey u = T.stateKey t)
    (ht : T.Reachable t) (hrun : T.ReachableFrom t t') :
    ∃ j v, s.graph.Path i j ∧ s.graph.states[j]? = some v ∧ T.stateKey v = T.stateKey t' := by
  induction hrun with
  | refl => exact ⟨i, u, .refl, hu, hkey⟩
  | tail hrun hn ih =>
      obtain ⟨j, v, hpath, hv, hvkey⟩ := ih
      obtain ⟨w, hw, hwkey⟩ := hk.next (ht.trans hrun) (hd.reach hv) hvkey.symm hn
      obtain ⟨l, x, hedge, hx, hxkey⟩ := hd.edge_complete hb hv hw
      exact ⟨l, x, hpath.tail hedge, hx, hxkey.trans hwkey⟩

/-- Every reachable state has a representative when no bound was met. -/
theorem Done.covered (hd : Done T s) (hk : T.KeyLaw) (hb : s.boundaryEvents = []) {t : S}
    (ht : T.Reachable t) :
    ∃ (i : ℕ) (u : S), s.graph.states[i]? = some u ∧ T.stateKey u = T.stateKey t := by
  obtain ⟨t₀, hinit, h₀⟩ := hd.root
  obtain ⟨t₁, hinit', hrun⟩ := ht
  obtain rfl : t₀ = t₁ := by
    rw [hinit] at hinit'
    exact Except.ok.inj hinit'
  obtain ⟨j, v, -, hv, hkey⟩ :=
    hd.follow hk hb h₀ rfl (T.reachable_initial hinit) hrun
  exact ⟨j, v, hv, hkey⟩

/-- An explored path is a run, from any reachable state its first state stands for. -/
theorem Done.lift (hd : Done T s) (hk : T.KeyLaw) {i j : ℕ} {u t : S}
    (hu : s.graph.states[i]? = some u) (ht : T.Reachable t)
    (hkey : T.stateKey u = T.stateKey t) (hp : s.graph.Path i j) :
    ∃ t' v, T.ReachableFrom t t' ∧ s.graph.states[j]? = some v ∧
      T.stateKey v = T.stateKey t' := by
  induction hp with
  | refl => exact ⟨t, u, .refl, hu, hkey⟩
  | tail _ hedge ih =>
      obtain ⟨t', v, hrun, hv, hvkey⟩ := ih
      obtain ⟨w, x, hw, hx, hxkey⟩ := hd.edge_sound hv hedge
      obtain ⟨w', hw', hwkey⟩ := hk.next (hd.reach hv) (ht.trans hrun) hvkey hw
      exact ⟨w', x, hrun.tail hw', hx, hxkey.trans hwkey.symm⟩

end Search

end ConcIR
