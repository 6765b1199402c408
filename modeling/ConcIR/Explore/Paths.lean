import ConcIR.Explore.Soundness

/-!
# Counterexample paths

The parent pointers of the search form a tree that is layered by depth. A path read off
it is a run of the system through explored states, and no path of explored edges is shorter.
-/

namespace ConcIR

variable {S : Type} {T : TransitionSystem S}

namespace Graph

/-- The depth at which a state was discovered. -/
def depthOf (g : Graph S) (i : ℕ) : ℕ := g.depth[i]?.getD 0

/-- A path of explored edges and the labels on it. -/
inductive Route (g : Graph S) : ℕ → List StepLabel → ℕ → Prop
  | nil (i : ℕ) : g.Route i [] i
  | snoc {i j k : ℕ} {ls : List StepLabel} {l : StepLabel} {es : List (ℕ × StepLabel)}
      (h : g.Route i ls j) (hes : g.edges[j]? = some es) (he : (k, l) ∈ es) :
      g.Route i (ls ++ [l]) k

/-- A walk through explored states along steps that the system offers in them. -/
inductive Follows (T : TransitionSystem S) (g : Graph S) : ℕ → List StepLabel → ℕ → Prop
  | nil (i : ℕ) : Follows T g i [] i
  | snoc {i j k : ℕ} {ls : List StepLabel} {t : S} {en : Enabled S} {st : Step S}
      (h : Follows T g i ls j) (ht : g.states[j]? = some t) (hok : T.successors t = .ok en)
      (hst : st ∈ en.steps) (hk : g.states[k]? = some st.state) :
      Follows T g i (ls ++ [st.label]) k

/-- State `k` was discovered as the target of a step offered in state `p`. -/
structure Child (T : TransitionSystem S) (g : Graph S) (p : ℕ) (l : StepLabel) (k : ℕ) :
    Prop where
  depth : g.depthOf k = g.depthOf p + 1
  edge : ∃ es, g.edges[p]? = some es ∧ (k, l) ∈ es
  offered : ∃ t en st, g.states[p]? = some t ∧ T.successors t = .ok en ∧ st ∈ en.steps ∧
    st.label = l ∧ g.states[k]? = some st.state

/-- The tree of the parent pointers when `m` states have left the queue. -/
structure Tree (T : TransitionSystem S) (m : ℕ) (g : Graph S) : Prop where
  pred_length : g.pred.length = g.states.length
  depth_length : g.depth.length = g.states.length
  root_pred : g.pred[0]? = some none
  root_depth : g.depthOf 0 = 0
  parent : ∀ k, 0 < k → k < g.states.length →
    ∃ p l, g.pred[k]? = some (some (p, l)) ∧ p < m ∧ p < k ∧ g.Child T p l k
  mono : ∀ i j, i ≤ j → j < g.states.length → g.depthOf i ≤ g.depthOf j
  level : ∀ i es k l, g.edges[i]? = some es → (k, l) ∈ es →
    k < g.states.length ∧ g.depthOf k ≤ g.depthOf i + 1

variable {m : ℕ} {g : Graph S}

theorem Tree.later {m' : ℕ} (h : g.Tree T m) (hle : m ≤ m') : g.Tree T m' :=
  { h with
    parent := fun k h0 hk ↦ by
      obtain ⟨p, l, hp, hpm, hpk, hc⟩ := h.parent k h0 hk
      exact ⟨p, l, hp, hpm.trans_le hle, hpk, hc⟩ }

/-- The flags of the states play no part. -/
theorem Tree.congr {g' : Graph S} (h : g.Tree T m) (hst : g'.states = g.states)
    (hed : g'.edges = g.edges) (hp : g'.pred = g.pred) (hd : g'.depth = g.depth) :
    g'.Tree T m := by
  have hdepth : ∀ i, g'.depthOf i = g.depthOf i := fun i ↦ by rw [depthOf, depthOf, hd]
  constructor
  · rw [hp, hst, h.pred_length]
  · rw [hd, hst, h.depth_length]
  · rw [hp, h.root_pred]
  · rw [hdepth, h.root_depth]
  · intro k h0 hk
    rw [hst] at hk
    obtain ⟨p, l, hpk, hpm, hlt, hc⟩ := h.parent k h0 hk
    refine ⟨p, l, by rw [hp, hpk], hpm, hlt, ?_, ?_, ?_⟩
    · rw [hdepth, hdepth, hc.depth]
    · rw [hed]
      exact hc.edge
    · rw [hst]
      exact hc.offered
  · intro i j hij hj
    rw [hst] at hj
    rw [hdepth, hdepth]
    exact h.mono i j hij hj
  · intro i es k l hes he
    rw [hed] at hes
    rw [hst, hdepth, hdepth]
    exact h.level i es k l hes he

theorem depthOf_of_length_le {i : ℕ} (h : g.depth.length ≤ i) : g.depthOf i = 0 := by
  rw [depthOf, List.getElem?_eq_none h, Option.getD_none]

/-- No state lies more than one level below the last one that left the queue. -/
theorem Tree.depthOf_le {idx : ℕ} (h : g.Tree T (idx + 1)) (hidx : idx < g.states.length)
    (k : ℕ) : g.depthOf k ≤ g.depthOf idx + 1 := by
  rcases Nat.eq_zero_or_pos k with rfl | h0
  · rw [h.root_depth]
    exact Nat.zero_le _
  · rcases lt_or_ge k g.states.length with hk | hk
    · obtain ⟨p, l, -, hp, -, hc⟩ := h.parent k h0 hk
      rw [hc.depth]
      exact Nat.add_le_add_right (h.mono p idx (Nat.lt_succ_iff.mp hp) hidx) 1
    · rw [depthOf_of_length_le (by rwa [h.depth_length])]
      exact Nat.zero_le _

/-- The states and edges of the child and its parent are all that matters. -/
theorem Child.mono {g' : Graph S} {p k : ℕ} {l : StepLabel} (h : g.Child T p l k)
    (hst : g.states <+: g'.states) (hp : g'.depthOf p = g.depthOf p)
    (hk : g'.depthOf k = g.depthOf k)
    (hed : ∀ es, g.edges[p]? = some es → ∃ es', g'.edges[p]? = some es' ∧ es ⊆ es') :
    g'.Child T p l k := by
  obtain ⟨hd, ⟨es, hes, he⟩, t, en, st, ht, hok, hmem, hl, hs⟩ := h
  refine ⟨by rw [hk, hp, hd], ?_, t, en, st, getElem?_mono hst ht, hok, hmem, hl,
    getElem?_mono hst hs⟩
  obtain ⟨es', hes', hsub⟩ := hed es hes
  exact ⟨es', hes', hsub he⟩

theorem edges_addEdge {i : ℕ} {e : ℕ × StepLabel} {p : ℕ} {es : List (ℕ × StepLabel)}
    (h : g.edges[p]? = some es) :
    ∃ es', (g.addEdge i e).edges[p]? = some es' ∧ es ⊆ es' := by
  by_cases hip : i = p
  · subst hip
    exact ⟨es ++ [e], by simp [addEdge, h], List.subset_append_left _ _⟩
  · exact ⟨es, by simp [addEdge, hip, h], List.Subset.refl _⟩

theorem mem_edges_addEdge {i : ℕ} {e f : ℕ × StepLabel} {p : ℕ} {es : List (ℕ × StepLabel)}
    (h : (g.addEdge i e).edges[p]? = some es) (hf : f ∈ es) :
    (∃ es', g.edges[p]? = some es' ∧ f ∈ es') ∨ p = i ∧ f = e := by
  by_cases hip : i = p
  · subst hip
    rw [addEdge, List.getElem?_modify_eq] at h
    obtain ⟨es', hes', rfl⟩ := Option.map_eq_some_iff.mp h
    rcases List.mem_append.mp hf with hf | hf
    · exact .inl ⟨es', hes', hf⟩
    · exact .inr ⟨rfl, List.mem_singleton.mp hf⟩
  · rw [addEdge, List.getElem?_modify_ne _ _ hip] at h
    exact .inl ⟨es, h, hf⟩

/-- An edge to a known state one level below at most. -/
theorem Tree.addEdge {i k : ℕ} {l : StepLabel} (h : g.Tree T m) (hk : k < g.states.length)
    (hle : g.depthOf k ≤ g.depthOf i + 1) : (g.addEdge i (k, l)).Tree T m :=
  { h with
    parent := fun j h0 hj ↦ by
      obtain ⟨p, l, hp, hpm, hpk, hc⟩ := h.parent j h0 hj
      exact ⟨p, l, hp, hpm, hpk, hc.mono (List.prefix_refl _) rfl rfl fun es ↦ edges_addEdge⟩
    level := fun j es n l' hes he ↦ by
      rcases mem_edges_addEdge hes he with ⟨es', hes', he'⟩ | ⟨rfl, he'⟩
      · exact h.level j es' n l' hes' he'
      · obtain ⟨rfl, -⟩ := Prod.mk.inj he'
        exact ⟨hk, hle⟩ }

theorem depthOf_of_append {g' : Graph S} {d i : ℕ} (hg : g'.depth = g.depth ++ [d])
    (hi : i < g.depth.length) : g'.depthOf i = g.depthOf i := by
  rw [depthOf, depthOf, hg, List.getElem?_append_left hi]

theorem depthOf_length {g' : Graph S} {d : ℕ} (hg : g'.depth = g.depth ++ [d]) :
    g'.depthOf g.depth.length = d := by
  simp [depthOf, hg]

/-- A new state one level below the state that is being expanded. -/
theorem Tree.addChild {idx : ℕ} {t : S} {en : Enabled S} {st : Step S} {key : String}
    (h : g.Tree T (idx + 1)) (hidx : idx < g.states.length)
    (hedges : g.edges.length = g.states.length) (ht : g.states[idx]? = some t)
    (hok : T.successors t = .ok en) (hst : st ∈ en.steps) :
    ((g.addState key st.state (some (idx, st.label)) (g.depthOf idx + 1)).addEdge idx
      (g.states.length, st.label)).Tree T (idx + 1) := by
  set g' := (g.addState key st.state (some (idx, st.label)) (g.depthOf idx + 1)).addEdge idx
    (g.states.length, st.label) with hg'
  have hlen : g'.states.length = g.states.length + 1 := by simp [hg', Graph.addEdge, addState]
  have hold : ∀ i < g.states.length, g'.depthOf i = g.depthOf i := by
    intro i hi
    rw [← h.depth_length] at hi
    exact depthOf_of_append rfl hi
  have hnew : g'.depthOf g.states.length = g.depthOf idx + 1 := by
    rw [← h.depth_length]
    exact depthOf_length rfl
  have hpred : ∀ i < g.states.length, g'.pred[i]? = g.pred[i]? := fun i hi ↦
    List.getElem?_append_left (by rwa [h.pred_length])
  have hprefix : g.states <+: g'.states := List.prefix_append _ _
  have hed : ∀ (p : ℕ) (es : List (ℕ × StepLabel)), g.edges[p]? = some es →
      ∃ es' : List (ℕ × StepLabel), g'.edges[p]? = some es' ∧ es ⊆ es' := by
    intro p es hes
    refine edges_addEdge ?_
    rw [addState, List.getElem?_append_left (List.getElem?_eq_some_iff.mp hes).1, hes]
  have h0 : 0 < g.states.length := Nat.zero_lt_of_lt hidx
  constructor
  · simp [hg', Graph.addEdge, addState, h.pred_length]
  · simp [hg', Graph.addEdge, addState, h.depth_length]
  · rw [hpred 0 h0, h.root_pred]
  · rw [hold 0 h0, h.root_depth]
  · intro k hk0 hk
    rw [hlen] at hk
    rcases Nat.lt_succ_iff_lt_or_eq.mp hk with hk | rfl
    · obtain ⟨p, l, hp, hpm, hpk, hc⟩ := h.parent k hk0 hk
      exact ⟨p, l, (hpred k hk).trans hp, hpm, hpk,
        hc.mono hprefix (hold p (hpk.trans hk)) (hold k hk) (hed p)⟩
    · refine ⟨idx, st.label, ?_, Nat.lt_succ_self idx, hidx, ?_⟩
      · simp [hg', Graph.addEdge, addState, ← h.pred_length]
      · refine ⟨by rw [hnew, hold idx hidx], ?_, t, en, st, getElem?_mono hprefix ht, hok, hst,
          rfl, ?_⟩
        · obtain ⟨es, hes⟩ : ∃ es, g.edges[idx]? = some es :=
            ⟨_, List.getElem?_eq_getElem (by rwa [hedges])⟩
          refine ⟨es ++ [(g.states.length, st.label)], ?_, by simp⟩
          rw [hg', Graph.addEdge, List.getElem?_modify_eq, addState,
            List.getElem?_append_left (by rwa [hedges]), hes]
          rfl
        · simp [hg', Graph.addEdge, addState]
  · intro i j hij hj
    rw [hlen] at hj
    rcases Nat.lt_succ_iff_lt_or_eq.mp hj with hj | rfl
    · rw [hold i (hij.trans_lt hj), hold j hj]
      exact h.mono i j hij hj
    · rcases Nat.lt_or_eq_of_le hij with hi | rfl
      · rw [hold i hi, hnew]
        exact h.depthOf_le hidx i
      · exact le_rfl
  · intro i es k l hes he
    -- The new state has no edges, so an edge starts at an old state.
    have hi : i < g.states.length ∨ i = g.states.length := by
      have := (List.getElem?_eq_some_iff.mp hes).1
      simp only [hg', Graph.addEdge, addState, List.length_modify, List.length_append,
        List.length_singleton, hedges] at this
      omega
    rcases mem_edges_addEdge hes he with ⟨es', hes', he'⟩ | ⟨rfl, he'⟩
    · rcases hi with hi | rfl
      · rw [addState, List.getElem?_append_left (by rwa [hedges])] at hes'
        obtain ⟨hk, hle⟩ := h.level i es' k l hes' he'
        rw [hlen, hold k hk, hold i hi]
        exact ⟨hk.trans (Nat.lt_succ_self _), hle⟩
      · rw [addState, ← hedges, List.getElem?_append_right le_rfl] at hes'
        simp at hes'
        subst hes'
        cases he'
    · obtain ⟨rfl, -⟩ := Prod.mk.inj he'
      rw [hlen, hnew, hold i hidx]
      exact ⟨Nat.lt_succ_self _, le_rfl⟩

/-- The path read off the parent pointers has one label for each level. -/
theorem Tree.counterexampleFrom (h : g.Tree T m) (fuel k : ℕ) (hk : k < fuel)
    (hlen : k < g.states.length) (acc : List StepLabel) :
    ∃ ls, g.counterexampleFrom fuel k acc = ls ++ acc ∧ ls.length = g.depthOf k ∧
      g.Route 0 ls k ∧ Follows T g 0 ls k := by
  induction fuel generalizing k acc with
  | zero => exact absurd hk (Nat.not_lt_zero k)
  | succ fuel ih =>
      rcases Nat.eq_zero_or_pos k with rfl | h0
      · refine ⟨[], ?_, h.root_depth.symm, .nil 0, .nil 0⟩
        simp [Graph.counterexampleFrom, h.root_pred]
      · obtain ⟨p, l, hp, -, hpk, hdepth, ⟨es, hes, he⟩, t, en, st, ht, hok, hst, rfl, hs⟩ :=
          h.parent k h0 hlen
        obtain ⟨ls, hls, hcount, hroute, hfollow⟩ :=
          ih p (by omega) (hpk.trans hlen) (st.label :: acc)
        refine ⟨ls ++ [st.label], ?_, ?_, .snoc hroute hes he, .snoc hfollow ht hok hst hs⟩
        · rw [Graph.counterexampleFrom, hp]
          simpa using hls
        · rw [List.length_append, hcount, hdepth, List.length_singleton]

theorem Tree.depthOf_le_length (h : g.Tree T m) {k : ℕ} {ls : List StepLabel}
    (hr : g.Route 0 ls k) : g.depthOf k ≤ ls.length := by
  induction hr with
  | nil =>
      rw [h.root_depth]
      exact Nat.zero_le _
  | snoc hr hes he ih =>
      have hle := (h.level _ _ _ _ hes he).2
      rw [List.length_append, List.length_singleton]
      omega

end Graph

namespace Search

variable {m : ℕ} {s : Search S}

theorem start_tree (s : S) : (start T s).graph.Tree T 0 where
  pred_length := rfl
  depth_length := rfl
  root_pred := rfl
  root_depth := rfl
  parent := fun k h0 hk ↦ absurd hk (Nat.not_lt.mpr h0)
  mono := fun i j hij hj ↦ by
    obtain rfl : j = 0 := Nat.lt_one_iff.mp hj
    rw [Nat.le_zero.mp hij]
  level := fun i es k l hes he ↦ by
    have hi : i = 0 := Nat.lt_one_iff.mp (List.getElem?_eq_some_iff.mp hes).1
    subst hi
    obtain rfl : [] = es := Option.some.inj hes
    cases he

/-- Recording one offered step of the state that is being expanded. -/
theorem addStep_tree {idx : ℕ} {t : S} {en : Enabled S} {st : Step S} (hs : Core T (idx + 1) s)
    (h : s.graph.Tree T (idx + 1)) (ht : s.graph.states[idx]? = some t)
    (hok : T.successors t = .ok en) (hst : st ∈ en.steps) :
    (addStep T idx (s.graph.depthOf idx) s st).graph.Tree T (idx + 1) ∧
      (addStep T idx (s.graph.depthOf idx) s st).graph.depthOf idx = s.graph.depthOf idx := by
  have hidx : idx < s.graph.states.length := hs.le
  simp only [addStep]
  cases hlook : s.graph.index.lookup (T.stateKey st.state) with
  | some target =>
      obtain ⟨u, hu, -⟩ := (hs.index_iff _ _).mp hlook
      exact ⟨h.addEdge (List.getElem?_eq_some_iff.mp hu).1 (h.depthOf_le hidx target), rfl⟩
  | none =>
      refine ⟨h.addChild hidx hs.edges_length ht hok hst, ?_⟩
      exact Graph.depthOf_of_append rfl (by rwa [hs.depth_length])

theorem foldl_addStep_tree {idx d : ℕ} {t : S} {en : Enabled S} (hok : T.successors t = .ok en)
    (ht : T.Reachable t) (sts : List (Step S)) (hsub : sts ⊆ en.steps) (hs : Core T (idx + 1) s)
    (h : s.graph.Tree T (idx + 1)) (hidx : s.graph.states[idx]? = some t)
    (hd : s.graph.depthOf idx = d) :
    (sts.foldl (addStep T idx d) s).graph.Tree T (idx + 1) := by
  induction sts generalizing s with
  | nil => exact h
  | cons st sts ih =>
      have hst : st ∈ en.steps := hsub List.mem_cons_self
      subst hd
      obtain ⟨htree, hkeep⟩ := addStep_tree hs h hidx hok hst
      obtain ⟨hcore, hgrows, -⟩ := addStep_spec (s.graph.depthOf idx) hs (Nat.lt_succ_self idx)
        (ht.step ⟨en, hok, st, hst, rfl⟩)
      exact ih (fun u hu ↦ hsub (List.mem_cons_of_mem _ hu)) hcore htree
        (getElem?_mono hgrows.states hidx) hkeep

theorem expand_tree {idx d : ℕ} {t : S} (hs : Core T (idx + 1) s)
    (h : s.graph.Tree T (idx + 1)) (ht : s.graph.states[idx]? = some t)
    (hd : s.graph.depth[idx]? = some d) : (expand T idx d t s).graph.Tree T (idx + 1) := by
  have hreach : T.Reachable t := hs.reach t (List.mem_of_getElem? ht)
  have hdepth : s.graph.depthOf idx = d := by rw [Graph.depthOf, hd, Option.getD_some]
  rw [expand]
  cases hsucc : T.successors t with
  | error e =>
      cases e with
      | unsupported u => exact h.congr rfl rfl rfl rfl
      | invalid v => exact h.congr rfl rfl rfl rfl
  | ok en =>
      by_cases hb : en.boundary = []
      · simp only [hb, if_true]
        exact foldl_addStep_tree hsucc hreach _ (List.Subset.refl _) hs h ht hdepth
      · simp only [hb, if_false]
        have hs' := hs.markBoundary (Nat.lt_succ_self idx) (s.boundaryEvents ++ en.boundary)
          (by simp_all) false (by simp) s.unsupported s.invalid
        simp only [Bool.or_false] at hs'
        exact foldl_addStep_tree hsucc hreach _ (List.Subset.refl _) hs' (h.congr rfl rfl rfl rfl) ht
          hdepth

theorem run_tree (bounds : AnalysisBounds) (fuel : ℕ) (hs : Inv T m s)
    (h : s.graph.Tree T m) : ∃ m', (run T bounds fuel s).graph.Tree T m' := by
  induction fuel generalizing m s with
  | zero => exact ⟨m, h⟩
  | succ fuel ih =>
      have hnext : ∀ queue, (s.dequeue m queue).graph.Tree T (m + 1) := fun queue ↦
        (h.later (Nat.le_succ m)).congr rfl rfl rfl rfl
      cases hs.turn fuel with
      | dry _ hrun =>
          rw [hrun]
          exact ⟨m, h⟩
      | limit queue hrun =>
          rw [hrun]
          exact ⟨m, h⟩
      | cut queue t _ hq ht hrun =>
          rw [hrun]
          exact ih (round_spec hs hq ht 0 (depthLimit bounds)).2 
            ((hnext queue).congr rfl rfl rfl rfl)
      | stop queue t d hq ht hd _ hrun =>
          rw [hrun]
          exact ⟨m + 1, expand_tree (dequeue_core hs.core hq) (hnext queue) ht hd⟩
      | go queue t d _ hq ht hd hrun =>
          rw [hrun]
          exact ih (round_spec hs hq ht d (depthLimit bounds)).1
            (expand_tree (dequeue_core hs.core hq) (hnext queue) ht hd)

end Search

/-- The path to an explored state is a run of the system to that very state along explored
edges, and no path of explored edges to it is shorter. -/
theorem counterexample_shortest (bounds : AnalysisBounds) {s t : S} (h : T.initial = .ok s)
    {k : ℕ} (hk : (Search.explored T bounds s).graph.states[k]? = some t) :
    let g := (Search.explored T bounds s).graph
    g.states[0]? = some s ∧ Graph.Follows T g 0 (g.counterexample k) k ∧
      g.Route 0 (g.counterexample k) k ∧
      ∀ ls, g.Route 0 ls k → (g.counterexample k).length ≤ ls.length := by
  intro g
  obtain ⟨m, htree⟩ := Search.run_tree bounds (bounds.maxStates + 1) (Search.start_inv h)
    (Search.start_tree s)
  have hdone : (Search.explored T bounds s).Done T := Search.explored_done h
  obtain ⟨m', queue, hinv, -⟩ := hdone
  obtain ⟨s', hs', hroot⟩ := hinv.core.root
  obtain rfl : s = s' := Except.ok.inj (h.symm.trans hs')
  have hlt : k < g.states.length := (List.getElem?_eq_some_iff.mp hk).1
  obtain ⟨ls, hls, hlen, hroute, hfollow⟩ := htree.counterexampleFrom _ k hlt hlt []
  have hce : g.counterexample k = ls := by
    rw [Graph.counterexample]
    exact hls.trans (List.append_nil ls)
  rw [hce]
  refine ⟨hroot, hfollow, hroute, fun ls' hr ↦ ?_⟩
  rw [hlen]
  exact htree.depthOf_le_length hr

theorem counterexample_shortest_chain :
    let g := (Search.explored chainSystem (chainContract 100).bounds 0).graph
    g.counterexample 2 = [⟨⟨0, 0, some 0, .statement⟩, some 0, some 0⟩,
        ⟨⟨0, 0, some 1, .statement⟩, some 0, some 0⟩] ∧
      Graph.Follows chainSystem g 0 (g.counterexample 2) 2 :=
  ⟨by decide, (counterexample_shortest (t := 2) (chainContract 100).bounds rfl (k := 2)
    (by decide)).2.1⟩

end ConcIR
