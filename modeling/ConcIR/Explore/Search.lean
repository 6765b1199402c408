import ConcIR.Explore.Verify

/-!
# What the search loop establishes

The invariant of the breadth-first search: states leave the queue in the order
of their numbers, equal keys share a number, and every state that has left the
queue carries exactly the edges of its offered steps, unless a bound or an error
is on record.
-/

namespace ConcIR

variable {S : Type} {T : TransitionSystem S}

theorem getElem?_mono {α : Type*} {l l' : List α} (h : l <+: l') {i : ℕ} {a : α}
    (hi : l[i]? = some a) : l'[i]? = some a := by
  obtain ⟨r, rfl⟩ := h
  rw [List.getElem?_append_left (List.getElem?_eq_some_iff.mp hi).1, hi]

theorem lookup_cons_ite {α : Type*} (k l : String) (a : α) (xs : List (String × α)) :
    ((l, a) :: xs).lookup k = if k = l then some a else xs.lookup k := by
  by_cases h : k = l
  · simp [h]
  · have hb : (k == l) = false := by simpa using h
    simp [List.lookup_cons, hb, h]

namespace Search

/-- The part of the invariant that recording one step preserves: `m` states have
left the queue. -/
structure Core (T : TransitionSystem S) (m : ℕ) (s : Search S) : Prop where
  edges_length : s.graph.edges.length = s.graph.states.length
  hadBoundary_length : s.graph.hadBoundary.length = s.graph.states.length
  depth_length : s.graph.depth.length = s.graph.states.length
  processed_length : s.graph.processed.length = s.graph.states.length
  le : m ≤ s.graph.states.length
  queue_eq : s.queue = List.range' m (s.graph.states.length - m)
  processed : ∀ i < s.graph.states.length, s.graph.processed[i]? = some (decide (i < m))
  index_iff : ∀ k i, s.graph.index.lookup k = some i ↔
    ∃ t, s.graph.states[i]? = some t ∧ T.stateKey t = k
  root : ∃ t, T.initial = .ok t ∧ s.graph.states[0]? = some t
  reach : ∀ t ∈ s.graph.states, T.Reachable t
  fresh : ∀ i, m ≤ i → i < s.graph.states.length →
    s.graph.edges[i]? = some [] ∧ s.graph.hadBoundary[i]? = some false
  truncated : s.truncated = true → s.boundaryEvents ≠ []

/-- An edge records a step: its label and the number of its target's key. -/
def Records (T : TransitionSystem S) (g : Graph S) (e : ℕ × StepLabel) (st : Step S) : Prop :=
  e.2 = st.label ∧ ∃ t, g.states[e.1]? = some t ∧ T.stateKey t = T.stateKey st.state

/-- How a state that has left the queue was dealt with. -/
inductive Expanded (T : TransitionSystem S) (s : Search S) (i : ℕ) (t : S) : Prop
  | cut (h : s.graph.hadBoundary[i]? = some true) (he : s.graph.edges[i]? = some [])
      (hb : s.boundaryEvents ≠ [])
  | ok (en : Enabled S) (h : T.successors t = .ok en) (es : List (ℕ × StepLabel))
      (he : s.graph.edges[i]? = some es) (hes : List.Forall₂ (Records T s.graph) es en.steps)
      (hh : s.graph.hadBoundary[i]? = some (decide (en.boundary ≠ [])))
      (hb : en.boundary ≠ [] → s.boundaryEvents ≠ [])
  | error (e : BackendError) (h : T.successors t = .error e) (he : s.graph.edges[i]? = some [])
      (hh : s.graph.hadBoundary[i]? = some true) (hi : s.unsupported ≠ [] ∨ s.invalid ≠ [])

/-- The loop invariant. -/
structure Inv (T : TransitionSystem S) (m : ℕ) (s : Search S) : Prop where
  core : Core T m s
  expanded : ∀ i < m, ∀ t, s.graph.states[i]? = some t → Expanded T s i t

theorem start_core {s : S} (h : T.initial = .ok s) : Core T 0 (start T s) where
  edges_length := rfl
  hadBoundary_length := rfl
  depth_length := rfl
  processed_length := rfl
  le := Nat.zero_le _
  queue_eq := rfl
  processed := by
    intro i hi
    obtain rfl : i = 0 := by simpa [start, Graph.addState, Graph.empty] using hi
    rfl
  index_iff := by
    intro k i
    cases i with
    | zero =>
        by_cases hk : k = T.stateKey s
        · simp [start, Graph.addState, Graph.empty, hk]
        · simp [start, Graph.addState, Graph.empty, lookup_cons_ite, hk, Ne.symm hk]
    | succ i =>
        by_cases hk : k = T.stateKey s <;>
          simp [start, Graph.addState, Graph.empty, lookup_cons_ite, hk]
  root := ⟨s, h, rfl⟩
  reach := by
    intro t ht
    obtain rfl : t = s := by simpa [start, Graph.addState, Graph.empty] using ht
    exact T.reachable_initial h
  fresh := by
    intro i _ hi
    obtain rfl : i = 0 := by simpa [start, Graph.addState, Graph.empty] using hi
    exact ⟨rfl, rfl⟩
  truncated := by simp [start]

theorem start_inv {s : S} (h : T.initial = .ok s) : Inv T 0 (start T s) :=
  ⟨start_core h, fun i hi ↦ absurd hi (Nat.not_lt_zero i)⟩

/-- What recording steps of state `idx` leaves alone. -/
structure Grows (idx : ℕ) (s s' : Search S) : Prop where
  states : s.graph.states <+: s'.graph.states
  edges : ∀ i < s.graph.states.length, i ≠ idx → s'.graph.edges[i]? = s.graph.edges[i]?
  hadBoundary : ∀ i < s.graph.states.length,
    s'.graph.hadBoundary[i]? = s.graph.hadBoundary[i]?
  boundaryEvents : s'.boundaryEvents = s.boundaryEvents
  unsupported : s'.unsupported = s.unsupported
  invalid : s'.invalid = s.invalid

theorem Grows.refl (idx : ℕ) (s : Search S) : Grows idx s s :=
  ⟨List.prefix_refl _, fun _ _ _ ↦ rfl, fun _ _ ↦ rfl, rfl, rfl, rfl⟩

theorem Grows.trans {idx : ℕ} {a b c : Search S} (h : Grows idx a b) (h' : Grows idx b c) :
    Grows idx a c where
  states := h.states.trans h'.states
  edges := fun i hi hne ↦
    (h'.edges i (hi.trans_le h.states.length_le) hne).trans (h.edges i hi hne)
  hadBoundary := fun i hi ↦
    (h'.hadBoundary i (hi.trans_le h.states.length_le)).trans (h.hadBoundary i hi)
  boundaryEvents := h'.boundaryEvents.trans h.boundaryEvents
  unsupported := h'.unsupported.trans h.unsupported
  invalid := h'.invalid.trans h.invalid

theorem Records.mono {g g' : Graph S} (h : g.states <+: g'.states) {e : ℕ × StepLabel}
    {st : Step S} (hr : Records T g e st) : Records T g' e st := by
  obtain ⟨hl, t, ht, hk⟩ := hr
  exact ⟨hl, t, getElem?_mono h ht, hk⟩

/-- Recording a step that is really offered keeps the invariant, appends one
edge to the state's list and changes no other state's entries. -/
theorem addStep_spec {m idx : ℕ} (depth : ℕ) {s : Search S} {st : Step S} (hs : Core T m s)
    (hidx : idx < m) (hreach : T.Reachable st.state) :
    Core T m (addStep T idx depth s st) ∧ Grows idx s (addStep T idx depth s st) ∧
      ∃ e, Records T (addStep T idx depth s st).graph e st ∧
        (addStep T idx depth s st).graph.edges[idx]? =
          s.graph.edges[idx]?.map (· ++ [e]) := by
  have hlt : idx < s.graph.states.length := hidx.trans_le hs.le
  have hedge : idx < s.graph.edges.length := by rwa [hs.edges_length]
  cases hlook : s.graph.index.lookup (T.stateKey st.state) with
  | some target =>
      obtain ⟨t, ht, hk⟩ := (hs.index_iff _ _).mp hlook
      have hdef : addStep T idx depth s st =
          { s with
            graph := s.graph.addEdge idx (target, st.label)
            transitionsExplored := s.transitionsExplored + 1 } := by
        simp only [addStep, hlook]
      rw [hdef]
      refine ⟨?_, ?_, (target, st.label), ⟨rfl, t, ht, hk⟩, ?_⟩
      · exact { hs with
          edges_length := by simpa [Graph.addEdge] using hs.edges_length
          fresh := fun i hi hin ↦ by
            have hne : idx ≠ i := by omega
            simpa [Graph.addEdge, List.getElem?_modify, hne] using hs.fresh i hi hin }
      · refine ⟨List.prefix_refl _, fun i _ hne ↦ ?_, fun _ _ ↦ rfl, rfl, rfl, rfl⟩
        simp [Graph.addEdge, Ne.symm hne]
      · simp [Graph.addEdge]
  | none =>
      have hdef : addStep T idx depth s st =
          { s with
            graph := (s.graph.addState (T.stateKey st.state) st.state (some (idx, st.label))
              (depth + 1)).addEdge idx (s.graph.states.length, st.label)
            queue := s.queue ++ [s.graph.states.length]
            transitionsExplored := s.transitionsExplored + 1 } := by
        simp only [addStep, hlook]
      rw [hdef]
      refine ⟨?_, ?_, (s.graph.states.length, st.label), ⟨rfl, st.state, ?_, rfl⟩, ?_⟩
      · constructor
        · simp [Graph.addState, Graph.addEdge, hs.edges_length]
        · simp [Graph.addState, Graph.addEdge, hs.hadBoundary_length]
        · simp [Graph.addState, Graph.addEdge, hs.depth_length]
        · simp [Graph.addState, Graph.addEdge, hs.processed_length]
        · have := hs.le
          simp only [Graph.addState, Graph.addEdge, List.length_append, List.length_singleton]
          omega
        · have hle := hs.le
          simp only [Graph.addState, Graph.addEdge, List.length_append, List.length_singleton,
            hs.queue_eq]
          rw [show s.graph.states.length + 1 - m = s.graph.states.length - m + 1 by omega,
            List.range'_concat]
          congr 2
          omega
        · intro i hi
          simp only [Graph.addState, Graph.addEdge, List.length_append,
            List.length_singleton] at hi ⊢
          rcases Nat.lt_succ_iff_lt_or_eq.mp hi with hi | rfl
          · rw [List.getElem?_append_left (by rwa [hs.processed_length]), hs.processed i hi]
          · rw [List.getElem?_append_right (by rw [hs.processed_length])]
            simp [hs.processed_length, hs.le]
        · intro k i
          simp only [Graph.addState, Graph.addEdge, lookup_cons_ite]
          rcases lt_trichotomy i s.graph.states.length with hi | rfl | hi
          · rw [List.getElem?_append_left hi, ← hs.index_iff]
            by_cases hk : k = T.stateKey st.state
            · subst hk
              rw [if_pos rfl, hlook]
              simp only [Option.some.injEq, reduceCtorEq, iff_false]
              omega
            · rw [if_neg hk]
          · by_cases hk : k = T.stateKey st.state
            · simp [hk]
            · have hno : s.graph.index.lookup k ≠ some s.graph.states.length := by
                intro h
                obtain ⟨t, ht, -⟩ := (hs.index_iff _ _).mp h
                simp at ht
              simp [hk, hno, Ne.symm hk]
          · have hno : s.graph.index.lookup k ≠ some i := by
              intro h
              obtain ⟨t, ht, -⟩ := (hs.index_iff _ _).mp h
              have := (List.getElem?_eq_some_iff.mp ht).1
              omega
            have hnone : (s.graph.states ++ [st.state])[i]? = none := by
              simp
              omega
            rw [hnone]
            by_cases hk : k = T.stateKey st.state
            · simp only [hk, if_true, Option.some.injEq, reduceCtorEq, false_and, exists_false,
                iff_false]
              omega
            · simp [hk, hno]
        · obtain ⟨t, hinit, ht⟩ := hs.root
          exact ⟨t, hinit, getElem?_mono (List.prefix_append _ _) ht⟩
        · intro t ht
          rcases List.mem_append.mp ht with ht | ht
          · exact hs.reach t ht
          · rwa [List.mem_singleton.mp ht]
        · intro i hmi hi
          simp only [Graph.addState, Graph.addEdge, List.length_append,
            List.length_singleton] at hi ⊢
          have hne : idx ≠ i := by omega
          rw [List.getElem?_modify_ne _ _ hne]
          rcases Nat.lt_succ_iff_lt_or_eq.mp hi with hi | rfl
          · rw [List.getElem?_append_left (by rwa [hs.edges_length]),
              List.getElem?_append_left (by rwa [hs.hadBoundary_length])]
            exact hs.fresh i hmi hi
          · rw [List.getElem?_append_right (by rw [hs.edges_length]),
              List.getElem?_append_right (by rw [hs.hadBoundary_length])]
            simp [hs.edges_length, hs.hadBoundary_length]
        · exact hs.truncated
      · refine ⟨List.prefix_append _ _, fun i hi hne ↦ ?_, fun i hi ↦ ?_, rfl, rfl, rfl⟩
        · simp only [Graph.addState, Graph.addEdge]
          rw [List.getElem?_modify_ne _ _ (Ne.symm hne),
            List.getElem?_append_left (by rwa [hs.edges_length])]
        · simp only [Graph.addState, Graph.addEdge]
          rw [List.getElem?_append_left (by rwa [hs.hadBoundary_length])]
      · simp [Graph.addState, Graph.addEdge]
      · simp only [Graph.addState, Graph.addEdge]
        rw [List.getElem?_modify_eq, List.getElem?_append_left hedge]
        rfl

/-- Recording all offered steps of state `idx`, from an edge list `es₀`. -/
theorem foldl_addStep_spec {m idx : ℕ} (depth : ℕ) (hidx : idx < m) (sts : List (Step S)) :
    ∀ (s : Search S) (es₀ : List (ℕ × StepLabel)), Core T m s →
      s.graph.edges[idx]? = some es₀ → (∀ st ∈ sts, T.Reachable st.state) →
        Core T m (sts.foldl (addStep T idx depth) s) ∧
          Grows idx s (sts.foldl (addStep T idx depth) s) ∧
            ∃ es, List.Forall₂ (Records T (sts.foldl (addStep T idx depth) s).graph) es sts ∧
              (sts.foldl (addStep T idx depth) s).graph.edges[idx]? = some (es₀ ++ es) := by
  induction sts with
  | nil => exact fun s es₀ hs he _ ↦ ⟨hs, .refl idx s, [], .nil, by simpa using he⟩
  | cons st sts ih =>
      intro s es₀ hs he hr
      obtain ⟨hc, hg, e, hrec, hedge⟩ :=
        addStep_spec depth hs hidx (hr st List.mem_cons_self)
      rw [he, Option.map_some] at hedge
      obtain ⟨hc', hg', es, hes, hedge'⟩ :=
        ih _ _ hc hedge fun t ht ↦ hr t (List.mem_cons_of_mem _ ht)
      refine ⟨hc', hg.trans hg', e :: es, .cons (hrec.mono hg'.states) hes, ?_⟩
      rw [List.foldl_cons, hedge', List.append_assoc, List.singleton_append]

/-- A dealt-with state stays dealt with when the search goes on elsewhere. -/
theorem Expanded.mono {s s' : Search S} {i : ℕ} {t : S} (h : Expanded T s i t)
    (hst : s.graph.states <+: s'.graph.states)
    (he : s'.graph.edges[i]? = s.graph.edges[i]?)
    (hh : s'.graph.hadBoundary[i]? = s.graph.hadBoundary[i]?)
    (hb : s.boundaryEvents ≠ [] → s'.boundaryEvents ≠ [])
    (hu : s.unsupported ≠ [] → s'.unsupported ≠ [])
    (hv : s.invalid ≠ [] → s'.invalid ≠ []) : Expanded T s' i t := by
  cases h with
  | cut h₁ h₂ h₃ => exact .cut (hh.trans h₁) (he.trans h₂) (hb h₃)
  | ok en h es h₁ h₂ h₃ h₄ =>
      exact .ok en h es (he.trans h₁) (h₂.imp fun _ _ hr ↦ hr.mono hst) (hh.trans h₃)
        fun hne ↦ hb (h₄ hne)
  | error e h h₁ h₂ h₃ =>
      exact .error e h (he.trans h₁) (hh.trans h₂) (h₃.imp hu hv)

/-- The search after state `m` has left the queue. -/
def dequeue (s : Search S) (m : ℕ) (queue : List ℕ) : Search S :=
  { s with queue := queue, graph := s.graph.markProcessed m }

theorem dequeue_core {m : ℕ} {s : Search S} {queue : List ℕ} (hs : Core T m s)
    (hq : s.queue = m :: queue) : Core T (m + 1) (s.dequeue m queue) := by
  have hlt : m < s.graph.states.length := by
    have h := hs.queue_eq
    rw [hq] at h
    by_contra hle
    rw [Nat.sub_eq_zero_of_le (not_lt.mp hle)] at h
    cases h
  exact { hs with
    processed_length := by simpa [dequeue, Graph.markProcessed] using hs.processed_length
    le := hlt
    queue_eq := by
      have h := hs.queue_eq
      rw [hq, show s.graph.states.length - m = s.graph.states.length - (m + 1) + 1 by omega,
        List.range'_succ] at h
      exact (List.cons.inj h).2
    processed := by
      intro i hi
      by_cases him : m = i
      · subst him
        simp [dequeue, Graph.markProcessed, hs.processed_length, hlt]
      · have h := hs.processed i hi
        simp only [dequeue, Graph.markProcessed, List.getElem?_set_ne him, h]
        congr 2
        exact propext (by omega)
    fresh := fun i hi hin ↦ hs.fresh i (by omega) hin }

/-- Marking a state that has left the queue keeps the invariant. -/
theorem Core.markBoundary {m idx : ℕ} {s : Search S} (hs : Core T m s) (hidx : idx < m)
    (b : List BoundaryEvent) (hb : s.boundaryEvents ≠ [] → b ≠ []) (tr : Bool)
    (htr : tr = true → b ≠ []) (u : List Unsupported) (v : List Invalid) :
    Core T m { s with
      graph := s.graph.markBoundary idx
      boundaryEvents := b
      truncated := s.truncated || tr
      unsupported := u
      invalid := v } :=
  { hs with
    hadBoundary_length := by simpa [Graph.markBoundary] using hs.hadBoundary_length
    fresh := fun i hi hin ↦ by
      have hne : idx ≠ i := by omega
      simpa [Graph.markBoundary, List.getElem?_set_ne hne] using hs.fresh i hi hin
    truncated := fun h ↦ by
      rcases Bool.or_eq_true_iff.mp h with h | h
      · exact hb (hs.truncated h)
      · exact htr h }

/-- What expanding a state changes: nothing about the states before it, and the
state itself is dealt with. -/
theorem expand_spec {m depth : ℕ} {s : Search S} {t : S} (hs : Core T (m + 1) s)
    (ht : s.graph.states[m]? = some t) (he : s.graph.edges[m]? = some [])
    (hh : s.graph.hadBoundary[m]? = some false) (hinv : ∀ i < m, ∀ t,
      s.graph.states[i]? = some t → Expanded T s i t) :
    Inv T (m + 1) (expand T m depth t s) := by
  have hlt : m < s.graph.states.length := hs.le
  have hreach : T.Reachable t := hs.reach t (List.mem_of_getElem? ht)
  -- The states before `m` keep their entries whenever `m` alone is marked.
  have hkeep : ∀ s' : Search S, s.graph.states <+: s'.graph.states →
      (∀ i < m, s'.graph.edges[i]? = s.graph.edges[i]?) →
      (∀ i < m, s'.graph.hadBoundary[i]? = s.graph.hadBoundary[i]?) →
      (s.boundaryEvents ≠ [] → s'.boundaryEvents ≠ []) →
      (s.unsupported ≠ [] → s'.unsupported ≠ []) → (s.invalid ≠ [] → s'.invalid ≠ []) →
      Expanded T s' m t → ∀ i < m + 1, ∀ u, s'.graph.states[i]? = some u →
        Expanded T s' i u := by
    intro s' hst hed hhb hb hu hv hm i hi u hiu
    rcases Nat.lt_succ_iff_lt_or_eq.mp hi with hi | rfl
    · have hold : s.graph.states[i]? = some u := by
        obtain ⟨r, hr⟩ := hst
        rwa [← hr, List.getElem?_append_left (hi.trans hlt)] at hiu
      exact (hinv i hi u hold).mono hst (hed i hi) (hhb i hi) hb hu hv
    · rw [getElem?_mono hst ht] at hiu
      rwa [← Option.some.inj hiu]
  have hset : ∀ i < m, (s.graph.hadBoundary.set m true)[i]? = s.graph.hadBoundary[i]? :=
    fun i hi ↦ List.getElem?_set_ne (by omega)
  have hself : (s.graph.hadBoundary.set m true)[m]? = some true := by
    rw [List.getElem?_set_self (by rwa [hs.hadBoundary_length])]
  cases hsucc : T.successors t with
  | error e =>
      cases e with
      | unsupported u =>
          have hdef : expand T m depth t s =
              { s with graph := s.graph.markBoundary m, unsupported := s.unsupported ++ [u] } := by
            simp only [expand, hsucc]
          rw [hdef]
          refine ⟨?_, hkeep _ (List.prefix_refl _) (fun _ _ ↦ rfl) hset id (by simp) id
            (.error _ hsucc he hself (.inl (by simp)))⟩
          simpa using hs.markBoundary (Nat.lt_succ_self m) s.boundaryEvents id false (by simp)
            (s.unsupported ++ [u]) s.invalid
      | invalid v =>
          have hdef : expand T m depth t s =
              { s with graph := s.graph.markBoundary m, invalid := s.invalid ++ [v] } := by
            simp only [expand, hsucc]
          rw [hdef]
          refine ⟨?_, hkeep _ (List.prefix_refl _) (fun _ _ ↦ rfl) hset id id (by simp)
            (.error _ hsucc he hself (.inr (by simp)))⟩
          simpa using hs.markBoundary (Nat.lt_succ_self m) s.boundaryEvents id false (by simp)
            s.unsupported (s.invalid ++ [v])
  | ok en =>
      have hnext : ∀ st ∈ en.steps, T.Reachable st.state :=
        fun st hst ↦ hreach.step ⟨en, hsucc, st, hst, rfl⟩
      by_cases hbd : en.boundary = []
      · have hdef : expand T m depth t s = en.steps.foldl (addStep T m depth) s := by
          simp only [expand, hsucc, hbd, if_true]
        obtain ⟨hc, hg, es, hes, hedge⟩ := foldl_addStep_spec depth
          (Nat.lt_succ_self m) en.steps s [] hs he hnext
        rw [hdef]
        refine ⟨hc, hkeep _ hg.states (fun i hi ↦ hg.edges i (hi.trans hlt) hi.ne)
          (fun i hi ↦ hg.hadBoundary i (hi.trans hlt)) (by rw [hg.boundaryEvents]; exact id)
          (by rw [hg.unsupported]; exact id) (by rw [hg.invalid]; exact id)
          (.ok en hsucc es hedge hes ?_ ?_)⟩
        · rw [hg.hadBoundary m hlt, hh]
          simp [hbd]
        · exact fun h ↦ absurd hbd h
      · have hdef : expand T m depth t s = en.steps.foldl (addStep T m depth)
            { s with
              graph := s.graph.markBoundary m
              boundaryEvents := s.boundaryEvents ++ en.boundary } := by
          simp only [expand, hsucc, hbd, if_false]
        have hs' := hs.markBoundary (Nat.lt_succ_self m) (s.boundaryEvents ++ en.boundary)
          (by simp_all) false (by simp) s.unsupported s.invalid
        simp only [Bool.or_false] at hs'
        obtain ⟨hc, hg, es, hes, hedge⟩ := foldl_addStep_spec depth
          (Nat.lt_succ_self m) en.steps _ [] hs' he hnext
        rw [hdef]
        refine ⟨hc, hkeep _ hg.states (fun i hi ↦ hg.edges i (hi.trans hlt) hi.ne)
          (fun i hi ↦ (hg.hadBoundary i (hi.trans hlt)).trans (hset i hi)) ?_
          (by rw [hg.unsupported]; exact id) (by rw [hg.invalid]; exact id)
          (.ok en hsucc es hedge hes ?_ ?_)⟩
        · rw [hg.boundaryEvents]
          simp [hbd]
        · rw [hg.hadBoundary m hlt]
          simpa [hbd, Graph.markBoundary] using hself
        · rw [hg.boundaryEvents]
          simp [hbd]

/-- The loop ends with every state dealt with or a boundary event on record. What
is left in the queue no longer matters. -/
def Done (T : TransitionSystem S) (s : Search S) : Prop :=
  ∃ m queue, Inv T m { s with queue := queue } ∧
    (s.boundaryEvents = [] → m = s.graph.states.length)

/-- Recording a boundary event changes nothing that has been established. -/
theorem Inv.cutOff {m : ℕ} {s : Search S} (hs : Inv T m s) (b : List BoundaryEvent)
    (hb : b ≠ []) : Inv T m { s with truncated := true, boundaryEvents := b } where
  core := { hs.core with truncated := fun _ ↦ hb }
  expanded := fun i hi t ht ↦
    (hs.expanded i hi t ht).mono (List.prefix_refl _) rfl rfl (fun _ ↦ hb) id id

/-- One round on state `m`, up to the check of the event bound. -/
theorem round_spec {m : ℕ} {s : Search S} {queue : List ℕ} {t : S} (hs : Inv T m s)
    (hq : s.queue = m :: queue) (ht : s.graph.states[m]? = some t) (depth : ℕ)
    (e : BoundaryEvent) :
    Inv T (m + 1) (expand T m depth t (s.dequeue m queue)) ∧
      Inv T (m + 1) { s.dequeue m queue with
        truncated := true
        graph := (s.dequeue m queue).graph.markBoundary m
        boundaryEvents := s.boundaryEvents ++ [e] } := by
  have hcore := dequeue_core hs.core hq
  have hlt : m < s.graph.states.length := hcore.le
  obtain ⟨hedge, hbound⟩ := hs.core.fresh m le_rfl hlt
  have hold : ∀ i < m, ∀ t, (s.dequeue m queue).graph.states[i]? = some t →
      Expanded T (s.dequeue m queue) i t := fun i hi t ht ↦
    (hs.expanded i hi t ht).mono (List.prefix_refl _) rfl rfl id id id
  refine ⟨expand_spec hcore ht hedge hbound hold, ?_, fun i hi u hu ↦ ?_⟩
  · have h := hcore.markBoundary (Nat.lt_succ_self m) (s.boundaryEvents ++ [e])
      (by simp) true (by simp) s.unsupported s.invalid
    rw [Bool.or_true] at h
    exact h
  · rcases Nat.lt_succ_iff_lt_or_eq.mp hi with hi | rfl
    · refine (hold i hi u hu).mono (List.prefix_refl _) rfl ?_ (by simp) id id
      exact List.getElem?_set_ne (by omega)
    · refine .cut ?_ hedge (by simp)
      simp only [dequeue, Graph.markProcessed, Graph.markBoundary]
      rw [List.getElem?_set_self (by rwa [hs.core.hadBoundary_length])]

/-- What one turn of the loop does when `m` states have left the queue. -/
inductive Turn (T : TransitionSystem S) (bounds : AnalysisBounds) (fuel m : ℕ)
    (s : Search S) : Prop
  | dry (hm : m = s.graph.states.length) (h : run T bounds (fuel + 1) s = s)
  | limit (queue : List ℕ) (h : run T bounds (fuel + 1) s =
      { s with
        queue := queue
        truncated := true
        boundaryEvents := s.boundaryEvents ++ [stateLimit bounds] })
  | cut (queue : List ℕ) (t : S) (hlt : m < bounds.maxStates) (hq : s.queue = m :: queue)
      (ht : s.graph.states[m]? = some t)
      (h : run T bounds (fuel + 1) s = run T bounds fuel { s.dequeue m queue with
        truncated := true
        graph := (s.dequeue m queue).graph.markBoundary m
        boundaryEvents := s.boundaryEvents ++ [depthLimit bounds] })
  | stop (queue : List ℕ) (t : S) (d : ℕ) (hq : s.queue = m :: queue)
      (ht : s.graph.states[m]? = some t) (hd : s.graph.depth[m]? = some d)
      (hne : (expand T m d t (s.dequeue m queue)).boundaryEvents ≠ [])
      (h : run T bounds (fuel + 1) s =
        { expand T m d t (s.dequeue m queue) with truncated := true })
  | go (queue : List ℕ) (t : S) (d : ℕ) (hlt : m < bounds.maxStates)
      (hq : s.queue = m :: queue) (ht : s.graph.states[m]? = some t)
      (hd : s.graph.depth[m]? = some d)
      (h : run T bounds (fuel + 1) s = run T bounds fuel (expand T m d t (s.dequeue m queue)))

theorem Inv.turn {bounds : AnalysisBounds} {m : ℕ} {s : Search S} (hs : Inv T m s)
    (fuel : ℕ) : Turn T bounds fuel m s := by
  cases hq : s.queue with
  | nil =>
      refine .dry ?_ (by simp only [run, hq])
      have h := hs.core.queue_eq
      rw [hq, eq_comm, List.range'_eq_nil_iff] at h
      have := hs.core.le
      omega
  | cons idx queue =>
      obtain rfl : idx = m := by
        have h := hs.core.queue_eq
        rw [hq] at h
        cases hn : s.graph.states.length - m with
        | zero => simp [hn] at h
        | succ k =>
            rw [hn, List.range'_succ] at h
            exact (List.cons.inj h).1
      have hlt : idx < s.graph.states.length := (dequeue_core hs.core hq).le
      by_cases hmax : bounds.maxStates ≤ s.graph.states.length
      · -- The state limit: the state taken off the queue stays as it is.
        exact .limit queue (by simp only [run, hq, hmax, if_true])
      · obtain ⟨t, ht⟩ : ∃ t, s.graph.states[idx]? = some t :=
          ⟨_, List.getElem?_eq_getElem hlt⟩
        obtain ⟨d, hd⟩ : ∃ d, s.graph.depth[idx]? = some d :=
          ⟨_, List.getElem?_eq_getElem (by rwa [hs.core.depth_length])⟩
        by_cases hdep : bounds.maxDepth ≤ d
        · refine .cut queue t (by omega) hq ht ?_
          simp only [run, hq, hmax, if_false, Graph.markProcessed, ht, hd, hdep, if_true,
            dequeue]
        · have hdef : run T bounds (fuel + 1) s =
              if bounds.maxBoundaryEvents <
                  (expand T idx d t (s.dequeue idx queue)).boundaryEvents.length then
                { expand T idx d t (s.dequeue idx queue) with truncated := true }
              else run T bounds fuel (expand T idx d t (s.dequeue idx queue)) := by
            simp only [run, hq, hmax, if_false, Graph.markProcessed, ht, hd, hdep, dequeue]
            rfl
          split_ifs at hdef with hev
          · exact .stop queue t d hq ht hd
              (List.ne_nil_of_length_pos (Nat.zero_lt_of_lt hev)) hdef
          · exact .go queue t d (by omega) hq ht hd hdef

theorem run_spec {bounds : AnalysisBounds} (fuel : ℕ) :
    ∀ (m : ℕ) (s : Search S), Inv T m s → m ≤ bounds.maxStates →
      bounds.maxStates < m + fuel → Done T (run T bounds fuel s) := by
  induction fuel with
  | zero =>
      intro m s _ hm hf
      omega
  | succ fuel ih =>
      intro m s hs hm hf
      cases hs.turn fuel with
      | dry hend h =>
          rw [h]
          exact ⟨m, s.queue, hs, fun _ ↦ hend⟩
      | limit queue h =>
          rw [h]
          exact ⟨m, s.queue, hs.cutOff _ (by simp), by simp⟩
      | cut queue t hlt hq ht h =>
          rw [h]
          exact ih (m + 1) _ (round_spec hs hq ht 0 (depthLimit bounds)).2 (by omega) (by omega)
      | stop queue t d hq ht hd hne h =>
          rw [h]
          have hexp := (round_spec hs hq ht d (depthLimit bounds)).1
          exact ⟨m + 1, _, hexp.cutOff _ hne, fun h ↦ absurd h hne⟩
      | go queue t d hlt hq ht hd h =>
          rw [h]
          exact ih (m + 1) _ (round_spec hs hq ht d (depthLimit bounds)).1 (by omega) (by omega)

/-- The finished search from the initial state. -/
theorem explored_done {bounds : AnalysisBounds} {s : S} (h : T.initial = .ok s) :
    Done T (explored T bounds s) :=
  run_spec _ 0 _ (start_inv h) (Nat.zero_le _) (by omega)

end Search

end ConcIR
