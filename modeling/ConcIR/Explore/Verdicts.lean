import ConcIR.Explore.Coverage

/-!
# What the verdicts mean

`Holds` and `Violated` state a property over the full transition system, `Refuted`
states what a check looks for in the explored graph. The outcomes of the checks are
read off `Refuted`, and the coverage results carry it over to the full system.
-/

namespace ConcIR

variable {S : Type} {T : TransitionSystem S}

namespace TransitionSystem

variable (T : TransitionSystem S)

/-- Nothing is enabled, nothing was cut off, and some thread is unfinished. -/
def Deadlock (s : S) : Prop := T.successors s = .ok .empty ∧ T.isFinished s = false

/-- The property holds of the full, unbounded system. -/
def Holds : Property → Prop
  | .safety invariant => ∀ s, T.Reachable s → T.satisfied s invariant = true
  | .deadlockFree => ∀ s en, T.Reachable s → T.successors s = .ok en → en.steps = [] →
      T.isFinished s = true
  | .reachability goal => ∃ s, T.Reachable s ∧ T.satisfied s goal = true
  | .alwaysReachable goal => ∀ s, T.Reachable s →
      ∃ t, T.ReachableFrom s t ∧ T.satisfied t goal = true
  | .unreachable bad => ∀ s, T.Reachable s → T.satisfied s bad = false

/-- The full system has a violation: a violating state, or a state from which the
goal is out of reach. -/
def Violated : Property → Prop
  | .safety invariant => ∃ s, T.Reachable s ∧ T.satisfied s invariant = false
  | .deadlockFree => ∃ s, T.Reachable s ∧ T.Deadlock s
  | .reachability goal => ∃ s, T.initial = .ok s ∧
      ∀ t, T.ReachableFrom s t → T.satisfied t goal = false
  | .alwaysReachable goal => ∃ s, T.Reachable s ∧
      ∀ t, T.ReachableFrom s t → T.satisfied t goal = false
  | .unreachable bad => ∃ s, T.Reachable s ∧ T.satisfied s bad = true

theorem not_holds_of_violated {p : Property} (h : T.Violated p) : ¬T.Holds p := by
  intro hh
  cases p with
  | safety invariant =>
      obtain ⟨s, hs, hv⟩ := h
      exact absurd (hh s hs) (by simp [hv])
  | deadlockFree =>
      obtain ⟨s, hs, hsucc, hf⟩ := h
      exact absurd (hh s .empty hs hsucc rfl) (by simp [hf])
  | reachability goal =>
      obtain ⟨s, hinit, hno⟩ := h
      obtain ⟨t, ⟨i, hi, hrun⟩, ht⟩ := hh
      obtain rfl : s = i := Except.ok.inj (hinit.symm.trans hi)
      exact absurd ht (by simp [hno t hrun])
  | alwaysReachable goal =>
      obtain ⟨s, hs, hno⟩ := h
      obtain ⟨t, hrun, ht⟩ := hh s hs
      exact absurd ht (by simp [hno t hrun])
  | unreachable bad =>
      obtain ⟨s, hs, hv⟩ := h
      exact absurd (hh s hs) (by simp [hv])

end TransitionSystem

def Preserved.toProperty : Preserved → Property
  | .reachable goal => .reachability goal
  | .always invariant => .safety invariant

/-- A goal that only a complete graph can show to be missed. -/
def Property.isReachability : Property → Bool
  | .reachability _ => true
  | _ => false

/-- The explored graph has what the check of the property looks for. -/
def Refuted (T : TransitionSystem S) (g : Graph S) : Property → Prop
  | .safety invariant => ∃ s ∈ g.states, T.satisfied s invariant = false
  | .deadlockFree => ∃ (i : ℕ) (s : S), g.states[i]? = some s ∧ g.processed[i]? = some true ∧
      g.hadBoundary[i]? = some false ∧ g.edges[i]? = some [] ∧ T.isFinished s = false
  | .reachability goal => ∀ s ∈ g.states, T.satisfied s goal = false
  | .alwaysReachable goal => ∃ (i : ℕ) (s : S), g.states[i]? = some s ∧
      ∀ (j : ℕ) (t : S), g.Path i j → g.states[j]? = some t → T.satisfied t goal = false
  | .unreachable bad => ∃ s ∈ g.states, T.satisfied s bad = true

section Checks

/-- The lists of a graph that run over its states, with at least one state. -/
structure Graph.Aligned (g : Graph S) : Prop where
  nonempty : 0 < g.states.length
  edges : g.edges.length = g.states.length
  hadBoundary : g.hadBoundary.length = g.states.length
  processed : g.processed.length = g.states.length

@[simp] theorem unlessCut_eq_fail {c : Bool} {o : Outcome} :
    unlessCut c o = .fail ↔ c = true ∧ o = .fail := by
  cases c <;> simp [unlessCut]

@[simp] theorem unlessCut_eq_pass {c : Bool} {o : Outcome} :
    unlessCut c o = .pass ↔ c = true ∧ o = .pass := by
  cases c <;> simp [unlessCut]

variable {g : Graph S} {id : String} {c : Bool}

theorem deadlock_found (hg : g.Aligned) :
    ((List.range g.states.length).find? (isDeadlock T g)).isSome = true ↔
      Refuted T g .deadlockFree := by
  simp only [List.find?_isSome, List.mem_range, Refuted]
  refine exists_congr fun i ↦ ⟨fun ⟨hi, h⟩ ↦ ?_, fun ⟨s, hs, hp, hb, he, hf⟩ ↦ ?_⟩
  · have hp : i < g.processed.length := hg.processed ▸ hi
    have hb : i < g.hadBoundary.length := hg.hadBoundary ▸ hi
    have he : i < g.edges.length := hg.edges ▸ hi
    refine ⟨g.states[i], List.getElem?_eq_getElem hi, ?_⟩
    simpa [isDeadlock, List.getElem?_eq_getElem, hi, hp, hb, he, and_assoc] using h
  · exact ⟨(List.getElem?_eq_some_iff.mp hs).1, by simp [isDeadlock, hs, hp, hb, he, hf]⟩

theorem mem_goalStates {goal : Predicate} {i : ℕ} :
    i ∈ goalStates T g goal ↔ ∃ s, g.states[i]? = some s ∧ T.satisfied s goal = true := by
  rw [goalStates, List.mem_filter, List.mem_range]
  constructor
  · rintro ⟨hi, h⟩
    exact ⟨g.states[i], List.getElem?_eq_getElem hi,
      by simpa [List.getElem?_eq_getElem hi] using h⟩
  · rintro ⟨s, hs, h⟩
    exact ⟨(List.getElem?_eq_some_iff.mp hs).1, by simp [hs, h]⟩

theorem cannotReach_found (hg : g.Aligned) {goal : Predicate} :
    ((List.range g.states.length).find?
      fun i ↦ i ∉ g.reverseReachable (goalStates T g goal)).isSome = true ↔
        Refuted T g (.alwaysReachable goal) := by
  simp only [List.find?_isSome, List.mem_range, decide_eq_true_eq, Refuted]
  refine exists_congr fun i ↦ ?_
  have hn : (goalStates T g goal).Nodup := List.nodup_range.filter _
  rw [g.mem_reverseReachable hg.edges hn
    fun r hr ↦ List.mem_range.mp (List.mem_filter.mp hr).1]
  simp only [mem_goalStates, not_exists, not_and]
  constructor
  · rintro ⟨hi, h⟩
    refine ⟨g.states[i], List.getElem?_eq_getElem hi, fun j t hp ht ↦ ?_⟩
    by_contra hne
    exact h j ⟨t, ht, by simpa using hne⟩ hp
  · rintro ⟨s, hs, h⟩
    refine ⟨(List.getElem?_eq_some_iff.mp hs).1, fun j ⟨t, ht, hsat⟩ hp ↦ ?_⟩
    simp [h j t hp ht] at hsat

/-- The outcome of a check: what it looks for is in the graph or not, and only the
branch that claims an absence consults completeness. The check of an
always-reachable goal fails without consulting it. -/
theorem checkProperty_outcome (hg : g.Aligned) (p : Property) (id : String) (c : Bool) :
    ((checkProperty T g id p c).outcome = .fail ↔
      Refuted T g p ∧ (p.isReachability = true → c = true)) ∧
    ((checkProperty T g id p c).outcome = .pass ↔
      ¬Refuted T g p ∧ (p.isReachability = false → c = true)) := by
  cases p with
  | safety invariant =>
      have h : Refuted T g (.safety invariant) ↔
          (g.states.findIdx? fun s ↦ !T.satisfied s invariant).isSome = true := by
        simp [Refuted]
      rw [h]
      cases hf : g.states.findIdx? (fun s ↦ !T.satisfied s invariant) <;>
        simp [checkProperty, Property.isReachability, hf]
  | deadlockFree =>
      rw [← deadlock_found hg]
      simp only [checkProperty]
      cases (List.range g.states.length).find? (isDeadlock T g) <;>
        simp [Property.isReachability]
  | reachability goal =>
      have h : Refuted T g (.reachability goal) ↔
          ¬(g.states.findIdx? fun s ↦ T.satisfied s goal).isSome = true := by
        simp [Refuted]
      rw [h]
      cases hf : g.states.findIdx? (fun s ↦ T.satisfied s goal) <;>
        simp [checkProperty, Property.isReachability, hf]
  | alwaysReachable goal =>
      by_cases hgoal : goalStates T g goal = []
      · -- Without an explored goal state, the initial state reaches none either.
        have hr : Refuted T g (.alwaysReachable goal) := by
          have h0 : 0 < g.states.length := hg.nonempty
          refine ⟨0, g.states[0], List.getElem?_eq_getElem _, fun j t _ ht ↦ ?_⟩
          by_contra hne
          have hj : j ∈ goalStates T g goal := mem_goalStates.mpr ⟨t, ht, by simpa using hne⟩
          simp [hgoal] at hj
        simp [checkProperty, hgoal, hr, Property.isReachability]
      · rw [← cannotReach_found hg]
        simp only [checkProperty, hgoal, if_false]
        cases (List.range g.states.length).find?
            (fun i ↦ i ∉ g.reverseReachable (goalStates T g goal)) <;>
          simp [Property.isReachability]
  | unreachable bad =>
      have h : Refuted T g (.unreachable bad) ↔
          (g.states.findIdx? fun s ↦ T.satisfied s bad).isSome = true := by
        simp [Refuted]
      rw [h]
      cases hf : g.states.findIdx? (fun s ↦ T.satisfied s bad) <;>
        simp [checkProperty, Property.isReachability, hf]

/-- A preserved behaviour is checked like the property it asks for. -/
theorem checkPreserved_outcome (p : PreservedBehavior) :
    (checkPreserved T g p c).outcome =
      (checkProperty T g id p.behavior.toProperty c).outcome := by
  cases hb : p.behavior with
  | reachable goal =>
      cases hf : g.states.findIdx? (fun s ↦ T.satisfied s goal) with
      | none =>
          have hany : g.states.any (T.satisfied · goal) = false := by simpa using hf
          simp [checkPreserved, checkProperty, hb, Preserved.toProperty, hf, hany]
      | some i =>
          have hany : g.states.any (T.satisfied · goal) = true := by
            rw [← List.findIdx?_isSome, hf]
            rfl
          simp [checkPreserved, checkProperty, hb, Preserved.toProperty, hf, hany]
  | always invariant =>
      cases hf : g.states.findIdx? (fun s ↦ !T.satisfied s invariant) <;>
        simp [checkPreserved, checkProperty, hb, Preserved.toProperty, hf]

end Checks

namespace Search

variable {s : Search S}

theorem Done.aligned (hd : Done T s) : s.graph.Aligned := by
  obtain ⟨t, -, ht⟩ := hd.root
  obtain ⟨m, q, hinv, -⟩ := hd
  exact ⟨(List.getElem?_eq_some_iff.mp ht).1, hinv.core.edges_length,
    hinv.core.hadBoundary_length, hinv.core.processed_length⟩

theorem complete_iff : s.complete = true ↔ s.truncated = false ∧ s.boundaryEvents = [] ∧
    s.unsupported = [] ∧ s.invalid = [] := by
  simp [complete, and_assoc]

/-- A state marked processed has been dealt with. -/
theorem Done.processed (hd : Done T s) {i : ℕ} {u : S} (hu : s.graph.states[i]? = some u)
    (hp : s.graph.processed[i]? = some true) : Expanded T s i u := by
  obtain ⟨m, q, hinv, -⟩ := hd
  have hi := hinv.core.processed i (List.getElem?_eq_some_iff.mp hu).1
  have him : i < m := by simpa using hi.symm.trans hp
  exact (hinv.expanded i him u hu).mono (List.prefix_refl _) rfl rfl id id id

/-- In a complete search every reachable state has its successors. -/
theorem Done.no_error (hd : Done T s) (hk : T.KeyLaw) (hc : s.complete = true) {t : S}
    (ht : T.Reachable t) : ∃ en, T.successors t = .ok en := by
  obtain ⟨-, hb, hu, hi⟩ := complete_iff.mp hc
  obtain ⟨i, u, hget, hkey⟩ := hd.covered hk hb ht
  have hagree := hk.successors u t (hd.reach hget) ht hkey
  cases hd.expanded hb hget with
  | cut _ _ h => exact absurd hb h
  | error _ _ _ _ h => exact absurd h (by simp [hu, hi])
  | ok en hen _ _ _ _ _ =>
      cases hsucc : T.successors t with
      | ok en' => exact ⟨en', rfl⟩
      | error e => simp [TransitionSystem.SuccessorsAgree, hen, hsucc] at hagree

/-- What a complete search does not refute holds of the full system. -/
theorem Done.holds (hd : Done T s) (hk : T.KeyLaw) (hc : s.complete = true) {p : Property}
    (hr : ¬Refuted T s.graph p) : T.Holds p := by
  obtain ⟨-, hb, hun, hiv⟩ := complete_iff.mp hc
  cases p with
  | safety invariant =>
      intro t ht
      obtain ⟨i, u, hget, hkey⟩ := hd.covered hk hb ht
      rw [← hk.satisfied u t (hd.reach hget) ht hkey]
      by_contra hne
      exact hr ⟨u, List.mem_of_getElem? hget, by simpa using hne⟩
  | unreachable bad =>
      intro t ht
      obtain ⟨i, u, hget, hkey⟩ := hd.covered hk hb ht
      rw [← hk.satisfied u t (hd.reach hget) ht hkey]
      by_contra hne
      exact hr ⟨u, List.mem_of_getElem? hget, by simpa using hne⟩
  | reachability goal =>
      simp only [Refuted, not_forall, Bool.not_eq_false] at hr
      obtain ⟨u, hu, hsat⟩ := hr
      obtain ⟨i, hi⟩ := List.getElem?_of_mem hu
      exact ⟨u, hd.reach hi, hsat⟩
  | deadlockFree =>
      intro t en ht hen hsteps
      obtain ⟨i, u, hget, hkey⟩ := hd.covered hk hb ht
      rw [← hk.isFinished u t (hd.reach hget) ht hkey]
      have hagree := hk.successors u t (hd.reach hget) ht hkey
      cases hd.expanded hb hget with
      | cut _ _ h => exact absurd hb h
      | error _ _ _ _ h => exact absurd h (by simp [hun, hiv])
      | ok en' hen' es he hes hh hb' =>
          have hbd : en'.boundary = [] := by
            by_contra hne
            exact hb' hne hb
          have hnil : en'.steps = [] := by
            rw [TransitionSystem.SuccessorsAgree, hen', hen] at hagree
            cases hst : en'.steps with
            | nil => rfl
            | cons st sts =>
                obtain ⟨st', hst', -⟩ := (hagree _).mp ⟨st, by simp [hst], rfl⟩
                simp [hsteps] at hst'
          rw [hnil] at hes
          cases hes
          by_contra hne
          refine hr ⟨i, u, hget, ?_, by simpa [hbd] using hh, he, by simpa using hne⟩
          obtain ⟨m, q, hinv, hm⟩ := hd
          have hlt := (List.getElem?_eq_some_iff.mp hget).1
          simpa [hm hb, hlt] using hinv.core.processed i hlt
  | alwaysReachable goal =>
      intro t ht
      obtain ⟨i, u, hget, hkey⟩ := hd.covered hk hb ht
      simp only [Refuted, not_exists, not_and, not_forall, Bool.not_eq_false] at hr
      obtain ⟨j, v, hpath, hv, hsat⟩ := hr i u hget
      obtain ⟨t', v', hrun, hv', hkey'⟩ := hd.lift hk hget ht hkey hpath
      obtain rfl : v = v' := Option.some.inj (hv.symm.trans hv')
      exact ⟨t', hrun, by rw [← hk.satisfied v t' (hd.reach hv) (ht.trans hrun) hkey', hsat]⟩

/-- What an explored graph refutes is violated, if the search was complete or the
property is not about a goal being out of reach. -/
theorem Done.violated (hd : Done T s) (hk : T.KeyLaw) {p : Property}
    (hr : Refuted T s.graph p)
    (hc : (∃ goal, p = .reachability goal ∨ p = .alwaysReachable goal) → s.complete = true) :
    T.Violated p := by
  cases p with
  | safety invariant =>
      obtain ⟨u, hu, hsat⟩ := hr
      obtain ⟨i, hi⟩ := List.getElem?_of_mem hu
      exact ⟨u, hd.reach hi, hsat⟩
  | unreachable bad =>
      obtain ⟨u, hu, hsat⟩ := hr
      obtain ⟨i, hi⟩ := List.getElem?_of_mem hu
      exact ⟨u, hd.reach hi, hsat⟩
  | deadlockFree =>
      obtain ⟨i, u, hget, hp, hh, he, hf⟩ := hr
      refine ⟨u, hd.reach hget, ?_, hf⟩
      cases hd.processed hget hp with
      | cut h _ _ => rw [hh] at h; cases h
      | error _ _ _ h _ => rw [hh] at h; cases h
      | ok en hen es he' hes hh' _ =>
          obtain rfl : es = [] := Option.some.inj (he'.symm.trans he)
          have hbd : en.boundary = [] := by
            rw [hh] at hh'
            simpa using hh'.symm
          have hsteps : en.steps = [] := List.forall₂_nil_left_iff.mp hes
          rw [hen]
          exact congrArg _ (by cases en; simp_all [Enabled.empty])
  | reachability goal =>
      obtain ⟨-, hb, -⟩ := complete_iff.mp (hc ⟨goal, .inl rfl⟩)
      obtain ⟨t, hinit, ht⟩ := hd.root
      refine ⟨t, hinit, fun t' hrun ↦ ?_⟩
      have hreach : T.Reachable t' := ⟨t, hinit, hrun⟩
      obtain ⟨i, u, hget, hkey⟩ := hd.covered hk hb hreach
      rw [← hk.satisfied u t' (hd.reach hget) hreach hkey]
      exact hr u (List.mem_of_getElem? hget)
  | alwaysReachable goal =>
      obtain ⟨-, hb, -⟩ := complete_iff.mp (hc ⟨goal, .inr rfl⟩)
      obtain ⟨i, u, hget, hno⟩ := hr
      refine ⟨u, hd.reach hget, fun t' hrun ↦ ?_⟩
      obtain ⟨j, v, hpath, hv, hkey⟩ := hd.follow hk hb hget rfl (hd.reach hget) hrun
      rw [← hk.satisfied v t' (hd.reach hv) ((hd.reach hget).trans hrun) hkey]
      exact hno j v hpath hv

end Search

end ConcIR
