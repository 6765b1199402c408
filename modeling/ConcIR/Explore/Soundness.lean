import ConcIR.Explore.Verdicts

/-!
# Soundness of the reports

A passing report speaks for the full, unbounded system. A failed property is a
violation that the explored part establishes, except that the check of an
always-reachable goal also fails on searches that were cut off.
-/

namespace ConcIR

variable {S : Type} {T : TransitionSystem S}

namespace VerificationContract

/-- What a report answers, in its order: the properties, then what is preserved. -/
def obligations (c : VerificationContract) : List Property :=
  c.properties.map (·.property) ++ c.preserved.map (·.behavior.toProperty)

end VerificationContract

theorem exists_result (contract : VerificationContract) (s : Search S) {i : ℕ} {o : Property}
    (ho : contract.obligations[i]? = some o) : ∃ r, (results T contract s)[i]? = some r := by
  have hlen : (results T contract s).length = contract.obligations.length := by
    simp [results, VerificationContract.obligations]
  exact ⟨_, List.getElem?_eq_getElem (hlen ▸ (List.getElem?_eq_some_iff.mp ho).1)⟩

/-- Each result has the outcome of the check of its obligation. -/
theorem results_outcome (contract : VerificationContract) (s : Search S) {i : ℕ}
    {o : Property} {r : PropertyResult} (ho : contract.obligations[i]? = some o)
    (hr : (results T contract s)[i]? = some r) :
    ∃ id, r.outcome = (checkProperty T s.graph id o s.complete).outcome := by
  rcases lt_or_ge i contract.properties.length with hi | hi
  · rw [VerificationContract.obligations, List.getElem?_append_left (by simpa using hi),
      List.getElem?_map, Option.map_eq_some_iff] at ho
    rw [results, List.getElem?_append_left (by simpa using hi), List.getElem?_map,
      Option.map_eq_some_iff] at hr
    obtain ⟨p, hp, rfl⟩ := ho
    obtain ⟨p', hp', rfl⟩ := hr
    obtain rfl : p = p' := Option.some.inj (hp.symm.trans hp')
    exact ⟨p.id, rfl⟩
  · rw [VerificationContract.obligations, List.getElem?_append_right (by simpa using hi),
      List.getElem?_map, Option.map_eq_some_iff] at ho
    rw [results, List.getElem?_append_right (by simpa using hi), List.getElem?_map,
      Option.map_eq_some_iff] at hr
    simp only [List.length_map] at ho hr
    obtain ⟨p, hp, rfl⟩ := ho
    obtain ⟨p', hp', rfl⟩ := hr
    obtain rfl : p = p' := Option.some.inj (hp.symm.trans hp')
    exact ⟨"", checkPreserved_outcome p⟩

theorem verify_ok (contract : VerificationContract) {t : S} (h : T.initial = .ok t) :
    (verify T contract).properties = results T contract (Search.explored T contract.bounds t) ∧
      (verify T contract).outcome = overall (Search.explored T contract.bounds t)
        (results T contract (Search.explored T contract.bounds t)) := by
  simp [verify, h]

theorem verify_error (contract : VerificationContract) {e : BackendError}
    (h : T.initial = .error e) :
    (verify T contract).properties = [] ∧ (verify T contract).outcome ≠ .pass := by
  cases e <;> simp [verify, h, reportEarly]

/-- The overall verdict is `pass` only for a complete search none of whose checks
failed or stayed open. -/
theorem overall_pass {s : Search S} {rs : List PropertyResult} (h : overall s rs = .pass) :
    s.complete = true ∧ ∀ r ∈ rs, r.outcome ≠ .fail ∧ r.outcome ≠ .unknown := by
  unfold overall at h
  split_ifs at h with hfail hiv hun hunk
  simp only [List.any_eq_true, decide_eq_true_eq, not_exists, not_and, Bool.or_eq_true,
    not_or, Bool.not_eq_true', Bool.not_eq_false] at hfail hunk
  exact ⟨hunk.2, fun r hr ↦ ⟨hfail r hr, hunk.1 r hr⟩⟩

/-- Keys that tell all states apart obey the law. -/
theorem TransitionSystem.keyLaw_of_injective (h : Function.Injective T.stateKey) :
    T.KeyLaw where
  satisfied := fun s t _ _ hk _ ↦ by rw [h hk]
  isFinished := fun s t _ _ hk ↦ by rw [h hk]
  successors := fun s t _ _ hk ↦ by
    obtain rfl : s = t := h hk
    cases hs : T.successors s <;> simp [SuccessorsAgree, hs]

/-- A run of two steps, at the end of which function 0 has completed. -/
def chainSystem : TransitionSystem (Fin 3) where
  initial := .ok 0
  successors := fun s ↦ match s with
    | 0 => .ok ⟨[⟨⟨⟨0, 0, some 0, .statement⟩, some 0, some 0⟩, 1⟩], []⟩
    | 1 => .ok ⟨[⟨⟨⟨0, 0, some 1, .statement⟩, some 0, some 0⟩, 2⟩], []⟩
    | 2 => .ok .empty
  isFinished := fun s ↦ s = 2
  satisfied := fun s p ↦ match p with
    | .true => true
    | .functionCompleted _ => s = 2
    | _ => false
  stateKey := fun s ↦ match s with
    | 0 => "pc 0"
    | 1 => "pc 1"
    | 2 => "done"

theorem chainSystem_keyLaw : chainSystem.KeyLaw :=
  TransitionSystem.keyLaw_of_injective (by decide)

/-- One property of every kind, and one behaviour to preserve, about `chainSystem`. -/
def chainContract (maxStates : ℕ) : VerificationContract where
  properties := [⟨"s", .safety .true⟩, ⟨"u", .unreachable .false⟩, ⟨"d", .deadlockFree⟩,
    ⟨"r", .reachability (.functionCompleted 0)⟩, ⟨"a", .alwaysReachable (.functionCompleted 0)⟩]
  preserved := [⟨"p", .reachable (.functionCompleted 0)⟩]
  bounds := ⟨8, 8, maxStates, 100, 10⟩

namespace Search

/-- Every state with an explored path from `i` was expanded, and no bound or error cut
its steps. -/
def Settled (g : Graph S) (i : ℕ) : Prop :=
  ∀ j, g.Path i j → g.processed[j]? = some true ∧ g.hadBoundary[j]? = some false

/-- The explored part alone shows the violation: a state that is in the graph, or a
state whose settled continuation misses the goal. -/
def Established (T : TransitionSystem S) (g : Graph S) : Property → Prop
  | .reachability goal => Settled g 0 ∧
      ∀ (j : ℕ) (t : S), g.Path 0 j → g.states[j]? = some t → T.satisfied t goal = false
  | .alwaysReachable goal => ∃ (i : ℕ) (s : S), g.states[i]? = some s ∧ Settled g i ∧
      ∀ (j : ℕ) (t : S), g.Path i j → g.states[j]? = some t → T.satisfied t goal = false
  | p => Refuted T g p

variable {s : Search S}

/-- A run from a settled state follows explored edges. -/
theorem Done.follow_settled (hd : Done T s) (hk : T.KeyLaw) {i : ℕ} {u t : S}
    (hs : Settled s.graph i) (hu : s.graph.states[i]? = some u) (hrun : T.ReachableFrom u t) :
    ∃ j v, s.graph.Path i j ∧ s.graph.states[j]? = some v ∧ T.stateKey v = T.stateKey t := by
  induction hrun with
  | refl => exact ⟨i, u, .refl, hu, rfl⟩
  | tail hrun hn ih =>
      obtain ⟨j, v, hpath, hv, hkey⟩ := ih
      obtain ⟨hp, hh⟩ := hs j hpath
      have hreach := (hd.reach hu).trans hrun
      obtain ⟨w, ⟨en, hen, st, hst, rfl⟩, hwkey⟩ := hk.next hreach (hd.reach hv) hkey.symm hn
      cases hd.processed hv hp with
      | cut h _ _ => rw [hh] at h; cases h
      | error _ _ _ h _ => rw [hh] at h; cases h
      | ok en' hen' es he hrec _ _ =>
          rw [hen] at hen'
          cases hen'
          obtain ⟨k, x, hedge, hx, hxkey⟩ := edge_of_step he hrec hst
          exact ⟨k, x, hpath.tail hedge, hx, hxkey.trans hwkey⟩

/-- The explored part never claims more than the full system bears out. -/
theorem Established.violated (hd : Done T s) (hk : T.KeyLaw) {p : Property}
    (h : Established T s.graph p) : T.Violated p := by
  cases p with
  | safety invariant => exact hd.violated hk h (by simp)
  | deadlockFree => exact hd.violated hk h (by simp)
  | unreachable bad => exact hd.violated hk h (by simp)
  | reachability goal =>
      obtain ⟨hs, hno⟩ := h
      obtain ⟨t, hinit, ht⟩ := hd.root
      refine ⟨t, hinit, fun t' hrun ↦ ?_⟩
      obtain ⟨j, v, hpath, hv, hkey⟩ := hd.follow_settled hk hs ht hrun
      rw [← hk.satisfied v t' (hd.reach hv) ⟨t, hinit, hrun⟩ hkey]
      exact hno j v hpath hv
  | alwaysReachable goal =>
      obtain ⟨i, u, hu, hs, hno⟩ := h
      refine ⟨u, hd.reach hu, fun t' hrun ↦ ?_⟩
      obtain ⟨j, v, hpath, hv, hkey⟩ := hd.follow_settled hk hs hu hrun
      rw [← hk.satisfied v t' (hd.reach hv) ((hd.reach hu).trans hrun) hkey]
      exact hno j v hpath hv

/-- A complete search leaves nothing unsettled. -/
theorem Done.settled (hd : Done T s) (hc : s.complete = true) {i : ℕ} {u : S}
    (hu : s.graph.states[i]? = some u) : Settled s.graph i := by
  obtain ⟨-, hb, hun, hiv⟩ := complete_iff.mp hc
  intro j hpath
  obtain ⟨v, hv⟩ : ∃ v, s.graph.states[j]? = some v := by
    induction hpath with
    | refl => exact ⟨u, hu⟩
    | tail _ hedge ih =>
        obtain ⟨w, hw⟩ := ih
        obtain ⟨-, v, -, hv, -⟩ := hd.edge_sound hw hedge
        exact ⟨v, hv⟩
  refine ⟨?_, ?_⟩
  · obtain ⟨m, q, hinv, hm⟩ := hd
    have hlt := (List.getElem?_eq_some_iff.mp hv).1
    simpa [hm hb, hlt] using hinv.core.processed j hlt
  · cases hd.expanded hb hv with
    | cut _ _ h => exact absurd hb h
    | error _ _ _ _ h => exact absurd h (by simp [hun, hiv])
    | ok en _ _ _ _ hh hb' =>
        have hbd : en.boundary = [] := by
          by_contra hne
          exact hb' hne hb
        simpa [hbd] using hh

/-- In a complete search what is refuted is established. -/
theorem Done.established (hd : Done T s) (hc : s.complete = true) {p : Property}
    (h : Refuted T s.graph p) : Established T s.graph p := by
  cases p with
  | safety invariant => exact h
  | deadlockFree => exact h
  | unreachable bad => exact h
  | reachability goal =>
      obtain ⟨t, -, ht⟩ := hd.root
      exact ⟨hd.settled hc ht, fun j v _ hv ↦ h v (List.mem_of_getElem? hv)⟩
  | alwaysReachable goal =>
      obtain ⟨i, u, hu, hno⟩ := h
      exact ⟨i, u, hu, hd.settled hc hu, hno⟩

end Search

/-- Every property and preserved behaviour reported as failed is violated in the full
system, and the explored part establishes it. -/
def FailSound (T : TransitionSystem S) (contract : VerificationContract) : Prop :=
  ∀ (i : ℕ) (o : Property) (r : PropertyResult), contract.obligations[i]? = some o →
    (verify T contract).properties[i]? = some r → r.outcome = .fail →
      T.Violated o ∧ ∃ t, T.initial = .ok t ∧
        Search.Established T (Search.explored T contract.bounds t).graph o

/-- The check of a goal out of explored reach fails, so it must be established. -/
theorem established_of_failSound {contract : VerificationContract}
    (h : FailSound T contract) {t : S} {goal : Predicate} (hinit : T.initial = .ok t)
    (hmem : .alwaysReachable goal ∈ contract.obligations)
    (href : Refuted T (Search.explored T contract.bounds t).graph (.alwaysReachable goal)) :
    Search.Established T (Search.explored T contract.bounds t).graph
      (.alwaysReachable goal) := by
  have hd : (Search.explored T contract.bounds t).Done T := Search.explored_done hinit
  obtain ⟨i, hi⟩ := List.getElem?_of_mem hmem
  obtain ⟨r, hr⟩ := exists_result contract (Search.explored T contract.bounds t) hi
  obtain ⟨id, hout⟩ := results_outcome contract _ hi hr
  have hfail := (checkProperty_outcome hd.aligned (.alwaysReachable goal) id
    (Search.explored T contract.bounds t).complete).1.mpr
      ⟨href, by simp [Property.isReachability]⟩
  rw [← (verify_ok contract hinit).1] at hr
  obtain ⟨-, t', hinit', hest⟩ := h i _ _ hi hr (hout.trans hfail)
  obtain rfl : t = t' := Except.ok.inj (hinit.symm.trans hinit')
  exact hest

/-- Every check but that of an always-reachable goal fails on established grounds. -/
theorem failSound_of_established (hk : T.KeyLaw) {contract : VerificationContract}
    (h : ∀ t goal, T.initial = .ok t → .alwaysReachable goal ∈ contract.obligations →
      Refuted T (Search.explored T contract.bounds t).graph (.alwaysReachable goal) →
        Search.Established T (Search.explored T contract.bounds t).graph
          (.alwaysReachable goal)) : FailSound T contract := by
  intro i o r ho hr hfail
  cases hinit : T.initial with
  | error e =>
      rw [(verify_error contract hinit).1] at hr
      cases hr
  | ok t =>
      have hd : (Search.explored T contract.bounds t).Done T := Search.explored_done hinit
      rw [(verify_ok contract hinit).1] at hr
      obtain ⟨id, hout⟩ := results_outcome contract _ ho hr
      obtain ⟨href, hc⟩ := (checkProperty_outcome hd.aligned o _ _).1.mp (hout.symm.trans hfail)
      have hest : Search.Established T (Search.explored T contract.bounds t).graph o := by
        cases o with
        | safety invariant => exact href
        | deadlockFree => exact href
        | unreachable bad => exact href
        | reachability goal => exact hd.established (hc rfl) href
        | alwaysReachable goal => exact h t goal hinit (List.mem_of_getElem? ho) href
      exact ⟨hest.violated hd hk, t, rfl, hest⟩

/-- A search that met no bound and no error reports only real failures. -/
theorem failSound_of_complete (hk : T.KeyLaw) {contract : VerificationContract}
    (hc : (verify T contract).complete = true) : FailSound T contract := by
  refine failSound_of_established hk fun t goal hinit _ href ↦ ?_
  have hd : (Search.explored T contract.bounds t).Done T := Search.explored_done hinit
  exact hd.established (by simpa [verify, hinit] using hc) href

theorem chainSystem_reach (s : Fin 3) : chainSystem.ReachableFrom s 2 := by
  have h₀ : chainSystem.Next 0 1 := ⟨_, rfl, _, List.mem_singleton.mpr rfl, rfl⟩
  have h₁ : chainSystem.Next 1 2 := ⟨_, rfl, _, List.mem_singleton.mpr rfl, rfl⟩
  match s with
  | 0 => exact .tail (.tail .refl h₀) h₁
  | 1 => exact .tail .refl h₁
  | 2 => exact .refl

end ConcIR
