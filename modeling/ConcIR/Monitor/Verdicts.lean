import ConcIR.Interp.Waits
import ConcIR.Monitor.Replay

/-!
# What the verdicts of the trace monitor quantify over

A clause says something of all observed states or of some. For a predicate that is decided
in every observed state the loop over the states computes the quantifier of its mode; an
`unreachable` clause runs in the mode of the clauses that have to hold, with its predicate
as it is, so it fails where the bad predicate is false.
-/

namespace ConcIR.TraceMonitor

variable [FloatArith] [FloatCast]

/-- The predicate has a truth value in every one of the states. -/
def Decided (pred : Json) (states : List MachineState) : Prop :=
  ∀ s ∈ states, ∃ b, evalPredicate s pred = .bool b

/-- The predicate has the truth value in one of the states. -/
def Somewhere (pred : Json) (b : Bool) (states : List MachineState) : Prop :=
  ∃ s ∈ states, evalPredicate s pred = .bool b

section Loop

variable {pred : Json} {states : List MachineState} {mode : Mode} {o : Observed}

theorem Somewhere.cons {s : MachineState} {b : Bool} :
    Somewhere pred b (s :: states) ↔ evalPredicate s pred = .bool b ∨ Somewhere pred b states := by
  rw [Somewhere, List.exists_mem_cons_iff]
  rfl

/-- The loop on a decided predicate. -/
theorem observeAll_decided (h : Decided pred states) :
    (observeAll pred mode o states = none ∧ mode = .forAll ∧ Somewhere pred false states) ∨
      ((mode = .forAll → ¬Somewhere pred false states) ∧ ∃ o',
        observeAll pred mode o states = some o' ∧ o'.unmapped = o.unmapped ∧
          o'.unsupported = o.unsupported ∧
            (o'.anyTrue = true ↔ o.anyTrue = true ∨ Somewhere pred true states)) := by
  induction states generalizing o with
  | nil =>
      refine .inr ⟨fun _ ↦ ?_, o, rfl, rfl, rfl, ?_⟩
      · rintro ⟨s, hs, -⟩
        exact absurd hs List.not_mem_nil
      · refine ⟨.inl, ?_⟩
        rintro (ht | ⟨s, hs, -⟩)
        · exact ht
        · exact absurd hs List.not_mem_nil
  | cons s states ih =>
      have hrest : Decided pred states := fun t ht ↦ h t (List.mem_cons_of_mem s ht)
      obtain ⟨b, hb⟩ := h s List.mem_cons_self
      simp only [Somewhere.cons, observeAll, hb]
      cases b with
      | true =>
          rcases @ih { o with anyTrue := true } hrest with ⟨hnone, hmode, hsome⟩ |
            ⟨hall, o', hrun, hum, hus, htrue⟩
          · exact .inl ⟨hnone, hmode, .inr hsome⟩
          · refine .inr ⟨fun hm ↦ ?_, o', hrun, hum, hus, ?_⟩
            · rintro (hf | hf)
              · cases hf
              · exact hall hm hf
            · simpa using htrue
      | false =>
          cases mode with
          | forAll => exact .inl ⟨rfl, rfl, .inl rfl⟩
          | «exists» =>
              rcases @ih o hrest with ⟨-, hmode, -⟩ | ⟨-, o', hrun, hum, hus, htrue⟩
              · cases hmode
              · refine .inr ⟨fun hm ↦ Mode.noConfusion hm, o', hrun, hum, hus, ?_⟩
                simpa using htrue

variable {traces : List (List MachineState)}

/-- A predicate that has to hold fails exactly if it is false in some state. -/
theorem predicateStatus_forAll (hne : traces ≠ []) (h : Decided pred traces.flatten) :
    (predicateStatus pred traces .forAll).1 = "FAIL" ↔ Somewhere pred false traces.flatten := by
  rw [predicateStatus, if_neg (by simpa using hne)]
  rcases @observeAll_decided _ _ pred traces.flatten .forAll ⟨none, none, false⟩ h with
    ⟨hnone, -, hsome⟩ | ⟨hall, o', hrun, hum, hus, -⟩
  · simp only [hnone, hsome]
  · simp [hrun, hum, hus, hall rfl]

/-- A predicate that has to be observed passes exactly if it is true in some state. -/
theorem predicateStatus_exists (hne : traces ≠ []) (h : Decided pred traces.flatten) :
    ((predicateStatus pred traces .exists).1 = "PASS_bounded" ↔
      Somewhere pred true traces.flatten) ∧ (predicateStatus pred traces .exists).1 ≠ "FAIL" := by
  rw [predicateStatus, if_neg (by simpa using hne)]
  rcases @observeAll_decided _ _ pred traces.flatten .exists ⟨none, none, false⟩ h with
    ⟨-, hmode, -⟩ | ⟨-, o', hrun, hum, hus, htrue⟩
  · cases hmode
  · simp only [hrun, hum, hus]
    by_cases hsome : Somewhere pred true traces.flatten
    · have ht : o'.anyTrue = true := htrue.mpr (.inr hsome)
      simp [ht, hsome]
    · have ht : o'.anyTrue = false := by
        rw [← Bool.not_eq_true, htrue]
        simpa using hsome
      simp [ht, hsome]

end Loop

/-- What a clause says about the observed states: that a predicate holds in all of them,
that a bad one holds in none, or that a goal holds in one. -/
inductive Clause
  | forAll (invariant : Json)
  | never (bad : Json)
  | «exists» (goal : Json)

namespace Clause

def pred : Clause → Json
  | .forAll inv => inv
  | .never bad => bad
  | .exists goal => goal

/-- The clauses with a predicate, by their kinds. -/
def read (clause : Json) : Option Clause :=
  match ((fieldsOf clause).lookup "kind").bind Json.asStr with
  | some "safety" | some "always" => ((fieldsOf clause).lookup "invariant").map .forAll
  | some "unreachable" => ((fieldsOf clause).lookup "bad").map .never
  | some "reachability" | some "always_reachable" | some "reachable" =>
      ((fieldsOf clause).lookup "goal").map .exists
  | _ => none

/-- The status reports what the clause says about the states. -/
def Quantifies : Clause → String → List MachineState → Prop
  | .forAll inv, status, states => status = "FAIL" ↔ Somewhere inv false states
  | .never bad, status, states => status = "FAIL" ↔ Somewhere bad true states
  | .exists goal, status, states =>
      (status = "PASS_bounded" ↔ Somewhere goal true states) ∧ status ≠ "FAIL"

end Clause

section Clauses

variable {clause : Json} {c : Clause} {traces : List (List MachineState)}

theorem status_resultFor (source : String) : (resultFor clause source traces).status =
    (clauseStatus ((((fieldsOf clause).lookup "kind").bind Json.asStr).getD "unknown")
      (fieldsOf clause) traces).1 := rfl

/-- The status of a clause is that of its predicate in the mode of its kind. -/
theorem status_of_read (source : String) (h : Clause.read clause = some c) :
    (∃ inv, c = .forAll inv ∧
      (resultFor clause source traces).status = (predicateStatus inv traces .forAll).1) ∨
    (∃ bad, c = .never bad ∧
      ((resultFor clause source traces).status = "FAIL" ↔
        (predicateStatus bad traces .forAll).1 = "FAIL")) ∨
    (∃ goal, c = .exists goal ∧
      (resultFor clause source traces).status = (predicateStatus goal traces .exists).1) := by
  rw [status_resultFor]
  rw [Clause.read] at h
  split at h
  case _ hk =>
    obtain ⟨inv, hinv, rfl⟩ := Option.map_eq_some_iff.mp h
    refine .inl ⟨inv, rfl, ?_⟩
    simp only [hk, Option.getD_some, clauseStatus, hinv]
  case _ hk =>
    obtain ⟨inv, hinv, rfl⟩ := Option.map_eq_some_iff.mp h
    refine .inl ⟨inv, rfl, ?_⟩
    simp only [hk, Option.getD_some, clauseStatus, hinv]
  case _ hk =>
    obtain ⟨bad, hbad, rfl⟩ := Option.map_eq_some_iff.mp h
    refine .inr (.inl ⟨bad, rfl, ?_⟩)
    simp only [hk, Option.getD_some, clauseStatus, hbad]
    split_ifs with hfail <;> simp [hfail]
  case _ hk =>
    obtain ⟨goal, hgoal, rfl⟩ := Option.map_eq_some_iff.mp h
    refine .inr (.inr ⟨goal, rfl, ?_⟩)
    simp only [hk, Option.getD_some, clauseStatus, hgoal]
  case _ hk =>
    obtain ⟨goal, hgoal, rfl⟩ := Option.map_eq_some_iff.mp h
    refine .inr (.inr ⟨goal, rfl, ?_⟩)
    simp only [hk, Option.getD_some, clauseStatus, hgoal]
  case _ hk =>
    obtain ⟨goal, hgoal, rfl⟩ := Option.map_eq_some_iff.mp h
    refine .inr (.inr ⟨goal, rfl, ?_⟩)
    simp only [hk, Option.getD_some, clauseStatus, hgoal]
  case _ => cases h

/-- The verdict on a decided clause is the quantifier of its kind, except that an
unreachable clause needs its bad predicate to be true somewhere and false somewhere. -/
theorem verdict_exact (source : String) (map : ResourceMap) {events : List (List TraceEvent)}
    (hc : Clause.read clause = some c) (hne : events ≠ [])
    (hdecided : Decided c.pred (events.map (replay map)).flatten) :
    c.Quantifies (resultFor clause source (events.map (replay map))).status
        (events.map (replay map)).flatten ↔
      ∀ bad, c = .never bad → Somewhere bad true (events.map (replay map)).flatten ∧
        Somewhere bad false (events.map (replay map)).flatten := by
  have hne' : events.map (replay map) ≠ [] := by simpa using hne
  rcases @status_of_read _ _ clause c (events.map (replay map)) source hc with
    ⟨inv, rfl, hstatus⟩ | ⟨bad, rfl, hstatus⟩ | ⟨goal, rfl, hstatus⟩
  · refine iff_of_true ?_ fun bad hbad ↦ Clause.noConfusion hbad
    rw [Clause.Quantifies, hstatus]
    exact predicateStatus_forAll hne' hdecided
  · -- some state was observed, and the predicate has a truth value there
    have hany : Somewhere bad true (events.map (replay map)).flatten ∨
        Somewhere bad false (events.map (replay map)).flatten := by
      obtain ⟨trace, rest, rfl⟩ := List.exists_cons_of_ne_nil hne
      have hmem : MachineState.empty ∈ ((trace :: rest).map (replay map)).flatten := by
        refine List.mem_flatten.mpr ⟨replay map trace, List.mem_cons_self, ?_⟩
        cases trace <;> simp [replay]
      obtain ⟨b, hb⟩ := hdecided _ hmem
      cases b with
      | true => exact .inl ⟨_, hmem, hb⟩
      | false => exact .inr ⟨_, hmem, hb⟩
    have hbad : Decided bad (events.map (replay map)).flatten := hdecided
    rw [Clause.Quantifies, hstatus, predicateStatus_forAll hne' hbad]
    constructor
    · rintro hiff bad' hbad
      obtain rfl := Clause.never.inj hbad
      rcases hany with ht | hf
      · exact ⟨ht, hiff.mpr ht⟩
      · exact ⟨hiff.mp hf, hf⟩
    · intro hboth
      exact iff_of_true (hboth bad rfl).2 (hboth bad rfl).1
  · refine iff_of_true ?_ fun bad hbad ↦ Clause.noConfusion hbad
    rw [Clause.Quantifies, hstatus]
    exact predicateStatus_exists hne' hdecided

end Clauses

section Unreachable

omit [FloatArith] [FloatCast]

/-- No state is bad, and the clause that says so. -/
def noBadState : Json := .object [("kind", .string "false")]

def neverBad : Json := .object [("kind", .string "unreachable"), ("bad", noBadState)]

/-- One trace without events: the clause fails although nothing bad was observed. -/
theorem not_quantifies_neverBad : ¬@Clause.Quantifies .unused .unused (.never noBadState)
    (@resultFor .unused .unused neverBad "properties" ([[]].map (replay ∅))).status
      ([[]].map (replay ∅)).flatten := by
  intro h
  have hfail : (@resultFor .unused .unused neverBad "properties"
      ([[]].map (replay ∅))).status = "FAIL" := by decide
  obtain ⟨s, hs, heval⟩ := h.mp hfail
  have hone : s = MachineState.empty := by simpa [replay] using hs
  rw [hone] at heval
  exact absurd heval (by decide)

/-- A clause that has to hold, over a trace with one event. -/
def alwaysTrue : Json :=
  .object [("kind", .string "safety"), ("invariant", .object [("kind", .string "true")])]

theorem verdict_exact_alwaysTrue :
    @Clause.Quantifies .unused .unused (.forAll (.object [("kind", .string "true")]))
        (@resultFor .unused .unused alwaysTrue "properties"
          ([[⟨"t0", "mutex_lock", "m", "s1"⟩]].map (replay ∅))).status
        ([[⟨"t0", "mutex_lock", "m", "s1"⟩]].map (replay ∅)).flatten ↔
      ∀ bad, Clause.forAll (.object [("kind", .string "true")]) = .never bad →
        @Somewhere .unused .unused bad true
            ([[⟨"t0", "mutex_lock", "m", "s1"⟩]].map (replay ∅)).flatten ∧
          @Somewhere .unused .unused bad false
            ([[⟨"t0", "mutex_lock", "m", "s1"⟩]].map (replay ∅)).flatten :=
  @verdict_exact .unused .unused alwaysTrue (.forAll (.object [("kind", .string "true")]))
    "properties" ∅ [[⟨"t0", "mutex_lock", "m", "s1"⟩]] rfl (List.cons_ne_nil _ _)
      fun _ _ ↦ ⟨true, rfl⟩

end Unreachable

end ConcIR.TraceMonitor
