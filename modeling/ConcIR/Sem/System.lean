import ConcIR.Sem.Eval

/-!
# The transition-system interface

Both engines are explored through this interface: an initial state, the enabled
steps of a state, and the observations the contract may make of it.
-/

namespace ConcIR

/-- A property predicate over a complete state. -/
inductive Predicate
  | true
  | false
  | varEq (resource : ResourceId) (value : Value)
  | varCmp (resource : ResourceId) (op : CmpOp) (value : Value)
  | functionCompleted (func : FunctionId)
  | functionCompletedAtLeast (func : FunctionId) (n : ℕ)
  | scopeCompleted (func : FunctionId) (sid : ℕ)
  | statementReached (func : FunctionId) (sid : ℕ)
  | mutexFree (r : ResourceId)
  | mutexHeld (r : ResourceId)
  | holdsAll (func : FunctionId) (resources : List ResourceId)
  | mutexExclusive (r : ResourceId)
  | neverHoldsAll (func : FunctionId) (resources : List ResourceId)
  | channelEmpty (r : ResourceId)
  | channelAtLeast (resource : ResourceId) (len : ℕ)
  | not (p : Predicate)
  | and (ps : List Predicate)
  | or (ps : List Predicate)

def CmpOp.debug : CmpOp → String
  | .eq => "Eq"
  | .ne => "Ne"
  | .lt => "Lt"
  | .le => "Le"
  | .gt => "Gt"
  | .ge => "Ge"

mutual

def Predicate.description : Predicate → String
  | .true => "true"
  | .false => "false"
  | .varEq r v => s!"r{r} == " ++ v.canonical
  | .varCmp r op v => s!"r{r} " ++ op.debug ++ " " ++ v.canonical
  | .functionCompleted f => s!"completed(f{f})"
  | .functionCompletedAtLeast f n => s!"completed(f{f}) >= {n}"
  | .scopeCompleted f sid => s!"scope_done(f{f}@{sid})"
  | .statementReached f sid => s!"reached(f{f}@{sid})"
  | .mutexFree r => s!"free(r{r})"
  | .mutexHeld r => s!"held(r{r})"
  | .holdsAll f rs =>
      s!"holds_all(f{f}, [" ++ joinWith ", " (rs.map fun r ↦ s!"r{r}") ++ "])"
  | .mutexExclusive r => s!"mutex_exclusive(r{r})"
  | .neverHoldsAll f rs =>
      s!"never_holds_all(f{f}, [" ++ joinWith ", " (rs.map fun r ↦ s!"r{r}") ++ "])"
  | .channelEmpty r => s!"channel_empty(r{r})"
  | .channelAtLeast r len => s!"channel_len(r{r}) >= {len}"
  | .not p => "!(" ++ p.description ++ ")"
  | .and ps => "(" ++ joinWith " && " (descriptions ps) ++ ")"
  | .or ps => "(" ++ joinWith " || " (descriptions ps) ++ ")"

def descriptions : List Predicate → List String
  | [] => []
  | p :: ps => p.description :: descriptions ps

end

structure Step (S : Type) where
  label : StepLabel
  state : S

structure Enabled (S : Type) where
  steps : List (Step S)
  boundary : List BoundaryEvent

namespace Enabled

def empty {S : Type} : Enabled S := ⟨[], []⟩

end Enabled

/-- The state of an offered step. -/
def Offers {S : Type} (r : BackendResult (Enabled S)) (s : S) : Prop :=
  ∃ en, r = .ok en ∧ ∃ st ∈ en.steps, st.state = s

section Offers

variable {S A : Type} {s : S}

theorem bind_eq_ok {A B : Type} {r : BackendResult A} {f : A → BackendResult B} {b : B} :
    (r >>= f) = .ok b ↔ ∃ a, r = .ok a ∧ f a = .ok b := by
  cases r with
  | error e => exact ⟨fun h ↦ (by cases h), fun ⟨a, h, _⟩ ↦ (by cases h)⟩
  | ok a => exact ⟨fun h ↦ ⟨a, rfl, h⟩, fun ⟨b, hb, h⟩ ↦ by cases hb; exact h⟩

@[simp] theorem offers_error (e : BackendError) : ¬ Offers (.error e) s := by
  rintro ⟨en, h, -⟩
  cases h

@[simp] theorem offers_ok (en : Enabled S) :
    Offers (.ok en) s ↔ ∃ st ∈ en.steps, st.state = s := by
  constructor
  · rintro ⟨_, ⟨⟩, h⟩
    exact h
  · exact fun h ↦ ⟨en, rfl, h⟩

@[simp] theorem empty_steps : (Enabled.empty : Enabled S).steps = [] := rfl

theorem offers_bind {r : BackendResult A} {f : A → BackendResult (Enabled S)} :
    Offers (r >>= f) s ↔ ∃ a, r = .ok a ∧ Offers (f a) s := by
  constructor
  · rintro ⟨en, h, hst⟩
    obtain ⟨a, ha, hf⟩ := bind_eq_ok.mp h
    exact ⟨a, ha, en, hf, hst⟩
  · rintro ⟨a, ha, en, hf, hst⟩
    exact ⟨en, bind_eq_ok.mpr ⟨a, ha, hf⟩, hst⟩

end Offers

/-- A step of a run: who took it, and the states around it. -/
structure Transition (S : Type) where
  before : S
  thread : ThreadId
  after : S

/-- A deterministic transition system with a complete semantic state. -/
structure TransitionSystem (S : Type) where
  initial : BackendResult S
  successors : S → BackendResult (Enabled S)
  isFinished : S → Bool
  satisfied : S → Predicate → Bool
  stateKey : S → String

/-- Comparison of two values; `none` for values an ordering does not relate. -/
def compareValues [FloatArith] (op : CmpOp) (l r : Value) : Option Bool :=
  match l, r with
  | .int a, .int b => some (op.holds (compare a b))
  | .float a, .float b => (FloatArith.partialCmp a b).map op.holds
  | .str a, .str b => some (op.holds (compare a b))
  | .enum a, .enum b => some (op.holds (compare a b))
  | .bool a, .bool b => some (op.holds (compare a b))
  | l, r =>
      match op with
      | .eq => some (l = r)
      | .ne => some (l ≠ r)
      | _ => none

namespace TransitionSystem

variable {S : Type} (T : TransitionSystem S)

/-- `t` is the state of a step offered in `s`. -/
def Next (s t : S) : Prop :=
  ∃ en, T.successors s = .ok en ∧ ∃ st ∈ en.steps, st.state = t

/-- `t` is the state of a step of thread `x` offered in `s`. -/
def Takes (s : S) (x : ThreadId) (t : S) : Prop :=
  ∃ en, T.successors s = .ok en ∧ ∃ st ∈ en.steps, st.label.thread = some x ∧ st.state = t

/-- `t` can be reached from `s` by steps the system offers. -/
abbrev ReachableFrom : S → S → Prop := Relation.ReflTransGen T.Next

/-- The full, unbounded set of reachable states. -/
def Reachable (t : S) : Prop := ∃ s, T.initial = .ok s ∧ T.ReachableFrom s t

theorem Reachable.step {T : TransitionSystem S} {s t : S} (hs : T.Reachable s)
    (h : T.Next s t) : T.Reachable t := by
  obtain ⟨i, hi, his⟩ := hs
  exact ⟨i, hi, his.tail h⟩

theorem Reachable.trans {T : TransitionSystem S} {s t : S} (hs : T.Reachable s)
    (h : T.ReachableFrom s t) : T.Reachable t := by
  obtain ⟨i, hi, his⟩ := hs
  exact ⟨i, hi, his.trans h⟩

theorem reachable_initial {s : S} (h : T.initial = .ok s) : T.Reachable s :=
  ⟨s, h, .refl⟩

/-- A predicate of the initial state that every offered step preserves holds of
every reachable state. -/
theorem Reachable.invariant {T : TransitionSystem S} {P : S → Prop}
    (hinit : ∀ s, T.initial = .ok s → P s) (hstep : ∀ s t, P s → T.Next s t → P t)
    {s : S} (hs : T.Reachable s) : P s := by
  obtain ⟨i, hi, his⟩ := hs
  induction his with
  | refl => exact hinit i hi
  | tail _ hst ih => exact hstep _ _ ih hst

theorem Takes.next {T : TransitionSystem S} {s t : S} {x : ThreadId} (h : T.Takes s x t) :
    T.Next s t := by
  obtain ⟨en, hen, st, hst, -, rfl⟩ := h
  exact ⟨en, hen, st, hst, rfl⟩

/-- The run that takes the step of the given number in every state. -/
def follow (s : S) : List ℕ → Option S
  | [] => some s
  | i :: is =>
      match T.successors s with
      | .ok en => en.steps[i]?.bind fun st ↦ follow st.state is
      | .error _ => none

theorem reachableFrom_of_follow {T : TransitionSystem S} {s t : S} {is : List ℕ}
    (h : T.follow s is = some t) : T.ReachableFrom s t := by
  induction is generalizing s with
  | nil =>
      obtain rfl := Option.some.inj h
      exact .refl
  | cons i is ih =>
      rw [follow] at h
      split at h
      case _ en hen =>
        obtain ⟨st, hst, h⟩ := Option.bind_eq_some_iff.mp h
        exact .head ⟨en, hen, st, List.mem_of_getElem? hst, rfl⟩ (ih h)
      case _ => cases h

/-- The state reached from the initial one by the steps of the given numbers. -/
def run (is : List ℕ) : Option S :=
  match T.initial with
  | .ok s => T.follow s is
  | .error _ => none

theorem reachable_of_run {T : TransitionSystem S} {t : S} {is : List ℕ}
    (h : T.run is = some t) : T.Reachable t := by
  rw [run] at h
  split at h
  case _ s hs => exact ⟨s, hs, reachableFrom_of_follow h⟩
  case _ => cases h

/-- A run: the transitions since the initial state, in order, and the state reached. -/
inductive Run : List (Transition S) → S → Prop
  | start {s : S} (h : T.initial = .ok s) : Run [] s
  | step {es : List (Transition S)} {s t : S} {x : ThreadId} (h : Run es s)
      (hs : T.Takes s x t) : Run (es ++ [⟨s, x, t⟩]) t

theorem Run.reachable {T : TransitionSystem S} {es : List (Transition S)} {s : S}
    (h : T.Run es s) : T.Reachable s := by
  induction h with
  | start h => exact T.reachable_initial h
  | step _ hs ih => exact ih.step hs.next

theorem Run.take {T : TransitionSystem S} {es es₁ : List (Transition S)} {e : Transition S}
    {s : S} (h : T.Run es s) (hp : es₁ ++ [e] <+: es) : T.Run (es₁ ++ [e]) e.after := by
  induction h with
  | start _ => simp at hp
  | @step es s t x hrun hs ih =>
      rcases List.prefix_concat_iff.mp hp with heq | hp
      · obtain ⟨rfl, he⟩ := List.append_inj' heq rfl
        obtain rfl := List.singleton_inj.mp he
        exact hrun.step hs
      · exact ih hp

/-- The run of the steps of the given numbers, with its transitions. -/
def trace (is : List ℕ) : Option (List (Transition S) × S) :=
  match T.initial with
  | .error _ => none
  | .ok s => is.foldl (fun r i ↦ r.bind fun (es, s) ↦
      match T.successors s with
      | .error _ => none
      | .ok en => en.steps[i]?.bind fun st ↦ st.label.thread.map fun x ↦
          (es ++ [⟨s, x, st.state⟩], st.state)) (some ([], s))

theorem run_of_trace {T : TransitionSystem S} {is : List ℕ} {es : List (Transition S)} {t : S}
    (h : T.trace is = some (es, t)) : T.Run es t := by
  rw [trace] at h
  cases hi : T.initial with
  | error e =>
      rw [hi] at h
      cases h
  | ok s =>
      rw [hi] at h
      simp only at h
      induction is using List.reverseRecOn generalizing es t with
      | nil =>
          obtain ⟨rfl, rfl⟩ := Prod.mk.inj (Option.some.inj h)
          exact .start hi
      | append_singleton is i ih =>
          rw [List.foldl_append, List.foldl_cons, List.foldl_nil] at h
          obtain ⟨⟨es', s'⟩, hs', h⟩ := Option.bind_eq_some_iff.mp h
          simp only at h
          split at h
          case _ => cases h
          case _ en hen =>
            obtain ⟨st, hst, h⟩ := Option.bind_eq_some_iff.mp h
            obtain ⟨x, hx, h⟩ := Option.map_eq_some_iff.mp h
            obtain ⟨rfl, rfl⟩ := Prod.mk.inj h
            exact (ih hs').step ⟨en, hen, st, List.mem_of_getElem? hst, hx, rfl⟩

/-- The last transition of a run. -/
theorem Run.last {T : TransitionSystem S} {es : List (Transition S)} {e : Transition S} {t : S}
    (h : T.Run (es ++ [e]) t) :
    T.Run es e.before ∧ T.Takes e.before e.thread e.after ∧ e.after = t := by
  generalize hes : es ++ [e] = es' at h
  cases h with
  | start _ => simp at hes
  | @step es₁ s t x hrun hs =>
      obtain ⟨rfl, he⟩ := List.append_inj' hes rfl
      obtain rfl := List.singleton_inj.mp he
      exact ⟨hrun, hs, rfl⟩

end TransitionSystem

end ConcIR
