import ConcIR.Interp.Steps
import ConcIR.Machine.Births
import ConcIR.Trace.Conform

/-!
# What a run of the interpreter emits

The observable events of a run, the threads it has started with the tags they were
given, and how the checker's reading of a single step agrees with both.
-/

namespace ConcIR.Trace

open MachineState

variable (P : SemProgram)

/-- The statement the acting thread stands at. -/
def statementOf (e : Transition MachineState) : Option SemStmt :=
  (e.before.currentFrame e.thread).bind fun fr ↦ (P.function fr.function).body[fr.pc]?

/-- The step at which a statement is reported: its first attempt, or the step that
leaves it behind. -/
def reports (e : Transition MachineState) (op : SemOp) : Bool :=
  isObservable op &&
    if eventAtAttempt op then threadRunnable e.before e.thread
    else movedOn e.before e.after e.thread

/-- The statement id a transition emits. -/
def eventOf (e : Transition MachineState) : Option String :=
  match statementOf P e with
  | none => none
  | some s => if reports e s.op then some s.sid else none

/-- The threads a transition starts, with the tags their statement gives them. -/
def created (e : Transition MachineState) : List (String × ThreadId) :=
  match e.before.currentFrame e.thread with
  | none => []
  | some fr => tagged P fr.function fr.pc (newThreads e.before e.after)

/-- The threads of a run with their tags, the oldest first. -/
abbrev Births := List (String × ThreadId)

def entryBirth : Births := [("t0", 0)]

def births (es : List (Transition MachineState)) : Births :=
  es.foldl (fun b e ↦ b ++ created P e) entryBirth

/-- The thread most recently started under a tag. -/
def Births.latest (b : Births) (tag : String) : Option ThreadId := b.reverse.lookup tag

/-- An observable event: the threads started before it, the acting thread and the
statement id. -/
structure Observation where
  births : Births
  thread : ThreadId
  sid : String

def observation (b : Births) (e : Transition MachineState) : List Observation :=
  ((eventOf P e).map fun sid ↦ ⟨b, e.thread, sid⟩).toList

/-- The observable events of a run, in order. -/
def observe : Births → List (Transition MachineState) → List Observation
  | _, [] => []
  | b, e :: es => observation P b e ++ observe (b ++ created P e) es

/-- A trace event read off an observation, its tag naming the thread started last
under it. -/
structure Explains (ev : TraceEvent) (ob : Observation) : Prop where
  thread : ob.births.latest ev.tag = some ob.thread
  sid : ob.sid = ev.sid

theorem births_concat (es : List (Transition MachineState)) (e : Transition MachineState) :
    births P (es ++ [e]) = births P es ++ created P e := by
  rw [births, List.foldl_append]
  rfl

theorem observe_append (b : Births) (es es' : List (Transition MachineState)) :
    observe P b (es ++ es') =
      observe P b es ++ observe P (es.foldl (fun b e ↦ b ++ created P e) b) es' := by
  induction es generalizing b with
  | nil => rfl
  | cons e es ih =>
      rw [List.cons_append, observe, observe, ih, List.append_assoc]
      rfl

theorem observe_concat (es : List (Transition MachineState)) (e : Transition MachineState) :
    observe P entryBirth (es ++ [e]) = observe P entryBirth es ++ observation P (births P es) e := by
  rw [observe_append]
  simp only [observe, List.append_nil]
  rfl

/-- The tags a list of births leaves behind. -/
theorem getElem?_bind (tags : Tags) (b : List (String × ThreadId)) (tag : String) :
    (tags.bind b)[tag]? = (b.reverse.lookup tag).or tags[tag]? := by
  induction b using List.reverseRecOn with
  | nil => rfl
  | append_singleton b p ih =>
      rw [Tags.bind, List.foldl_append, List.foldl_cons, List.foldl_nil,
        Std.ExtTreeMap.getElem?_insert, List.reverse_concat, List.lookup_cons]
      by_cases h : p.1 = tag
      · simp [h]
      · have hb : (tag == p.1) = false := by simpa using Ne.symm h
        have hc : ¬compare p.1 tag = .eq := by simpa using h
        rw [hb, if_neg hc]
        exact ih

theorem getElem?_entryTags_bind (b : Births) (tag : String) :
    (Tags.bind (∅ : Tags) b)[tag]? = b.latest tag := by
  rw [getElem?_bind, Std.ExtTreeMap.getElem?_empty, Option.or_none]
  rfl

theorem bind_append (tags : Tags) (b b' : Births) :
    tags.bind (b ++ b') = (tags.bind b).bind b' := by
  rw [Tags.bind, List.foldl_append]
  rfl

theorem isSome_guard {α : Type} (b : Bool) (a : α) :
    (if b = true then some a else none).isSome = b := by
  cases b <;> rfl

section Steps

variable [FloatArith] {P} {σ τ : MachineState} {x : ThreadId} {st : Step MachineState}

theorem mem_stepsOf : st ∈ stepsOf P σ ↔
    ∃ en, (engine P).successors σ = .ok en ∧ st ∈ en.steps := by
  rw [stepsOf]
  cases h : (engine P).successors σ with
  | ok en => simp
  | error e => simp

theorem takes_iff : (engine P).interpreter.Takes σ x τ ↔
    ∃ st ∈ stepsOf P σ, st.label.thread = some x ∧ st.state = τ := by
  constructor
  · rintro ⟨en, hen, st, hst, hx, hτ⟩
    exact ⟨st, mem_stepsOf.mpr ⟨en, hen, hst⟩, hx, hτ⟩
  · rintro ⟨st, hst, hx, hτ⟩
    obtain ⟨en, hen, hst⟩ := mem_stepsOf.mp hst
    exact ⟨en, hen, st, hst, hx, hτ⟩

/-- How the checker reads a step, in terms of the transition it makes. -/
structure Reads (P : SemProgram) (σ : MachineState) (st : Step MachineState)
    (e : Transition MachineState) : Prop where
  before : e.before = σ
  thread : st.label.thread = some e.thread
  after : st.state = e.after
  capable : eventCapable P false false σ st = (eventOf P e).isSome
  tags : newTagsForStep P σ st = created P e
  sid : ∀ s, matchesTarget P (.sid s) st = true ↔ (statementOf P e).map (·.sid) = some s

theorem reads_of_mem (h : st ∈ stepsOf P σ) : ∃ x, Reads P σ st ⟨σ, x, st.state⟩ := by
  obtain ⟨en, hen, hst⟩ := mem_stepsOf.mp h
  obtain ⟨x, f, fr, hfr, hl⟩ := successors_label hen hst
  have hop : opOf P st = (statementOf P ⟨σ, x, st.state⟩).map (·.op) := by
    rw [opOf, hl, statementOf, hfr]
    rfl
  have hthread : st.label.thread = some x := by rw [hl]; rfl
  refine ⟨x, rfl, hthread, rfl, ?_, ?_, ?_⟩
  · have hphase : st.label.origin.phase = .statement := by rw [hl]; rfl
    rw [eventCapable, eventOf, hop, hphase]
    cases hs : statementOf P ⟨σ, x, st.state⟩ with
    | none => rfl
    | some s =>
        simp only [Option.map_some, reports, threadAdvanced, attempts, hthread]
        cases isObservable s.op with
        | false => rfl
        | true => cases eventAtAttempt s.op <;> simp [isSome_guard]
  · rw [newTagsForStep, created, hl, hfr]
    rfl
  · intro s
    rw [matchesTarget, hl, statementOf, hfr]
    exact decide_eq_true_iff

/-- A transition of a run that emits nothing starts no thread. -/
theorem created_of_silent {e : Transition MachineState} (hw : Wf P e.before)
    (hs : (engine P).interpreter.Takes e.before e.thread e.after) (he : eventOf P e = none) :
    created P e = [] := by
  have hnil : NoBirth e.before e.after → created P e = [] := by
    intro hb
    have hnew : newThreads e.before e.after = [] := by
      refine List.filter_eq_nil_iff.mpr fun y hy ↦ ?_
      simpa using hb.threads y (Std.ExtTreeMap.mem_keys.mp hy)
    rw [created]
    split
    case _ => rfl
    case _ =>
      rw [hnew, tagged]
      split
      · rfl
      · exact List.zip_nil_right
  rcases (fires_of_takes (E := engine P) hw hs).noBirth with
    hb | ⟨t, f, fr, op, top, hrun, hop, hf, -⟩
  · exact hnil hb
  · exfalso
    obtain ⟨s, hs', rfl⟩ := Option.map_eq_some_iff.mp hop
    have hrunnable : threadRunnable e.before e.thread = true := by
      simp [threadRunnable, show e.before.threads[e.thread]? = some t from top.thread, hrun]
    rw [eventOf, statementOf, top.currentFrame, Option.bind_some] at he
    rw [show (P.function fr.function).body[fr.pc]? = some s from hs'] at he
    cases hop' : s.op with
    | spawn | scope => simp [reports, isObservable, eventAtAttempt, hop', hrunnable] at he
    | _ => simp [hop', SemOp.forks] at hf

end Steps

end ConcIR.Trace
