import ConcIR.Trace.Events
import ConcIR.Trace.Worklist

/-!
# Trace conformance

Replay of an event stream against the reference interpreter: a set of candidate
states with their tags is carried along the trace, expanded by the steps that emit
nothing and advanced by the step that emits the next event.
-/

namespace ConcIR

def AnalysisBounds.default : AnalysisBounds := ⟨16, 32, 200000, 400, 4096⟩

def BackendError.display : BackendError → String
  | .unsupported u => "unsupported " ++ u.construct ++ ": " ++ u.detail
  | .invalid i => "invalid [" ++ i.code ++ "]: " ++ i.message

namespace Trace

/-- `Debug` of a character inside a string. Control characters are taken to be the
only ones written as code points. -/
def debugChar (c : Char) : List Char :=
  if c = '"' ∨ c = '\\' then ['\\', c]
  else if c = '\n' then ['\\', 'n']
  else if c = '\r' then ['\\', 'r']
  else if c = '\t' then ['\\', 't']
  else if c.toNat = 0 then ['\\', '0']
  else if c.toNat < 32 ∨ c.toNat = 127 then
    "\\u\x7b".toList ++ Nat.toDigits 16 c.toNat ++ "\x7d".toList
  else [c]

def debugString (s : String) : String :=
  "\"" ++ String.ofList (s.toList.flatMap debugChar) ++ "\""

def maxVisited : ℕ := 200000

structure Coverage where
  sidsSeen : ℕ
  sidsTotal : ℕ

structure Conformance where
  status : String
  events : ℕ
  eventIndex : Option ℕ
  expected : List String
  got : Option String
  coverage : Coverage
  detail : Option String
  postJoinMainOps : List String
  wrapperOps : List String

/-- An event of a trace; operation and resource are empty in the first format. -/
structure TraceEvent where
  tag : String
  sid : String
  op : String
  resource : String

/-- The modes of the checker. `debug` stands for the environment variable that adds a
dump of the first candidate to a report. -/
structure Options where
  lenientUnlock : Bool
  attemptEvents : Bool
  opResource : Bool
  debug : Bool

/-- The mode for traces of generated code. -/
def Options.strict (debug : Bool) : Options := ⟨false, false, false, debug⟩

variable [FloatArith] (P : SemProgram)

def engine : Engine := ⟨P, .default, .unbounded⟩

/-- A candidate: a state of the model and what the tags stand for in it. -/
abbrev Candidate := MachineState × Tags

def Candidate.key (x : Candidate) : String := x.1.stateKey

/-- The steps offered in a state; none where the interpreter reports an error. -/
def stepsOf (σ : MachineState) : List (Step MachineState) :=
  match (engine P).successors σ with
  | .ok en => en.steps
  | .error _ => []

def follow (x : Candidate) (step : Step MachineState) : Candidate :=
  (step.state, x.2.bind (newTagsForStep P x.1 step))

variable (o : Options)

def capable (σ : MachineState) (step : Step MachineState) : Bool :=
  eventCapable P o.attemptEvents o.opResource σ step

def takenSilently (σ : MachineState) (step : Step MachineState) : Bool :=
  !(capable P o σ step && !(o.lenientUnlock &&
    lenientSkippable P o.attemptEvents o.opResource σ step))

def silentSteps (x : Candidate) : List Candidate :=
  ((stepsOf P x.1).filter (takenSilently P o x.1)).map (follow P x)

/-- The loop that `silent_expand` and `advance` share: everything reachable without an
event, one candidate for every key. -/
def silentClosure (frontier : List Candidate) : Worklist Candidate String :=
  Worklist.expand Candidate.key (silentSteps P o) maxVisited frontier

def silentExpand (frontier : List Candidate) : List Candidate := (silentClosure P o frontier).found

def matchesTarget (target : Target) (step : Step MachineState) : Bool :=
  match step.label.origin.sid with
  | none => false
  | some idx => statementMatches P step.label.origin.function idx target

def labelOf (target : Target) (step : Step MachineState) : Option String :=
  step.label.origin.sid.bind fun idx ↦ targetLabel P step.label.origin.function idx target

/-- The event steps of thread `tid` that match the target. -/
def hits (tid : ThreadId) (target : Target) (x : Candidate) : List (Candidate × FunctionId) :=
  ((stepsOf P x.1).filter fun step ↦ capable P o x.1 step && step.label.thread = some tid &&
    matchesTarget P target step).map fun step ↦ (follow P x step, step.label.origin.function)

/-- One event: from every candidate reachable silently, every binding of the step that
emits it; otherwise what could have been emitted. -/
def advance (x : Candidate) (tid : ThreadId) (target : Target) :
    Except (List String) (List (Candidate × FunctionId)) :=
  let closure := (silentClosure P o [x]).found
  let out := Worklist.firsts (fun h ↦ Candidate.key h.1) (closure.flatMap (hits P o tid target))
  if out.isEmpty then
    .error (Worklist.firsts id (closure.flatMap fun y ↦
      ((stepsOf P y.1).filter fun step ↦ capable P o y.1 step && step.label.thread = some tid)
        |>.filterMap (labelOf P target)))
  else .ok out

/-- What the loop over the events carries. -/
structure Checking where
  frontier : List Candidate
  seen : BTreeSet String
  postJoinMainOps : List String

/-- A report; `n` is the length of the trace. -/
def Checking.report (c : Checking) (n : ℕ) (status : String) (eventIndex : Option ℕ)
    (expected : List String) (got detail : Option String) : Conformance where
  status := status
  events := n
  eventIndex := eventIndex
  expected := expected
  got := got
  coverage := ⟨c.seen.size, (observableSids P).size⟩
  detail := detail
  postJoinMainOps := c.postJoinMainOps
  wrapperOps := []

def targetOf (ev : TraceEvent) : Target :=
  if o.opResource then .opRes ev.op ev.resource else .sid ev.sid

/-- Some observable statement of the program matches the target. -/
def known (target : Target) : Bool :=
  (List.range P.functions.length).any fun f ↦ (List.range (P.function f).body.length).any fun i ↦
    (P.opAt f i).any isObservable && statementMatches P f i target

/-- The signatures of the observable statements with an id. -/
def signatures (sid : String) : List (String × String) :=
  (List.range P.functions.length).flatMap fun f ↦
    (List.range (P.function f).body.length).filterMap fun i ↦
      if sidOf P f i = some sid then observableSig P f i else none

/-- Free traces: the event may be a step of any thread. -/
def checkOpResource (n k : ℕ) (c : Checking) (ev : TraceEvent) (target : Target) :
    Except Conformance Checking :=
  let offered := c.frontier.flatMap fun x ↦
    ((stepsOf P x.1).filter fun step ↦ eventCapable P o.attemptEvents true x.1 step &&
      step.label.origin.sid.isSome).map fun step ↦ (x, step)
  let matching := offered.filter fun p ↦ matchesTarget P target p.2
  let expected := Worklist.firsts id
    ((offered.filter fun p ↦ !matchesTarget P target p.2).filterMap fun p ↦ labelOf P target p.2)
  if matching.isEmpty then
    -- work of the entry thread after every other thread is gone
    let mainOnly := c.frontier.filter fun x ↦ x.1.threads.size ≤ 1
    if mainOnly.isEmpty then
      .error (c.report P n "violation" (some k) (expected.take 6)
        (some (ev.op ++ ":" ++ ev.resource))
        (some s!"no enabled model step matches {ev.op} on {debugString ev.resource} at event {k}"))
    else
      .ok { c with
        frontier := mainOnly
        postJoinMainOps := c.postJoinMainOps ++ [ev.op ++ ":" ++ ev.resource] }
  else
    .ok { c with
      frontier := Worklist.firsts Candidate.key (matching.map fun p ↦ follow P p.1 p.2) }

def dumpOf (c : Checking) : String :=
  if o.debug then
    String.ofList (((c.frontier.head?.map fun x ↦ x.1.renderState Value.canonical).getD "")
      |>.toList.take 1500)
  else ""

def oks {ε α : Type} (rs : List (Except ε (List α))) : List α :=
  rs.flatMap fun r ↦ match r with
    | .ok as => as
    | .error _ => []

def errors {ε α : Type} (rs : List (Except (List ε) α)) : List ε :=
  rs.flatMap fun r ↦ match r with
    | .ok _ => []
    | .error es => es

/-- What `advance` makes of every candidate that knows the tag of the event. -/
def attemptsOf (frontier : List Candidate) (tag : String) (target : Target) :
    List (Except (List String) (List (Candidate × FunctionId))) :=
  frontier.filterMap fun x ↦ x.2[tag]?.map fun tid ↦ advance P o x tid target

def checkTagged (n k : ℕ) (c : Checking) (ev : TraceEvent) (target : Target) :
    Except Conformance Checking :=
  let results := attemptsOf P o c.frontier ev.tag target
  if results.isEmpty then
    .error (c.report P n "violation" (some k) [] (some ev.sid)
      (some s!"event for unknown thread tag {ev.tag} before it was spawned"))
  else
    let next := oks results
    if next.isEmpty then
      .error (c.report P n "violation" (some k) (Worklist.firsts id (errors results))
        (some ev.sid)
        (some s!"no model path matches event {k} ({ev.tag} {ev.sid}){dumpOf o c}"))
    else
      .ok { c with
        frontier := Worklist.firsts Candidate.key (next.map (·.1))
        seen := next.foldl (fun s h ↦
          s.insert (statementName P (P.function h.2) ev.sid)) c.seen }

/-- One round of the loop: a report that ends it, or what it goes on with. -/
def checkEvent (n k : ℕ) (c : Checking) (ev : TraceEvent) : Except Conformance Checking :=
  let c := { c with frontier := silentExpand P o c.frontier }
  let target := targetOf o ev
  let sigs := signatures P ev.sid
  let opOk := sigs.any fun s ↦ s.1 = ev.op
  let resOk := sigs.any fun s ↦ s.1 = ev.op && (ev.resource = "" || s.2 = ev.resource)
  if known P target && ev.op ≠ "" && !o.opResource && (!opOk || !resOk) then
    .error (c.report P n "violation" (some k) (sigs.map fun s ↦ s.1 ++ ":" ++ s.2)
      (some (ev.op ++ ":" ++ ev.resource))
      (some ("kind=" ++ (if opOk then "resource" else "order") ++
        s!": event {ev.op} on {debugString ev.resource} does not match sid {ev.sid}")))
  else if !known P target then
    .error (c.report P n (if o.opResource then "violation" else "unknown_sid") (some k) []
      (some (if o.opResource then ev.op ++ ":" ++ ev.resource else ev.sid))
      (some (if o.opResource then
          s!"no model statement matches {ev.op} on {debugString ev.resource} (thread {ev.tag})"
        else s!"thread {ev.tag} emitted unknown sid {ev.sid}")))
  else if o.opResource then checkOpResource P o n k c ev target
  else checkTagged P o n k c ev target

/-- The loop, from event `k` on. -/
def checkFrom (n : ℕ) : ℕ → Checking → List TraceEvent → Except Conformance Checking
  | _, c, [] => .ok c
  | k, c, ev :: rest =>
      match checkEvent P o n k c ev with
      | .error report => .error report
      | .ok c' => checkFrom n (k + 1) c' rest

def entryTags : Tags := (∅ : Tags).insert "t0" 0

def Checking.start (σ : MachineState) : Checking := ⟨[(σ, entryTags)], ∅, []⟩

def conformEvents (trace : List TraceEvent) : Conformance :=
  match (engine P).initial with
  | .error e =>
      ⟨"error", trace.length, none, [], none, ⟨0, (observableSids P).size⟩,
        some ("initial state: " ++ e.display), [], []⟩
  | .ok σ =>
      match checkFrom P o trace.length 0 (.start σ) trace with
      | .error report => report
      | .ok c => c.report P trace.length "conformant" none [] none none

/-- Events of the first format: tag and statement id. -/
def plainTrace (trace : List (String × String)) : List TraceEvent :=
  trace.map fun p ↦ ⟨p.1, p.2, "", ""⟩

def conformOptions (trace : List (String × String)) (lenientUnlock attemptEvents : Bool)
    (debug : Bool) : Conformance :=
  conformEvents P ⟨lenientUnlock, attemptEvents, false, debug⟩ (plainTrace trace)

def conform (trace : List (String × String)) (debug : Bool) : Conformance :=
  conformOptions P trace false false debug

end Trace

end ConcIR
