import ConcIR.Ast.Syntax
import Mathlib

/-!
# Control-flow graphs of function bodies

The successors of a statement as the checks read them, the paths of a body from its first
statement, and the reports the checks make.
-/

namespace ConcIR

/-- `a::b` as it is, a short name as an entity of the module. -/
def qualify (fromModule name : String) : String :=
  if (splitFqn name).isSome then name else fqn fromModule name

/-- The control location `module::function.sid`. -/
def location (module function sid : String) : String :=
  module ++ fqnSep ++ function ++ "." ++ sid

section Names

theorem not_colon_of_isIdent {s : String} (h : isIdent s = true) : ':' ∉ s.toList := by
  rw [isIdent] at h
  cases hs : s.toList with
  | nil => exact List.not_mem_nil
  | cons c cs =>
      rw [hs] at h
      obtain ⟨hc, hcs⟩ := Bool.and_eq_true_iff.mp h
      rintro hmem
      rcases List.mem_cons.mp hmem with rfl | hmem
      · exact absurd hc (by decide)
      · exact absurd (List.all_eq_true.mp hcs _ hmem) (by decide)

theorem splitOnceChars_append {a b : List Char} (ha : ':' ∉ a) :
    splitOnceChars [':', ':'] (a ++ ':' :: ':' :: b) = some (a, b) := by
  induction a with
  | nil => rfl
  | cons c a ih =>
      have hc : c ≠ ':' := fun h ↦ ha (h ▸ List.mem_cons_self)
      have hpre : List.isPrefixOf [':', ':'] (c :: (a ++ ':' :: ':' :: b)) = false := by
        simp [List.isPrefixOf, hc.symm]
      rw [List.cons_append, splitOnceChars, hpre, ih fun h ↦ ha (List.mem_cons_of_mem c h)]
      rfl

theorem splitOnceChars_none {a : List Char} (ha : ':' ∉ a) :
    splitOnceChars [':', ':'] a = none := by
  induction a with
  | nil => rfl
  | cons c a ih =>
      have hc : c ≠ ':' := fun h ↦ ha (h ▸ List.mem_cons_self)
      have hpre : List.isPrefixOf [':', ':'] (c :: a) = false := by
        simp [List.isPrefixOf, hc.symm]
      rw [splitOnceChars, hpre, ih fun h ↦ ha (List.mem_cons_of_mem c h)]
      rfl

theorem splitFqn_fqn {a b : String} (ha : isIdent a = true) (hb : isIdent b = true) :
    splitFqn (fqn a b) = some (a, b) := by
  have hsep : fqnSep.toList = [':', ':'] := rfl
  have hsplit : splitOnce (fqn a b) fqnSep = some (a, b) := by
    rw [splitOnce, hsep, fqn, String.toList_append, String.toList_append, hsep, List.append_assoc]
    have hcons : [':', ':'] ++ b.toList = ':' :: ':' :: b.toList := rfl
    rw [hcons, splitOnceChars_append (not_colon_of_isIdent ha)]
    simp
  have hnone : splitOnce b fqnSep = none := by
    rw [splitOnce, hsep, splitOnceChars_none (not_colon_of_isIdent hb)]
    rfl
  rw [splitFqn, hsplit]
  simp [hnone, ha, hb]
end Names

inductive Severity
  | error
  | warning
deriving DecidableEq

structure Diagnostic where
  code : String
  severity : Severity
  message : String
  location : Option String
  path : Option String
  fixHint : Option String
deriving DecidableEq

namespace Diagnostic

def error (code message : String) : Diagnostic := ⟨code, .error, message, none, none, none⟩

def withPath (d : Diagnostic) (path : String) : Diagnostic := { d with path := some path }

def withLocation (d : Diagnostic) (loc : String) : Diagnostic := { d with location := some loc }

def withFix (d : Diagnostic) (hint : String) : Diagnostic := { d with fixHint := some hint }

end Diagnostic

namespace Ast

namespace Op

def isLockAcquire : Op → Option String
  | .mutexLock r | .rwLockRead r | .rwLockWrite r => some r
  | _ => none

def isLockRelease : Op → Option String
  | .mutexUnlock r | .rwLockUnlock r => some r
  | _ => none

end Op

namespace Stmt

def isReturn (s : Stmt) : Bool :=
  match s.op with
  | .ret _ => true
  | _ => false

/-- The named successors, or the next statement where control falls through. -/
def successors (s : Stmt) (next : Option Stmt) : List String :=
  match s.op with
  | .goto target => [target]
  | .branch _ thenTarget elseTarget => [thenTarget, elseTarget]
  | .switch _ cases default => cases.map (·.2) ++ [default]
  | .ret _ => []
  | .select branches default => branches.map (·.target) ++ default.toList
  | _ => next.toList.map (·.sid)

end Stmt

def Function.successors (f : Function) (i : ℕ) : List String :=
  match f.body[i]? with
  | none => []
  | some s => s.successors f.body[i + 1]?

namespace Program

def fnPath (mi fi : ℕ) : String := s!"modules[{mi}].functions[{fi}]"

def bodyPath (fnPath : String) (idx : ℕ) : String := fnPath ++ s!".body[{idx}]"

theorem toString_inj {i j : ℕ} (h : toString i = toString j) : i = j := by
  have hdigits : Nat.toDigits 10 i = Nat.toDigits 10 j := by
    rw [← String.ofList_inj, ← Nat.repr_eq_ofList_toDigits, ← Nat.repr_eq_ofList_toDigits]
    exact h
  rw [← @Nat.ofDigitChars_ten_toDigits i, hdigits, Nat.ofDigitChars_ten_toDigits]

theorem bodyPath_inj {fnPath : String} {i j : ℕ} (h : bodyPath fnPath i = bodyPath fnPath j) :
    i = j := by
  have hrest : s!".body[{i}]" = s!".body[{j}]" := String.append_right_inj fnPath |>.mp h
  have hnum : toString i ++ "]" = toString j ++ "]" := by
    simpa using hrest
  exact toString_inj (String.append_left_inj "]" |>.mp hnum)

def stmtLocation (module : Module) (function : Function) (stmt : Stmt) : String :=
  location module.name function.name stmt.sid

def fnLocation (module : Module) (function : Function) : String := fqn module.name function.name

end Program

end Ast

namespace Validate

open Ast

/-- The successors of each statement by its index. -/
structure Cfg where
  successors : List (List ℕ)

/-- The index of a statement id; of several statements with one id the map keeps the last. -/
def sidToIdx (f : Function) (sid : String) : Option ℕ :=
  (f.body.zipIdx.reverse.find? (·.1.sid = sid)).map (·.2)

def buildCfg (f : Function) : Cfg :=
  ⟨(List.range f.body.length).map fun i ↦ (f.successors i).filterMap (sidToIdx f)⟩

namespace Cfg

def next (g : Cfg) (i : ℕ) : List ℕ := (g.successors[i]?).getD []

/-- The path `p` leads from the first statement to just before the statement `i`. -/
inductive Path (g : Cfg) : List ℕ → ℕ → Prop
  | entry : Path g [] 0
  | step {p i j} (h : Path g p i) (hj : j ∈ g.next i) : Path g (p ++ [i]) j

end Cfg

section Bounds

variable {f : Function} {i j : ℕ} {sid : String}

theorem sidToIdx_lt (h : sidToIdx f sid = some i) : i < f.body.length := by
  obtain ⟨⟨s, k⟩, hfind, rfl⟩ := Option.map_eq_some_iff.mp h
  have hmem := List.mem_reverse.mp (List.mem_of_find?_eq_some hfind)
  exact (List.getElem?_eq_some_iff.mp (List.mem_zipIdx_iff_getElem?.mp hmem)).1

theorem next_buildCfg (f : Function) (i : ℕ) : (buildCfg f).next i =
    if i < f.body.length then (f.successors i).filterMap (sidToIdx f) else [] := by
  rw [Cfg.next, buildCfg, List.getElem?_map]
  split_ifs with h
  · rw [List.getElem?_range h]
    rfl
  · rw [List.getElem?_eq_none (by rw [List.length_range]; exact not_lt.mp h)]
    rfl

theorem next_lt (h : j ∈ (buildCfg f).next i) : j < f.body.length := by
  rw [next_buildCfg] at h
  split_ifs at h
  · obtain ⟨sid, -, hsid⟩ := List.mem_filterMap.mp h
    exact sidToIdx_lt hsid
  · exact absurd h List.not_mem_nil

end Bounds

end Validate

end ConcIR
