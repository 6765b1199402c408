import ConcIR.Sem.Outcome
import ConcIR.Sem.Value

/-!
# Lowered expressions and evaluation

Every name of a lowered expression is resolved to a slot or a resource.
Arithmetic is checked 64-bit arithmetic; the arithmetic of floats is a
parameter, since the rest of the program only passes bit patterns on.
-/

namespace ConcIR

/-- Arithmetic and comparison of floats, on their bit patterns. -/
class FloatArith where
  add : UInt64 → UInt64 → UInt64
  sub : UInt64 → UInt64 → UInt64
  mul : UInt64 → UInt64 → UInt64
  div : UInt64 → UInt64 → UInt64
  rem : UInt64 → UInt64 → UInt64
  neg : UInt64 → UInt64
  partialCmp : UInt64 → UInt64 → Option Ordering

inductive BinOp
  | add
  | sub
  | mul
  | div
  | mod
deriving DecidableEq

inductive CmpOp
  | eq
  | ne
  | lt
  | le
  | gt
  | ge
deriving DecidableEq

inductive Lit
  | bool (b : Bool)
  | int (i : ℤ)
  | float (bits : UInt64)
  | string (s : String)
  | enum (e : String)
deriving DecidableEq

/-- A lowered expression with fully resolved names. -/
inductive LExpr
  | lit (l : Lit)
  | slot (s : SlotRef)
  | field (base : LExpr) (name : String)
  | neg (e : LExpr)
  | bin (op : BinOp) (lhs rhs : LExpr)
  | cmp (op : CmpOp) (lhs rhs : LExpr)
  | struct (fields : List (String × LExpr))

/-- Read access to the operational store during evaluation. -/
structure ValueStore where
  getSlot : SlotId → Option Value
  getShared : ResourceId → Option Value

/-- The result of a 64-bit operation, if it does not overflow. -/
def checkedI64 (i : ℤ) : Option ℤ :=
  if -2 ^ 63 ≤ i ∧ i < 2 ^ 63 then some i else none

def checkedRem (a b : ℤ) : Option ℤ :=
  if a = -2 ^ 63 ∧ b = -1 then none else some (a.tmod b)

def litValue : Lit → Value
  | .bool b => .bool b
  | .int i => .int i
  | .float f => .float f
  | .string s => .str s
  | .enum e => .enum e

/-- Which orderings an operator accepts. -/
def CmpOp.holds (op : CmpOp) (o : Ordering) : Bool :=
  match op with
  | .eq => o == .eq
  | .ne => o != .eq
  | .lt => o == .lt
  | .le => o != .gt
  | .gt => o == .gt
  | .ge => o != .lt

variable [FloatArith]

def evalBin (op : BinOp) (l r : Value) (loc : String) : BackendResult Value :=
  match l, r with
  | .int a, .int b =>
      let overflow := BackendError.mkInvalid "E901" s!"integer arithmetic overflow at {loc}"
      let out (o : Option ℤ) : BackendResult Value :=
        match o with
        | some i => .ok (.int i)
        | none => .error overflow
      match op with
      | .add => out (checkedI64 (a + b))
      | .sub => out (checkedI64 (a - b))
      | .mul => out (checkedI64 (a * b))
      | .div =>
          if b = 0 then .error (.mkInvalid "E902" s!"division by zero at {loc}")
          else out (checkedI64 (a.tdiv b))
      | .mod =>
          if b = 0 then .error (.mkInvalid "E902" s!"modulo by zero at {loc}")
          else out (checkedRem a b)
  | .float a, .float b =>
      .ok (.float (match op with
        | .add => FloatArith.add a b
        | .sub => FloatArith.sub a b
        | .mul => FloatArith.mul a b
        | .div => FloatArith.div a b
        | .mod => FloatArith.rem a b))
  | l, r => .error (.mkInvalid "E932"
      ("binary operator requires matching numeric types, found " ++ l.canonical ++ " and " ++
        r.canonical ++ " at " ++ loc))

def evalCmp (op : CmpOp) (l r : Value) (loc : String) : BackendResult Value :=
  match l, r with
  | .int a, .int b => .ok (.bool (op.holds (compare a b)))
  | .float a, .float b => .ok (.bool (match FloatArith.partialCmp a b with
      | some o => op.holds o
      | none => false))
  | l, r =>
      match op with
      | .eq => .ok (.bool (l = r))
      | .ne => .ok (.bool (l ≠ r))
      | _ => .error (.mkInvalid "E932"
          ("ordered comparison requires numeric types, found " ++ l.canonical ++ " and " ++
            r.canonical ++ " at " ++ loc))

/-- Insertion into a field list kept in the order of the names. -/
def insertField (k : String) (v : Value) : List (String × Value) → List (String × Value)
  | [] => [(k, v)]
  | (l, w) :: rest =>
      if k < l then (k, v) :: (l, w) :: rest
      else if k = l then (k, v) :: rest
      else (l, w) :: insertField k v rest

mutual

def eval (store : ValueStore) (loc : String) : LExpr → BackendResult Value
  | .lit l => .ok (litValue l)
  | .slot .discard => .error (.mkInvalid "E931" "\"_\" is not an r-value")
  | .slot (.localSlot slot) =>
      match store.getSlot slot with
      | some v => .ok v
      | none => .error (.mkInvalid "E900" s!"uninitialized frame slot {slot} at {loc}")
  | .slot (.shared r) =>
      match store.getShared r with
      | some v => .ok v
      | none => .error (.mkInvalid "E900" s!"shared resource {r} has no value at {loc}")
  | .field base name => do
      match ← eval store loc base with
      | .struct fields =>
          match fields.lookup name with
          | some v => .ok v
          | none => .error (.mkInvalid "E933" s!"struct has no field '{name}'")
      | other => .error (.mkInvalid "E933"
          ("cannot project '." ++ name ++ "' from " ++ other.canonical))
  | .neg inner => do
      match ← eval store loc inner with
      | .int i =>
          match checkedI64 (-i) with
          | some j => .ok (.int j)
          | none => .error (.mkInvalid "E901" "integer negation overflow")
      | .float f => .ok (.float (FloatArith.neg f))
      | other => .error (.mkInvalid "E932"
          ("unary '-' requires Int or Float, found " ++ other.canonical))
  | .bin op lhs rhs => do
      let l ← eval store loc lhs
      let r ← eval store loc rhs
      evalBin op l r loc
  | .cmp op lhs rhs => do
      let l ← eval store loc lhs
      let r ← eval store loc rhs
      evalCmp op l r loc
  | .struct fields => do
      let out ← evalFields store loc [] fields
      .ok (.struct out)

def evalFields (store : ValueStore) (loc : String) (out : List (String × Value)) :
    List (String × LExpr) → BackendResult (List (String × Value))
  | [] => .ok out
  | (k, e) :: rest => do
      let v ← eval store loc e
      evalFields store loc (insertField k v out) rest

end

end ConcIR
