import ConcIR.Ast.Types
import ConcIR.Sem.Eval

/-!
# Expressions and the names they see

Expressions of statements as the parser returns them, and the names visible in a function
with their types.
-/

namespace ConcIR

inductive Expr
  | lit (l : Lit)
  | name (n : String)
  | field (base : Expr) (field : String)
  | unaryNeg (e : Expr)
  | binOp (op : BinOp) (lhs rhs : Expr)
  | cmp (op : CmpOp) (lhs rhs : Expr)
  | struct (fields : List (String × Expr))

inductive SlotKind
  | local
  | param
  | ret
  | var
  | atomic
  | discard
  | syncResource
deriving DecidableEq

/-- A visible name. Slots of an activation may be left out of the model. -/
structure Slot where
  kind : SlotKind
  ty : Option BaseType
  modeled : Bool

/-- The names visible in a function body. -/
structure NameEnv where
  slots : List (String × Slot)
  nodup : (slots.map (·.1)).Nodup

namespace NameEnv

variable (env : NameEnv)

def get (name : String) : Option Slot := env.slots.lookup name

/-- The variants of all visible slots. -/
def enumVariants : List String :=
  env.slots.flatMap fun s ↦
    match s.2.ty with
    | some (.enum vars) => vars
    | _ => []

end NameEnv

end ConcIR
