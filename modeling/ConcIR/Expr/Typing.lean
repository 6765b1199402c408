import ConcIR.Expr.Syntax

/-!
# Types of expressions

The type of an expression is unknown where it comes from a slot that is left out of the
model, and for an enum variant, whose type is that of what it is compared with or assigned
to. The type of a struct literal is the one its fields show.
-/

namespace ConcIR

structure TypeError where
  code : String
  message : String
deriving DecidableEq

namespace Expr

def litType : Lit → Option BaseType
  | .bool _ => some (.primitive "Bool")
  | .int _ => some (.primitive "Int")
  | .float _ => some (.primitive "Float")
  | .string _ => some (.primitive "String")
  | .enum _ => none

def typeOfName (n : String) (env : NameEnv) : Except TypeError (Option BaseType) :=
  match env.get n with
  | none => .error ⟨"E931", "undefined name '" ++ n ++ "' in expression"⟩
  | some slot =>
      match slot.kind with
      | .discard => .error ⟨"E931", "\"_\" is not an r-value"⟩
      | .syncResource =>
          .error ⟨"E934", "'" ++ n ++ "' is a sync resource and cannot appear as a value"⟩
      | .local | .param | .ret => if !slot.modeled then .ok none else .ok slot.ty
      | .var | .atomic => .ok slot.ty

def enumLitOk (expr : Expr) (other : BaseType) : Bool :=
  match expr, other with
  | .lit (.enum v), .enum vars => vars.contains v
  | _, _ => false

/-- A variant is compared with a value of the type. -/
def checkVariant (expr : Expr) (other : BaseType) : Except TypeError Unit :=
  match expr with
  | .lit (.enum v) =>
      if enumLitOk expr other then .ok ()
      else .error ⟨"E932", "'" ++ v ++ "' is not a variant of " ++ other.display⟩
  | _ => .ok ()

def CmpOp.ordered : CmpOp → Bool
  | .lt | .le | .gt | .ge => true
  | .eq | .ne => false

def checkComparable (op : CmpOp) (lt rt : Option BaseType) (lhs rhs : Expr) :
    Except TypeError Unit :=
  match lt, rt with
  | none, none => .ok ()
  | some l, none => checkVariant rhs l
  | none, some r => checkVariant lhs r
  | some l, some r =>
      if enumLitOk lhs r || enumLitOk rhs l then .ok ()
      else if CmpOp.ordered op then
        if l.isInt && r.isInt || l.isFloat && r.isFloat then .ok ()
        else .error ⟨"E932", "ordered comparison requires numeric types, found " ++ l.display ++
          " and " ++ r.display⟩
      else if l = r || l.isInt && r.isInt then .ok ()
      else .error ⟨"E932", "comparison operands have types " ++ l.display ++ " and " ++ r.display⟩

/-- Insertion into a map kept in the order of its keys. -/
def insertType (k : String) (t : BaseType) : List (String × BaseType) → List (String × BaseType)
  | [] => [(k, t)]
  | (l, u) :: rest =>
      if k < l then (k, t) :: (l, u) :: rest
      else if k = l then (k, t) :: rest
      else (l, u) :: insertType k t rest

mutual

/-- `none` is an unknown type. -/
def typeOf (env : NameEnv) : Expr → Except TypeError (Option BaseType)
  | .lit l => .ok (litType l)
  | .name n => typeOfName n env
  | .field base k => do
      match ← typeOf env base with
      | none => .ok none
      | some (.struct fields) =>
          match fields.lookup k with
          | some ft => .ok (some ft)
          | none => .error ⟨"E933", "struct has no field '" ++ k ++ "'"⟩
      | some other =>
          .error ⟨"E933", "cannot project '." ++ k ++ "' from type " ++ other.display⟩
  | .unaryNeg inner => do
      match ← typeOf env inner with
      | none => .ok none
      | some t =>
          if t.isInt then .ok (some t)
          else .error ⟨"E932", "unary '-' requires Int, found " ++ t.display⟩
  | .binOp _ lhs rhs => do
      match ← typeOf env lhs, ← typeOf env rhs with
      | some l, some r =>
          if l.isInt && r.isInt then .ok (some (.primitive "Int"))
          else if l.isFloat && r.isFloat then .ok (some (.primitive "Float"))
          else .error ⟨"E932", "binary operator requires matching numeric types, found " ++
            l.display ++ " and " ++ r.display⟩
      | _, _ => .ok none
  | .cmp op lhs rhs => do
      let lt ← typeOf env lhs
      let rt ← typeOf env rhs
      checkComparable op lt rt lhs rhs
      .ok (some (.primitive "Bool"))
  | .struct fields => do
      let map ← typeOfFields env [] fields
      .ok (some (.struct map))

/-- The fields with a known type. -/
def typeOfFields (env : NameEnv) (map : List (String × BaseType)) :
    List (String × Expr) → Except TypeError (List (String × BaseType))
  | [] => .ok map
  | (k, val) :: rest => do
      match ← typeOf env val with
      | none => typeOfFields env map rest
      | some ty => typeOfFields env (insertType k ty map) rest

end

/-- The types are the same, or both of integers. -/
def compatible (got expected : BaseType) : Bool :=
  got = expected || got.isInt && expected.isInt

/-- The declared fields are all there, with their types. -/
def checkFields (g : List (String × BaseType)) : List (String × BaseType) → Except TypeError Unit
  | [] => .ok ()
  | (k, et) :: rest =>
      match g.lookup k with
      | none => .error ⟨"E933", "struct literal missing field '" ++ k ++ "'"⟩
      | some gt =>
          if !compatible gt et then
            .error ⟨"E932", "field '" ++ k ++ "' has type " ++ gt.display ++ ", expected " ++
              et.display⟩
          else checkFields g rest

/-- There are no other fields. -/
def checkUnknown (e : List (String × BaseType)) : List (String × BaseType) → Except TypeError Unit
  | [] => .ok ()
  | (k, _) :: rest =>
      if (e.lookup k).isNone then
        .error ⟨"E933", "struct literal has unknown field '" ++ k ++ "'"⟩
      else checkUnknown e rest

def assignable (got : Option BaseType) (expected : BaseType) (expr : Expr) :
    Except TypeError Unit :=
  match got with
  | none =>
      match expr, expected with
      | .lit (.enum v), .enum vars =>
          if vars.contains v then .ok ()
          else .error ⟨"E932", "'" ++ v ++ "' is not a variant of " ++ expected.display⟩
      | _, _ => .ok ()
  | some got =>
      if compatible got expected then
        match expected, expr with
        | .boundedInt lo hi, .lit (.int v) =>
            if v < lo ∨ v > hi then
              .error ⟨"E203", "value " ++ toString v ++ " is outside the declared Int range " ++
                toString lo ++ "..=" ++ toString hi⟩
            else .ok ()
        | _, _ => .ok ()
      else
        match got, expected with
        | .struct g, .struct e =>
            match checkFields g e with
            | .error err => .error err
            | .ok () => checkUnknown e g
        | _, _ => .error ⟨"E932", "type mismatch: expected " ++ expected.display ++ ", found " ++
            got.display⟩

end Expr

end ConcIR
