import ConcIR.Ast.Syntax

/-!
# Type expressions

Equality and display of types, and what the checks call integers and floats.
-/

namespace ConcIR

namespace BaseType

mutual

def decEq : (a b : BaseType) → Decidable (a = b)
  | .primitive a, .primitive b => if h : a = b then isTrue (by rw [h]) else isFalse (by simp [h])
  | .enum a, .enum b => if h : a = b then isTrue (by rw [h]) else isFalse (by simp [h])
  | .struct a, .struct b =>
      match decEqFields a b with
      | isTrue h => isTrue (by rw [h])
      | isFalse h => isFalse (by simp [h])
  | .array a n, .array b m =>
      match decEq a b with
      | isTrue h => if hn : n = m then isTrue (by rw [h, hn]) else isFalse (by simp [hn])
      | isFalse h => isFalse (by simp [h])
  | .boundedInt a b, .boundedInt c d =>
      if h : a = c ∧ b = d then isTrue (by rw [h.1, h.2]) else isFalse (by simpa using h)
  | .primitive _, .enum _ | .primitive _, .struct _ | .primitive _, .array .. => isFalse (by simp)
  | .primitive _, .boundedInt .. => isFalse (by simp)
  | .enum _, .primitive _ | .enum _, .struct _ | .enum _, .array .. => isFalse (by simp)
  | .enum _, .boundedInt .. => isFalse (by simp)
  | .struct _, .primitive _ | .struct _, .enum _ | .struct _, .array .. => isFalse (by simp)
  | .struct _, .boundedInt .. => isFalse (by simp)
  | .array .., .primitive _ | .array .., .enum _ | .array .., .struct _ => isFalse (by simp)
  | .array .., .boundedInt .. => isFalse (by simp)
  | .boundedInt .., .primitive _ | .boundedInt .., .enum _ => isFalse (by simp)
  | .boundedInt .., .struct _ | .boundedInt .., .array .. => isFalse (by simp)

def decEqFields : (a b : List (String × BaseType)) → Decidable (a = b)
  | [], [] => isTrue rfl
  | [], _ :: _ => isFalse (by simp)
  | _ :: _, [] => isFalse (by simp)
  | (k, s) :: xs, (l, t) :: ys =>
      if hk : k = l then
        match decEq s t with
        | isTrue ht =>
            match decEqFields xs ys with
            | isTrue h => isTrue (by rw [hk, ht, h])
            | isFalse h => isFalse (by simp [h])
        | isFalse ht => isFalse (by simp [ht])
      else isFalse (by simp [hk])

end

instance : DecidableEq BaseType := decEq

mutual

/-- The text of a type in messages. -/
def display : BaseType → String
  | .primitive p => p
  | .enum variants => "Enum\x7b" ++ ", ".intercalate variants ++ "\x7d"
  | .struct fields => "Struct\x7b" ++ ", ".intercalate (displayFields fields) ++ "\x7d"
  | .array elem len => "Array<" ++ display elem ++ ", " ++ toString len ++ ">"
  | .boundedInt lo hi => "Int\x7b" ++ toString lo ++ "..=" ++ toString hi ++ "\x7d"

def displayFields : List (String × BaseType) → List String
  | [] => []
  | (k, t) :: rest => (k ++ ": " ++ display t) :: displayFields rest

end

def isInt : BaseType → Bool
  | .primitive p => p = "Int"
  | .boundedInt .. => true
  | _ => false

def isFloat : BaseType → Bool
  | .primitive p => p = "Float"
  | _ => false

end BaseType

namespace Ast

deriving instance DecidableEq for ParamDecl

end Ast

end ConcIR
