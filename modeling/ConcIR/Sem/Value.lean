import ConcIR.Sem.Ids

/-!
# Runtime values

A value is the payload of the operational store and of the net's coloured
tokens. Floats are carried by their IEEE bit pattern, which is how the source
compares and hashes them; struct fields are kept in the order of their names.
-/

namespace ConcIR

/-- Value types; the composite forms of the source are folded into one type. -/
inductive BaseType
  | primitive (name : String)
  | enum (variants : List String)
  | struct (fields : List (String × BaseType))
  | array (elem : BaseType) (len : ℤ)
  | boundedInt (lo hi : ℤ)

inductive Value
  | bool (b : Bool)
  | int (i : ℤ)
  | float (bits : UInt64)
  | str (s : String)
  | enum (e : String)
  | struct (fields : List (String × Value))
  | array (items : List Value)

namespace Value

instance : Inhabited Value := ⟨.int 0⟩

mutual

def decEq : (v w : Value) → Decidable (v = w)
  | .bool a, .bool b => if h : a = b then isTrue (by rw [h]) else isFalse (by simp [h])
  | .int a, .int b => if h : a = b then isTrue (by rw [h]) else isFalse (by simp [h])
  | .float a, .float b => if h : a = b then isTrue (by rw [h]) else isFalse (by simp [h])
  | .str a, .str b => if h : a = b then isTrue (by rw [h]) else isFalse (by simp [h])
  | .enum a, .enum b => if h : a = b then isTrue (by rw [h]) else isFalse (by simp [h])
  | .struct a, .struct b =>
      match decEqFields a b with
      | isTrue h => isTrue (by rw [h])
      | isFalse h => isFalse (by simp [h])
  | .array a, .array b =>
      match decEqItems a b with
      | isTrue h => isTrue (by rw [h])
      | isFalse h => isFalse (by simp [h])
  | .bool _, .int _ | .bool _, .float _ | .bool _, .str _ | .bool _, .enum _
  | .bool _, .struct _ | .bool _, .array _ => isFalse (by simp)
  | .int _, .bool _ | .int _, .float _ | .int _, .str _ | .int _, .enum _
  | .int _, .struct _ | .int _, .array _ => isFalse (by simp)
  | .float _, .bool _ | .float _, .int _ | .float _, .str _ | .float _, .enum _
  | .float _, .struct _ | .float _, .array _ => isFalse (by simp)
  | .str _, .bool _ | .str _, .int _ | .str _, .float _ | .str _, .enum _
  | .str _, .struct _ | .str _, .array _ => isFalse (by simp)
  | .enum _, .bool _ | .enum _, .int _ | .enum _, .float _ | .enum _, .str _
  | .enum _, .struct _ | .enum _, .array _ => isFalse (by simp)
  | .struct _, .bool _ | .struct _, .int _ | .struct _, .float _ | .struct _, .str _
  | .struct _, .enum _ | .struct _, .array _ => isFalse (by simp)
  | .array _, .bool _ | .array _, .int _ | .array _, .float _ | .array _, .str _
  | .array _, .enum _ | .array _, .struct _ => isFalse (by simp)

def decEqFields : (a b : List (String × Value)) → Decidable (a = b)
  | [], [] => isTrue rfl
  | [], _ :: _ => isFalse (by simp)
  | _ :: _, [] => isFalse (by simp)
  | (k, v) :: a, (l, w) :: b =>
      match decEq v w, decEqFields a b with
      | isTrue hv, isTrue ha =>
          if hk : k = l then isTrue (by rw [hk, hv, ha]) else isFalse (by simp [hk])
      | isFalse hv, _ => isFalse (by simp [hv])
      | _, isFalse ha => isFalse (by simp [ha])

def decEqItems : (a b : List Value) → Decidable (a = b)
  | [], [] => isTrue rfl
  | [], _ :: _ => isFalse (by simp)
  | _ :: _, [] => isFalse (by simp)
  | v :: a, w :: b =>
      match decEq v w, decEqItems a b with
      | isTrue hv, isTrue ha => isTrue (by rw [hv, ha])
      | isFalse hv, _ => isFalse (by simp [hv])
      | _, isFalse ha => isFalse (by simp [ha])

end

instance : DecidableEq Value := decEq

def asBool : Value → Option Bool
  | .bool b => some b
  | _ => none

def asInt : Value → Option ℤ
  | .int i => some i
  | _ => none

end Value

/-- Elements separated by `sep`. -/
def joinWith (sep : String) : List String → String
  | [] => ""
  | [x] => x
  | x :: y :: rest => x ++ sep ++ joinWith sep (y :: rest)

def hexDigit (n : ℕ) : Char :=
  if n < 10 then Char.ofNat (n + 48) else Char.ofNat (n + 87)

/-- One character of a JSON string literal. -/
def jsonEscapeChar (c : Char) : List Char :=
  if c = '"' then ['\\', '"']
  else if c = '\\' then ['\\', '\\']
  else if c.toNat = 8 then ['\\', 'b']
  else if c.toNat = 12 then ['\\', 'f']
  else if c = '\n' then ['\\', 'n']
  else if c = '\r' then ['\\', 'r']
  else if c = '\t' then ['\\', 't']
  else if c.toNat < 32 then
    ['\\', 'u', '0', '0', hexDigit (c.toNat / 16), hexDigit (c.toNat % 16)]
  else [c]

/-- The JSON string literal of `s`. -/
def jsonString (s : String) : String :=
  "\"" ++ String.ofList (s.toList.flatMap jsonEscapeChar) ++ "\""

namespace Value

mutual

/-- Canonical, stable text for diagnostics. -/
def canonical : Value → String
  | .bool b => if b then "true" else "false"
  | .int i => toString i
  | .float f => "f" ++ toString f.toNat
  | .str s => jsonString s
  | .enum e => "#" ++ e
  | .struct fields => "\x7b" ++ joinWith "," (canonicalFields fields) ++ "\x7d"
  | .array items => "[" ++ joinWith "," (canonicalItems items) ++ "]"

def canonicalFields : List (String × Value) → List String
  | [] => []
  | (k, v) :: rest => (jsonString k ++ ":" ++ canonical v) :: canonicalFields rest

def canonicalItems : List Value → List String
  | [] => []
  | v :: rest => canonical v :: canonicalItems rest

end

mutual

/-- Type-tagged, length-prefixed encoding used in state keys. -/
def key : Value → String
  | .bool b => "B" ++ (if b then "1" else "0")
  | .int i => "I" ++ toString i ++ ";"
  | .float f => "F" ++ toString f.toNat ++ ";"
  | .str s => "T" ++ toString s.utf8ByteSize ++ ":" ++ s
  | .enum e => "E" ++ toString e.utf8ByteSize ++ ":" ++ e
  | .struct fields => "S" ++ toString fields.length ++ "[" ++ keyFields fields ++ "]"
  | .array items => "A" ++ toString items.length ++ "[" ++ keyItems items ++ "]"

def keyFields : List (String × Value) → String
  | [] => ""
  | (k, v) :: rest =>
      toString k.utf8ByteSize ++ ":" ++ k ++ "=" ++ key v ++ ";" ++ keyFields rest

def keyItems : List Value → String
  | [] => ""
  | v :: rest => key v ++ ";" ++ keyItems rest

end

end Value

mutual

/-- True if `v` is inside the declared domain of `ty`. -/
def withinType (ty : BaseType) (v : Value) : Bool :=
  match ty with
  | .primitive p =>
      if p = "Bool" then (match v with | .bool _ => true | _ => false)
      else if p = "Int" then (match v with | .int _ => true | _ => false)
      else if p = "Float" then (match v with | .float _ => true | _ => false)
      else if p = "String" then (match v with | .str _ => true | _ => false)
      else true
  | .boundedInt lo hi => match v with
      | .int i => decide (lo ≤ i ∧ i ≤ hi)
      | _ => false
  | .enum variants => match v with
      | .enum e => variants.contains e
      | _ => false
  | .struct fields => match v with
      | .struct m => m.length = fields.length && withinFields fields m
      | _ => false
  | .array elem len => match v with
      | .array items => items.length = (max len 0).toNat && items.all (withinType elem)
      | _ => false

/-- Every declared field is present with a value of its type. -/
def withinFields : List (String × BaseType) → List (String × Value) → Bool
  | [], _ => true
  | (k, t) :: rest, m =>
      ((m.lookup k).map (withinType t)).getD false && withinFields rest m

end

mutual

/-- The default value of a declared type. -/
def defaultValue : BaseType → Value
  | .primitive p =>
      if p = "Bool" then .bool false
      else if p = "Int" then .int 0
      else if p = "Float" then .float 0
      else if p = "String" then .str ""
      else .int 0
  | .enum variants => .enum (variants.head?.getD "")
  | .struct fields => .struct (defaultFields fields)
  | .array elem len => .array (List.replicate (max len 0).toNat (defaultValue elem))
  | .boundedInt lo hi => .int (min (max 0 lo) hi)

def defaultFields : List (String × BaseType) → List (String × Value)
  | [] => []
  | (k, t) :: rest => (k, defaultValue t) :: defaultFields rest

end

end ConcIR
