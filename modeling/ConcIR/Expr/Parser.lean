import ConcIR.Expr.Syntax

/-!
# The expression parser

The parser reads the text from left to right and keeps what is left of it. It skips blanks
before a token, and it has skipped the blanks after an operand when it looks for an
operator and finds none. The rounds bound its recursion, which in the program has no bound;
`more` says that they have run out.
-/

namespace ConcIR

structure ParseError where
  message : String
deriving DecidableEq

inductive Reply (α : Type)
  | done (a : α) (rest : List Char)
  | fail (e : ParseError)
  | more

def Reply.bind {α β : Type} (r : Reply α) (f : α → List Char → Reply β) : Reply β :=
  match r with
  | .done a rest => f a rest
  | .fail e => .fail e
  | .more => .more

namespace Expr

section Characters

/-- `char::is_whitespace`. -/
def isWhitespace (c : Char) : Bool :=
  (9 ≤ c.toNat && c.toNat ≤ 13) || c.toNat = 32 || c.toNat = 0x85 || c.toNat = 0xA0 ||
    c.toNat = 0x1680 || (0x2000 ≤ c.toNat && c.toNat ≤ 0x200A) || c.toNat = 0x2028 ||
      c.toNat = 0x2029 || c.toNat = 0x202F || c.toNat = 0x205F || c.toNat = 0x3000

def identStart (c : Char) : Bool := c.isAlpha || c = '_'

def identChar (c : Char) : Bool := c.isAlphanum || c = '_'

def skip (cs : List Char) : List Char := cs.dropWhile isWhitespace

/-- Whether the token comes next, and what is left after it, or after the blanks. -/
def eat (tok cs : List Char) : Bool × List Char :=
  if tok.isPrefixOf (skip cs) then (true, (skip cs).drop tok.length) else (false, skip cs)

end Characters

section Tokens

def parseIdent (cs : List Char) : Reply String :=
  match skip cs with
  | c :: rest =>
      if identStart c then
        .done (String.ofList (c :: rest.takeWhile identChar)) (rest.dropWhile identChar)
      else .fail ⟨"expected identifier"⟩
  | [] => .fail ⟨"expected identifier"⟩

/-- The characters between quotes, after the opening one. -/
def parseString (cs : List Char) : Reply Expr :=
  match cs.dropWhile (· ≠ '"') with
  | _ :: rest => .done (.lit (.string (String.ofList (cs.takeWhile (· ≠ '"'))))) rest
  | [] => .fail ⟨"unterminated string literal"⟩

/-- The float nearest to `n / d`, of two the one with the even mantissa. -/
def nearestF64 (n d : ℕ) : UInt64 :=
  if n = 0 then 0
  else
    let magnitude : ℤ := Nat.log2 n - Nat.log2 d
    let quotient (e : ℤ) : ℕ × ℕ := (n * 2 ^ (-e).toNat, d * 2 ^ e.toNat)
    let wide := quotient (magnitude - 53)
    let e := max (-1074) (if wide.1 / wide.2 < 2 ^ 53 then magnitude - 53 else magnitude - 52)
    let (num, den) := quotient e
    let q := num / den
    let r := num % den
    let q := if 2 * r < den || (2 * r = den && q % 2 = 0) then q else q + 1
    if q < 2 ^ 52 then UInt64.ofNat q
    else
      let bits := (e + 1075).toNat * 2 ^ 52 + (q - 2 ^ 52)
      if bits < 0x7FF0000000000000 then UInt64.ofNat bits else 0x7FF0000000000000

/-- `str::parse` on digits with a point. -/
def parseF64 (int frac : List Char) : UInt64 :=
  nearestF64 (Nat.ofDigitChars 10 (int ++ frac) 0) (10 ^ frac.length)

def parseNumber (cs : List Char) : Reply Expr :=
  let int := cs.takeWhile Char.isDigit
  let done (rest : List Char) : Reply Expr :=
    if Nat.ofDigitChars 10 int 0 < 2 ^ 63 then .done (.lit (.int (Nat.ofDigitChars 10 int 0))) rest
    else .fail ⟨"invalid integer '" ++ String.ofList int ++ "'"⟩
  match cs.dropWhile Char.isDigit with
  | '.' :: d :: rest =>
      if d.isDigit then
        .done (.lit (.float (parseF64 int ((d :: rest).takeWhile Char.isDigit))))
          ((d :: rest).dropWhile Char.isDigit)
      else done ('.' :: d :: rest)
  | rest => done rest

/-- What a name stands for. -/
def classify (env : NameEnv) (name : String) (cs : List Char) : Reply Expr :=
  if (env.get name).isSome then .done (.name name) cs
  else if name = "true" then .done (.lit (.bool true)) cs
  else if name = "false" then .done (.lit (.bool false)) cs
  else if env.enumVariants.contains name then .done (.lit (.enum name)) cs
  else .fail ⟨"undefined name '" ++ name ++ "'"⟩

def parseNameOrEnum (env : NameEnv) (cs : List Char) : Reply Expr :=
  (parseIdent cs).bind fun name cs ↦
    match eat [':', ':'] cs with
    | (true, cs) => (parseIdent cs).bind fun ent cs ↦ classify env (name ++ "::" ++ ent) cs
    | (false, cs) => classify env name cs

/-- The first of the operators that comes next. -/
def eatOp {α : Type} : List (List Char × α) → List Char → Option α × List Char
  | [], cs => (none, skip cs)
  | (tok, op) :: ops, cs =>
      match eat tok cs with
      | (true, cs) => (some op, cs)
      | (false, cs) => eatOp ops cs

def cmpOps : List (List Char × CmpOp) :=
  [(['=', '='], .eq), (['!', '='], .ne), (['<', '='], .le), (['>', '='], .ge), (['<'], .lt),
    (['>'], .gt)]

def addOps : List (List Char × BinOp) := [(['+'], .add), (['-'], .sub)]

def mulOps : List (List Char × BinOp) := [(['*'], .mul), (['/'], .div), (['%'], .mod)]

end Tokens

section Parser

variable (env : NameEnv)

mutual

def parseCmp : ℕ → List Char → Reply Expr
  | 0, _ => .more
  | n + 1, cs => (parseAdd n cs).bind fun lhs cs ↦
      match eatOp cmpOps cs with
      | (none, cs) => .done lhs cs
      | (some op, cs) => (parseAdd n cs).bind fun rhs cs ↦ .done (.cmp op lhs rhs) cs

def parseAdd : ℕ → List Char → Reply Expr
  | 0, _ => .more
  | n + 1, cs => (parseMul n cs).bind fun lhs cs ↦ addLoop n lhs cs

def addLoop : ℕ → Expr → List Char → Reply Expr
  | 0, _, _ => .more
  | n + 1, lhs, cs =>
      match eatOp addOps cs with
      | (none, cs) => .done lhs cs
      | (some op, cs) => (parseMul n cs).bind fun rhs cs ↦ addLoop n (.binOp op lhs rhs) cs

def parseMul : ℕ → List Char → Reply Expr
  | 0, _ => .more
  | n + 1, cs => (parseUnary n cs).bind fun lhs cs ↦ mulLoop n lhs cs

def mulLoop : ℕ → Expr → List Char → Reply Expr
  | 0, _, _ => .more
  | n + 1, lhs, cs =>
      match eatOp mulOps cs with
      | (none, cs) => .done lhs cs
      | (some op, cs) => (parseUnary n cs).bind fun rhs cs ↦ mulLoop n (.binOp op lhs rhs) cs

def parseUnary : ℕ → List Char → Reply Expr
  | 0, _ => .more
  | n + 1, cs =>
      match eat ['-'] cs with
      | (true, cs) => (parseUnary n cs).bind fun inner cs ↦ .done (.unaryNeg inner) cs
      | (false, cs) => parsePostfix n cs

def parsePostfix : ℕ → List Char → Reply Expr
  | 0, _ => .more
  | n + 1, cs => (parsePrimary n cs).bind fun e cs ↦ postfixLoop n e cs

def postfixLoop : ℕ → Expr → List Char → Reply Expr
  | 0, _, _ => .more
  | n + 1, e, cs =>
      match eat ['.'] cs with
      | (true, cs) => (parseIdent cs).bind fun f cs ↦ postfixLoop n (.field e f) cs
      | (false, cs) => .done e cs

def parsePrimary : ℕ → List Char → Reply Expr
  | 0, _ => .more
  | n + 1, cs =>
      match skip cs with
      | '(' :: cs => (parseCmp n cs).bind fun inner cs ↦
          match eat [')'] cs with
          | (true, cs) => .done inner cs
          | (false, _) => .fail ⟨"expected ')'"⟩
      | '\x7b' :: cs => parseStruct n cs
      | '"' :: cs => parseString cs
      | c :: cs =>
          if c.isDigit then parseNumber (c :: cs)
          else if identStart c then parseNameOrEnum env (c :: cs)
          else .fail ⟨"expected expression, found '" ++ String.ofList (c :: cs) ++ "'"⟩
      | [] => .fail ⟨"expected expression, found ''"⟩

def parseStruct : ℕ → List Char → Reply Expr
  | 0, _ => .more
  | n + 1, cs =>
      match eat ['\x7d'] cs with
      | (true, cs) => .done (.struct []) cs
      | (false, cs) => structLoop n [] cs

def structLoop : ℕ → List (String × Expr) → List Char → Reply Expr
  | 0, _, _ => .more
  | n + 1, fields, cs => (parseIdent cs).bind fun name cs ↦
      match eat [':'] cs with
      | (false, _) => .fail
          ⟨"struct literals use named fields '\x7bfield: expr, ...\x7d', not positional"⟩
      | (true, cs) => (parseCmp n cs).bind fun val cs ↦
          match eat [','] cs with
          | (true, cs) =>
              match skip cs with
              | '\x7d' :: cs => .done (.struct (fields ++ [(name, val)])) cs
              | cs => structLoop n (fields ++ [(name, val)]) cs
          | (false, cs) =>
              match eat ['\x7d'] cs with
              | (true, cs) => .done (.struct (fields ++ [(name, val)])) cs
              | (false, _) => .fail ⟨"expected ',' or '\x7d' in struct literal"⟩

end

/-- The expression that the whole text is; `none` if the rounds have run out. -/
def parse (input : String) : Option (Except ParseError Expr) :=
  match parseCmp env (8 * input.toList.length + 8) input.toList with
  | .done e cs =>
      match skip cs with
      | [] => some (.ok e)
      | rest => some (.error
          ⟨"trailing input after expression: '" ++ String.ofList rest ++ "'"⟩)
  | .fail e => some (.error e)
  | .more => none

end Parser

end Expr

end ConcIR
