import ConcIR.Sem.Domain
import ConcIR.Sem.Ids

/-!
# Source programs

The modules, resources, functions and statements of a program as they are written, and
the lookup of a name from a module: short names stay in the module, qualified names
`module::entity` go to the module they name.
-/

namespace ConcIR

namespace Ast

/-- Exported names, short. -/
structure NameSet where
  resources : List String
  functions : List String
  types : List String

/-- What a function acquires, releases and requires held. -/
structure LockEffects where
  acquires : List String
  releases : List String
  requiresHeld : List String
deriving DecidableEq

namespace LockEffects

def isEmpty (l : LockEffects) : Bool :=
  l.acquires.isEmpty && l.releases.isEmpty && l.requiresHeld.isEmpty

end LockEffects

/-- A parameter or a return value. -/
structure ParamDecl where
  name : String
  paramType : BaseType
  modeled : Bool

/-- The imported interface of a function. -/
structure FunctionSig where
  name : String
  kind : Option String
  mayBlock : Option Bool
  locks : LockEffects
  params : List ParamDecl
  returns : Option ParamDecl

inductive RequiredFunction
  | name (n : String)
  | sig (s : FunctionSig)

/-- Imported names; a function may carry its signature. -/
structure RequireSet where
  resources : List String
  functions : List RequiredFunction
  types : List String

structure TypeDef where
  name : String
  ty : BaseType

structure Resource where
  name : String
  kind : String
  resType : String
  mode : Option String
  count : Option ℤ
  base : Option BaseType
  init : Option Json
  capacity : Option ℤ

structure Protection where
  var : String
  lock : String

structure LocalDecl where
  name : String
  localType : BaseType
  modeled : Bool
  init : Option Json

/-- The data a body-less function reads and writes. -/
structure FunctionEffects where
  reads : List String
  writes : List String

inductive SelectGuard
  | channelRecv (channel dst : String)
  | condvarWait (condvar lock : String)
  | semaphoreAcquire (resource : String)

structure SelectBranch where
  guard : SelectGuard
  target : String

inductive Op
  | nop
  | assignLocal (target expr : String)
  | readShared (resource : String) (dst : Option String)
  | writeShared (resource expr : String)
  | abstractStep (reads writes : List String) (desc : String)
  | seqHole (id desc : String) (reads writes : List String)
  | atomicLoad (resource dst : String)
  | atomicStore (resource value : String)
  | atomicCas (resource expected desired dst : String)
  | mutexLock (resource : String)
  | mutexUnlock (resource : String)
  | rwLockRead (resource : String)
  | rwLockWrite (resource : String)
  | rwLockUnlock (resource : String)
  | channelSend (channel value : String)
  | channelRecv (channel dst : String)
  | condvarWait (condvar lock : String)
  | condvarNotify (condvar : String)
  | condvarNotifyAll (condvar : String)
  | semaphoreAcquire (resource : String) (count : Option ℤ)
  | semaphoreRelease (resource : String) (count : Option ℤ)
  | func (func : String) (args : List String) (dst : Option String)
  | spawn (func : String) (args : List String) (handle : String)
  | scope (funcs : List String)
  | join (handle : String)
  | asyncCall (func : String) (args : List String) (handle : String)
  | await (handle : String)
  | goto (target : String)
  | branch (cond thenTarget elseTarget : String)
  | switch (var : String) (cases : List (String × String)) (default : String)
  | ret (value : Option String)
  | select (branches : List SelectBranch) (default : Option String)

/-- A statement with its id. The cases of a switch are in the order of their labels. -/
structure Stmt where
  sid : String
  op : Op

structure Function where
  name : String
  kind : String
  form : String
  params : List ParamDecl
  returns : Option ParamDecl
  locals : List LocalDecl
  body : List Stmt
  effects : Option FunctionEffects
  mayBlock : Option Bool
  locks : LockEffects
  bound : Option ℤ

structure Module where
  name : String
  provides : NameSet
  requires : RequireSet
  types : List TypeDef
  resources : List Resource
  protection : List Protection
  functions : List Function

structure Program where
  program : String
  version : String
  modules : List Module
  entry : String

namespace Stmt

def isControl (s : Stmt) : Bool :=
  match s.op with
  | .goto _ | .branch .. | .switch .. | .ret _ | .select .. => true
  | _ => false

end Stmt

end Ast

section Names

/-- `str::split_once` on the characters. -/
def splitOnceChars (sep : List Char) : List Char → Option (List Char × List Char)
  | [] => if sep = [] then some ([], []) else none
  | c :: cs =>
      if sep.isPrefixOf (c :: cs) then some ([], (c :: cs).drop sep.length)
      else (splitOnceChars sep cs).map fun p ↦ (c :: p.1, p.2)

def splitOnce (s sep : String) : Option (String × String) :=
  (splitOnceChars sep.toList s.toList).map fun p ↦ (String.ofList p.1, String.ofList p.2)

def fqnSep : String := "::"

/-- `[A-Za-z_][A-Za-z0-9_]*`. -/
def isIdent (s : String) : Bool :=
  match s.toList with
  | [] => false
  | c :: cs => (c.isAlpha || c = '_') && cs.all fun d ↦ d.isAlphanum || d = '_'

/-- `module::entity`. -/
def fqn (module entity : String) : String := module ++ fqnSep ++ entity

def splitFqn (s : String) : Option (String × String) :=
  match splitOnce s fqnSep with
  | none => none
  | some (module, entity) =>
      if (splitOnce entity fqnSep).isSome || !isIdent module || !isIdent entity then none
      else some (module, entity)

/-- The module a name is looked up in, and the entity looked for there. -/
def resolveName (fromModule name : String) : String × String :=
  (splitFqn name).getD (fromModule, name)

end Names

namespace Ast

namespace Program

variable (p : Program)

def lookupModule (name : String) : Option Module := p.modules.find? (·.name = name)

def lookupFunction (fromModule name : String) : Option (Module × Function) := do
  let (module, entity) := resolveName fromModule name
  let m ← p.lookupModule module
  let f ← m.functions.find? (·.name = entity)
  some (m, f)

def lookupResource (fromModule name : String) : Option (Module × Resource) := do
  let (module, entity) := resolveName fromModule name
  let m ← p.lookupModule module
  let r ← m.resources.find? (·.name = entity)
  some (m, r)

end Program

end Ast

end ConcIR
