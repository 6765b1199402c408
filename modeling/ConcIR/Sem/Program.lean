import ConcIR.Sem.Eval

/-!
# The resolved program

Names are typed ids and expressions are lowered. A program is only built by
lowering; the checks that lowering makes of every statement and resource are
carried as fields, so that no engine has to repeat them.
-/

namespace ConcIR

inductive ResKind
  | var
  | atomic
  | mutex
  | rwLock
  | condvar
  | semaphore
  | channel
deriving DecidableEq

/-- A resource; its id is its position in the program. -/
structure SemResource where
  module : ModuleId
  name : String
  kind : ResKind
  ty : Option BaseType
  capacity : ℕ
  permits : ℤ
  init : Option Value

inductive SlotClass
  | param
  | local
  | return
deriving DecidableEq

structure SemSlot where
  ty : BaseType
  modeled : Bool
  class_ : SlotClass
  init : Option Value

inductive SemOp
  | nop
  | assignLocal (target : SlotRef) (expr : LExpr)
  | readShared (resource : ResourceId) (dst : Option SlotRef)
  | writeShared (resource : ResourceId) (expr : LExpr)
  | atomicLoad (resource : ResourceId) (dst : SlotRef)
  | atomicStore (resource : ResourceId) (value : LExpr)
  | atomicCas (resource : ResourceId) (expected desired : LExpr) (dst : SlotRef)
  | mutexLock (resource : ResourceId)
  | mutexUnlock (resource : ResourceId)
  | channelSend (channel : ResourceId) (value : LExpr)
  | channelRecv (channel : ResourceId) (dst : SlotRef)
  | condvarWait (condvar lock : ResourceId)
  | condvarNotify (condvar : ResourceId)
  | condvarNotifyAll (condvar : ResourceId)
  | semaphoreAcquire (resource : ResourceId) (count : ℤ)
  | semaphoreRelease (resource : ResourceId) (count : ℤ)
  | call (func : FunctionId) (args : List LExpr) (dst : Option SlotRef)
  | spawn (func : FunctionId) (handle : String)
  | scope (funcs : List FunctionId)
  | join (handle : String)
  | goto (target : ℕ)
  | branch (cond : LExpr) (thenTarget elseTarget : ℕ)
  | switch (var : LExpr) (cases : BTreeMap String ℕ) (default : ℕ)
  | return (value : Option LExpr)
  | unsupported (construct : String)

structure SemStmt where
  sid : String
  op : SemOp

/-- A function; its id is its position in the program. -/
structure SemFunction where
  module : ModuleId
  name : String
  isNobody : Bool
  effectsEmpty : Bool
  mayBlock : Option Bool
  returns : Option SemSlot
  /-- Params, locals, then the return slot. -/
  slots : List SemSlot
  body : List SemStmt
  bound : Option ℤ

namespace SemFunction

/-- A body-less function that is treated as an effect-free placeholder. -/
def isTransparentNobody (f : SemFunction) : Bool :=
  f.isNobody && f.effectsEmpty && f.returns.isNone && f.mayBlock != some true

/-- Slots of the modeled parameters. -/
def modeledParams (f : SemFunction) : List SlotId :=
  (List.range f.slots.length).filter fun i ↦
    match f.slots[i]? with
    | some s => s.class_ = .param && s.modeled
    | none => false

/-- The activation record before arguments are bound. -/
def defaultLocals (f : SemFunction) : BTreeMap ℕ Value :=
  Std.ExtTreeMap.ofList
    (f.slots.mapIdx fun i slot ↦ (i, slot.init.getD (defaultValue slot.ty))) compare

end SemFunction

section Lowered

variable (functions : List SemFunction) (resources : List SemResource)

def hasKind (r : ResourceId) (k : ResKind) : Bool := resources[r]?.map (·.kind) = some k

/-- Lowering resolves a destination to a slot, a Var or Atomic, or nothing. -/
def dstOk : SlotRef → Bool
  | .shared r => hasKind resources r .var || hasKind resources r .atomic
  | _ => true

/-- What lowering has checked of a statement of `f`. -/
def opOk (f : SemFunction) : SemOp → Bool
  | .assignLocal (.localSlot slot) _ => slot < f.slots.length
  | .assignLocal _ _ => false
  | .readShared r dst => hasKind resources r .var && (dst.map (dstOk resources)).getD true
  | .writeShared r _ => hasKind resources r .var
  | .atomicLoad r dst => hasKind resources r .atomic && dstOk resources dst
  | .atomicStore r _ => hasKind resources r .atomic
  | .atomicCas r _ _ dst => hasKind resources r .atomic && dstOk resources dst
  | .mutexLock r => hasKind resources r .mutex
  | .mutexUnlock r => hasKind resources r .mutex
  | .channelSend c _ => hasKind resources c .channel
  | .channelRecv c dst => hasKind resources c .channel && dstOk resources dst
  | .condvarWait cv lk => hasKind resources cv .condvar && hasKind resources lk .mutex
  | .condvarNotify cv => hasKind resources cv .condvar
  | .condvarNotifyAll cv => hasKind resources cv .condvar
  | .semaphoreAcquire r _ => hasKind resources r .semaphore
  | .semaphoreRelease r _ => hasKind resources r .semaphore
  | .call func _ dst => func < functions.length && (dst.map (dstOk resources)).getD true
  | .spawn func _ => func < functions.length
  | .scope funcs => funcs.all (· < functions.length)
  | .goto target => target < f.body.length
  | .branch _ t e => t < f.body.length && e < f.body.length
  | .switch _ cases default => cases.toList.all (·.2 < f.body.length) && default < f.body.length
  | .nop | .join _ | .return _ | .unsupported _ => true

/-- What lowering has checked of a resource. -/
def SemResource.isLowered (r : SemResource) : Bool :=
  match r.kind with
  | .var | .atomic => r.ty.isSome && r.init.isSome
  | .channel => r.ty.isSome
  | _ => true

end Lowered

structure SemProgram where
  moduleNames : List String
  functions : List SemFunction
  resources : List SemResource
  entry : FunctionId
  unsupported : List Unsupported
  entry_lt : entry < functions.length
  functions_ok : ∀ f ∈ functions, (f.isNobody = true → f.body = []) ∧
    ∀ s ∈ f.body, opOk functions resources f s.op = true
  resources_ok : ∀ r ∈ resources, r.isLowered = true

namespace SemProgram

variable (P : SemProgram)

/-- What an id outside the tables reads as. Lowering hands out no such id. -/
def noFunction : SemFunction := ⟨0, "", false, false, none, none, [], [], none⟩

def noResource : SemResource := ⟨0, "", .rwLock, none, 0, 0, none⟩

def moduleName (m : ModuleId) : String := P.moduleNames[m]?.getD ""

def function (f : FunctionId) : SemFunction := P.functions[f]?.getD noFunction

def resource (r : ResourceId) : SemResource := P.resources[r]?.getD noResource

/-- The statement a program counter stands at. -/
def opAt (f : FunctionId) (pc : ℕ) : Option SemOp := (P.function f).body[pc]?.map (·.op)

/-- `module::function.sid`, or `module::function` past the end of the body. -/
def location (f : FunctionId) (sid : Option ℕ) : String :=
  let fn := P.function f
  let m := P.moduleName fn.module
  match sid.bind (fn.body[·]?) with
  | some s => m ++ "::" ++ fn.name ++ "." ++ s.sid
  | none => m ++ "::" ++ fn.name

end SemProgram

end ConcIR
