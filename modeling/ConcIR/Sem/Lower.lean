import ConcIR.Expr.Env
import ConcIR.Expr.Rounds
import ConcIR.Sem.Domain
import ConcIR.Sem.Program
import ConcIR.Validate.Cfg

/-!
# Lowering

Names become ids, expressions are lowered, and what is outside the supported subset is
recorded. All functions have a placeholder before the first body is lowered, so a body may
refer to functions that come later.
-/

namespace ConcIR

namespace LExpr

def isComparison : LExpr → Bool
  | .cmp .. => true
  | _ => false

end LExpr

namespace Expr

/-- `expr::parse`. The parser never runs out of rounds. -/
def parseText (env : NameEnv) (text : String) : Except ParseError Expr :=
  (parse env text).get (Option.isSome_iff_ne_none.mpr (parse_ne_none env text))

end Expr

namespace Lower

open Ast

/-- A lowered resource with what lowering reads of it later. -/
structure LowResource extends SemResource where
  mode : Option String

/-- A lowered function, or its placeholder. -/
structure LowFunction extends SemFunction where
  numModeledParams : ℕ

structure Lowerer where
  moduleNames : List String
  resources : List LowResource
  functions : List LowFunction
  unsupported : List Unsupported

/-- The last place of a name: a map that is filled from left to right. -/
def lastIndex (names : List String) (name : String) : Option ℕ :=
  (names.zipIdx.reverse.find? (·.1 = name)).map (·.2)

/-- The last value of a key in a list of pairs. -/
def lastValue {α : Type} (pairs : List (String × α)) (name : String) : Option α :=
  (pairs.reverse.find? (·.1 = name)).map (·.2)

namespace Lowerer

variable (l : Lowerer)

def moduleId (name : String) : Option ModuleId := lastIndex l.moduleNames name

/-- The module a name is looked up in, and the entity looked for there. -/
def target (fromModule : ModuleId) (name : String) : Option (ModuleId × String) :=
  match splitFqn name with
  | some (m, e) => (l.moduleId m).map fun mid ↦ (mid, e)
  | none => some (fromModule, name)

def findResource (t : ModuleId × String) : Option ResourceId :=
  l.resources.findIdx? fun r ↦ r.module = t.1 ∧ r.name = t.2

def findFunction (t : ModuleId × String) : Option FunctionId :=
  l.functions.findIdx? fun f ↦ f.module = t.1 ∧ f.name = t.2

def resourceOf (fromModule : ModuleId) (name : String) : Option ResourceId :=
  (l.target fromModule name).bind l.findResource

def resolveFunction (fromModule : ModuleId) (name : String) : Option FunctionId :=
  (l.target fromModule name).bind l.findFunction

def functionByFqn (fqnName : String) : Option FunctionId := do
  let (m, e) ← splitFqn fqnName
  let mid ← l.moduleId m
  l.findFunction (mid, e)

end Lowerer

section Resources

def resKind (r : Resource) : BackendResult ResKind :=
  match r.kind, r.resType with
  | "var", "Var" => .ok .var
  | "var", "Atomic" => .ok .atomic
  | "sync", "Mutex" => .ok .mutex
  | "sync", "RwLock" => .ok .rwLock
  | "sync", "Condvar" => .ok .condvar
  | "sync", "Semaphore" => .ok .semaphore
  | "sync", "Channel" => .ok .channel
  | k, t => .error (.mkInvalid "E300" ("unknown resource kind/type '" ++ k ++ "'/'" ++ t ++ "'"))

def hasPayload : ResKind → Bool
  | .var | .atomic | .channel => true
  | _ => false

def hasInit : ResKind → Bool
  | .var | .atomic => true
  | _ => false

def payload (tenv : Typedef.TypeEnv) (moduleName : String) (r : Resource) (kind : ResKind) :
    BackendResult (Option BaseType) :=
  if hasPayload kind then
    match r.base with
    | some base => .ok (some (tenv.resolveOr moduleName base))
    | none => .error (.mkInvalid "E001" ("resource '" ++ r.name ++ "' is missing 'base'"))
  else .ok none

/-- The initial value of a cell: its literal, or the default of its type. -/
def initial (what : String) (init : Option Json) (base : BaseType) :
    BackendResult (Option Value) :=
  match init with
  | some j =>
      match fromJson base j with
      | .ok v => .ok (some v)
      | .error e => .error (.mkInvalid "E203" (what ++ " init: " ++ e))
  | none => .ok (some (defaultValue base))

def resourceInit (r : Resource) (kind : ResKind) (ty : Option BaseType) :
    BackendResult (Option Value) :=
  match ty with
  | some base =>
      if hasInit kind then initial ("resource '" ++ r.name ++ "'") r.init base else .ok none
  | none => .ok none

def lowerResource (tenv : Typedef.TypeEnv) (moduleName : String) (module : ModuleId)
    (r : Resource) : BackendResult LowResource := do
  let kind ← resKind r
  let ty ← payload tenv moduleName r kind
  let init ← resourceInit r kind ty
  .ok {
    module := module
    name := r.name
    kind := kind
    ty := ty
    capacity := if kind = .channel then (max (r.capacity.getD (-1)) 0).toNat else 0
    permits := if kind = .semaphore then r.count.getD 1 else 0
    init := init
    mode := r.mode }

/-- The modules with their ids. -/
def modules (p : Program) : List (Module × ModuleId) := p.modules.zipIdx

def lowerResources (p : Program) : BackendResult (List LowResource) :=
  let tenv := Typedef.TypeEnv.fromProgram p
  ((modules p).flatMap fun m ↦ m.1.resources.map fun r ↦ (m, r)).mapM fun x ↦
    lowerResource tenv x.1.1.name x.1.2 x.2

end Resources

def effectsEmpty (f : Function) : Bool :=
  (f.effects.map fun e ↦ e.reads.isEmpty && e.writes.isEmpty).getD true

def numModeledParams (f : Function) : ℕ := f.params.countP (·.modeled)

def placeholderFunction (module : ModuleId) (f : Function) : LowFunction where
  module := module
  name := f.name
  isNobody := f.body.isEmpty
  effectsEmpty := effectsEmpty f
  mayBlock := f.mayBlock
  returns := none
  slots := []
  body := []
  bound := f.bound
  numModeledParams := numModeledParams f

section Slots

variable (env : NameEnv) (f : Function)

def slotTy (name : String) (declared : BaseType) : BaseType := (env.ty name).getD declared

def paramSlot (class_ : SlotClass) (p : ParamDecl) : SemSlot :=
  ⟨slotTy env p.name p.paramType, p.modeled, class_, none⟩

def localSlot (l : LocalDecl) : BackendResult SemSlot :=
  let ty := slotTy env l.name l.localType
  match l.init with
  | some j =>
      match fromJson ty j with
      | .ok v => .ok ⟨ty, l.modeled, .local, some v⟩
      | .error e => .error (.mkInvalid "E203" ("local '" ++ l.name ++ "' init: " ++ e))
  | none => .ok ⟨ty, l.modeled, .local, none⟩

def declaredNames : List String := f.params.map (·.name) ++ f.locals.map (·.name)

/-- The return slot, unless its name is taken. -/
def ownReturn : Option ParamDecl := f.returns.filter (·.name ∉ declaredNames f)

/-- The names of the slots: parameters, locals, then the return slot. -/
def slotNames : List String := declaredNames f ++ (ownReturn f).toList.map (·.name)

def lowerSlots : BackendResult (List SemSlot) := do
  let locals ← f.locals.mapM (localSlot env)
  .ok (f.params.map (paramSlot env .param) ++ locals ++
    (ownReturn f).toList.map (paramSlot env .return))

end Slots

/-- Resources by the names that a body sees them under. -/
def resourceNames (l : Lowerer) (p : Program) (m : Module) (module : ModuleId) :
    List (String × ResourceId) :=
  ((p.modules.filter (·.name = m.name)).flatMap fun owner ↦ owner.resources.flatMap fun r ↦
    match l.resourceOf module r.name with
    | some rid => [(r.name, rid), (fqn m.name r.name, rid)]
    | none => []) ++
  m.requires.resources.filterMap fun req ↦ (l.resourceOf module req).map fun rid ↦ (req, rid)

/-- What the statements of a body are lowered in. -/
structure BodyCtx where
  moduleName : String
  fnName : String
  module : ModuleId
  env : NameEnv
  slots : List SemSlot
  slotNames : List String
  resourceNames : List (String × ResourceId)
  sidToIdx : String → Option ℕ

section Body

variable (l : Lowerer) (ctx : BodyCtx)

namespace BodyCtx

def loc (s : Stmt) : String := location ctx.moduleName ctx.fnName s.sid

def nameToSlot (name : String) : Option ℕ := lastIndex ctx.slotNames name

def nameToResource (name : String) : Option ResourceId := lastValue ctx.resourceNames name

end BodyCtx

def kindOf (r : ResourceId) : Option ResKind := l.resources[r]?.map (·.kind)

def isCell (r : ResourceId) : Bool := kindOf l r = some .var || kindOf l r = some .atomic

variable (loc : String)

/-- The slot a name is read from. -/
def valueSlot (name : String) : BackendResult SlotRef :=
  match ctx.nameToSlot name with
  | some idx => .ok (.localSlot idx)
  | none =>
      match ctx.nameToResource name with
      | some rid =>
          if isCell l rid then .ok (.shared rid)
          else .error ((BackendError.mkInvalid "E934"
            ("'" ++ name ++ "' is a sync resource and cannot appear as a value")).atLoc loc)
      | none => .error ((BackendError.mkInvalid "E931"
          ("undefined name '" ++ name ++ "' in expression")).atLoc loc)

/-- The slot a name is written to. -/
def writableSlot (name : String) : BackendResult SlotRef :=
  if name = "_" then .ok .discard
  else
    match ctx.nameToSlot name with
    | some idx =>
        if ctx.slots[idx]?.map (·.class_) = some .return then
          .error ((BackendError.mkInvalid "E921"
            ("return slot '" ++ name ++ "' is not a writable destination")).atLoc loc)
        else .ok (.localSlot idx)
    | none =>
        match ctx.nameToResource name with
        | some rid =>
            if isCell l rid then .ok (.shared rid)
            else .error ((BackendError.mkInvalid "E934"
              ("'" ++ name ++ "' is a sync resource and cannot be a destination")).atLoc loc)
        | none => .error ((BackendError.mkInvalid "E921"
            ("'" ++ name ++ "' is not a writable slot")).atLoc loc)

mutual

def lowerExpr : Expr → BackendResult LExpr
  | .lit v => .ok (.lit v)
  | .name n => do
      let s ← valueSlot l ctx loc n
      .ok (.slot s)
  | .field base field => do
      let b ← lowerExpr base
      .ok (.field b field)
  | .unaryNeg e => do
      let x ← lowerExpr e
      .ok (.neg x)
  | .binOp op lhs rhs => do
      let x ← lowerExpr lhs
      let y ← lowerExpr rhs
      .ok (.bin op x y)
  | .cmp op lhs rhs => do
      let x ← lowerExpr lhs
      let y ← lowerExpr rhs
      .ok (.cmp op x y)
  | .struct fields => do
      let fs ← lowerFields fields
      .ok (.struct fs)

def lowerFields : List (String × Expr) → BackendResult (List (String × LExpr))
  | [] => .ok []
  | (k, e) :: rest => do
      let x ← lowerExpr e
      let xs ← lowerFields rest
      .ok ((k, x) :: xs)

end

def lowerText (text : String) : BackendResult LExpr :=
  match Expr.parseText ctx.env text with
  | .ok e => lowerExpr l ctx loc e
  | .error e => .error ((BackendError.mkInvalid "E931" e.message).atLoc loc)

mutual

/-- Whether a decision on the expression would depend on a float. -/
def exprIsFloat : LExpr → Bool
  | .lit (.float _) => true
  | .lit _ => false
  | .slot (.localSlot i) => (ctx.slots[i]?.map (·.ty.isFloat)).getD false
  | .slot (.shared r) => ((l.resources[r]?.bind (·.ty)).map (·.isFloat)).getD false
  | .slot .discard => false
  | .field base _ => exprIsFloat base
  | .neg x => exprIsFloat x
  | .bin _ x y => exprIsFloat x || exprIsFloat y
  | .cmp _ x y => exprIsFloat x || exprIsFloat y
  | .struct fields => anyFieldIsFloat fields

def anyFieldIsFloat : List (String × LExpr) → Bool
  | [] => false
  | (_, e) :: rest => exprIsFloat e || anyFieldIsFloat rest

end

def rejectFloatControl (e : LExpr) : BackendResult Unit :=
  if exprIsFloat l ctx e then
    .error ((BackendError.mkUnsupported "float control flow"
      "a branch/switch decision depends on a Float value").atLoc loc)
  else .ok ()

def jumpTarget (sid : String) : BackendResult ℕ :=
  match ctx.sidToIdx sid with
  | some i => .ok i
  | none => .error ((BackendError.mkInvalid "E602"
      ("control target '" ++ sid ++ "' does not exist")).atLoc loc)

def lookupResource (name : String) : BackendResult ResourceId :=
  match ctx.nameToResource name with
  | some r => .ok r
  | none => .error ((BackendError.mkInvalid "E100" ("unknown resource '" ++ name ++ "'")).atLoc loc)

/-- A resource of the kind that an operation is for. -/
def resourceOfKind (kind : ResKind) (code what name : String) : BackendResult ResourceId := do
  let r ← lookupResource ctx loc name
  if kindOf l r = some kind then .ok r
  else .error ((BackendError.mkInvalid code (what ++ ", found '" ++ name ++ "'")).atLoc loc)

def lowerDst (dst : Option String) : BackendResult (Option SlotRef) :=
  match dst with
  | some d => do
      let s ← writableSlot l ctx loc d
      .ok (some s)
  | none => .ok none

def lowerArgs : List String → BackendResult (List LExpr)
  | [] => .ok []
  | a :: rest => do
      let x ← lowerText l ctx loc a
      let xs ← lowerArgs rest
      .ok (x :: xs)

/-- A statement as it is lowered: an operation, or a construct outside the subset. -/
inductive Lowered
  | supported (op : SemOp)
  | unsupported (construct detail : String)

def Lowered.semOp : Lowered → SemOp
  | .supported op => op
  | .unsupported construct _ => .unsupported construct

/-- What lowering notes down about a statement outside the subset. -/
def Lowered.notes (loc : String) : Lowered → List Unsupported
  | .supported _ => []
  | .unsupported construct detail => [⟨construct, some loc, detail⟩]

def callee (name : String) : BackendResult FunctionId :=
  match l.resolveFunction ctx.module name with
  | some f => .ok f
  | none => .error ((BackendError.mkInvalid "E101" ("unknown function '" ++ name ++ "'")).atLoc loc)

/-- A body-less function that is no effect-free placeholder. -/
def isExternal (f : FunctionId) : Bool :=
  (l.functions[f]?.map fun f ↦ f.isNobody && !f.isTransparentNobody).getD false

def modeledParamsOf (f : FunctionId) : ℕ := (l.functions[f]?.map (·.numModeledParams)).getD 0

def lowerCall (func : String) (args : List String) (dst : Option String) :
    BackendResult Lowered := do
  let f ← callee l ctx loc func
  if isExternal l f then
    .ok (.unsupported "external function"
      ("call to body-less '" ++ func ++ "' with declared effects/blocking/return"))
  else if args.length ≠ modeledParamsOf l f then
    .error ((BackendError.mkInvalid "E920" ("call to '" ++ func ++ "' has " ++
      toString args.length ++ " args, expected " ++ toString (modeledParamsOf l f) ++
        " modeled params")).atLoc loc)
  else
    let xs ← lowerArgs l ctx loc args
    let d ← lowerDst l ctx loc dst
    .ok (.supported (.call f xs d))

def lowerSpawn (func handle : String) : BackendResult Lowered := do
  let f ← callee l ctx loc func
  if modeledParamsOf l f ≠ 0 then
    .error ((BackendError.mkInvalid "E922"
      ("spawn target '" ++ func ++ "' has modeled parameters")).atLoc loc)
  else if isExternal l f then
    .ok (.unsupported "external function"
      ("spawn of body-less '" ++ func ++ "' with declared effects"))
  else .ok (.supported (.spawn f handle))

/-- The members so far; the first one outside the subset ends the list. -/
def lowerScope (ids : List FunctionId) : List String → BackendResult Lowered
  | [] => .ok (.supported (.scope ids))
  | func :: rest => do
      let f ← callee l ctx loc func
      if modeledParamsOf l f ≠ 0 then
        .error ((BackendError.mkInvalid "E922"
          ("scope target '" ++ func ++ "' has modeled parameters")).atLoc loc)
      else if isExternal l f then
        .ok (.unsupported "external function"
          ("scope target body-less '" ++ func ++ "' with declared effects"))
      else lowerScope (ids ++ [f]) rest

/-- The cases in the order of their labels. -/
def lowerCases (out : BTreeMap String ℕ) : List (String × String) → BackendResult (BTreeMap String ℕ)
  | [] => .ok out
  | (label, target) :: rest => do
      let t ← jumpTarget ctx loc target
      lowerCases (out.insert label t) rest

def lowerBranch (cond thenTarget elseTarget : String) : BackendResult Lowered := do
  let c ← lowerText l ctx loc cond
  if !c.isComparison then
    .error ((BackendError.mkInvalid "E201"
      ("branch condition \"" ++ cond ++ "\" is not a comparison")).atLoc loc)
  else
    rejectFloatControl l ctx loc c
    let t ← jumpTarget ctx loc thenTarget
    let e ← jumpTarget ctx loc elseTarget
    .ok (.supported (.branch c t e))

def lowerSwitch (var : String) (cases : List (String × String)) (default : String) :
    BackendResult Lowered := do
  let slot ← valueSlot l ctx loc var
  rejectFloatControl l ctx loc (.slot slot)
  let cs ← lowerCases ctx loc ∅ cases
  let d ← jumpTarget ctx loc default
  .ok (.supported (.switch (.slot slot) cs d))

def lowerAssign (target expr : String) : BackendResult Lowered := do
  let t ← writableSlot l ctx loc target
  match t with
  | .localSlot _ => do
      let e ← lowerText l ctx loc expr
      .ok (.supported (.assignLocal t e))
  | _ => .error ((BackendError.mkInvalid "E936"
      ("assign_local target '" ++ target ++ "' is not a local or parameter")).atLoc loc)

def lowerWait (condvar lock : String) : BackendResult Lowered := do
  let cv ← resourceOfKind l ctx loc .condvar "E303" "condvar_wait requires a Condvar" condvar
  if (l.resources[cv]?.bind (·.mode)) = some "Async" then
    .ok (.unsupported "async condvar_wait"
      "Async-mode Condvar wait is not the same primitive as std Condvar::wait")
  else
    let lk ← resourceOfKind l ctx loc .mutex "E303" "condvar_wait lock must be a Mutex" lock
    .ok (.supported (.condvarWait cv lk))

def lowerOp : Op → BackendResult Lowered
  | .nop => .ok (.supported .nop)
  | .assignLocal target expr => lowerAssign l ctx loc target expr
  | .readShared resource dst => do
      let r ← resourceOfKind l ctx loc .var "E308" "read_shared requires a Var" resource
      let d ← lowerDst l ctx loc dst
      .ok (.supported (.readShared r d))
  | .writeShared resource expr => do
      let r ← resourceOfKind l ctx loc .var "E308" "write_shared requires a Var" resource
      let e ← lowerText l ctx loc expr
      .ok (.supported (.writeShared r e))
  | .atomicLoad resource dst => do
      let r ← resourceOfKind l ctx loc .atomic "E309" "atomic_load requires an Atomic" resource
      let d ← writableSlot l ctx loc dst
      .ok (.supported (.atomicLoad r d))
  | .atomicStore resource value => do
      let r ← resourceOfKind l ctx loc .atomic "E204" "atomic_store requires an Atomic" resource
      let e ← lowerText l ctx loc value
      .ok (.supported (.atomicStore r e))
  | .atomicCas resource expected desired dst => do
      let r ← resourceOfKind l ctx loc .atomic "E205" "atomic_cas requires an Atomic" resource
      let x ← lowerText l ctx loc expected
      let y ← lowerText l ctx loc desired
      let d ← writableSlot l ctx loc dst
      .ok (.supported (.atomicCas r x y d))
  | .mutexLock resource => do
      let r ← resourceOfKind l ctx loc .mutex "E301" "mutex_lock requires a Mutex" resource
      .ok (.supported (.mutexLock r))
  | .mutexUnlock resource => do
      let r ← resourceOfKind l ctx loc .mutex "E301" "mutex_unlock requires a Mutex" resource
      .ok (.supported (.mutexUnlock r))
  | .channelSend channel value => do
      let r ← resourceOfKind l ctx loc .channel "E302" "channel_send requires a Channel" channel
      let e ← lowerText l ctx loc value
      .ok (.supported (.channelSend r e))
  | .channelRecv channel dst => do
      let r ← resourceOfKind l ctx loc .channel "E302" "channel_recv requires a Channel" channel
      let d ← writableSlot l ctx loc dst
      .ok (.supported (.channelRecv r d))
  | .condvarWait condvar lock => lowerWait l ctx loc condvar lock
  | .condvarNotify condvar => do
      let r ← resourceOfKind l ctx loc .condvar "E303" "condvar_notify requires a Condvar" condvar
      .ok (.supported (.condvarNotify r))
  | .condvarNotifyAll condvar => do
      let r ← resourceOfKind l ctx loc .condvar "E303" "condvar_notify_all requires a Condvar" condvar
      .ok (.supported (.condvarNotifyAll r))
  | .semaphoreAcquire resource count => do
      let r ← resourceOfKind l ctx loc .semaphore "E304" "semaphore_acquire requires a Semaphore"
        resource
      .ok (.supported (.semaphoreAcquire r (count.getD 1)))
  | .semaphoreRelease resource count => do
      let r ← resourceOfKind l ctx loc .semaphore "E304" "semaphore_release requires a Semaphore"
        resource
      .ok (.supported (.semaphoreRelease r (count.getD 1)))
  | .func func args dst => lowerCall l ctx loc func args dst
  | .spawn func _ handle => lowerSpawn l ctx loc func handle
  | .scope funcs => lowerScope l ctx loc [] funcs
  | .join handle => .ok (.supported (.join handle))
  | .goto target => do
      let t ← jumpTarget ctx loc target
      .ok (.supported (.goto t))
  | .branch cond thenTarget elseTarget => lowerBranch l ctx loc cond thenTarget elseTarget
  | .switch var cases default => lowerSwitch l ctx loc var cases default
  | .ret none => .ok (.supported (.return none))
  | .ret (some value) => do
      let e ← lowerText l ctx loc value
      .ok (.supported (.return (some e)))
  | .rwLockRead _ | .rwLockWrite _ | .rwLockUnlock _ =>
      .ok (.unsupported "rwlock" "RwLock operations are not supported in v1")
  | .select .. => .ok (.unsupported "select" "select is not supported in v1")
  | .asyncCall .. => .ok (.unsupported "async_call" "async_call is not supported in v1")
  | .await _ => .ok (.unsupported "await" "await is not supported in v1")
  | .abstractStep .. => .ok (.unsupported "abstract_step"
      "opaque concurrent steps are not given semantics by the precise backend")
  | .seqHole .. => .ok (.unsupported "seq_hole"
      "sequential fill sites have no defined semantics yet")

/-- The statements of a body, one after the other. -/
def lowerBody : List Stmt → BackendResult (List (Stmt × Lowered))
  | [] => .ok []
  | s :: rest => do
      let x ← lowerOp l ctx (ctx.loc s) s.op
      let xs ← lowerBody rest
      .ok ((s, x) :: xs)

end Body

section Program

variable (p : Program)

def bodyCtx (l : Lowerer) (m : Module) (f : Function) (module : ModuleId) (slots : List SemSlot) :
    BodyCtx where
  moduleName := m.name
  fnName := f.name
  module := module
  env := NameEnv.build p m f
  slots := slots
  slotNames := slotNames f
  resourceNames := resourceNames l p m module
  sidToIdx := Validate.sidToIdx f

/-- A function with its body, and what has been noted down about its statements. -/
def lowerFunctionBody (l : Lowerer) (m : Module) (f : Function) :
    BackendResult (LowFunction × List Unsupported) :=
  match l.moduleId m.name with
  | none => .error (.panicked "module_ids")
  | some module => do
      let env := NameEnv.build p m f
      let slots ← lowerSlots env f
      let ctx := bodyCtx p l m f module slots
      let body ← lowerBody l ctx f.body
      .ok ({ placeholderFunction module f with
          returns := f.returns.map (paramSlot env .return)
          slots := slots
          body := body.map fun x ↦ ⟨x.1.sid, x.2.semOp⟩ },
        body.flatMap fun x ↦ x.2.notes (ctx.loc x.1))

/-- The functions of the program with their modules. -/
def functions : List (Module × ModuleId × Function) :=
  (modules p).flatMap fun m ↦ m.1.functions.map fun f ↦ (m.1, m.2, f)

/-- Lower one function into the place of its name. -/
def lowerFunction (l : Lowerer) (m : Module) (f : Function) : BackendResult Lowerer :=
  match l.functionByFqn (fqn m.name f.name) with
  | none => .error (.mkInvalid "E102" ("function '" ++ m.name ++ "::" ++ f.name ++
      "' is not registered (duplicate or empty name)"))
  | some fid => do
      let (fn, notes) ← lowerFunctionBody p l m f
      .ok { l with
        functions := l.functions.set fid fn
        unsupported := l.unsupported ++ notes }

def lowerFunctions (l : Lowerer) : List (Module × ModuleId × Function) → BackendResult Lowerer
  | [] => .ok l
  | (m, _, f) :: rest => do
      let l ← lowerFunction p l m f
      lowerFunctions l rest

def protectionEntry (l : Lowerer) (module : ModuleId) (x : Protection) :
    BackendResult (ResourceId × ResourceId) :=
  match l.resourceOf module x.var with
  | none => .error (.mkInvalid "E703" ("protection references unknown Var '" ++ x.var ++ "'"))
  | some var =>
      match l.resourceOf module x.lock with
      | none => .error (.mkInvalid "E703" ("protection references unknown lock '" ++ x.lock ++ "'"))
      | some lock => .ok (var, lock)

def lowerProtection (l : Lowerer) : BackendResult (BTreeMap ResourceId ResourceId) := do
  let entries ← ((modules p).flatMap fun m ↦ m.1.protection.map fun x ↦ (m.2, x)).mapM fun x ↦
    protectionEntry l x.1 x.2
  .ok (entries.foldl (fun out e ↦ out.insert e.1 e.2) ∅)

/-- The locks that a condition variable is waited on with, each once. -/
def waitLocks (fns : List LowFunction) (cv : ResourceId) : List ResourceId :=
  (fns.flatMap fun f ↦ f.body.filterMap fun s ↦
    match s.op with
    | .condvarWait c lk => if c = cv then some lk else none
    | _ => none).dedup

/-- The condition variables that are waited on with several locks. -/
def condvarNotes (l : Lowerer) : List Unsupported :=
  l.resources.zipIdx.filterMap fun r ↦
    let n := (waitLocks l.functions r.2).length
    if 1 < n then
      some ⟨"condvar_multiple_locks", none, "condition variable '" ++ r.1.name ++
        "' is waited on with " ++ toString n ++
          " different locks; the Rust target binds a Condvar to one mutex"⟩
    else none

end Program

/-- The tables that lowering fills. -/
structure Tables where
  moduleNames : List String
  functions : List SemFunction
  resources : List SemResource
  protection : BTreeMap ResourceId ResourceId
  entry : FunctionId
  unsupported : List Unsupported

/-- The lowerer before the first body. -/
def placeholders (p : Program) (resources : List LowResource) : Lowerer where
  moduleNames := p.modules.map (·.name)
  resources := resources
  functions := (functions p).map fun x ↦ placeholderFunction x.2.1 x.2.2
  unsupported := []

def lower (p : Program) : BackendResult Tables := do
  let resources ← lowerResources p
  match (placeholders p resources).functionByFqn p.entry with
  | none => .error (.mkInvalid "E100" ("entry function '" ++ p.entry ++ "' was not found"))
  | some entry =>
      let l ← lowerFunctions p (placeholders p resources) (functions p)
      let protection ← lowerProtection p l
      .ok {
        moduleNames := l.moduleNames
        functions := l.functions.map (·.toSemFunction)
        resources := l.resources.map (·.toSemResource)
        protection := protection
        entry := entry
        unsupported := l.unsupported ++ condvarNotes l }

end Lower

end ConcIR
