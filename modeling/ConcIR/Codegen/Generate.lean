import ConcIR.Trace.Events

/-!
# The skeleton generator

The generated source is one function of arms for each function with a body. Its lines are
kept in a list, and the map notes the line at which the arm of a statement begins, under the
name of the module and the statement.
-/

namespace ConcIR

namespace Codegen

/-- The texts of the standard library for `{:?}`. -/
structure DebugText where
  string : String → String
  float : UInt64 → String

structure SidLocation where
  file : String
  line : ℕ
deriving DecidableEq

structure Hole where
  id : String
  function : String
  sid : String
  expected : String

structure TagRecord where
  sid : String
  function : String
  tags : List String

structure Gen where
  lines : List String
  sids : BTreeMap String SidLocation
  holes : List Hole
  tags : List TagRecord
  holeSeq : ℕ

structure CodegenMap where
  program : String
  sids : BTreeMap String SidLocation
  holes : List Hole
  tags : List TagRecord

structure Generated where
  mainRs : String
  map : CodegenMap

section Text

def sanitize (name : String) : String :=
  name.map fun c ↦ if c.isAlphanum then c else '_'

/-- A line of a text without the carriage return of its line break. -/
def dropReturn : List Char → List Char
  | '\r' :: cs => cs
  | cs => cs

/-- The lines of a text behind the characters, in reverse order, of the current line. -/
def linesFrom (cur : List Char) : List Char → List (List Char)
  | [] => if cur.isEmpty then [] else [cur.reverse]
  | c :: cs =>
      if c = '\n' then (dropReturn cur).reverse :: linesFrom [] cs else linesFrom (c :: cur) cs

/-- `str::lines`. -/
def lines (code : String) : List String := (linesFrom [] code.toList).map String.ofList

def rustTy : BaseType → Except String String
  | .primitive p =>
      if p = "Bool" then .ok "bool"
      else if p = "Int" then .ok "i64"
      else if p = "Float" then .ok "f64"
      else if p = "String" then .ok "String"
      else .error ("unsupported primitive type '" ++ p ++ "'")
  | .boundedInt _ _ => .ok "i64"
  | .enum _ => .ok "String"
  | _ => .error "unsupported composite value type"

def defaultExpr (ty : String) : String :=
  if ty = "bool" then "false"
  else if ty = "i64" then "0"
  else if ty = "f64" then "0.0"
  else if ty = "String" then "String::new()"
  else "Default::default()"

variable (D : DebugText)

def renderValue : Value → Except String String
  | .bool b => .ok (toString b)
  | .int i => .ok (toString i)
  | .float f => .ok (D.float f ++ "f64")
  | .str s => .ok (D.string s ++ ".to_string()")
  | .enum s => .ok (D.string s ++ ".to_string()")
  | _ => .error "unsupported literal value"

def renderLit : Lit → Except String String
  | .bool b => .ok (toString b)
  | .int i => .ok (toString i)
  | .float f => .ok (D.float f ++ "f64")
  | .string s => .ok (D.string s ++ ".to_string()")
  | .enum s => .ok (D.string s ++ ".to_string()")

end Text

def binOpText : BinOp → String
  | .add => "+"
  | .sub => "-"
  | .mul => "*"
  | .div => "/"
  | .mod => "%"

def cmpOpText : CmpOp → String
  | .eq => "=="
  | .ne => "!="
  | .lt => "<"
  | .le => "<="
  | .gt => ">"
  | .ge => ">="

namespace Gen

def initial : Gen := ⟨[], ∅, [], [], 0⟩

/-- The number of the next line. -/
def line (g : Gen) : ℕ := g.lines.length + 1

def emit (g : Gen) (code : String) : Gen := { g with lines := g.lines ++ Codegen.lines code }

/-- Fragments one after the other. -/
def emitAll (g : Gen) (codes : List String) : Gen := codes.foldl emit g

def hole (g : Gen) (function sid expected : String) : String × Gen :=
  let id := "h" ++ toString (g.holeSeq + 1)
  ("/* HOLE(" ++ id ++ ") expected: " ++ expected ++ " */ Default::default()",
    { g with
      holeSeq := g.holeSeq + 1
      holes := g.holes ++ [⟨id, function, sid, expected⟩] })

def tag (g : Gen) (record : TagRecord) : Gen := { g with tags := g.tags ++ [record] }

/-- The entry of the statement whose arm comes next. -/
def mark (g : Gen) (key : String) : Gen :=
  { g with sids := g.sids.insert key ⟨"src/main.rs", g.line⟩ }

end Gen

section Program

variable (P : SemProgram)

def resourceFqn (r : ResourceId) : String :=
  fqn (P.moduleName (P.resource r).module) (P.resource r).name

def functionFqn (f : FunctionId) : String :=
  fqn (P.moduleName (P.function f).module) (P.function f).name

def field (r : ResourceId) : String :=
  "r_" ++ sanitize (P.moduleName (P.resource r).module) ++ "__" ++ sanitize (P.resource r).name

/-- Cross-module path to a generated function. -/
def fnRef (f : FunctionId) : String :=
  "crate::" ++ sanitize (P.moduleName (P.function f).module) ++ "::cf_" ++
    sanitize (P.function f).name

variable (D : DebugText)

def renderExpr (function sid : String) : LExpr → Gen → String × Gen
  | .lit l, g =>
      match renderLit D l with
      | .ok s => (s, g)
      | .error _ => g.hole function sid "literal"
  | .slot (.localSlot i), g => ("_l" ++ toString i, g)
  | .slot .discard, g => ("()", g)
  | .slot (.shared r), g => ("shared." ++ field P r ++ ".lock().unwrap().clone()", g)
  | .neg inner, g =>
      let e := renderExpr function sid inner g
      ("(-" ++ e.1 ++ ")", e.2)
  | .bin op lhs rhs, g =>
      let a := renderExpr function sid lhs g
      let b := renderExpr function sid rhs a.2
      ("(" ++ a.1 ++ " " ++ binOpText op ++ " " ++ b.1 ++ ")", b.2)
  | .cmp op lhs rhs, g =>
      let a := renderExpr function sid lhs g
      let b := renderExpr function sid rhs a.2
      ("(" ++ a.1 ++ " " ++ cmpOpText op ++ " " ++ b.1 ++ ")", b.2)
  | _, g => g.hole function sid "expression"

/-- Expressions that are rendered for the holes they need only. -/
def renderArgs (function sid : String) (args : List LExpr) (g : Gen) : Gen :=
  args.foldl (fun g a ↦ (renderExpr P D function sid a g).2) g

/-- The thread that runs one function of a scope. -/
def scopeThread (sid : String) (tags : List String) (i : ℕ) (f : FunctionId) : List String :=
  ["                    \x7b",
    "                        let __sh = shared.clone();",
    "                        __hs.push(std::thread::spawn(move || " ++ fnRef P f ++ "(__sh, " ++
      D.string (tags[i]?.getD ("t" ++ sid ++ "_" ++ toString (i + 1))) ++ ")));",
    "                    \x7d"]

/-- The fragments of a statement, and the holes and tags it needs. -/
def opText (func : SemFunction) (op : SemOp) (idx : ℕ) (sid : String) (g : Gen) :
    Except String (List String × Gen) :=
  let next := "                pc = " ++ toString (idx + 1) ++ ";"
  match op with
  | .nop => .ok ([next], g)
  | .assignLocal target expr =>
      let e := renderExpr P D func.name sid expr g
      match target with
      | .localSlot i =>
          .ok (["                _l" ++ toString i ++ " = " ++ e.1 ++ ";", next], e.2)
      | .discard => .ok ([next], e.2)
      | .shared r =>
          .ok (["                *shared." ++ field P r ++ ".lock().unwrap() = " ++ e.1 ++ ";",
            next], e.2)
  | .readShared resource dst =>
      match dst with
      | some (.localSlot i) =>
          .ok (["                _l" ++ toString i ++ " = shared." ++ field P resource ++
            ".lock().unwrap().clone();", next], g)
      | _ => .ok ([next], g)
  | .writeShared resource expr =>
      let e := renderExpr P D func.name sid expr g
      .ok (["                \x7b let __v = " ++ e.1 ++ "; *shared." ++ field P resource ++
        ".lock().unwrap() = __v; \x7d", next], e.2)
  | .mutexLock resource =>
      .ok (["                _g_" ++ field P resource ++
        " = Some(crate::cir_trace::lock(&shared." ++ field P resource ++ ", tag, " ++
        D.string (resourceFqn P resource) ++ ", " ++ D.string sid ++ "));", next], g)
  | .mutexUnlock resource =>
      .ok (["                crate::cir_trace::unlock(_g_" ++ field P resource ++
        ".take(), tag, " ++ D.string (resourceFqn P resource) ++ ", " ++ D.string sid ++ ");",
        next], g)
  | .condvarWait condvar lock =>
      .ok (["                _g_" ++ field P lock ++
        " = Some(crate::cir_trace::condvar_wait(&shared." ++ field P condvar ++ ", _g_" ++
        field P lock ++ ".take().expect(\"wait without lock\"), tag, " ++
        D.string (resourceFqn P condvar) ++ ", " ++ D.string sid ++ "));", next], g)
  | .condvarNotify condvar =>
      .ok (["                crate::cir_trace::notify_one(&shared." ++ field P condvar ++
        ", tag, " ++ D.string (resourceFqn P condvar) ++ ", " ++ D.string sid ++ ");", next], g)
  | .condvarNotifyAll condvar =>
      .ok (["                crate::cir_trace::notify_all(&shared." ++ field P condvar ++
        ", tag, " ++ D.string (resourceFqn P condvar) ++ ", " ++ D.string sid ++ ");", next], g)
  | .semaphoreAcquire resource count =>
      .ok (["                shared." ++ field P resource ++ ".acquire_sid(" ++ toString count ++
        ", tag, " ++ D.string (resourceFqn P resource) ++ ", " ++ D.string sid ++ ");", next], g)
  | .semaphoreRelease resource count =>
      .ok (["                shared." ++ field P resource ++ ".release_sid(" ++ toString count ++
        ", tag, " ++ D.string (resourceFqn P resource) ++ ", " ++ D.string sid ++ ");", next], g)
  | .goto target => .ok (["                pc = " ++ toString target ++ ";"], g)
  | .branch cond thenTarget elseTarget =>
      let c := renderExpr P D func.name sid cond g
      .ok (["                pc = if " ++ c.1 ++ " \x7b " ++ toString thenTarget ++
        " \x7d else \x7b " ++ toString elseTarget ++ " \x7d;"], c.2)
  | .switch var cases default =>
      let v := renderExpr P D func.name sid var g
      .ok (["                pc = match " ++ v.1 ++ " \x7b"] ++
        cases.toList.map (fun c ↦ "                    " ++ D.string c.1 ++ " => " ++
          toString c.2 ++ ",") ++
        ["                    _ => " ++ toString default ++ ",", "                \x7d;"], v.2)
  | .return value =>
      .ok (["                return;"], renderArgs P D func.name sid value.toList g)
  | .scope funcs =>
      let tags := childTags func sid
      .ok (["                crate::cir_trace::scope(tag, " ++ D.string sid ++ ");",
        "                \x7b", "                    let mut __hs = Vec::new();"] ++
        (funcs.mapIdx (scopeThread P D sid tags)).flatten ++
        ["                    for __h in __hs \x7b __h.join().unwrap(); \x7d",
          "                \x7d", next], g.tag ⟨sid, func.name, tags⟩)
  | .spawn child handle =>
      let tags := childTags func sid
      .ok (["                \x7b", "                    let __sh = shared.clone();",
        "                    let _h_" ++ sanitize handle ++
          " = crate::cir_trace::spawn(tag, " ++ D.string (functionFqn P child) ++ ", " ++
          D.string sid ++ ", move || " ++ fnRef P child ++ "(__sh, " ++
          D.string (tags.head?.getD ("t" ++ sid)) ++ "));",
        "                \x7d", next], g.tag ⟨sid, func.name, tags⟩)
  | .join handle =>
      .ok (["                crate::cir_trace::join(_h_" ++ sanitize handle ++
        ", tag, \"\", " ++ D.string sid ++ ");", next], g)
  | .call callee args dst =>
      let g := renderArgs P D func.name sid args g
      match dst with
      | some _ =>
          .ok (["                let _ = " ++ fnRef P callee ++ "(shared.clone(), tag);", next], g)
      | none => .ok (["                " ++ fnRef P callee ++ "(shared.clone(), tag);", next], g)
  | .atomicLoad resource dst =>
      match dst with
      | .localSlot i =>
          .ok (["                _l" ++ toString i ++ " = shared." ++ field P resource ++
            ".lock().unwrap().clone();", next], g)
      | _ => .ok ([next], g)
  | .atomicStore resource value =>
      let e := renderExpr P D func.name sid value g
      .ok (["                \x7b let __v = " ++ e.1 ++ "; *shared." ++ field P resource ++
        ".lock().unwrap() = __v; \x7d", next], e.2)
  | .atomicCas resource expected desired dst =>
      let ex := renderExpr P D func.name sid expected g
      let de := renderExpr P D func.name sid desired ex.2
      match dst with
      | .localSlot i =>
          .ok (["                \x7b let mut __g = shared." ++ field P resource ++
            ".lock().unwrap(); let __ok = *__g == " ++ ex.1 ++ "; if __ok \x7b *__g = " ++
            de.1 ++ "; \x7d drop(__g); _l" ++ toString i ++ " = __ok; \x7d", next], de.2)
      | _ =>
          .ok (["                \x7b let mut __g = shared." ++ field P resource ++
            ".lock().unwrap(); if *__g == " ++ ex.1 ++ " \x7b *__g = " ++ de.1 ++ "; \x7d \x7d",
            next], de.2)
  | .channelSend channel value =>
      let e := renderExpr P D func.name sid value g
      .ok (["                shared." ++ field P channel ++ ".send_sid(" ++ e.1 ++ ", tag, " ++
        D.string (resourceFqn P channel) ++ ", " ++ D.string sid ++ ");", next], e.2)
  | .channelRecv channel dst =>
      match dst with
      | .localSlot i =>
          .ok (["                _l" ++ toString i ++ " = shared." ++ field P channel ++
            ".recv_sid(tag, " ++ D.string (resourceFqn P channel) ++ ", " ++ D.string sid ++
            ");", next], g)
      | _ =>
          .ok (["                let _ = shared." ++ field P channel ++ ".recv_sid(tag, " ++
            D.string (resourceFqn P channel) ++ ", " ++ D.string sid ++ ");", next], g)
  | .unsupported construct => .error ("unsupported construct in codegen: " ++ construct)

def renderOp (func : SemFunction) (op : SemOp) (idx : ℕ) (sid : String) (g : Gen) :
    Except String Gen :=
  (opText P D func op idx sid g).map fun r ↦ r.2.emitAll r.1

/-- The key of a statement in the map. -/
def sidKey (func : SemFunction) (sid : String) : String :=
  P.moduleName func.module ++ "::" ++ sid

/-- The line that begins the arm of a statement. -/
def armHeader (idx : ℕ) : String := "            " ++ toString idx ++ " => \x7b"

def sharedTy (r : SemResource) : Except String String :=
  match r.kind with
  | .mutex => .ok "Arc<Mutex<()>>"
  | .condvar => .ok "Arc<Condvar>"
  | .semaphore => .ok "Arc<cir_trace::Semaphore>"
  | .channel =>
      match r.ty with
      | none => .error "channel resource without a base type"
      | some bt => (rustTy bt).map fun ty ↦ "Arc<cir_trace::Channel<" ++ ty ++ ">>"
  | .rwLock => .error "codegen does not support RwLock"
  | .var | .atomic =>
      match r.ty with
      | none => .error "value resource without a type"
      | some bt => (rustTy bt).map fun ty ↦ "Arc<Mutex<" ++ ty ++ ">>"

def sharedInit (r : SemResource) : Except String String :=
  match r.kind with
  | .mutex => .ok "Arc::new(Mutex::new(()))"
  | .condvar => .ok "Arc::new(Condvar::new())"
  | .semaphore => .ok ("cir_trace::Semaphore::new(" ++ toString r.permits ++ ")")
  | .channel =>
      match r.ty with
      | none => .error "channel resource without a base type"
      | some bt => (rustTy bt).map fun ty ↦
          "cir_trace::Channel::<" ++ ty ++ ">::new(" ++ toString r.capacity ++ ")"
  | .rwLock => .error "RwLock unsupported"
  | .var | .atomic =>
      match r.ty with
      | none => .error "value resource without a type"
      | some bt =>
          match rustTy bt with
          | .error e => .error e
          | .ok ty =>
              match r.init with
              | some v => (renderValue D v).map fun v ↦ "Arc::new(Mutex::new(" ++ v ++ "))"
              | none => .ok ("Arc::new(Mutex::new(" ++ defaultExpr ty ++ "))")

/-- The type and the first value of a slot. -/
def slotInit (slot : SemSlot) : Except String (String × String) :=
  match rustTy slot.ty with
  | .error e => .error e
  | .ok ty =>
      match slot.init with
      | some v => (renderValue D v).map fun v ↦ (ty, v)
      | none => .ok (ty, defaultExpr ty)

/-- One step of the generator. -/
inductive Act
  | text (code : String)
  | sharedField (r : ResourceId)
  | sharedValue (r : ResourceId)
  | nobody (func : SemFunction)
  | slot (i : ℕ) (slot : SemSlot)
  | statement (id : FunctionId) (func : SemFunction) (idx : ℕ) (stmt : SemStmt)

def step (g : Gen) : Act → Except String Gen
  | .text code => .ok (g.emit code)
  | .sharedField r => (sharedTy (P.resource r)).map fun ty ↦
      g.emit ("    " ++ field P r ++ ": " ++ ty ++ ",")
  | .sharedValue r => (sharedInit D (P.resource r)).map fun init ↦
      g.emit ("        " ++ field P r ++ ": " ++ init ++ ",")
  | .nobody func =>
      let placeholder := g.hole func.name "" "()"
      .ok ((placeholder.2.emit ("    pub(crate) fn cf_" ++ sanitize func.name ++
        "(_shared: crate::Shared, _tag: &str) \x7b let _: () = " ++ placeholder.1 ++
        "; \x7d")).emit "")
  | .slot i slot => (slotInit D slot).map fun r ↦
      g.emit ("    #[allow(unused_mut)] let mut _l" ++ toString i ++ ": " ++ r.1 ++ " = " ++
        r.2 ++ ";")
  | .statement _ func idx stmt =>
      let g := (g.mark (sidKey P func stmt.sid)).emit (armHeader idx)
      let g := g.emit ("                // @cir " ++ stmt.sid)
      (renderOp P D func stmt.op idx stmt.sid g).map fun g ↦ g.emit "            \x7d"

/-- Guard declarations for every mutex. -/
def guardActs : List Act :=
  ((List.range P.resources.length).filter fun r ↦ (P.resource r).kind = .mutex).map fun r ↦
    .text ("    #[allow(unused_mut)] let mut _g_" ++ field P r ++
      ": Option<std::sync::MutexGuard<'_, ()>> = None;")

def armActs (id : FunctionId) (func : SemFunction) : List Act :=
  func.body.mapIdx fun idx stmt ↦ .statement id func idx stmt

/-- `generate_function`. -/
def functionActs (id : FunctionId) (func : SemFunction) : List Act :=
  [.text ("    pub(crate) fn cf_" ++ sanitize func.name ++
    "(shared: crate::Shared, tag: &str) \x7b")] ++
  func.slots.mapIdx (fun i slot ↦ .slot i slot) ++ guardActs P ++
  [.text "    let mut pc: usize = 0;", .text "    loop \x7b", .text "        match pc \x7b"] ++
  armActs id func ++
  [.text "            _ => return,", .text "        \x7d", .text "    \x7d", .text "\x7d",
    .text ""]

/-- The modules in the order of their first functions. -/
def moduleOrder : List ModuleId :=
  P.functions.foldl (fun ms f ↦ if f.module ∈ ms then ms else ms ++ [f.module]) []

def moduleFunctions (m : ModuleId) : List (SemFunction × FunctionId) :=
  P.functions.zipIdx.filter fun f ↦ f.1.module = m

def bodyActs (f : SemFunction × FunctionId) : List Act :=
  if f.1.isNobody then [.nobody f.1] else functionActs P f.2 f.1

def moduleActs (m : ModuleId) : List Act :=
  [.text ("pub(crate) mod " ++ sanitize (P.moduleName m) ++ " \x7b")] ++
  (moduleFunctions P m).flatMap (bodyActs P) ++ [.text "\x7d", .text ""]

def headerActs : List Act :=
  [.text "// Generated by `concir-backend codegen`. Do not edit the skeleton.",
    .text "mod cir_trace;", .text "use std::sync::\x7bArc, Condvar, Mutex\x7d;", .text "",
    .text "#[derive(Clone)]", .text "struct Shared \x7b"] ++
  (List.range P.resources.length).map .sharedField ++ [.text "\x7d", .text ""]

def mainActs : List Act :=
  [.text "fn main() \x7b", .text "    let shared = Shared \x7b"] ++
  (List.range P.resources.length).map .sharedValue ++
  [.text "    \x7d;", .text ("    " ++ fnRef P P.entry ++ "(shared, \"t0\");"),
    .text "    cir_trace::finish();", .text "\x7d"]

/-- The steps of the generator, in order. -/
def acts : List Act :=
  headerActs P ++ (moduleOrder P).flatMap (moduleActs P) ++ mainActs P

def generate : Except String Generated :=
  ((acts P).foldlM (step P D) .initial).map fun g ↦
    { mainRs := joinWith "\n" g.lines ++ "\n"
      map := ⟨"generated", g.sids, g.holes, g.tags⟩ }

end Program

end Codegen

end ConcIR
