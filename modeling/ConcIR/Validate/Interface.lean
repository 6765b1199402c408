import ConcIR.Ast.Types
import ConcIR.Validate.Cfg
import ConcIR.Validate.Passes

/-!
# Blocking functions and imported signatures

Which functions may block is found by passes over all functions: first those with a
blocking statement of their own, then the callers of functions found before. What an
importing module says about a function is compared with that, but under the name that the
function would have in the importing module.
-/

namespace ConcIR

namespace Ast

namespace Op

def isBlocking : Op → Bool
  | .await _ | .join _ | .scope _ | .channelSend .. | .channelRecv .. | .mutexLock _ => true
  | .rwLockRead _ | .rwLockWrite _ | .semaphoreAcquire .. | .condvarWait .. | .select .. => true
  | _ => false

end Op

namespace Function

def bodyMayBlock (f : Function) : Bool := f.body.any (·.op.isBlocking)

/-- What the function declares, or else what its own statements say. -/
def effectiveMayBlock (f : Function) : Option Bool :=
  match f.mayBlock with
  | some b => some b
  | none => if f.body.isEmpty then none else some f.bodyMayBlock

end Function

def RequiredFunction.signature : RequiredFunction → Option FunctionSig
  | .name _ => none
  | .sig s => some s

namespace Program

/-- All functions, each with its module, in the order of the program. -/
def declared (p : Program) : List (Module × Function) :=
  p.modules.flatMap fun m ↦ m.functions.map fun f ↦ (m, f)

def requiredPath (mi i : ℕ) : String :=
  "modules[" ++ toString mi ++ "].requires.functions[" ++ toString i ++ "]"

end Program

end Ast

namespace Validate

open Ast

section MayBlock

variable (p : Program)

def qualified (mf : Module × Function) : String := fqn mf.1.name mf.2.name

/-- A function with a body one of whose calls goes to a function of the set. -/
def callsBlock (set : Finset String) (mf : Module × Function) : Bool :=
  !mf.2.body.isEmpty && mf.2.body.any fun s ↦
    match s.op with
    | .func func _ _ => ((p.lookupFunction mf.1.name func).map qualified).any fun a ↦ decide (a ∈ set)
    | _ => false

def blockingBodies : Finset String :=
  ((p.declared.filter fun mf ↦ !mf.2.body.isEmpty && mf.2.bodyMayBlock).map qualified).toFinset

/-- Enough passes for the loop, which has no bound of its own. -/
def mayBlockPasses : ℕ := p.declared.length + 1

def mayBlockFunctions : Finset String :=
  Passes.run (callsBlock p) qualified p.declared (mayBlockPasses p) (blockingBodies p)

end MayBlock

section Imports

variable (p : Program) (mayBlock : Finset String)

/-- The complaints about a signature that refers to `defn`. -/
def sigDiags (m : Module) (sig : FunctionSig) (defn : Function) (path : String) :
    List Diagnostic :=
  (match sig.kind with
    | none => []
    | some kind =>
        if kind = defn.kind then []
        else [((Diagnostic.error "E804" ("imported signature '" ++ sig.name ++ "' has kind '" ++ kind ++
          "', but the definition is '" ++ defn.kind ++ "'")).withPath (path ++ ".kind")).withFix
            "copy kind from the defining function"]) ++
  (match sig.mayBlock with
    | none => []
    | some imported =>
        let defined := if defn.body.isEmpty then defn.effectiveMayBlock
          else some (decide (fqn m.name defn.name ∈ mayBlock))
        match defined with
        | none => []
        | some defined =>
            if imported = defined then []
            else [((Diagnostic.error "E804" ("imported signature '" ++ sig.name ++
              "' has may_block: " ++ toString imported ++ ", but the definition is " ++
                toString defined)).withPath (path ++ ".may_block")).withFix
                  "copy may_block from the defining function"]) ++
  (if !sig.locks.isEmpty && sig.locks ≠ defn.locks then
    [((Diagnostic.error "E804" ("imported signature '" ++ sig.name ++
      "' lock protocol does not match the definition")).withPath (path ++ ".locks")).withFix
        "copy acquires / releases / requires_held from the defining function"]
  else []) ++
  (if !sig.params.isEmpty && sig.params ≠ defn.params then
    [((Diagnostic.error "E804" ("imported signature '" ++ sig.name ++
      "' params do not match the definition")).withPath (path ++ ".params")).withFix
        "copy params from the defining function"]
  else []) ++
  (if sig.returns.isSome && sig.returns ≠ defn.returns then
    [((Diagnostic.error "E804" ("imported signature '" ++ sig.name ++
      "' returns do not match the definition")).withPath (path ++ ".returns")).withFix
        "copy returns from the defining function"]
  else [])

def importSigDiags (mi : ℕ) (m : Module) (i : ℕ) (req : RequiredFunction) : List Diagnostic :=
  match req.signature with
  | none => []
  | some sig =>
      if (splitFqn sig.name).isNone then
        [((Diagnostic.error "E804" ("imported function signature '" ++ sig.name ++
          "' must use an FQN (module::entity)")).withPath (Program.requiredPath mi i)).withFix
            "write the name as module::function"]
      else
        match p.lookupFunction m.name sig.name with
        | none => []
        | some (_, defn) => sigDiags mayBlock m sig defn (Program.requiredPath mi i)

def checkImportSigs : List Diagnostic :=
  p.modules.zipIdx.flatMap fun (m, mi) ↦ m.requires.functions.zipIdx.flatMap fun (req, i) ↦
    importSigDiags p (mayBlockFunctions p) mi m i req

end Imports

section Fixpoint

variable (p : Program)

/-- A function by its name has a call statement that goes to another. -/
def Calls (a b : String) : Prop :=
  ∃ mf ∈ p.declared, qualified mf = a ∧ ∃ s ∈ mf.2.body, ∃ func args dst q,
    s.op = .func func args dst ∧ p.lookupFunction mf.1.name func = some q ∧ qualified q = b

def HasBlockingBody (a : String) : Prop :=
  ∃ mf ∈ p.declared, qualified mf = a ∧ mf.2.bodyMayBlock = true

/-- A function with a blocking statement of its own can be reached by calls. -/
def MayBlock (a : String) : Prop :=
  ∃ b, Relation.ReflTransGen (Calls p) a b ∧ HasBlockingBody p b

variable {p} {set : Finset String} {mf : Module × Function} {a : String}

theorem callsBlock_iff : callsBlock p set mf = true ↔
    ∃ s ∈ mf.2.body, ∃ func args dst q, s.op = .func func args dst ∧
      p.lookupFunction mf.1.name func = some q ∧ qualified q ∈ set := by
  rw [callsBlock, Bool.and_eq_true, List.any_eq_true]
  constructor
  · rintro ⟨-, s, hs, hop⟩
    cases hsop : s.op with
    | func func args dst =>
        rw [hsop] at hop
        obtain ⟨b, hb, hmem⟩ := (Option.any_eq_true _ _).mp hop
        obtain ⟨q, hq, rfl⟩ := Option.map_eq_some_iff.mp hb
        exact ⟨s, hs, func, args, dst, q, hsop, hq, of_decide_eq_true hmem⟩
    | _ =>
        rw [hsop] at hop
        cases hop
  · rintro ⟨s, hs, func, args, dst, q, hop, hq, hmem⟩
    refine ⟨?_, s, hs, ?_⟩
    · cases hbody : mf.2.body with
      | nil => exact absurd (hbody ▸ hs) List.not_mem_nil
      | cons _ _ => rfl
    · rw [hop]
      simpa [hq] using hmem

theorem mem_blockingBodies : a ∈ blockingBodies p ↔ HasBlockingBody p a := by
  rw [blockingBodies, List.mem_toFinset, List.mem_map]
  constructor
  · rintro ⟨mf, hmf, rfl⟩
    obtain ⟨hdecl, hblock⟩ := List.mem_filter.mp hmf
    exact ⟨mf, hdecl, rfl, (Bool.and_eq_true_iff.mp hblock).2⟩
  · rintro ⟨mf, hmf, rfl, hblock⟩
    refine ⟨mf, List.mem_filter.mpr ⟨hmf, Bool.and_eq_true_iff.mpr ⟨?_, hblock⟩⟩, rfl⟩
    cases hbody : mf.2.body with
    | nil =>
        rw [Function.bodyMayBlock, hbody] at hblock
        cases hblock
    | cons _ _ => rfl

/-- The last pass changes nothing. -/
theorem pass_mayBlockFunctions (p : Program) :
    Passes.pass (callsBlock p) qualified p.declared (mayBlockFunctions p) =
      (mayBlockFunctions p, false) := by
  refine @Passes.pass_run _ _ _ _ _ _ _ (p.declared.map qualified).toFinset ?_ _ ?_ ?_
  · exact fun mf hmf ↦ List.mem_toFinset.mpr (List.mem_map_of_mem hmf)
  · intro a ha
    obtain ⟨mf, hmf, rfl, -⟩ := mem_blockingBodies.mp ha
    exact List.mem_toFinset.mpr (List.mem_map_of_mem hmf)
  · have hle := List.toFinset_card_le (p.declared.map qualified)
    rw [List.length_map] at hle
    rw [mayBlockPasses]
    omega

theorem mem_mayBlockFunctions : a ∈ mayBlockFunctions p ↔ MayBlock p a := by
  constructor
  · intro ha
    refine Passes.run_induction (P := fun s ↦ ∀ a ∈ s, MayBlock p a) _ ?_ ?_ a ha
    · exact fun a ha ↦ ⟨a, .refl, mem_blockingBodies.mp ha⟩
    · intro s mf hmf hs hcalls a ha
      rcases Finset.mem_insert.mp ha with rfl | ha
      · obtain ⟨st, hst, func, args, dst, q, hop, hq, hmem⟩ := callsBlock_iff.mp hcalls
        obtain ⟨b, hreach, hb⟩ := hs _ hmem
        exact ⟨b, .head ⟨mf, hmf, rfl, st, hst, func, args, dst, q, hop, hq, rfl⟩ hreach, hb⟩
      · exact hs a ha
  · rintro ⟨b, hreach, hb⟩
    induction hreach using Relation.ReflTransGen.head_induction_on with
    | refl => exact Passes.subset_run _ (mem_blockingBodies.mpr hb)
    | head hcall _ ih =>
        obtain ⟨mf, hmf, rfl, st, hst, func, args, dst, q, hop, hq, rfl⟩ := hcall
        exact Passes.closed_of_pass (pass_mayBlockFunctions p) mf hmf
          (callsBlock_iff.mpr ⟨st, hst, func, args, dst, q, hop, hq, ih⟩)

end Fixpoint

section Paths

theorem split_of_not_mem {c : Char} {a b x y : List Char} (ha : c ∉ a) (hb : c ∉ b)
    (h : a ++ c :: x = b ++ c :: y) : a = b ∧ x = y := by
  induction a generalizing b with
  | nil =>
      cases b with
      | nil => exact ⟨rfl, (List.cons.inj h).2⟩
      | cons d b => exact absurd ((List.cons.inj h).1 ▸ List.mem_cons_self) hb
  | cons d a ih =>
      cases b with
      | nil => exact absurd ((List.cons.inj h).1 ▸ List.mem_cons_self) ha
      | cons e b =>
          obtain ⟨rfl, hrest⟩ := List.cons.inj h
          obtain ⟨rfl, hxy⟩ := ih (fun hm ↦ ha (List.mem_cons_of_mem d hm))
            (fun hm ↦ hb (List.mem_cons_of_mem d hm)) hrest
          exact ⟨rfl, hxy⟩

theorem not_bracket_mem_toString (n : ℕ) : ']' ∉ (toString n).toList := by
  intro h
  have hdigits : (toString n).toList = Nat.toDigits 10 n := by
    rw [← @String.toList_ofList (Nat.toDigits 10 n), ← Nat.repr_eq_ofList_toDigits]
    rfl
  rw [hdigits] at h
  exact absurd (Nat.isDigit_of_mem_toDigits (by decide) (by decide) h) (by decide)

/-- A path below an entry of a list of a module determines the entry and what comes after. -/
theorem indexedPath_inj {pre mid s t : String} {mi mj i j : ℕ}
    (h : pre ++ toString mi ++ ("]" ++ mid) ++ toString i ++ "]" ++ s =
      pre ++ toString mj ++ ("]" ++ mid) ++ toString j ++ "]" ++ t) :
    mi = mj ∧ i = j ∧ s = t := by
  have hlist := congrArg String.toList h
  simp only [String.toList_append, List.append_assoc] at hlist
  have hhead := List.append_cancel_left hlist
  obtain ⟨hm, hrest⟩ := split_of_not_mem (not_bracket_mem_toString mi)
    (not_bracket_mem_toString mj) hhead
  have htail := List.append_cancel_left (List.append_cancel_left hrest)
  obtain ⟨hi, hst⟩ := split_of_not_mem (not_bracket_mem_toString i)
    (not_bracket_mem_toString j) htail
  exact ⟨Program.toString_inj (String.toList_inj.mp hm),
    Program.toString_inj (String.toList_inj.mp hi), String.toList_inj.mp hst⟩

theorem requiredPath_inj {mi mj i j : ℕ} {s t : String}
    (h : Program.requiredPath mi i ++ s = Program.requiredPath mj j ++ t) :
    mi = mj ∧ i = j ∧ s = t :=
  @indexedPath_inj "modules[" ".requires.functions[" s t mi mj i j h

end Paths

section Reports

/-- A report with the code at the path. -/
def ReportsPath (ds : List Diagnostic) (code path : String) : Prop :=
  ∃ d ∈ ds, d.code = code ∧ d.path = some path

/-- The `i`-th function that the module `mi` requires has a signature that says that it may
block, or that it does not, and refers to the function `d` of the module `o`, which has a
body. -/
structure Imports (p : Program) (mi : ℕ) (m : Module) (i : ℕ) (sig : FunctionSig) (claimed : Bool)
    (o : Module) (d : Function) : Prop where
  module : p.modules[mi]? = some m
  required : m.requires.functions[i]? = some (.sig sig)
  claimed : sig.mayBlock = some claimed
  refers : p.lookupFunction m.name sig.name = some (o, d)
  body : d.body ≠ []

variable {p : Program} {mi i : ℕ} {m o : Module} {sig : FunctionSig} {claimed : Bool}
  {d : Function} {set : Finset String}

/-- Of the complaints about a signature, the one at `may_block`. -/
theorem reportsPath_sigDiags (hclaimed : sig.mayBlock = some claimed) (hbody : d.body ≠ [])
    (path : String) : ReportsPath (sigDiags set m sig d path) "E804" (path ++ ".may_block") ↔
      claimed ≠ decide (fqn m.name d.name ∈ set) := by
  have hempty : d.body.isEmpty = false := by
    cases hd : d.body with
    | nil => exact absurd hd hbody
    | cons _ _ => rfl
  have hne : ∀ suffix : String, suffix ≠ ".may_block" →
      some (path ++ suffix) ≠ some (path ++ ".may_block") := fun suffix hs he ↦
    hs ((String.append_right_inj path).mp (Option.some.inj he))
  have hkind := hne ".kind" (by decide)
  have hlocks := hne ".locks" (by decide)
  have hparams := hne ".params" (by decide)
  have hreturns := hne ".returns" (by decide)
  constructor
  · rintro ⟨x, hx, -, hpath⟩ heq
    rw [sigDiags, hclaimed, hempty] at hx
    simp only [List.mem_append, or_assoc, heq, Bool.false_eq_true, if_false, if_true] at hx
    rcases hx with hx | hx | hx | hx | hx
    · cases hk : sig.kind with
      | none => rw [hk] at hx; cases hx
      | some kind =>
          rw [hk] at hx
          dsimp only at hx
          split_ifs at hx
          · cases hx
          · rw [List.mem_singleton.mp hx] at hpath
            exact hkind hpath
    · cases hx
    · split_ifs at hx
      · rw [List.mem_singleton.mp hx] at hpath
        exact hlocks hpath
      · cases hx
    · split_ifs at hx
      · rw [List.mem_singleton.mp hx] at hpath
        exact hparams hpath
      · cases hx
    · split_ifs at hx
      · rw [List.mem_singleton.mp hx] at hpath
        exact hreturns hpath
      · cases hx
  · intro hneq
    refine ⟨((Diagnostic.error "E804" ("imported signature '" ++ sig.name ++
      "' has may_block: " ++ toString claimed ++ ", but the definition is " ++
        toString (decide (fqn m.name d.name ∈ set)))).withPath (path ++ ".may_block")).withFix
          "copy may_block from the defining function", ?_, rfl, rfl⟩
    rw [sigDiags, hclaimed, hempty]
    simp only [List.mem_append, Bool.false_eq_true, if_false, if_neg hneq, List.mem_singleton]
    exact .inl (.inl (.inl (.inr trivial)))

theorem path_of_sigDiags {path : String} {x : Diagnostic}
    (hx : x ∈ sigDiags set m sig d path) : ∃ suffix, x.path = some (path ++ suffix) := by
  rw [sigDiags] at hx
  simp only [List.mem_append, or_assoc] at hx
  rcases hx with hx | hx | hx | hx | hx
  · cases hk : sig.kind with
    | none => rw [hk] at hx; cases hx
    | some kind =>
        rw [hk] at hx
        dsimp only at hx
        split_ifs at hx
        · cases hx
        · exact ⟨_, by rw [List.mem_singleton.mp hx]; rfl⟩
  · cases hb : sig.mayBlock with
    | none => rw [hb] at hx; cases hx
    | some imported =>
        rw [hb] at hx
        dsimp only at hx
        split at hx
        case _ => cases hx
        case _ =>
          split_ifs at hx
          · cases hx
          · exact ⟨_, by rw [List.mem_singleton.mp hx]; rfl⟩
  all_goals
    split_ifs at hx
    · exact ⟨_, by rw [List.mem_singleton.mp hx]; rfl⟩
    · cases hx

/-- Reports below the path of an import are about that import. -/
theorem path_of_importSigDiags {req : RequiredFunction} {x : Diagnostic}
    (hx : x ∈ importSigDiags p set mi m i req) :
    ∃ suffix, x.path = some (Program.requiredPath mi i ++ suffix) := by
  rw [importSigDiags] at hx
  split at hx
  case _ => cases hx
  case _ sig _ =>
    split_ifs at hx
    · exact ⟨"", by rw [List.mem_singleton.mp hx, String.append_empty]; rfl⟩
    · split at hx
      case _ => cases hx
      case _ => exact path_of_sigDiags hx

theorem mem_checkImportSigs {x : Diagnostic} : x ∈ checkImportSigs p ↔
    ∃ mi m i req, p.modules[mi]? = some m ∧ m.requires.functions[i]? = some req ∧
      x ∈ importSigDiags p (mayBlockFunctions p) mi m i req := by
  rw [checkImportSigs, List.mem_flatMap]
  constructor
  · rintro ⟨⟨m, mi⟩, hm, hx⟩
    obtain ⟨⟨req, i⟩, hreq, hx⟩ := List.mem_flatMap.mp hx
    exact ⟨mi, m, i, req, List.mem_zipIdx_iff_getElem?.mp hm,
      List.mem_zipIdx_iff_getElem?.mp hreq, hx⟩
  · rintro ⟨mi, m, i, req, hm, hreq, hx⟩
    exact ⟨(m, mi), List.mem_zipIdx_iff_getElem?.mpr hm,
      List.mem_flatMap.mpr ⟨(req, i), List.mem_zipIdx_iff_getElem?.mpr hreq, hx⟩⟩

theorem Imports.reportsPath_iff (h : Imports p mi m i sig claimed o d) :
    ReportsPath (checkImportSigs p) "E804" (Program.requiredPath mi i ++ ".may_block") ↔
      (splitFqn sig.name).isSome = true ∧ ¬(claimed = true ↔ MayBlock p (fqn m.name d.name)) := by
  have hclaimed : (claimed ≠ decide (fqn m.name d.name ∈ mayBlockFunctions p)) ↔
      ¬(claimed = true ↔ MayBlock p (fqn m.name d.name)) := by
    rw [← mem_mayBlockFunctions, Ne, Bool.eq_iff_iff, decide_eq_true_eq]
  have hone : ReportsPath (checkImportSigs p) "E804" (Program.requiredPath mi i ++ ".may_block") ↔
      ReportsPath (importSigDiags p (mayBlockFunctions p) mi m i (.sig sig)) "E804"
        (Program.requiredPath mi i ++ ".may_block") := by
    constructor
    · rintro ⟨x, hx, hcode, hpath⟩
      obtain ⟨mj, m', j, req, hm', hreq, hx⟩ := mem_checkImportSigs.mp hx
      obtain ⟨suffix, hsuffix⟩ := path_of_importSigDiags hx
      obtain ⟨rfl, rfl, -⟩ := requiredPath_inj (Option.some.inj (hsuffix.symm.trans hpath))
      obtain rfl : m' = m := Option.some.inj (hm'.symm.trans h.module)
      obtain rfl : req = .sig sig := Option.some.inj (hreq.symm.trans h.required)
      exact ⟨x, hx, hcode, hpath⟩
    · rintro ⟨x, hx, hcode, hpath⟩
      exact ⟨x, mem_checkImportSigs.mpr ⟨mi, m, i, _, h.module, h.required, hx⟩, hcode, hpath⟩
  rw [hone, ← hclaimed, importSigDiags]
  dsimp only [RequiredFunction.signature]
  cases hfqn : splitFqn sig.name with
  | none =>
      refine iff_of_false ?_ fun hs ↦ Bool.false_ne_true hs.1
      rintro ⟨x, hx, -, hpath⟩
      rw [List.mem_singleton.mp hx] at hpath
      have hempty : Program.requiredPath mi i ++ "" = Program.requiredPath mi i ++ ".may_block" := by
        rw [String.append_empty]
        exact Option.some.inj hpath
      exact absurd (requiredPath_inj hempty).2.2 (by decide)
  | some q =>
      rw [h.refers]
      exact (reportsPath_sigDiags h.claimed h.body _).trans (by simp)

/-- The passes end with the functions from which a blocking body can be reached. What a
signature says is reported as wrong exactly when it is wrong, if it names the function by
its qualified name and the function of that short name in the importing module blocks just
when the function meant does; a short name is never reported at `may_block`. -/
theorem mayBlock_exact (p : Program) :
    Passes.pass (callsBlock p) qualified p.declared (mayBlockFunctions p) =
      (mayBlockFunctions p, false) ∧
    (∀ a, a ∈ mayBlockFunctions p ↔ MayBlock p a) ∧
    ∀ mi m i sig claimed o d, Imports p mi m i sig claimed o d →
      ((ReportsPath (checkImportSigs p) "E804" (Program.requiredPath mi i ++ ".may_block") ↔
          ¬(claimed = true ↔ MayBlock p (fqn o.name d.name))) ↔
        if (splitFqn sig.name).isSome
          then (MayBlock p (fqn m.name d.name) ↔ MayBlock p (fqn o.name d.name))
          else (claimed = true ↔ MayBlock p (fqn o.name d.name))) := by
  refine ⟨pass_mayBlockFunctions p, fun a ↦ mem_mayBlockFunctions, ?_⟩
  intro mi m i sig claimed o d h
  rw [h.reportsPath_iff]
  split_ifs with hfqn
  · simp only [hfqn, true_and]
    tauto
  · simp only [hfqn, Bool.false_eq_true, false_and, false_iff, not_not]

end Reports

section Ferry

/-- A module that calls a blocking function of another module and says that it blocks. -/
def ferryMain : Function where
  name := "main"
  kind := "normal"
  form := "function"
  params := []
  returns := none
  locals := []
  body := [⟨"s0", .func "b::cross" [] none⟩, ⟨"s1", .ret none⟩]
  effects := none
  mayBlock := none
  locks := ⟨[], [], []⟩
  bound := none

def ferryCross : Function :=
  { ferryMain with
    name := "cross"
    body := [⟨"s0", .mutexLock "x"⟩, ⟨"s1", .mutexUnlock "x"⟩, ⟨"s2", .ret none⟩] }

def ferrySig : FunctionSig := ⟨"b::cross", none, some true, ⟨[], [], []⟩, [], none⟩

def ferryA : Module where
  name := "a"
  provides := ⟨[], [], []⟩
  requires := ⟨[], [.sig ferrySig], []⟩
  types := []
  resources := []
  protection := []
  functions := [ferryMain]

def ferryB : Module where
  name := "b"
  provides := ⟨[], ["cross"], []⟩
  requires := ⟨[], [], []⟩
  types := []
  resources := [⟨"x", "sync", "Mutex", some "Sync", none, none, none, none⟩]
  protection := []
  functions := [ferryCross]

def ferry : Program := ⟨"ferry", "1", [ferryA, ferryB], "a::main"⟩

theorem imports_ferry : Imports ferry 0 ferryA 0 ferrySig true ferryB ferryCross :=
  ⟨rfl, rfl, rfl, rfl, List.cons_ne_nil _ _⟩

/-- The signature is right and is reported. -/
theorem not_mayBlock_ferry : Imports ferry 0 ferryA 0 ferrySig true ferryB ferryCross ∧
    ¬(ReportsPath (checkImportSigs ferry) "E804" (Program.requiredPath 0 0 ++ ".may_block") ↔
      ¬(true = true ↔ MayBlock ferry (fqn ferryB.name ferryCross.name))) := by
  have hreport : (checkImportSigs ferry).any fun x ↦ decide (x.code = "E804" ∧
      x.path = some (Program.requiredPath 0 0 ++ ".may_block")) := by decide +kernel
  refine ⟨imports_ferry, fun h ↦ ?_⟩
  obtain ⟨x, hx, hcode⟩ := List.any_eq_true.mp hreport
  refine h.mp ⟨x, hx, of_decide_eq_true hcode⟩ (iff_of_true rfl ?_)
  exact ⟨_, .refl, (ferryB, ferryCross), .tail _ (.head _), rfl, by decide⟩

theorem mayBlock_exact_ferry :
    (ReportsPath (checkImportSigs ferry) "E804" (Program.requiredPath 0 0 ++ ".may_block") ↔
      ¬(true = true ↔ MayBlock ferry (fqn ferryB.name ferryCross.name))) ↔
    (MayBlock ferry (fqn ferryA.name ferryCross.name) ↔
      MayBlock ferry (fqn ferryB.name ferryCross.name)) :=
  (mayBlock_exact ferry).2.2 0 ferryA 0 ferrySig true ferryB ferryCross imports_ferry

end Ferry

end Validate

end ConcIR
