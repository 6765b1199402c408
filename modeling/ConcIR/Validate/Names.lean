import ConcIR.Validate.Cfg

/-!
# Names

Modules, resources, functions and statements are told apart by their names, and jumps lead
to statements of the same function. What refers to other entities is not looked at here.
-/

namespace ConcIR.Validate

open Ast

/-- The names that an earlier one repeats, with their positions from `i` on. -/
def repeatedFrom (i : ℕ) (seen : List String) : List String → List (ℕ × String)
  | [] => []
  | n :: ns =>
      (if n ∈ seen then [(i, n)] else []) ++ repeatedFrom (i + 1) (n :: seen) ns

def repeated (names : List String) : List (ℕ × String) := repeatedFrom 0 [] names

section Checks

variable (p : Program)

def checkDuplicateModules : List Diagnostic :=
  (repeated (p.modules.map (·.name))).map fun (i, name) ↦
    ((Diagnostic.error "E108" ("duplicate module name '" ++ name ++ "'")).withPath
      s!"modules[{i}].name").withFix "rename one of the modules"

def checkDuplicateResources : List Diagnostic :=
  p.modules.zipIdx.flatMap fun (m, mi) ↦ (repeated (m.resources.map (·.name))).map fun (i, name) ↦
    ((Diagnostic.error "E104" ("duplicate resource name '" ++ name ++ "'")).withPath
      s!"modules[{mi}].resources[{i}].name").withFix "remove the duplicate or rename one of them"

def checkDuplicateFunctions : List Diagnostic :=
  p.modules.zipIdx.flatMap fun (m, mi) ↦ (repeated (m.functions.map (·.name))).map fun (i, name) ↦
    ((Diagnostic.error "E105" ("duplicate function name '" ++ name ++ "'")).withPath
      s!"modules[{mi}].functions[{i}].name").withFix "rename one of the functions"

variable (m : Module) (f : Function) (fnPath : String)

def duplicateSid (si : ℕ) (s : Stmt) : Diagnostic :=
  (((Diagnostic.error "E106" ("duplicate statement id '" ++ s.sid ++ "' in function '" ++ f.name ++
    "'")).withPath (Program.bodyPath fnPath si ++ ".sid")).withLocation
      (Program.stmtLocation m f s)).withFix "assign a unique statement id"

def duplicateHole (si : ℕ) (s : Stmt) (id : String) : Diagnostic :=
  (((Diagnostic.error "E109" ("duplicate seq_hole id '" ++ id ++ "' in function '" ++ f.name ++
    "'")).withPath (Program.bodyPath fnPath si ++ ".id")).withLocation
      (Program.stmtLocation m f s)).withFix "give each seq_hole a unique id within the function"

def duplicateSidsFrom (si : ℕ) (seen holeIds : List String) : List Stmt → List Diagnostic
  | [] => []
  | s :: rest =>
      (if s.sid ∈ seen then [duplicateSid m f fnPath si s] else []) ++
        match s.op with
        | .seqHole id _ _ _ =>
            (if id ∈ holeIds then [duplicateHole m f fnPath si s id] else []) ++
              duplicateSidsFrom (si + 1) (s.sid :: seen) (id :: holeIds) rest
        | _ => duplicateSidsFrom (si + 1) (s.sid :: seen) holeIds rest

def undefinedSid (si : ℕ) (s : Stmt) (t : String) : Diagnostic :=
  (((Diagnostic.error "E103" ("undefined statement id '" ++ t ++ "' in function '" ++ f.name ++
    "'")).withPath (Program.bodyPath fnPath si)).withLocation (Program.stmtLocation m f s)).withFix
      "use an existing statement id from this function"

def sidReferences : List Diagnostic :=
  f.body.zipIdx.flatMap fun (s, si) ↦
    ((f.successors si).filter fun t ↦ t ∉ f.body.map (·.sid)).map (undefinedSid m f fnPath si s)

/-- A check of each function of the program. -/
def perFunction (check : Module → Function → String → List Diagnostic) : List Diagnostic :=
  p.modules.zipIdx.flatMap fun (m, mi) ↦ m.functions.zipIdx.flatMap fun (f, fi) ↦
    check m f (Program.fnPath mi fi)

def checkDuplicateSids : List Diagnostic :=
  perFunction p fun m f fnPath ↦ duplicateSidsFrom m f fnPath 0 [] [] f.body

def checkSidReferences : List Diagnostic := perFunction p sidReferences

/-- The checks of a program's own names. All that they report are errors. -/
def checkNames : List Diagnostic :=
  checkDuplicateModules p ++ checkDuplicateResources p ++ checkDuplicateFunctions p ++
    checkDuplicateSids p ++ checkSidReferences p

end Checks

section Unique

theorem repeatedFrom_eq_nil {ns : List String} {i : ℕ} {seen : List String}
    (h : repeatedFrom i seen ns = []) : ns.Nodup ∧ ∀ n ∈ ns, n ∉ seen := by
  induction ns generalizing i seen with
  | nil => exact ⟨List.nodup_nil, fun n hn ↦ absurd hn List.not_mem_nil⟩
  | cons n ns ih =>
      obtain ⟨hhead, htail⟩ := List.append_eq_nil_iff.mp h
      obtain ⟨hnodup, hfresh⟩ := ih htail
      have hseen : n ∉ seen := by
        intro hn
        rw [if_pos hn] at hhead
        cases hhead
      constructor
      · exact List.nodup_cons.mpr ⟨fun hn ↦ hfresh n hn List.mem_cons_self, hnodup⟩
      · refine List.forall_mem_cons.mpr ⟨hseen, fun k hk hks ↦ ?_⟩
        exact hfresh k hk (List.mem_cons_of_mem n hks)

theorem duplicateSidsFrom_eq_nil {m : Module} {f : Function} {fnPath : String} {body : List Stmt}
    {si : ℕ} {seen holeIds : List String}
    (h : duplicateSidsFrom m f fnPath si seen holeIds body = []) :
    (body.map (·.sid)).Nodup ∧ ∀ s ∈ body, s.sid ∉ seen := by
  induction body generalizing si seen holeIds with
  | nil => exact ⟨List.nodup_nil, fun s hs ↦ absurd hs List.not_mem_nil⟩
  | cons s rest ih =>
      obtain ⟨hhead, htail⟩ := List.append_eq_nil_iff.mp h
      obtain ⟨hnodup, hfresh⟩ : (rest.map (·.sid)).Nodup ∧ ∀ r ∈ rest, r.sid ∉ s.sid :: seen := by
        cases hop : s.op with
        | seqHole id desc reads writes =>
            rw [hop] at htail
            exact ih (List.append_eq_nil_iff.mp htail).2
        | _ =>
            rw [hop] at htail
            exact ih htail
      have hseen : s.sid ∉ seen := by
        intro hs
        rw [if_pos hs] at hhead
        cases hhead
      constructor
      · rw [List.map_cons, List.nodup_cons]
        refine ⟨fun hs ↦ ?_, hnodup⟩
        obtain ⟨r, hr, hsid⟩ := List.mem_map.mp hs
        exact hfresh r hr (hsid ▸ List.mem_cons_self)
      · refine List.forall_mem_cons.mpr ⟨hseen, fun r hr hrs ↦ ?_⟩
        exact hfresh r hr (List.mem_cons_of_mem _ hrs)

/-- What the checks of names establish. -/
structure NamesUnique (p : Program) : Prop where
  modules : (p.modules.map (·.name)).Nodup
  functions : ∀ m ∈ p.modules, (m.functions.map (·.name)).Nodup
  sids : ∀ m ∈ p.modules, ∀ f ∈ m.functions, (f.body.map (·.sid)).Nodup
  targets : ∀ m ∈ p.modules, ∀ f ∈ m.functions, ∀ i, ∀ t ∈ f.successors i,
    t ∈ f.body.map (·.sid)

variable {p : Program}

theorem perFunction_eq_nil {check : Module → Function → String → List Diagnostic}
    (h : perFunction p check = []) {m : Module} (hm : m ∈ p.modules) {f : Function}
    (hf : f ∈ m.functions) : ∃ fnPath, check m f fnPath = [] := by
  obtain ⟨mi, hmi⟩ := List.getElem?_of_mem hm
  obtain ⟨fi, hfi⟩ := List.getElem?_of_mem hf
  have hmodule := List.flatMap_eq_nil_iff.mp h (m, mi) (List.mem_zipIdx_iff_getElem?.mpr hmi)
  exact ⟨_, List.flatMap_eq_nil_iff.mp hmodule (f, fi) (List.mem_zipIdx_iff_getElem?.mpr hfi)⟩

theorem namesUnique_of_checkNames (h : checkNames p = []) : NamesUnique p := by
  simp only [checkNames, List.append_eq_nil_iff] at h
  obtain ⟨⟨⟨⟨hmodules, -⟩, hfunctions⟩, hsids⟩, htargets⟩ := h
  constructor
  · exact (repeatedFrom_eq_nil (List.map_eq_nil_iff.mp hmodules)).1
  · intro m hm
    obtain ⟨mi, hmi⟩ := List.getElem?_of_mem hm
    have hnone := List.flatMap_eq_nil_iff.mp hfunctions (m, mi)
      (List.mem_zipIdx_iff_getElem?.mpr hmi)
    exact (repeatedFrom_eq_nil (List.map_eq_nil_iff.mp hnone)).1
  · intro m hm f hf
    obtain ⟨fnPath, hnone⟩ := perFunction_eq_nil hsids hm hf
    exact (duplicateSidsFrom_eq_nil hnone).1
  · intro m hm f hf i t ht
    obtain ⟨fnPath, hnone⟩ := perFunction_eq_nil htargets hm hf
    cases hi : f.body[i]? with
    | none =>
        rw [Function.successors, hi] at ht
        exact absurd ht List.not_mem_nil
    | some s =>
        have hs := List.flatMap_eq_nil_iff.mp hnone (s, i) (List.mem_zipIdx_iff_getElem?.mpr hi)
        have hall := List.filter_eq_nil_iff.mp (List.map_eq_nil_iff.mp hs) t ht
        simpa using hall

end Unique

end ConcIR.Validate
