import ConcIR.Repair.Keyed
import ConcIR.Typedef.Resolve
import ConcIR.Validate.Interface

/-!
# Declarations of types

A declaration that cannot be resolved is reported as cyclic if a cycle can be reached from
it, and otherwise as one that refers to an undefined type.
-/

namespace ConcIR

namespace Typedef

open Ast Relation Validate

section Definitions

def typePath (mi i : ℕ) : String := "modules[" ++ toString mi ++ "].types[" ++ toString i ++ "]"

def builtinName (m : Module) (t : TypeDef) (path : String) : Diagnostic :=
  ((Diagnostic.error "E112" ("type name '" ++ t.name ++ "' in module '" ++ m.name ++
    "' is a builtin primitive")).withPath (path ++ ".name")).withFix
      "choose a name other than Bool, Int, Float, or String"

def notIdent (t : TypeDef) (path : String) : Diagnostic :=
  ((Diagnostic.error "E110" ("type name '" ++ t.name ++ "' is not an identifier")).withPath
    (path ++ ".name")).withFix "use [A-Za-z_][A-Za-z0-9_]*"

def duplicateType (m : Module) (t : TypeDef) (path : String) : Diagnostic :=
  ((Diagnostic.error "E110" ("duplicate type '" ++ t.name ++ "' in module '" ++ m.name ++
    "'")).withPath path).withFix "rename one of the types"

def cyclicAlias (m : Module) (t : TypeDef) (path : String) : Diagnostic :=
  ((Diagnostic.error "E113" ("type '" ++ t.name ++ "' in module '" ++ m.name ++
    "' is a cyclic alias")).withPath path).withFix
      "break the cycle; aliases must bottom out in a concrete type"

def undefinedType (t : TypeDef) (path name : String) : Diagnostic :=
  ((Diagnostic.error "E111" ("type '" ++ t.name ++ "' refers to undefined type '" ++ name ++
    "'")).withPath path).withFix "declare the named type in this module or import it"

/-- The checks of the names, where `seen` are those of the declarations before. -/
def checkTypeNames (mi : ℕ) (m : Module) (i : ℕ) (seen : List String) :
    List TypeDef → List Diagnostic
  | [] => []
  | t :: ts =>
      (if isBuiltin t.name then [builtinName m t (typePath mi i)] else []) ++
      (if !isIdent t.name then [notIdent t (typePath mi i)] else []) ++
      (if t.name ∈ seen then [duplicateType m t (typePath mi i)] else []) ++
        checkTypeNames mi m (i + 1) (t.name :: seen) ts

def checkDefinition (ds : Defs) (m : Module) (t : TypeDef) (path : String) : List Diagnostic :=
  match resolveDef ds m.name t.ty [fqn m.name t.name] with
  | some _ => []
  | none =>
      if hasCycle ds m.name t.ty [fqn m.name t.name] then [cyclicAlias m t path]
      else t.ty.firstUndefined.toList.map (undefinedType t path)

def checkDeclarations (p : Program) : List Diagnostic :=
  (p.modules.zipIdx.flatMap fun (m, mi) ↦ checkTypeNames mi m 0 [] m.types) ++
    p.modules.zipIdx.flatMap fun (m, mi) ↦ m.types.zipIdx.flatMap fun (t, i) ↦
      checkDefinition (defs p) m t (typePath mi i ++ ".type")

end Definitions

section View

variable {p : Program} {m : Module} {t : TypeDef}

/-- What names stand for in a declaration: its own name stands for it. -/
def declared (p : Program) (m : Module) (t : TypeDef) (key : String) :
    Option (String × BaseType) :=
  if key = fqn m.name t.name then some (m.name, t.ty) else lookup (defs p) key

/-- A cycle of names can be reached. -/
def ReachesCycle (look : String → Option (String × BaseType)) (a : String) : Prop :=
  ∃ c, ReflTransGen (Refers look) a c ∧ TransGen (Refers look) c c

/-- An undefined name can be reached. -/
def ReachesUndefined (look : String → Option (String × BaseType)) (a : String) : Prop :=
  ∃ c, ReflTransGen (Refers look) a c ∧ look c = none

theorem not_grounded_iff {look : String → Option (String × BaseType)} {a : String} :
    ¬Grounded look a ↔ ReachesCycle look a ∨ ReachesUndefined look a := by
  constructor
  · intro h
    obtain ⟨c, hc⟩ := not_forall.mp h
    obtain ⟨hreach, hc⟩ := Classical.not_imp.mp hc
    by_cases hloop : TransGen (Refers look) c c
    · exact .inl ⟨c, hreach, hloop⟩
    · refine .inr ⟨c, hreach, Option.not_isSome_iff_eq_none.mp fun hsome ↦ hc ⟨hsome, hloop⟩⟩
  · rintro (⟨c, hreach, hloop⟩ | ⟨c, hreach, hnone⟩) h
    · exact (h c hreach).2 hloop
    · have hsome := (h c hreach).1
      rw [hnone] at hsome
      cases hsome

theorem declared_self : declared p m t (fqn m.name t.name) = some (m.name, t.ty) := if_pos rfl

theorem declared_of_not_mem {k : String} (hk : k ∉ [fqn m.name t.name]) :
    declared p m t k = lookup (defs p) k :=
  if_neg fun h ↦ hk (List.mem_singleton.mpr h)

/-- Where the declared names are different, a declaration is what its name stands for. -/
theorem declared_eq_lookup (hn : ((defs p).map (·.1)).Nodup) (hm : m ∈ p.modules)
    (ht : t ∈ m.types) : declared p m t = lookup (defs p) := by
  funext key
  rw [declared]
  split_ifs with hkey
  · have hmem : (fqn m.name t.name, m.name, t.ty) ∈ (defs p).reverse :=
      List.mem_reverse.mpr (List.mem_flatMap.mpr ⟨m, hm, List.mem_map_of_mem ht⟩)
    have hkeys : ((defs p).reverse.map (·.1)).Nodup := by
      rw [List.map_reverse]
      exact List.nodup_reverse.mpr hn
    rw [lookup, hkey, Keyed.find?_eq hkeys hmem]
    rfl
  · rfl

theorem hasCycle_iff : hasCycle (defs p) m.name t.ty [fqn m.name t.name] = true ↔
    ReachesCycle (declared p m t) (fqn m.name t.name) := by
  have hwalk := @exists_walk_iff (declared p m t) (fqn m.name t.name)
    (Returns [fqn m.name t.name]) m.name t.ty declared_self
  have hreturns : ∀ w, ¬(fqn m.name t.name :: w).Nodup ↔ Returns [fqn m.name t.name] w := by
    intro w
    rw [← returns_cons List.not_mem_nil, Returns]
    simp
  rw [ReachesCycle, ← Walks.exists_repeat_iff]
  simp only [hreturns, hwalk, not_returns_nil, false_or]
  rw [hasCycle, BaseType.anyName_eq, List.any_eq_true]
  exact exists_congr fun n ↦ and_congr_right fun _ ↦ cycleKey_iff fun k hk ↦ declared_of_not_mem hk

theorem resolveDef_eq_none_iff : resolveDef (defs p) m.name t.ty [fqn m.name t.name] = none ↔
    ¬Grounded (declared p m t) (fqn m.name t.name) := by
  have hwalk := @exists_walk_iff (declared p m t) (fqn m.name t.name)
    (Fails (declared p m t) [fqn m.name t.name]) m.name t.ty declared_self
  rw [← exists_fails_iff]
  simp only [fails_cons List.not_mem_nil declared_self, hwalk, not_fails_nil, false_or]
  rw [resolveDef, BaseType.mapNames_eq_none_iff]
  exact exists_congr fun n ↦ and_congr_right fun _ ↦
    resolveKey_eq_none_iff fun k hk ↦ declared_of_not_mem hk

/-- A declaration is reported by what can be reached from it. -/
theorem checkDefinition_eq (path : String) :
    (ReachesCycle (declared p m t) (fqn m.name t.name) ∧
      checkDefinition (defs p) m t path = [cyclicAlias m t path]) ∨
    (¬ReachesCycle (declared p m t) (fqn m.name t.name) ∧
      ReachesUndefined (declared p m t) (fqn m.name t.name) ∧
        ∃ name, checkDefinition (defs p) m t path = [undefinedType t path name]) ∨
    (¬ReachesCycle (declared p m t) (fqn m.name t.name) ∧
      ¬ReachesUndefined (declared p m t) (fqn m.name t.name) ∧
        checkDefinition (defs p) m t path = []) := by
  have hnone := @resolveDef_eq_none_iff p m t
  rw [not_grounded_iff] at hnone
  rw [checkDefinition]
  cases hres : resolveDef (defs p) m.name t.ty [fqn m.name t.name] with
  | some u =>
      have hgood := mt hnone.mpr (by rw [hres]; simp)
      exact .inr (.inr ⟨fun h ↦ hgood (.inl h), fun h ↦ hgood (.inr h), rfl⟩)
  | none =>
      dsimp only
      split_ifs with hcycle
      · exact .inl ⟨hasCycle_iff.mp hcycle, rfl⟩
      · have hno := mt hasCycle_iff.mpr hcycle
        refine .inr (.inl ⟨hno, (hnone.mp hres).resolve_left hno, ?_⟩)
        obtain ⟨n, hn, -⟩ := BaseType.mapNames_eq_none_iff.mp hres
        cases hnames : t.ty.names with
        | nil =>
            rw [hnames] at hn
            exact absurd hn List.not_mem_nil
        | cons name rest =>
            refine ⟨name, ?_⟩
            rw [BaseType.firstUndefined_eq, hnames]
            rfl

end View

section Reports

variable {p : Program} {mi i : ℕ} {m : Module} {t : TypeDef} {code : String}

/-- The declaration is the `i`-th one of the module `mi`. -/
structure Declares (p : Program) (mi : ℕ) (m : Module) (i : ℕ) (t : TypeDef) : Prop where
  module : p.modules[mi]? = some m
  declaration : m.types[i]? = some t

theorem code_of_mem_checkTypeNames {seen : List String} {ts : List TypeDef} {d : Diagnostic}
    (h : d ∈ checkTypeNames mi m i seen ts) : d.code = "E112" ∨ d.code = "E110" := by
  induction ts generalizing i seen with
  | nil => exact absurd h List.not_mem_nil
  | cons t ts ih =>
      rw [checkTypeNames] at h
      rcases List.mem_append.mp h with h | h
      · rcases List.mem_append.mp h with h | h
        · rcases List.mem_append.mp h with h | h
          · split_ifs at h
            · rw [List.mem_singleton.mp h]
              exact .inl rfl
            · exact absurd h List.not_mem_nil
          · split_ifs at h
            · rw [List.mem_singleton.mp h]
              exact .inr rfl
            · exact absurd h List.not_mem_nil
        · split_ifs at h
          · rw [List.mem_singleton.mp h]
            exact .inr rfl
          · exact absurd h List.not_mem_nil
      · exact ih h

theorem typePath_inj {mj j : ℕ} {s s' : String} (h : typePath mi i ++ s = typePath mj j ++ s') :
    mi = mj ∧ i = j ∧ s = s' :=
  @indexedPath_inj "modules[" ".types[" s s' mi mj i j h

/-- The reports about what a declaration refers to. -/
theorem mem_checkDeclarations (h1 : code ≠ "E112") (h2 : code ≠ "E110") {d : Diagnostic} :
    d ∈ checkDeclarations p ∧ d.code = code ↔ ∃ mi m i t, Declares p mi m i t ∧
      d ∈ checkDefinition (defs p) m t (typePath mi i ++ ".type") ∧ d.code = code := by
  rw [checkDeclarations, List.mem_append]
  constructor
  · rintro ⟨hd | hd, hcode⟩
    · obtain ⟨⟨m, mi⟩, -, hd⟩ := List.mem_flatMap.mp hd
      rcases code_of_mem_checkTypeNames hd with h | h
      · exact absurd (hcode.symm.trans h) h1
      · exact absurd (hcode.symm.trans h) h2
    · obtain ⟨⟨m, mi⟩, hm, hd⟩ := List.mem_flatMap.mp hd
      obtain ⟨⟨t, i⟩, ht, hd⟩ := List.mem_flatMap.mp hd
      exact ⟨mi, m, i, t, ⟨List.mem_zipIdx_iff_getElem?.mp hm, List.mem_zipIdx_iff_getElem?.mp ht⟩,
        hd, hcode⟩
  · rintro ⟨mi, m, i, t, hdecl, hd, hcode⟩
    refine ⟨.inr (List.mem_flatMap.mpr ⟨(m, mi), ?_, List.mem_flatMap.mpr ⟨(t, i), ?_, hd⟩⟩), hcode⟩
    · exact List.mem_zipIdx_iff_getElem?.mpr hdecl.module
    · exact List.mem_zipIdx_iff_getElem?.mpr hdecl.declaration

theorem path_of_mem_checkDefinition {ds : Defs} {path : String} {d : Diagnostic}
    (h : d ∈ checkDefinition ds m t path) : d.path = some path := by
  rw [checkDefinition] at h
  split at h
  case h_1 => exact absurd h List.not_mem_nil
  case h_2 =>
    split_ifs at h
    · rw [List.mem_singleton.mp h]
      rfl
    · obtain ⟨name, -, rfl⟩ := List.mem_map.mp h
      rfl

/-- What is reported at the path of a declaration is reported about it. -/
theorem reportsPath_checkDeclarations (hdecl : Declares p mi m i t) (h1 : code ≠ "E112")
    (h2 : code ≠ "E110") : ReportsPath (checkDeclarations p) code (typePath mi i ++ ".type") ↔
      ∃ d ∈ checkDefinition (defs p) m t (typePath mi i ++ ".type"), d.code = code := by
  constructor
  · rintro ⟨d, hd, hcode, hpath⟩
    obtain ⟨mj, m', j, t', hdecl', hd', -⟩ := (mem_checkDeclarations h1 h2).mp ⟨hd, hcode⟩
    rw [path_of_mem_checkDefinition hd'] at hpath
    obtain ⟨rfl, rfl, -⟩ := typePath_inj (Option.some.inj hpath)
    obtain rfl := Option.some.inj (hdecl.module.symm.trans hdecl'.module)
    obtain rfl := Option.some.inj (hdecl.declaration.symm.trans hdecl'.declaration)
    exact ⟨d, hd', hcode⟩
  · rintro ⟨d, hd, hcode⟩
    have hmem := (mem_checkDeclarations h1 h2).mpr ⟨mi, m, i, t, hdecl, hd, hcode⟩
    exact ⟨d, hmem.1, hcode, path_of_mem_checkDefinition hd⟩

/-- A type resolves exactly if every name that can be reached from it is defined and leads to
no cycle, and then to a type without names. A declaration is reported as cyclic exactly if
a cycle can be reached from it, and as undefined exactly if none can but an undefined name
can; nothing else is reported so. Where the declared names are different, every declaration
is what its own name stands for. -/
theorem typedefs_exact (p : Program) :
    (∀ fromModule ty, ((TypeEnv.fromProgram p).resolve fromModule ty).isSome = true ↔
      ∀ n ∈ ty.names, Grounded (lookup (defs p)) (qualify fromModule n)) ∧
    (∀ fromModule ty u, (TypeEnv.fromProgram p).resolve fromModule ty = some u → u.names = []) ∧
    (∀ mi m i t, Declares p mi m i t →
      (ReportsPath (checkDeclarations p) "E113" (typePath mi i ++ ".type") ↔
        ReachesCycle (declared p m t) (fqn m.name t.name)) ∧
      (ReportsPath (checkDeclarations p) "E111" (typePath mi i ++ ".type") ↔
        ¬ReachesCycle (declared p m t) (fqn m.name t.name) ∧
          ReachesUndefined (declared p m t) (fqn m.name t.name))) ∧
    (∀ d ∈ checkDeclarations p, d.code = "E113" ∨ d.code = "E111" →
      ∃ mi m i t, Declares p mi m i t ∧ d.path = some (typePath mi i ++ ".type")) ∧
    (((defs p).map (·.1)).Nodup → ∀ m ∈ p.modules, ∀ t ∈ m.types,
      declared p m t = lookup (defs p)) := by
  refine ⟨fun _ _ ↦ resolve_isSome_iff, fun _ _ _ h ↦ names_resolve h, ?_, ?_,
    fun hn m hm t ht ↦ declared_eq_lookup hn hm ht⟩
  · intro mi m i t hdecl
    rw [reportsPath_checkDeclarations hdecl (by decide) (by decide),
      reportsPath_checkDeclarations hdecl (by decide) (by decide)]
    rcases @checkDefinition_eq p m t (typePath mi i ++ ".type") with
      ⟨hcycle, heq⟩ | ⟨hcycle, hundefined, name, heq⟩ | ⟨hcycle, hundefined, heq⟩
    · rw [heq]
      refine ⟨iff_of_true ⟨_, List.mem_cons_self, rfl⟩ hcycle, iff_of_false ?_ fun h ↦ h.1 hcycle⟩
      rintro ⟨d, hd, hcode⟩
      rw [List.mem_singleton.mp hd] at hcode
      have hcode : "E113" = "E111" := hcode
      exact absurd hcode (by decide)
    · rw [heq]
      refine ⟨iff_of_false ?_ hcycle, iff_of_true ⟨_, List.mem_cons_self, rfl⟩ ⟨hcycle, hundefined⟩⟩
      rintro ⟨d, hd, hcode⟩
      rw [List.mem_singleton.mp hd] at hcode
      have hcode : "E111" = "E113" := hcode
      exact absurd hcode (by decide)
    · rw [heq]
      refine ⟨iff_of_false ?_ hcycle, iff_of_false ?_ fun h ↦ hundefined h.2⟩ <;>
        exact fun h ↦ absurd h.choose_spec.1 List.not_mem_nil
  · intro d hd hcode
    have hmem : ∃ mi m i t, Declares p mi m i t ∧
        d ∈ checkDefinition (defs p) m t (typePath mi i ++ ".type") ∧ d.code = d.code := by
      refine (mem_checkDeclarations ?_ ?_).mp ⟨hd, rfl⟩
      · rintro h
        rcases hcode with hcode | hcode <;> exact absurd (hcode.symm.trans h) (by decide)
      · rintro h
        rcases hcode with hcode | hcode <;> exact absurd (hcode.symm.trans h) (by decide)
    obtain ⟨mi, m, i, t, hdecl, hd', -⟩ := hmem
    exact ⟨mi, m, i, t, hdecl, path_of_mem_checkDefinition hd'⟩

end Reports

section Knot

/-- An array of the type that it is an alias in, and a record that holds it. -/
def knotModule : Module where
  name := "m"
  provides := ⟨[], [], []⟩
  requires := ⟨[], [], []⟩
  types := [⟨"Row", .array (.primitive "Grid") 2⟩, ⟨"Grid", .primitive "m::Row"⟩,
    ⟨"Board", .struct [("grid", .primitive "Grid"), ("label", .primitive "String")]⟩]
  resources := []
  protection := []
  functions := []

def knot : Program where
  program := "knot"
  version := "1"
  modules := [knotModule]
  entry := "m::main"

theorem typedefs_exact_knot :
    ReportsPath (checkDeclarations knot) "E113" (typePath 0 2 ++ ".type") := by
  set look := declared knot knotModule (knotModule.types[2]) with hlook
  have hboard : Refers look "m::Board" "m::Grid" :=
    ⟨"m", knotModule.types[2].ty, by decide +kernel, "Grid", by decide +kernel, by decide +kernel⟩
  have hgrid : Refers look "m::Grid" "m::Row" :=
    ⟨"m", .primitive "m::Row", by decide +kernel, "m::Row", by decide, by decide +kernel⟩
  have hrow : Refers look "m::Row" "m::Grid" :=
    ⟨"m", .array (.primitive "Grid") 2, by decide +kernel, "Grid", by decide, by decide +kernel⟩
  exact ((typedefs_exact knot).2.2.1 0 knotModule 2 _ ⟨rfl, rfl⟩).1.mpr
    ⟨"m::Grid", .single hboard, .tail (.single hgrid) hrow⟩

end Knot

end Typedef

end ConcIR
