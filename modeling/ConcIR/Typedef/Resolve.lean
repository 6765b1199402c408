import ConcIR.Ast.Types
import ConcIR.Typedef.Walks
import ConcIR.Validate.Cfg

/-!
# Named types

A primitive type that is not built in is the name of a type: a short name of the same
module, or a qualified one. A named type is resolved by the definition of its name. The
names under way are kept on a stack, and a name that is met again there is a cycle.
-/

namespace ConcIR

def isBuiltin (name : String) : Bool :=
  name = "Bool" || name = "Int" || name = "Float" || name = "String"

namespace BaseType

mutual

/-- The type with something else for each of its names. -/
def mapNames (f : String → Option BaseType) : BaseType → Option BaseType
  | .primitive p => if isBuiltin p then some (.primitive p) else f p
  | .struct fields => (mapNamesFields f fields).map .struct
  | .array elem len => (mapNames f elem).map fun elem ↦ .array elem len
  | .enum variants => some (.enum variants)
  | .boundedInt lo hi => some (.boundedInt lo hi)

def mapNamesFields (f : String → Option BaseType) :
    List (String × BaseType) → Option (List (String × BaseType))
  | [] => some []
  | (k, t) :: rest => (mapNames f t).bind fun t ↦ (mapNamesFields f rest).map fun rest ↦ (k, t) :: rest

end

mutual

def anyName (f : String → Bool) : BaseType → Bool
  | .primitive p => if isBuiltin p then false else f p
  | .struct fields => anyNameFields f fields
  | .array elem _ => anyName f elem
  | .enum _ | .boundedInt .. => false

def anyNameFields (f : String → Bool) : List (String × BaseType) → Bool
  | [] => false
  | (_, t) :: rest => anyName f t || anyNameFields f rest

end

mutual

/-- The first name in the type, defined or not. -/
def firstUndefined : BaseType → Option String
  | .primitive p => if isBuiltin p then none else some p
  | .struct fields => firstUndefinedFields fields
  | .array elem _ => firstUndefined elem
  | .enum _ | .boundedInt .. => none

def firstUndefinedFields : List (String × BaseType) → Option String
  | [] => none
  | (_, t) :: rest => (firstUndefined t).or (firstUndefinedFields rest)

end

mutual

/-- The names that a type mentions. -/
def names : BaseType → List String
  | .primitive p => if isBuiltin p then [] else [p]
  | .struct fields => namesFields fields
  | .array elem _ => names elem
  | .enum _ | .boundedInt .. => []

def namesFields : List (String × BaseType) → List String
  | [] => []
  | (_, t) :: rest => names t ++ namesFields rest

end

section Traversals

variable {f : String → Option BaseType} {q : String → Bool}

mutual

theorem anyName_eq : ∀ t : BaseType, t.anyName q = t.names.any q
  | .primitive p => by
      rw [anyName, names]
      split_ifs
      · rfl
      · rw [List.any_cons, List.any_nil, Bool.or_false]
  | .struct fields => by rw [anyName, names, anyNameFields_eq fields]
  | .array elem _ => by rw [anyName, names, anyName_eq elem]
  | .enum _ => rfl
  | .boundedInt .. => rfl

theorem anyNameFields_eq : ∀ fields, anyNameFields q fields = (namesFields fields).any q
  | [] => rfl
  | (_, t) :: rest => by
      rw [anyNameFields, namesFields, List.any_append, anyName_eq t, anyNameFields_eq rest]

end

mutual

theorem firstUndefined_eq : ∀ t : BaseType, t.firstUndefined = t.names.head?
  | .primitive p => by
      rw [firstUndefined, names]
      split_ifs <;> rfl
  | .struct fields => by rw [firstUndefined, names, firstUndefinedFields_eq fields]
  | .array elem _ => by rw [firstUndefined, names, firstUndefined_eq elem]
  | .enum _ => rfl
  | .boundedInt .. => rfl

theorem firstUndefinedFields_eq : ∀ fields, firstUndefinedFields fields = (namesFields fields).head?
  | [] => rfl
  | (_, t) :: rest => by
      rw [firstUndefinedFields, namesFields, List.head?_append, firstUndefined_eq t,
        firstUndefinedFields_eq rest]

end

mutual

/-- All names of the type have to have something in their place. -/
theorem mapNames_isSome : ∀ t : BaseType, (t.mapNames f).isSome = t.names.all fun n ↦ (f n).isSome
  | .primitive p => by
      rw [mapNames, names]
      split_ifs
      · rfl
      · rw [List.all_cons, List.all_nil, Bool.and_true]
  | .struct fields => by rw [mapNames, names, Option.isSome_map, mapNamesFields_isSome fields]
  | .array elem _ => by rw [mapNames, names, Option.isSome_map, mapNames_isSome elem]
  | .enum _ => rfl
  | .boundedInt .. => rfl

theorem mapNamesFields_isSome : ∀ fields,
    (mapNamesFields f fields).isSome = (namesFields fields).all fun n ↦ (f n).isSome
  | [] => rfl
  | (_, t) :: rest => by
      rw [mapNamesFields, namesFields, List.all_append, ← mapNames_isSome t,
        ← mapNamesFields_isSome rest]
      cases mapNames f t with
      | none => rfl
      | some t => rw [Option.bind_some, Option.isSome_map, Option.isSome_some, Bool.true_and]

end

theorem mapNames_eq_none_iff {t : BaseType} : t.mapNames f = none ↔ ∃ n ∈ t.names, f n = none := by
  rw [← Option.not_isSome_iff_eq_none, mapNames_isSome, List.all_eq_true]
  simp

mutual

/-- What is put in the place of names has none, so the result has none. -/
theorem names_mapNames (hf : ∀ n u, f n = some u → u.names = []) :
    ∀ (t : BaseType) {u : BaseType}, t.mapNames f = some u → u.names = []
  | .primitive p, u, h => by
      rw [mapNames] at h
      split_ifs at h with hp
      · rw [← Option.some.inj h, names, if_pos hp]
      · exact hf p u h
  | .struct fields, u, h => by
      rw [mapNames] at h
      obtain ⟨rest, hrest, rfl⟩ := Option.map_eq_some_iff.mp h
      rw [names, namesFields_mapNamesFields hf fields hrest]
  | .array elem len, u, h => by
      rw [mapNames] at h
      obtain ⟨e, he, rfl⟩ := Option.map_eq_some_iff.mp h
      rw [names, names_mapNames hf elem he]
  | .enum _, u, h => by
      rw [mapNames] at h
      rw [← Option.some.inj h, names]
  | .boundedInt .., u, h => by
      rw [mapNames] at h
      rw [← Option.some.inj h, names]

theorem namesFields_mapNamesFields (hf : ∀ n u, f n = some u → u.names = []) :
    ∀ (fields : List (String × BaseType)) {rest}, mapNamesFields f fields = some rest →
      namesFields rest = []
  | [], rest, h => by
      rw [mapNamesFields] at h
      rw [← Option.some.inj h, namesFields]
  | (k, t) :: fields, rest, h => by
      rw [mapNamesFields] at h
      obtain ⟨t', ht, h⟩ := Option.bind_eq_some_iff.mp h
      obtain ⟨rest', hrest, rfl⟩ := Option.map_eq_some_iff.mp h
      rw [namesFields, names_mapNames hf t ht, namesFields_mapNamesFields hf fields hrest]
      rfl

end

end Traversals

end BaseType

namespace Typedef

open Ast Relation

/-- The declared types by their qualified names, with the modules they are declared in. -/
abbrev Defs := List (String × String × BaseType)

def defs (p : Program) : Defs :=
  p.modules.flatMap fun m ↦ m.types.map fun t ↦ (fqn m.name t.name, m.name, t.ty)

section Definitions

variable (ds : Defs)

/-- Of several declarations with one qualified name the map keeps the last. -/
def lookup (key : String) : Option (String × BaseType) := (ds.reverse.find? (·.1 = key)).map (·.2)

variable {ds}

theorem mem_keys_of_lookup {key : String} {d : String × BaseType} (h : lookup ds key = some d) :
    key ∈ ds.map (·.1) := by
  obtain ⟨x, hx, -⟩ := Option.map_eq_some_iff.mp h
  have hkey : x.1 = key := by simpa using List.find?_some hx
  exact hkey ▸ List.mem_map_of_mem (List.mem_reverse.mp (List.mem_of_find?_eq_some hx))

variable (ds)

/-- What a name stands for, by its definition. -/
def resolveKey (stack : List String) (key : String) : Option BaseType :=
  if _ : key ∈ stack then none
  else
    match _ : lookup ds key with
    | none => none
    | some (owner, ty) => ty.mapNames fun name ↦ resolveKey (key :: stack) (qualify owner name)
termination_by Walks.unseen (ds.map (·.1)) stack
decreasing_by exact Walks.unseen_lt (mem_keys_of_lookup ‹_›) ‹_›

def resolveDef (owner : String) (ty : BaseType) (stack : List String) : Option BaseType :=
  ty.mapNames fun name ↦ resolveKey ds stack (qualify owner name)

/-- Following the definition of a name leads back to the stack. -/
def cycleKey (stack : List String) (key : String) : Bool :=
  if _ : key ∈ stack then true
  else
    match _ : lookup ds key with
    | none => false
    | some (owner, ty) => ty.anyName fun name ↦ cycleKey (key :: stack) (qualify owner name)
termination_by Walks.unseen (ds.map (·.1)) stack
decreasing_by exact Walks.unseen_lt (mem_keys_of_lookup ‹_›) ‹_›

def hasCycle (owner : String) (ty : BaseType) (stack : List String) : Bool :=
  ty.anyName fun name ↦ cycleKey ds stack (qualify owner name)

end Definitions

/-- Resolved named types by their qualified names. -/
structure TypeEnv where
  resolved : List (String × BaseType)

namespace TypeEnv

def fromProgram (p : Program) : TypeEnv where
  resolved := (defs p).filterMap fun d ↦ do
    let (owner, ty) ← lookup (defs p) d.1
    let ty ← resolveDef (defs p) owner ty []
    some (d.1, ty)

variable (env : TypeEnv)

def get (key : String) : Option BaseType := (env.resolved.find? (·.1 = key)).map (·.2)

def resolve (fromModule : String) (ty : BaseType) : Option BaseType :=
  ty.mapNames fun name ↦ env.get (qualify fromModule name)

end TypeEnv

section Walks

variable {look : String → Option (String × BaseType)} {ds : Defs} {stack : List String}
  {key a b : String}

/-- The definition of the one name mentions the other. -/
def Refers (look : String → Option (String × BaseType)) (a b : String) : Prop :=
  ∃ owner ty, look a = some (owner, ty) ∧ ∃ n ∈ ty.names, qualify owner n = b

/-- All names that can be reached from here are defined, and none of them leads back to
itself. -/
def Grounded (look : String → Option (String × BaseType)) (a : String) : Prop :=
  ∀ c, ReflTransGen (Refers look) a c → (look c).isSome = true ∧ ¬TransGen (Refers look) c c

/-- A walk from a name goes on from a name that its definition mentions. -/
theorem exists_walk_iff {P : List String → Prop} {owner : String} {ty : BaseType}
    (hkey : look key = some (owner, ty)) :
    (∃ w, List.IsChain (Refers look) (key :: w) ∧ P w) ↔
      P [] ∨ ∃ n ∈ ty.names, ∃ w, List.IsChain (Refers look) (qualify owner n :: w) ∧
        P (qualify owner n :: w) := by
  constructor
  · rintro ⟨w, hw, hP⟩
    cases w with
    | nil => exact .inl hP
    | cons b w =>
        obtain ⟨⟨owner', ty', hkey', n, hn, rfl⟩, hw⟩ := List.isChain_cons_cons.mp hw
        obtain ⟨rfl, rfl⟩ := Prod.mk.inj (Option.some.inj (hkey'.symm.trans hkey))
        exact .inr ⟨n, hn, w, hw, hP⟩
  · rintro (hP | ⟨n, hn, w, hw, hP⟩)
    · exact ⟨[], List.isChain_singleton key, hP⟩
    · exact ⟨_, List.isChain_cons_cons.mpr ⟨⟨owner, ty, hkey, n, hn, rfl⟩, hw⟩, hP⟩

theorem walk_eq_nil {w : List String} (hkey : look key = none)
    (hw : List.IsChain (Refers look) (key :: w)) : w = [] := by
  cases w with
  | nil => rfl
  | cons b w =>
      obtain ⟨owner, ty, hsome, -⟩ := (List.isChain_cons_cons.mp hw).1
      rw [hkey] at hsome
      cases hsome

/-- A walk that meets the stack or repeats a name. -/
def Returns (stack w : List String) : Prop := (∃ x ∈ w, x ∈ stack) ∨ ¬w.Nodup

theorem not_returns_nil : ¬Returns stack [] := by
  rintro (⟨x, hx, -⟩ | hn)
  · exact absurd hx List.not_mem_nil
  · exact hn List.nodup_nil

theorem returns_cons {w : List String} (hs : key ∉ stack) :
    Returns stack (key :: w) ↔ Returns (key :: stack) w := by
  rw [Returns, Returns, List.exists_mem_cons_iff, List.nodup_cons]
  constructor
  · rintro ((h | ⟨x, hx, hxs⟩) | h)
    · exact absurd h hs
    · exact .inl ⟨x, hx, List.mem_cons_of_mem key hxs⟩
    · by_cases hw : key ∈ w
      · exact .inl ⟨key, hw, List.mem_cons_self⟩
      · exact .inr fun hn ↦ h ⟨hw, hn⟩
  · rintro (⟨x, hx, hxs⟩ | h)
    · rcases List.mem_cons.mp hxs with rfl | hxs
      · exact .inr fun hn ↦ hn.1 hx
      · exact .inl (.inr ⟨x, hx, hxs⟩)
    · exact .inr fun hn ↦ h hn.2

/-- A walk that returns or comes to an undefined name. -/
def Fails (look : String → Option (String × BaseType)) (stack w : List String) : Prop :=
  Returns stack w ∨ ∃ x ∈ w, look x = none

theorem not_fails_nil : ¬Fails look stack [] := by
  rintro (h | ⟨x, hx, -⟩)
  · exact not_returns_nil h
  · exact absurd hx List.not_mem_nil

theorem fails_cons {w : List String} {d : String × BaseType} (hs : key ∉ stack)
    (hkey : look key = some d) :
    Fails look stack (key :: w) ↔ Fails look (key :: stack) w := by
  rw [Fails, Fails, returns_cons hs, List.exists_mem_cons_iff, hkey]
  refine or_congr_right (or_iff_right fun h ↦ ?_)
  cases h

theorem cycleKey_none (hs : key ∉ stack) (hd : lookup ds key = none) :
    cycleKey ds stack key = false := by
  rw [cycleKey, dif_neg hs]
  split
  · rfl
  · simp_all

theorem cycleKey_some {owner : String} {ty : BaseType} (hs : key ∉ stack)
    (hd : lookup ds key = some (owner, ty)) : cycleKey ds stack key =
      ty.anyName fun name ↦ cycleKey ds (key :: stack) (qualify owner name) := by
  rw [cycleKey, dif_neg hs]
  split
  · simp_all
  · simp_all

theorem resolveKey_none (hs : key ∉ stack) (hd : lookup ds key = none) :
    resolveKey ds stack key = none := by
  rw [resolveKey, dif_neg hs]
  split
  · rfl
  · simp_all

theorem resolveKey_some {owner : String} {ty : BaseType} (hs : key ∉ stack)
    (hd : lookup ds key = some (owner, ty)) : resolveKey ds stack key =
      ty.mapNames fun name ↦ resolveKey ds (key :: stack) (qualify owner name) := by
  rw [resolveKey, dif_neg hs]
  split
  · simp_all
  · simp_all

/-- The search leads back to the stack exactly if some walk does or repeats a name. -/
theorem cycleKey_iff (hlook : ∀ k ∉ stack, look k = lookup ds k) :
    cycleKey ds stack key = true ↔
      ∃ w, List.IsChain (Refers look) (key :: w) ∧ Returns stack (key :: w) := by
  induction stack, key using cycleKey.induct ds with
  | case1 stack key hs =>
      rw [cycleKey, dif_pos hs]
      exact iff_of_true rfl ⟨[], List.isChain_singleton key, .inl ⟨key, List.mem_cons_self, hs⟩⟩
  | case2 stack key hs hd =>
      rw [cycleKey_none hs hd]
      refine iff_of_false Bool.false_ne_true ?_
      rintro ⟨w, hw, hreturns⟩
      obtain rfl := walk_eq_nil ((hlook key hs).trans hd) hw
      rw [returns_cons hs] at hreturns
      rcases hreturns with ⟨x, hx, -⟩ | hn
      · exact absurd hx List.not_mem_nil
      · exact hn List.nodup_nil
  | case3 stack key hs owner ty hd ih =>
      have hkey : look key = some (owner, ty) := (hlook key hs).trans hd
      have hrest : ∀ k ∉ key :: stack, look k = lookup ds k := fun k hk ↦
        hlook k fun h ↦ hk (List.mem_cons_of_mem key h)
      rw [cycleKey_some hs hd, BaseType.anyName_eq, List.any_eq_true]
      simp only [returns_cons hs, exists_walk_iff hkey, not_returns_nil, false_or]
      exact exists_congr fun n ↦ and_congr_right fun _ ↦ ih n hrest

/-- A name is not resolved exactly if some walk from it returns or comes to an undefined
name. -/
theorem resolveKey_eq_none_iff (hlook : ∀ k ∉ stack, look k = lookup ds k) :
    resolveKey ds stack key = none ↔
      ∃ w, List.IsChain (Refers look) (key :: w) ∧ Fails look stack (key :: w) := by
  induction stack, key using resolveKey.induct ds with
  | case1 stack key hs =>
      rw [resolveKey, dif_pos hs]
      exact iff_of_true rfl
        ⟨[], List.isChain_singleton key, .inl (.inl ⟨key, List.mem_cons_self, hs⟩)⟩
  | case2 stack key hs hd =>
      rw [resolveKey_none hs hd]
      refine iff_of_true rfl ⟨[], List.isChain_singleton key, .inr ⟨key, List.mem_cons_self, ?_⟩⟩
      exact (hlook key hs).trans hd
  | case3 stack key hs owner ty hd ih =>
      have hkey : look key = some (owner, ty) := (hlook key hs).trans hd
      have hrest : ∀ k ∉ key :: stack, look k = lookup ds k := fun k hk ↦
        hlook k fun h ↦ hk (List.mem_cons_of_mem key h)
      rw [resolveKey_some hs hd, BaseType.mapNames_eq_none_iff]
      simp only [fails_cons hs hkey, exists_walk_iff hkey, not_fails_nil, false_or]
      exact exists_congr fun n ↦ and_congr_right fun _ ↦ ih n hrest

/-- What a name is resolved to mentions no names. -/
theorem names_resolveKey {u : BaseType} (h : resolveKey ds stack key = some u) : u.names = [] := by
  induction stack, key using resolveKey.induct ds generalizing u with
  | case1 stack key hs =>
      rw [resolveKey, dif_pos hs] at h
      cases h
  | case2 stack key hs hd =>
      rw [resolveKey_none hs hd] at h
      cases h
  | case3 stack key hs owner ty hd ih =>
      rw [resolveKey_some hs hd] at h
      exact BaseType.names_mapNames (fun n _ hn ↦ ih n hn) ty h

/-- The walks from a name return or come to an undefined name unless the name is grounded. -/
theorem exists_fails_iff :
    (∃ w, List.IsChain (Refers look) (key :: w) ∧ Fails look [] (key :: w)) ↔
      ¬Grounded look key := by
  have hcycle := @Walks.exists_repeat_iff _ (Refers look) key
  constructor
  · rintro ⟨w, hw, (⟨x, -, hx⟩ | hn) | ⟨x, hx, hnone⟩⟩ hg
    · exact absurd hx List.not_mem_nil
    · obtain ⟨c, hreach, hc⟩ := hcycle.mp ⟨w, hw, hn⟩
      exact (hg c hreach).2 hc
    · have hsome := (hg x (Walks.reaches_of_mem hw hx)).1
      rw [hnone] at hsome
      cases hsome
  · intro hg
    obtain ⟨c, hc⟩ := not_forall.mp hg
    obtain ⟨hreach, hc⟩ := Classical.not_imp.mp hc
    by_cases hloop : TransGen (Refers look) c c
    · obtain ⟨w, hw, hn⟩ := hcycle.mpr ⟨c, hreach, hloop⟩
      exact ⟨w, hw, .inl (.inr hn)⟩
    · obtain ⟨w, hw, hmem⟩ := Walks.exists_walk_of_reaches hreach
      refine ⟨w, hw, .inr ⟨c, hmem, ?_⟩⟩
      exact Option.not_isSome_iff_eq_none.mp fun hsome ↦ hc ⟨hsome, hloop⟩

/-- A defined name is grounded if the names of its definition are. -/
theorem grounded_iff : Grounded look key ↔
    ∃ owner ty, look key = some (owner, ty) ∧ ∀ n ∈ ty.names, Grounded look (qualify owner n) := by
  constructor
  · intro h
    obtain ⟨⟨owner, ty⟩, hkey⟩ := Option.isSome_iff_exists.mp (h key .refl).1
    refine ⟨owner, ty, hkey, fun n hn c hc ↦ h c (hc.head ⟨owner, ty, hkey, n, hn, rfl⟩)⟩
  · rintro ⟨owner, ty, hkey, hnames⟩ c hc
    have hstep : ∀ {b}, Refers look key b → Grounded look b := by
      rintro b ⟨owner', ty', hkey', n, hn, rfl⟩
      obtain ⟨rfl, rfl⟩ := Prod.mk.inj (Option.some.inj (hkey'.symm.trans hkey))
      exact hnames n hn
    rcases ReflTransGen.cases_head hc with rfl | ⟨b, hb, hbc⟩
    · refine ⟨by rw [hkey]; rfl, fun hloop ↦ ?_⟩
      obtain ⟨b, hb, hback⟩ := TransGen.head'_iff.mp hloop
      exact (hstep hb _ hback).2 hloop
    · exact hstep hb c hbc

end Walks

section Environment

variable {p : Program} {key fromModule : String} {ty u : BaseType}

theorem resolveDef_isSome_iff {ds : Defs} {owner : String} :
    (resolveDef ds owner ty []).isSome = true ↔
      ∀ n ∈ ty.names, Grounded (lookup ds) (qualify owner n) := by
  rw [resolveDef, BaseType.mapNames_isSome, List.all_eq_true]
  refine forall₂_congr fun n _ ↦ ?_
  rw [Option.isSome_iff_ne_none, Ne, resolveKey_eq_none_iff fun k _ ↦ rfl, exists_fails_iff,
    not_not]

theorem names_resolveDef {ds : Defs} {owner : String} {stack : List String}
    (h : resolveDef ds owner ty stack = some u) : u.names = [] :=
  BaseType.names_mapNames (fun _ _ hn ↦ names_resolveKey hn) ty h

/-- What the definition of a name is resolved to. -/
def resolved (p : Program) (key : String) : Option BaseType :=
  (lookup (defs p) key).bind fun d ↦ resolveDef (defs p) d.1 d.2 []

theorem mem_fromProgram {r : String × BaseType} : r ∈ (TypeEnv.fromProgram p).resolved ↔
    r.1 ∈ (defs p).map (·.1) ∧ resolved p r.1 = some r.2 := by
  have hentry : ∀ key : String, (do
      let (owner, ty) ← lookup (defs p) key
      let ty ← resolveDef (defs p) owner ty []
      some (key, ty)) = (resolved p key).map fun ty ↦ (key, ty) := by
    intro key
    rw [resolved]
    cases lookup (defs p) key with
    | none => rfl
    | some d => cases h : resolveDef (defs p) d.1 d.2 [] <;> simp [h]
  simp only [TypeEnv.fromProgram, hentry, List.mem_filterMap, List.mem_map, Option.map_eq_some_iff]
  constructor
  · rintro ⟨d, hd, ty, hty, rfl⟩
    exact ⟨⟨d, hd, rfl⟩, hty⟩
  · rintro ⟨⟨d, hd, hkey⟩, hty⟩
    exact ⟨d, hd, r.2, hkey ▸ hty, by rw [hkey]⟩

/-- The environment holds what the definitions of names are resolved to. -/
theorem get_fromProgram : (TypeEnv.fromProgram p).get key = resolved p key := by
  rw [TypeEnv.get]
  cases hfind : (TypeEnv.fromProgram p).resolved.find? (·.1 = key) with
  | none =>
      refine (Option.eq_none_iff_forall_ne_some.mpr fun ty hty ↦ ?_).symm
      obtain ⟨d, hd, -⟩ := Option.bind_eq_some_iff.mp hty
      have hmem : (key, ty) ∈ (TypeEnv.fromProgram p).resolved :=
        mem_fromProgram.mpr ⟨mem_keys_of_lookup hd, hty⟩
      exact List.find?_eq_none.mp hfind _ hmem (decide_eq_true rfl)
  | some r =>
      have hkey : r.1 = key := by simpa using List.find?_some hfind
      rw [Option.map_some, ← hkey]
      exact (mem_fromProgram.mp (List.mem_of_find?_eq_some hfind)).2.symm

/-- A type is resolved if all that it mentions is defined and leads to no cycle. -/
theorem resolve_isSome_iff : ((TypeEnv.fromProgram p).resolve fromModule ty).isSome = true ↔
    ∀ n ∈ ty.names, Grounded (lookup (defs p)) (qualify fromModule n) := by
  rw [TypeEnv.resolve, BaseType.mapNames_isSome, List.all_eq_true]
  refine forall₂_congr fun n _ ↦ ?_
  rw [get_fromProgram, grounded_iff, resolved]
  cases lookup (defs p) (qualify fromModule n) with
  | none => simp
  | some d =>
      rw [Option.bind_some, resolveDef_isSome_iff]
      constructor
      · exact fun h ↦ ⟨d.1, d.2, rfl, h⟩
      · rintro ⟨owner, ty, hd, h⟩
        rwa [Option.some.inj hd]

theorem names_resolve (h : (TypeEnv.fromProgram p).resolve fromModule ty = some u) :
    u.names = [] := by
  refine BaseType.names_mapNames (fun n v hn ↦ ?_) ty h
  rw [get_fromProgram] at hn
  obtain ⟨d, -, hd⟩ := Option.bind_eq_some_iff.mp hn
  exact names_resolveDef hd

end Environment

end Typedef

end ConcIR
