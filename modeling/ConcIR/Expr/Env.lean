import ConcIR.Expr.Syntax
import ConcIR.Typedef.Resolve

/-!
# The names of a function body

A short name stands for a local, a parameter, the return slot, a resource of the module or a
required resource, in this order. The discard name is there before all others, so a return
slot of that name does not take its place.
-/

namespace ConcIR

namespace Slot

variable (s : Slot)

def isWritableValue : Bool :=
  match s.kind with
  | .local | .param | .var | .atomic => true
  | .ret | .discard | .syncResource => false

def isDiscard : Bool := s.kind = .discard

def isAssignLocalTarget : Bool :=
  match s.kind with
  | .local | .param => true
  | _ => false

/-- An activation slot, a Var or an Atomic. -/
def isValueSlot : Bool :=
  match s.kind with
  | .local | .param | .ret | .var | .atomic => true
  | .discard | .syncResource => false

end Slot

namespace NameEnv

def empty : NameEnv := ⟨[], List.nodup_nil⟩

/-- `HashMap::insert`: a later entry takes the place of an earlier one. -/
def insert (env : NameEnv) (name : String) (slot : Slot) : NameEnv where
  slots := (name, slot) :: env.slots.filter (·.1 ≠ name)
  nodup := by
    rw [List.map_cons, List.nodup_cons]
    constructor
    · intro hmem
      obtain ⟨p, hp, hname⟩ := List.mem_map.mp hmem
      have hne := (List.mem_filter.mp hp).2
      simp [hname] at hne
    · exact (env.nodup.sublist (List.filter_sublist.map _))

/-- `entry(..).or_insert(..)`: an earlier entry stays. -/
def orInsert (env : NameEnv) (name : String) (slot : Slot) : NameEnv :=
  if (env.get name).isSome then env else env.insert name slot

def ty (env : NameEnv) (name : String) : Option BaseType := (env.get name).bind (·.ty)

end NameEnv

section Build

open Ast Typedef

def resourceSlot (r : Resource) : Slot :=
  if r.kind = "var" ∧ r.resType = "Var" then ⟨.var, r.base, true⟩
  else if r.kind = "var" ∧ r.resType = "Atomic" then ⟨.atomic, r.base, true⟩
  else ⟨.syncResource, r.base, true⟩

/-- A type that does not resolve stays as it is. -/
def Typedef.TypeEnv.resolveOr (tenv : TypeEnv) (owner : String) (ty : BaseType) : BaseType :=
  (tenv.resolve owner ty).getD ty

def resolveSlot (tenv : TypeEnv) (owner : String) (slot : Slot) : Slot :=
  { slot with ty := slot.ty.map (tenv.resolveOr owner) }

namespace NameEnv

section Steps

variable (tenv : TypeEnv) (m : Module)

def addParam (env : NameEnv) (p : ParamDecl) : NameEnv :=
  env.insert p.name ⟨.param, some (tenv.resolveOr m.name p.paramType), p.modeled⟩

def addLocal (env : NameEnv) (l : LocalDecl) : NameEnv :=
  env.insert l.name ⟨.local, some (tenv.resolveOr m.name l.localType), l.modeled⟩

def addReturn (env : NameEnv) (ret : ParamDecl) : NameEnv :=
  env.orInsert ret.name ⟨.ret, some (tenv.resolveOr m.name ret.paramType), ret.modeled⟩

/-- The resources of the modules with the name of this one, short and qualified. -/
def addResource (owner : Module) (env : NameEnv) (r : Resource) : NameEnv :=
  if owner.name = m.name then
    let slot := resolveSlot tenv owner.name (resourceSlot r)
    (env.orInsert r.name slot).orInsert (fqn owner.name r.name) slot
  else env

def addRequired (p : Program) (env : NameEnv) (req : String) : NameEnv :=
  match p.lookupResource m.name req with
  | some (owner, r) => env.orInsert req (resolveSlot tenv owner.name (resourceSlot r))
  | none => env

end Steps

/-- The names that the body of `f` in the module `m` sees. -/
def build (p : Program) (m : Module) (f : Function) : NameEnv :=
  let tenv := TypeEnv.fromProgram p
  let env := empty.insert "_" ⟨.discard, none, false⟩
  let env := f.params.foldl (addParam tenv m) env
  let env := f.locals.foldl (addLocal tenv m) env
  let env := f.returns.toList.foldl (addReturn tenv m) env
  let env := p.modules.foldl (fun env owner ↦ owner.resources.foldl (addResource tenv m owner) env) env
  m.requires.resources.foldl (addRequired tenv m p) env

end NameEnv

end Build

namespace NameEnv

section Get

variable (env : NameEnv) (name n : String) (slot : Slot)

theorem lookup_filter_ne {l : List (String × Slot)} (h : n ≠ name) :
    (l.filter (·.1 ≠ name)).lookup n = l.lookup n := by
  induction l with
  | nil => rfl
  | cons p l ih =>
      obtain ⟨k, s⟩ := p
      by_cases hk : k = name
      · have hne : (n == k) = false := by simpa [hk] using h
        rw [List.filter_cons_of_neg (by simp [hk]), ih, List.lookup_cons, hne]
      · rw [List.filter_cons_of_pos (by simp [hk]), List.lookup_cons, List.lookup_cons, ih]

theorem get_insert : (env.insert name slot).get n = if n = name then some slot else env.get n := by
  rw [get, insert, List.lookup_cons]
  by_cases h : n = name
  · simp [h]
  · have hne : (n == name) = false := by simpa using h
    rw [hne, if_neg h, lookup_filter_ne name n h]
    rfl

theorem get_orInsert :
    (env.orInsert name slot).get n = if n = name then (env.get n).or (some slot) else env.get n := by
  rw [orInsert]
  split_ifs with hsome hn hn
  · subst hn
    obtain ⟨s, hs⟩ := Option.isSome_iff_exists.mp hsome
    rw [hs]
    rfl
  · rfl
  · subst hn
    rw [get_insert, if_pos rfl, Option.not_isSome_iff_eq_none.mp hsome]
    rfl
  · rw [get_insert, if_neg hn]

end Get

end NameEnv

end ConcIR
