import ConcIR.Sem.Domain
import Mathlib

/-!
# Initial values inhabit their types

Default values and accepted literals are in the domains of their types, and a struct among
them, at whatever depth, has each declared field once and no other.
-/

namespace ConcIR

section FieldsOnce

mutual

/-- Every struct inside the value has each field of its type once. -/
def FieldsOnce : BaseType → Value → Prop
  | .struct fields, .struct m =>
      (m.map (·.1)).Nodup ∧ (∀ k, k ∈ m.map (·.1) ↔ k ∈ fields.map (·.1)) ∧ FieldsOnceIn fields m
  | .array elem _, .array items => ∀ v ∈ items, FieldsOnce elem v
  | _, _ => True

def FieldsOnceIn : List (String × BaseType) → List (String × Value) → Prop
  | [], _ => True
  | (k, t) :: rest, m => (∀ v, (k, v) ∈ m → FieldsOnce t v) ∧ FieldsOnceIn rest m

end

variable {fields : List (String × BaseType)} {m : List (String × Value)}

theorem fieldsOnceIn_iff : FieldsOnceIn fields m ↔
    ∀ p ∈ fields, ∀ v, (p.1, v) ∈ m → FieldsOnce p.2 v := by
  induction fields with
  | nil => simp [FieldsOnceIn]
  | cons p rest ih => rw [FieldsOnceIn, ih, List.forall_mem_cons]

theorem Filled.mem {R : BaseType → Value → Prop} (h : Filled R fields m)
    (hnd : (fields.map (·.1)).Nodup) {p : String × BaseType} (hp : p ∈ fields) {v : Value}
    (hv : (p.1, v) ∈ m) : R p.2 v := by
  induction h with
  | nil => cases hp
  | @cons k t w fields m hw h ih =>
      obtain ⟨hk, hnd⟩ := List.nodup_cons.mp hnd
      rcases List.mem_cons.mp hp with rfl | hp
      · rcases List.mem_cons.mp hv with heq | hv
        · obtain rfl := (Prod.mk.inj heq).2
          exact hw
        · have hmem : k ∈ m.map (·.1) := List.mem_map.mpr ⟨_, hv, rfl⟩
          rw [h.names] at hmem
          exact absurd hmem hk
      · rcases List.mem_cons.mp hv with heq | hv
        · have hmem : p.1 ∈ fields.map (·.1) := List.mem_map.mpr ⟨p, hp, rfl⟩
          rw [(Prod.mk.inj heq).1] at hmem
          exact absurd hmem hk
        · exact ih hnd hp hv

theorem Filled.fieldsOnce (h : Filled FieldsOnce fields m) (hnd : (fields.map (·.1)).Nodup) :
    FieldsOnce (.struct fields) (.struct m) := by
  refine ⟨?_, fun k ↦ ?_, fieldsOnceIn_iff.mpr fun p hp v hv ↦ h.mem hnd hp hv⟩
  · rw [h.names]
    exact hnd
  · rw [h.names]

mutual

theorem fieldsOnce_defaultValue : (ty : BaseType) → ty.wellFormed = true →
    FieldsOnce ty (defaultValue ty)
  | .primitive p, _ => trivial
  | .enum variants, _ => trivial
  | .struct fields, h => by
      rw [BaseType.wellFormed, Bool.and_eq_true, decide_eq_true_eq] at h
      exact (filled_fieldsOnce_default fields h.2).fieldsOnce h.1
  | .array elem len, h => by
      intro v hv
      rw [(List.mem_replicate.mp hv).2]
      exact fieldsOnce_defaultValue elem h
  | .boundedInt lo hi, _ => trivial

theorem filled_fieldsOnce_default : (fields : List (String × BaseType)) →
    fieldsWellFormed fields = true → Filled FieldsOnce fields (defaultFields fields)
  | [], _ => .nil
  | (_, t) :: rest, h => by
      obtain ⟨ht, hrest⟩ := Bool.and_eq_true_iff.mp h
      exact .cons (fieldsOnce_defaultValue t ht) (filled_fieldsOnce_default rest hrest)

end

mutual

theorem fieldsOnce_fromJson : (ty : BaseType) → ty.wellFormed = true → ∀ (j : Json) (v : Value),
    fromJson ty j = .ok v → FieldsOnce ty v
  | .primitive p, _, j, v, _ => trivial
  | .boundedInt lo hi, _, j, v, _ => trivial
  | .enum variants, _, j, v, _ => trivial
  | .struct fields, h, j, v, hj => by
      rw [BaseType.wellFormed, Bool.and_eq_true, decide_eq_true_eq] at h
      rw [fromJson] at hj
      obtain ⟨obj, -, hj⟩ := except_bind_ok hj
      obtain ⟨m, hm, hj⟩ := except_bind_ok hj
      obtain rfl := Except.ok.inj hj
      exact (filled_fieldsOnce_fromJson fields h.2 obj m hm).fieldsOnce h.1
  | .array elem len, h, j, v, hj => by
      rw [fromJson] at hj
      obtain ⟨items, -, hj⟩ := except_bind_ok hj
      split_ifs at hj with hlen
      obtain ⟨vs, hvs, hj⟩ := except_bind_ok hj
      obtain rfl := Except.ok.inj hj
      intro w hw
      obtain ⟨i, -, hi⟩ := (mapM_ok items hvs).2 w hw
      exact fieldsOnce_fromJson elem h i w hi

theorem filled_fieldsOnce_fromJson : (fields : List (String × BaseType)) →
    fieldsWellFormed fields = true → ∀ (obj : List (String × Json)) (m : List (String × Value)),
      fromJsonFields obj fields = .ok m → Filled FieldsOnce fields m
  | [], _, _, m, hm => by
      obtain rfl := Except.ok.inj hm
      exact .nil
  | (k, t) :: rest, h, obj, m, hm => by
      obtain ⟨ht, hrest⟩ := Bool.and_eq_true_iff.mp h
      rw [fromJsonFields] at hm
      cases hk : obj.lookup k with
      | none =>
          rw [hk] at hm
          cases hm
      | some j =>
          rw [hk] at hm
          obtain ⟨v, hv, hm⟩ := except_bind_ok hm
          obtain ⟨vs, hvs, hm⟩ := except_bind_ok hm
          obtain rfl := Except.ok.inj hm
          exact .cons (fieldsOnce_fromJson t ht j v hv)
            (filled_fieldsOnce_fromJson rest hrest obj vs hvs)

end

end FieldsOnce

section Initial

/-- Default values and accepted literals are values of their types. -/
theorem initial_within (ty : BaseType) (h : ty.wellFormed = true) :
    withinType ty (defaultValue ty) = true ∧ FieldsOnce ty (defaultValue ty) ∧
      ∀ (j : Json) (v : Value), fromJson ty j = .ok v →
        withinType ty v = true ∧ FieldsOnce ty v :=
  ⟨withinType_defaultValue ty h, fieldsOnce_defaultValue ty h, fun j v hj ↦
    ⟨withinType_fromJson ty h j v hj, fieldsOnce_fromJson ty h j v hj⟩⟩

/-- A point of two numbers between 1 and 9 with a colour. -/
def pointType : BaseType :=
  .struct [("at", .array (.boundedInt 1 9) 2), ("ink", .enum ["Red", "Blue"])]

theorem initial_within_point :
    withinType pointType (defaultValue pointType) = true ∧
      FieldsOnce pointType (defaultValue pointType) ∧
        ∀ (j : Json) (v : Value), fromJson pointType j = .ok v →
          withinType pointType v = true ∧ FieldsOnce pointType v :=
  initial_within pointType (by decide)

end Initial

end ConcIR
