import ConcIR.Sem.Value

/-!
# Initial values

The value a JSON literal denotes at a declared type, and why default values and
literals are inside the domains of their types. A JSON number is given by its text
and by what it reads as.
-/

namespace ConcIR

structure JsonNumber where
  text : String
  asI64 : Option ℤ
  asF64 : UInt64

inductive Json
  | null
  | bool (b : Bool)
  | number (n : JsonNumber)
  | string (s : String)
  | array (items : List Json)
  | object (fields : List (String × Json))

namespace Json

def asBool : Json → Option Bool
  | .bool b => some b
  | _ => none

def asI64 : Json → Option ℤ
  | .number n => n.asI64
  | _ => none

def asF64 : Json → Option UInt64
  | .number n => some n.asF64
  | _ => none

def asStr : Json → Option String
  | .string s => some s
  | _ => none

def asArray : Json → Option (List Json)
  | .array items => some items
  | _ => none

def asObject : Json → Option (List (String × Json))
  | .object fields => some fields
  | _ => none

mutual

/-- Compact JSON text. -/
def render : Json → String
  | .null => "null"
  | .bool b => if b then "true" else "false"
  | .number n => n.text
  | .string s => jsonString s
  | .array items => "[" ++ joinWith "," (renderItems items) ++ "]"
  | .object fields => "\x7b" ++ joinWith "," (renderFields fields) ++ "\x7d"

def renderItems : List Json → List String
  | [] => []
  | j :: rest => render j :: renderItems rest

def renderFields : List (String × Json) → List String
  | [] => []
  | (k, j) :: rest => (jsonString k ++ ":" ++ render j) :: renderFields rest

end

end Json

/-- What a literal reads as, or the complaint about its shape. -/
def expected {α : Type} (what : String) (j : Json) (o : Option α) : Except String α :=
  match o with
  | some a => .ok a
  | none => .error ("expected " ++ what ++ ", found " ++ j.render)

mutual

/-- Convert a JSON literal into a typed value. -/
def fromJson (ty : BaseType) (j : Json) : Except String Value :=
  match ty with
  | .primitive p =>
      if p = "Bool" then (expected "Bool for init" j j.asBool).map .bool
      else if p = "Int" then (expected "Int for init" j j.asI64).map .int
      else if p = "Float" then (expected "Float for init" j j.asF64).map .float
      else if p = "String" then (expected "String for init" j j.asStr).map .str
      else .error ("unsupported init type '" ++ p ++ "'")
  | .boundedInt lo hi => do
      let i ← expected "Int for init" j j.asI64
      if i < lo ∨ hi < i then .error s!"init {i} outside bounded Int [{lo}, {hi}]"
      else .ok (.int i)
  | .enum variants => do
      let s ← expected "enum variant string" j j.asStr
      if variants.contains s then .ok (.enum s)
      else .error ("'" ++ s ++ "' is not a variant of the enum type")
  | .struct fields => do
      let obj ← expected "object for struct init" j j.asObject
      let out ← fromJsonFields obj fields
      .ok (.struct out)
  | .array elem len => do
      let items ← expected "array for init" j j.asArray
      if (items.length : ℤ) ≠ len then
        .error s!"array init has {items.length} elements, expected {len}"
      else
        let out ← items.mapM (fromJson elem)
        .ok (.array out)

def fromJsonFields (obj : List (String × Json)) :
    List (String × BaseType) → Except String (List (String × Value))
  | [] => .ok []
  | (k, t) :: rest =>
      match obj.lookup k with
      | none => .error ("struct init missing field '" ++ k ++ "'")
      | some j => do
          let v ← fromJson t j
          let vs ← fromJsonFields obj rest
          .ok ((k, v) :: vs)

end

mutual

/-- Bounds are in order, enums have variants and fields have names of their own. -/
def BaseType.wellFormed : BaseType → Bool
  | .primitive _ => true
  | .enum variants => variants ≠ []
  | .struct fields => decide (fields.map (·.1)).Nodup && fieldsWellFormed fields
  | .array elem _ => elem.wellFormed
  | .boundedInt lo hi => lo ≤ hi

def fieldsWellFormed : List (String × BaseType) → Bool
  | [] => true
  | (_, t) :: rest => t.wellFormed && fieldsWellFormed rest

end

section Fields

theorem withinFields_iff (fields : List (String × BaseType)) (m : List (String × Value)) :
    withinFields fields m = true ↔
      ∀ p ∈ fields, ∃ v, m.lookup p.1 = some v ∧ withinType p.2 v = true := by
  induction fields with
  | nil => simp [withinFields]
  | cons p rest ih =>
      rw [withinFields, Bool.and_eq_true, ih, List.forall_mem_cons]
      cases m.lookup p.1 <;> simp

theorem mem_fieldsWellFormed {fields : List (String × BaseType)}
    (h : fieldsWellFormed fields = true) {p : String × BaseType} (hp : p ∈ fields) :
    p.2.wellFormed = true := by
  induction fields with
  | nil => cases hp
  | cons q rest ih =>
      obtain ⟨hq, hrest⟩ := Bool.and_eq_true_iff.mp h
      rcases List.mem_cons.mp hp with rfl | hp
      · exact hq
      · exact ih hrest hp

/-- A list of values for the declared fields, in their order. -/
inductive Filled (R : BaseType → Value → Prop) :
    List (String × BaseType) → List (String × Value) → Prop
  | nil : Filled R [] []
  | cons {k t v fields m} (hv : R t v) (h : Filled R fields m) :
      Filled R ((k, t) :: fields) ((k, v) :: m)

variable {R : BaseType → Value → Prop} {fields : List (String × BaseType)}
  {m : List (String × Value)}

theorem Filled.names (h : Filled R fields m) : m.map (·.1) = fields.map (·.1) := by
  induction h with
  | nil => rfl
  | cons hv h ih => rw [List.map_cons, List.map_cons, ih]

theorem Filled.lookup (h : Filled R fields m) (hnd : (fields.map (·.1)).Nodup)
    {p : String × BaseType} (hp : p ∈ fields) : ∃ v, m.lookup p.1 = some v ∧ R p.2 v := by
  induction h with
  | nil => cases hp
  | @cons k t v fields m hv h ih =>
      obtain ⟨hk, hnd⟩ := List.nodup_cons.mp hnd
      rcases List.mem_cons.mp hp with rfl | hp
      · exact ⟨v, List.lookup_cons_self, hv⟩
      · have hne : p.1 ≠ k := fun he ↦ hk (List.mem_map.mpr ⟨p, hp, he⟩)
        rw [List.lookup_cons, beq_eq_false_iff_ne.mpr hne]
        exact ih hnd hp

theorem Filled.within (h : Filled (fun t v ↦ withinType t v = true) fields m)
    (hnd : (fields.map (·.1)).Nodup) : withinType (.struct fields) (.struct m) = true := by
  have hlen := congrArg List.length h.names
  rw [List.length_map, List.length_map] at hlen
  rw [withinType, hlen, decide_eq_true rfl, Bool.true_and, withinFields_iff]
  exact fun p ↦ h.lookup hnd

end Fields

section Default

mutual

/-- The default value of a well-formed type is in its domain. -/
theorem withinType_defaultValue : (ty : BaseType) → ty.wellFormed = true →
    withinType ty (defaultValue ty) = true
  | .primitive p, _ => by
      simp only [withinType, defaultValue]
      split_ifs <;> rfl
  | .enum variants, h => by
      obtain ⟨v, rest, rfl⟩ := List.exists_cons_of_ne_nil (of_decide_eq_true h)
      simp [withinType, defaultValue]
  | .struct fields, h => by
      rw [BaseType.wellFormed, Bool.and_eq_true, decide_eq_true_eq] at h
      exact (filled_defaultFields fields h.2).within h.1
  | .array elem len, h => by
      simp only [withinType, defaultValue, List.length_replicate, decide_true, Bool.true_and,
        List.all_eq_true]
      intro v hv
      rw [(List.mem_replicate.mp hv).2]
      exact withinType_defaultValue elem h
  | .boundedInt lo hi, h => by
      have hle : lo ≤ hi := of_decide_eq_true h
      simp only [withinType, defaultValue, decide_eq_true_eq]
      omega

theorem filled_defaultFields : (fields : List (String × BaseType)) →
    fieldsWellFormed fields = true →
      Filled (fun t v ↦ withinType t v = true) fields (defaultFields fields)
  | [], _ => .nil
  | (_, t) :: rest, h => by
      obtain ⟨ht, hrest⟩ := Bool.and_eq_true_iff.mp h
      exact .cons (withinType_defaultValue t ht) (filled_defaultFields rest hrest)

end

end Default

section Literals

theorem except_map_ok {α β : Type} {f : α → β} {r : Except String α} {b : β}
    (h : r.map f = .ok b) : ∃ a, r = .ok a ∧ f a = b := by
  cases r with
  | error e => cases h
  | ok a => exact ⟨a, rfl, Except.ok.inj h⟩

theorem except_bind_ok {α β : Type} {f : α → Except String β} {r : Except String α} {b : β}
    (h : r >>= f = .ok b) : ∃ a, r = .ok a ∧ f a = .ok b := by
  cases r with
  | error e => cases h
  | ok a => exact ⟨a, rfl, h⟩

theorem mapM_ok {α β : Type} {f : α → Except String β} (l : List α) {out : List β}
    (h : l.mapM f = .ok out) : out.length = l.length ∧ ∀ b ∈ out, ∃ a ∈ l, f a = .ok b := by
  induction l generalizing out with
  | nil =>
      obtain rfl := Except.ok.inj h
      exact ⟨rfl, by simp⟩
  | cons a l ih =>
      rw [List.mapM_cons] at h
      obtain ⟨b, hb, h⟩ := except_bind_ok h
      obtain ⟨bs, hbs, h⟩ := except_bind_ok h
      obtain rfl := Except.ok.inj h
      obtain ⟨hlen, hmem⟩ := ih hbs
      refine ⟨by simp [hlen], ?_⟩
      intro c hc
      rcases List.mem_cons.mp hc with rfl | hc
      · exact ⟨a, List.mem_cons_self, hb⟩
      · obtain ⟨d, hd, hfd⟩ := hmem c hc
        exact ⟨d, List.mem_cons_of_mem a hd, hfd⟩

mutual

/-- A literal that is accepted at a well-formed type is in its domain. -/
theorem withinType_fromJson : (ty : BaseType) → ty.wellFormed = true → ∀ (j : Json) (v : Value),
    fromJson ty j = .ok v → withinType ty v = true
  | .primitive p, _, j, v, hj => by
      rw [fromJson] at hj
      split_ifs at hj with hb hi hf hs
      · obtain ⟨b, -, rfl⟩ := except_map_ok hj
        rw [hb]
        rfl
      · obtain ⟨i, -, rfl⟩ := except_map_ok hj
        rw [hi]
        rfl
      · obtain ⟨bits, -, rfl⟩ := except_map_ok hj
        rw [hf]
        rfl
      · obtain ⟨s, -, rfl⟩ := except_map_ok hj
        rw [hs]
        rfl
  | .boundedInt lo hi, _, j, v, hj => by
      rw [fromJson] at hj
      obtain ⟨i, -, hj⟩ := except_bind_ok hj
      split_ifs at hj with hout
      obtain rfl := Except.ok.inj hj
      simp only [withinType, decide_eq_true_eq]
      omega
  | .enum variants, _, j, v, hj => by
      rw [fromJson] at hj
      obtain ⟨s, -, hj⟩ := except_bind_ok hj
      split_ifs at hj with hmem
      obtain rfl := Except.ok.inj hj
      exact hmem
  | .struct fields, h, j, v, hj => by
      rw [BaseType.wellFormed, Bool.and_eq_true, decide_eq_true_eq] at h
      rw [fromJson] at hj
      obtain ⟨obj, -, hj⟩ := except_bind_ok hj
      obtain ⟨m, hm, hj⟩ := except_bind_ok hj
      obtain rfl := Except.ok.inj hj
      exact (filled_fromJsonFields fields h.2 obj m hm).within h.1
  | .array elem len, h, j, v, hj => by
      rw [fromJson] at hj
      obtain ⟨items, -, hj⟩ := except_bind_ok hj
      split_ifs at hj with hlen
      obtain ⟨vs, hvs, hj⟩ := except_bind_ok hj
      obtain rfl := Except.ok.inj hj
      obtain ⟨hlen', hmem⟩ := mapM_ok items hvs
      rw [withinType, Bool.and_eq_true, decide_eq_true_eq, List.all_eq_true]
      refine ⟨by omega, ?_⟩
      intro w hw
      obtain ⟨i, -, hi⟩ := hmem w hw
      exact withinType_fromJson elem h i w hi

theorem filled_fromJsonFields : (fields : List (String × BaseType)) →
    fieldsWellFormed fields = true → ∀ (obj : List (String × Json)) (m : List (String × Value)),
      fromJsonFields obj fields = .ok m → Filled (fun t v ↦ withinType t v = true) fields m
  | [], _, _, m, hm => by
      obtain rfl := Except.ok.inj hm
      exact .nil
  | (k, t) :: rest, h, obj, m, hm => by
      obtain ⟨ht, hrest⟩ := Bool.and_eq_true_iff.mp h
      rw [fromJsonFields] at hm
      cases hk : obj.lookup k with
      | none =>
          rw [hk] at hm
          cases hm
      | some j =>
          rw [hk] at hm
          obtain ⟨v, hv, hm⟩ := except_bind_ok hm
          obtain ⟨vs, hvs, hm⟩ := except_bind_ok hm
          obtain rfl := Except.ok.inj hm
          exact .cons (withinType_fromJson t ht j v hv)
            (filled_fromJsonFields rest hrest obj vs hvs)

end

end Literals

end ConcIR
