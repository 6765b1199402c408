import ConcIR.Expr.Parser
import ConcIR.Expr.Typing
import ConcIR.Sem.Domain
import Mathlib

/-!
# Types as JSON

A base type is a string or an object with one key. Struct types are maps, whose fields are
kept in the order of their names, on both sides.
-/

namespace ConcIR

/-- A complaint of the type's own reader, or of the library's. -/
inductive DeError
  | custom (message : String)
  | serde
deriving DecidableEq

namespace BaseType

section Serialize

def intNumber (i : ℤ) : JsonNumber where
  text := toString i
  asI64 := some i
  asF64 :=
    if i < 0 then Expr.nearestF64 i.natAbs 1 ||| 0x8000000000000000
    else Expr.nearestF64 i.natAbs 1

mutual

def toJson : BaseType → Json
  | .primitive s => .string s
  | .enum variants => .object [("Enum", .array (variants.map .string))]
  | .struct fields => .object [("Struct", .object (fieldsToJson fields))]
  | .array elem len =>
      .object [("Array", .object [("elem", toJson elem), ("len", .number (intNumber len))])]
  | .boundedInt lo hi =>
      .object [("Int", .array [.number (intNumber lo), .number (intNumber hi)])]

def fieldsToJson : List (String × BaseType) → List (String × Json)
  | [] => []
  | (k, t) :: rest => (k, toJson t) :: fieldsToJson rest

end

end Serialize

section Deserialize

def stringOfJson : Json → Except DeError String
  | .string s => .ok s
  | _ => .error .serde

def i64OfJson : Json → Except DeError ℤ
  | .number n =>
      match n.asI64 with
      | some i => .ok i
      | none => .error .serde
  | _ => .error .serde

/-- The variants of an enum. -/
def enumOfJson : Json → Except DeError BaseType
  | .array items => do
      let variants ← items.mapM stringOfJson
      .ok (.enum variants)
  | _ => .error .serde

/-- The bounds of an integer. -/
def boundsOfJson : Json → Except DeError BaseType
  | .array items => do
      let bounds ← items.mapM i64OfJson
      match bounds with
      | [lo, hi] =>
          if hi < lo then .error (.custom "bounded Int must be [lo, hi] with lo <= hi")
          else .ok (.boundedInt lo hi)
      | _ => .error (.custom "bounded Int must be [lo, hi] with lo <= hi")
  | _ => .error .serde

mutual

def ofJson : Json → Except DeError BaseType
  | .string s => .ok (.primitive s)
  | .object [(key, val)] =>
      if key = "Enum" then enumOfJson val
      else if key = "Struct" then
        match val with
        | .object fields => do
            let out ← fieldsOfJson [] fields
            .ok (.struct out)
        | _ => .error .serde
      else if key = "Array" then
        match val with
        | .object fields => arrayOfFields none none fields
        | .array [elem, len] => do
            let elem ← ofJson elem
            let len ← i64OfJson len
            .ok (.array elem len)
        | _ => .error .serde
      else if key = "Int" then boundsOfJson val
      else .error (.custom ("unknown complex base type key: \"" ++ key ++ "\""))
  | .object _ => .error (.custom "complex base type must have exactly one key")
  | _ => .error (.custom "base type must be a string or object")

/-- The fields of a struct, put into a map one by one. -/
def fieldsOfJson (out : List (String × BaseType)) :
    List (String × Json) → Except DeError (List (String × BaseType))
  | [] => .ok out
  | (k, j) :: rest => do
      let t ← ofJson j
      fieldsOfJson (Expr.insertType k t out) rest

/-- The element type and the length of an array, in any order and no other field. -/
def arrayOfFields (elem : Option BaseType) (len : Option ℤ) :
    List (String × Json) → Except DeError BaseType
  | [] =>
      match elem, len with
      | some elem, some len => .ok (.array elem len)
      | _, _ => .error .serde
  | (k, j) :: rest =>
      if k = "elem" then
        if elem.isSome then .error .serde
        else do
          let t ← ofJson j
          arrayOfFields (some t) len rest
      else if k = "len" then
        if len.isSome then .error .serde
        else do
          let i ← i64OfJson j
          arrayOfFields elem (some i) rest
      else .error .serde

end

end Deserialize

section Invariants

mutual

/-- Lower bounds are not above upper bounds. -/
def Bounded : BaseType → Prop
  | .primitive _ => True
  | .enum _ => True
  | .struct fields => FieldsBounded fields
  | .array elem _ => Bounded elem
  | .boundedInt lo hi => lo ≤ hi

def FieldsBounded : List (String × BaseType) → Prop
  | [] => True
  | (_, t) :: rest => Bounded t ∧ FieldsBounded rest

end

mutual

/-- The fields of structs are maps: each name once, in order. -/
def Mapped : BaseType → Prop
  | .primitive _ => True
  | .enum _ => True
  | .struct fields => (fields.map (·.1)).Pairwise (· < ·) ∧ FieldsMapped fields
  | .array elem _ => Mapped elem
  | .boundedInt _ _ => True

def FieldsMapped : List (String × BaseType) → Prop
  | [] => True
  | (_, t) :: rest => Mapped t ∧ FieldsMapped rest

end

end Invariants

section Maps

variable {k : String} {t : BaseType} {m : List (String × BaseType)}

theorem insertType_last (h : ∀ p ∈ m, p.1 < k) : Expr.insertType k t m = m ++ [(k, t)] := by
  induction m with
  | nil => rfl
  | cons p rest ih =>
      obtain ⟨l, u⟩ := p
      have hl : l < k := h _ List.mem_cons_self
      rw [Expr.insertType, if_neg (lt_asymm hl), if_neg hl.ne',
        ih fun q hq ↦ h q (List.mem_cons_of_mem _ hq), List.cons_append]

theorem mem_insertType {p : String × BaseType} (h : p ∈ Expr.insertType k t m) :
    p = (k, t) ∨ p ∈ m := by
  induction m with
  | nil => exact Or.inl (List.mem_singleton.mp h)
  | cons q rest ih =>
      obtain ⟨l, u⟩ := q
      rw [Expr.insertType] at h
      split_ifs at h with hlt heq
      · exact List.mem_cons.mp h
      · exact (List.mem_cons.mp h).imp_right (List.mem_cons_of_mem _)
      · rcases List.mem_cons.mp h with h | h
        · exact Or.inr (h ▸ List.mem_cons_self)
        · exact (ih h).imp_right (List.mem_cons_of_mem _)

theorem pairwise_insertType (h : m.Pairwise fun p q ↦ p.1 < q.1) :
    (Expr.insertType k t m).Pairwise fun p q ↦ p.1 < q.1 := by
  induction m with
  | nil => exact List.pairwise_singleton _ _
  | cons q rest ih =>
      obtain ⟨l, u⟩ := q
      obtain ⟨hl, hrest⟩ := List.pairwise_cons.mp h
      rw [Expr.insertType]
      split_ifs with hlt heq
      · refine List.pairwise_cons.mpr ⟨fun p hp ↦ ?_, h⟩
        rcases List.mem_cons.mp hp with rfl | hp
        · exact hlt
        · exact hlt.trans (hl p hp)
      · subst heq
        exact List.pairwise_cons.mpr ⟨hl, hrest⟩
      · refine List.pairwise_cons.mpr ⟨fun p hp ↦ ?_, ih hrest⟩
        rcases mem_insertType hp with rfl | hp
        · exact lt_of_le_of_ne (not_lt.mp hlt) (Ne.symm heq)
        · exact hl p hp

theorem fieldsBounded_iff : FieldsBounded m ↔ ∀ p ∈ m, Bounded p.2 := by
  induction m with
  | nil => simp [FieldsBounded]
  | cons p rest ih => rw [FieldsBounded, ih, List.forall_mem_cons]

theorem fieldsMapped_iff : FieldsMapped m ↔ ∀ p ∈ m, Mapped p.2 := by
  induction m with
  | nil => simp [FieldsMapped]
  | cons p rest ih => rw [FieldsMapped, ih, List.forall_mem_cons]

end Maps

section RoundTrip

theorem mapM_stringOfJson (variants : List String) :
    (variants.map Json.string).mapM stringOfJson = .ok variants := by
  induction variants with
  | nil => rfl
  | cons v rest ih =>
      rw [List.map_cons, List.mapM_cons, ih]
      rfl

theorem ofJson_enum (val : Json) : ofJson (.object [("Enum", val)]) = enumOfJson val := by
  unfold ofJson
  exact if_pos rfl

theorem ofJson_struct (fields : List (String × Json)) :
    ofJson (.object [("Struct", .object fields)]) = (do
      let out ← fieldsOfJson [] fields
      .ok (.struct out)) := by
  unfold ofJson
  exact (if_neg (by decide)).trans (if_pos rfl)

theorem ofJson_array (fields : List (String × Json)) :
    ofJson (.object [("Array", .object fields)]) = arrayOfFields none none fields := by
  unfold ofJson
  exact (if_neg (by decide)).trans ((if_neg (by decide)).trans (if_pos rfl))

theorem ofJson_int (val : Json) : ofJson (.object [("Int", val)]) = boundsOfJson val := by
  unfold ofJson
  exact (if_neg (by decide)).trans ((if_neg (by decide)).trans
    ((if_neg (by decide)).trans (if_pos rfl)))

mutual

/-- Reading the JSON of a type gives the type. -/
theorem ofJson_toJson : (t : BaseType) → t.Bounded → t.Mapped → ofJson t.toJson = .ok t
  | .primitive s, _, _ => rfl
  | .enum variants, _, _ => by
      rw [toJson, ofJson_enum, enumOfJson, mapM_stringOfJson]
      rfl
  | .struct fields, hb, hm => by
      have hread := fieldsOfJson_fieldsToJson fields hb hm.2 [] (by simp) (List.pairwise_map.mp hm.1)
      rw [toJson, ofJson_struct, hread]
      rfl
  | .array elem len, hb, hm => by
      have hread := ofJson_toJson elem hb hm
      rw [toJson, ofJson_array, arrayOfFields, if_pos rfl, hread]
      rfl
  | .boundedInt lo hi, hb, _ => by
      have hle : ¬ hi < lo := not_lt.mpr hb
      rw [toJson, ofJson_int]
      exact if_neg hle

theorem fieldsOfJson_fieldsToJson : (fields : List (String × BaseType)) → FieldsBounded fields →
    FieldsMapped fields → ∀ out, (∀ p ∈ out, ∀ q ∈ fields, p.1 < q.1) →
      (fields.Pairwise fun p q ↦ p.1 < q.1) →
        fieldsOfJson out (fieldsToJson fields) = .ok (out ++ fields)
  | [], _, _, out, _, _ => by
      rw [fieldsToJson, fieldsOfJson, List.append_nil]
  | (k, t) :: rest, hb, hm, out, hout, hsorted => by
      obtain ⟨hk, hrest⟩ := List.pairwise_cons.mp hsorted
      have hlast : Expr.insertType k t out = out ++ [(k, t)] :=
        insertType_last fun p hp ↦ hout p hp _ List.mem_cons_self
      have hnext : ∀ p ∈ out ++ [(k, t)], ∀ q ∈ rest, p.1 < q.1 := by
        intro p hp q hq
        rcases List.mem_append.mp hp with hp | hp
        · exact hout p hp q (List.mem_cons_of_mem _ hq)
        · obtain rfl := List.mem_singleton.mp hp
          exact hk q hq
      have hread := fieldsOfJson_fieldsToJson rest hb.2 hm.2 _ hnext hrest
      rw [fieldsToJson, fieldsOfJson, ofJson_toJson t hb.1 hm.1]
      change fieldsOfJson (Expr.insertType k t out) (fieldsToJson rest) = _
      rw [hlast, hread, List.append_assoc, List.singleton_append]

end

theorem bind_ok {α β : Type} {r : Except DeError α} {f : α → Except DeError β} {b : β}
    (h : r >>= f = .ok b) : ∃ a, r = .ok a ∧ f a = .ok b := by
  cases r with
  | error e => cases h
  | ok a => exact ⟨a, rfl, h⟩

theorem valid_enumOfJson {j : Json} {t : BaseType} (h : enumOfJson j = .ok t) :
    t.Bounded ∧ t.Mapped := by
  unfold enumOfJson at h
  split at h
  · obtain ⟨variants, -, h⟩ := bind_ok h
    cases h
    exact ⟨trivial, trivial⟩
  · cases h

theorem valid_boundsOfJson {j : Json} {t : BaseType} (h : boundsOfJson j = .ok t) :
    t.Bounded ∧ t.Mapped := by
  unfold boundsOfJson at h
  split at h
  · obtain ⟨bounds, -, h⟩ := bind_ok h
    split at h
    · split_ifs at h with hlt
      cases h
      exact ⟨not_lt.mp hlt, trivial⟩
    · cases h
  · cases h

mutual

/-- Whatever has been read has its bounds in order and its fields in maps. -/
theorem valid_ofJson : (j : Json) → ∀ t, ofJson j = .ok t → t.Bounded ∧ t.Mapped
  | .string s, t, h => by
      rw [ofJson] at h
      cases h
      exact ⟨trivial, trivial⟩
  | .object [(key, val)], t, h => by
      unfold ofJson at h
      split_ifs at h with henum hstruct harray hint
      · exact valid_enumOfJson h
      · cases val with
        | object fields =>
            obtain ⟨out, hout, h⟩ := bind_ok h
            cases h
            obtain ⟨hb, hm, hsorted⟩ :=
              valid_fieldsOfJson fields [] out hout trivial trivial List.Pairwise.nil
            exact ⟨hb, List.pairwise_map.mpr hsorted, hm⟩
        | _ => cases h
      · split at h
        · exact valid_arrayOfFields _ none none t h fun e he ↦ by cases he
        · obtain ⟨e, hread, h⟩ := bind_ok h
          obtain ⟨i, -, h⟩ := bind_ok h
          cases h
          have hvalid := valid_ofJson _ e hread
          exact hvalid
        · cases h
      · exact valid_boundsOfJson h
  | .object [], t, h => by cases h
  | .object (_ :: _ :: _), t, h => by cases h
  | .null, t, h => by cases h
  | .bool _, t, h => by cases h
  | .number _, t, h => by cases h
  | .array _, t, h => by cases h

theorem valid_fieldsOfJson : (entries : List (String × Json)) →
    ∀ out m, fieldsOfJson out entries = .ok m → FieldsBounded out → FieldsMapped out →
      (out.Pairwise fun p q ↦ p.1 < q.1) →
        FieldsBounded m ∧ FieldsMapped m ∧ m.Pairwise fun p q ↦ p.1 < q.1
  | [], out, m, h, hb, hm, hsorted => by
      rw [fieldsOfJson] at h
      cases h
      exact ⟨hb, hm, hsorted⟩
  | (k, j) :: rest, out, m, h, hb, hm, hsorted => by
      rw [fieldsOfJson] at h
      obtain ⟨t, ht, h⟩ := bind_ok h
      obtain ⟨htb, htm⟩ := valid_ofJson j t ht
      refine valid_fieldsOfJson rest _ m h ?_ ?_ (pairwise_insertType hsorted)
      · rw [fieldsBounded_iff] at hb ⊢
        rintro p hp
        rcases mem_insertType hp with rfl | hp
        · exact htb
        · exact hb p hp
      · rw [fieldsMapped_iff] at hm ⊢
        rintro p hp
        rcases mem_insertType hp with rfl | hp
        · exact htm
        · exact hm p hp

theorem valid_arrayOfFields : (entries : List (String × Json)) →
    ∀ elem len t, arrayOfFields elem len entries = .ok t →
      (∀ e, elem = some e → e.Bounded ∧ e.Mapped) → t.Bounded ∧ t.Mapped
  | [], elem, len, t, h, he => by
      unfold arrayOfFields at h
      split at h
      · cases h
        have hvalid := he _ rfl
        exact hvalid
      · cases h
  | (k, j) :: rest, elem, len, t, h, he => by
      unfold arrayOfFields at h
      split_ifs at h with helem hsome hlen hsome'
      · obtain ⟨e, hread, h⟩ := bind_ok h
        refine valid_arrayOfFields rest _ _ t h fun e' he' ↦ ?_
        obtain rfl := Option.some.inj he'
        exact valid_ofJson j _ hread
      · obtain ⟨i, -, h⟩ := bind_ok h
        exact valid_arrayOfFields rest _ _ t h he

end

/-- A type is read from its JSON, and what has been read is read again. -/
theorem ofJson_roundTrip :
    (∀ t : BaseType, t.Bounded → t.Mapped → ofJson t.toJson = .ok t) ∧
      ∀ j t, ofJson j = .ok t → ofJson t.toJson = .ok t := by
  refine ⟨ofJson_toJson, fun j t h ↦ ?_⟩
  obtain ⟨hb, hm⟩ := valid_ofJson j t h
  exact ofJson_toJson t hb hm

/-- A queue of up to four readings, each with a level and a mode. -/
def queueType : BaseType :=
  .array (.struct [("level", .boundedInt (-3) 7), ("mode", .enum ["Int", "Enum"]),
    ("source", .primitive "sensors::Id")]) 4

theorem ofJson_roundTrip_queue : ofJson queueType.toJson = .ok queueType :=
  ofJson_roundTrip.1 queueType ⟨(by decide : (-3 : ℤ) ≤ 7), trivial, trivial, trivial⟩
    ⟨by decide, trivial, trivial, trivial, trivial⟩

end RoundTrip

end BaseType

end ConcIR
