import ConcIR.Expr.Typing
import Mathlib

/-!
# Struct literals

A struct literal is assigned by the type its fields show, in which a field of unknown type
is not seen, and of two fields of one name only the last; the fields' types are compared
with the declared ones without the expressions. This is set against the literal taken field
by field, where each expression is assigned to a variable of the field's type.
-/

namespace ConcIR

namespace Expr

section Definitions

variable (env : NameEnv) (fs : List (String × BaseType)) (xs : List (String × Expr))

/-- The expression may be assigned to a variable of the type. -/
def Accepts (t : BaseType) (x : Expr) : Prop :=
  ∃ got, typeOf env x = .ok got ∧ assignable got t x = .ok ()

/-- Each declared field is named once, and no other. -/
def WellNamed : Prop :=
  (xs.map (·.1)).Nodup ∧ ∀ k, k ∈ xs.map (·.1) ↔ k ∈ fs.map (·.1)

/-- The property holds of each field's declared type and expression. -/
def EachField (P : BaseType → Expr → Prop) : Prop :=
  ∀ k x t, (k, x) ∈ xs → fs.lookup k = some t → P t x

/-- The literal is right field by field. -/
def FieldByField : Prop := WellNamed fs xs ∧ EachField fs xs (Accepts env)

/-- The type of the expression is known, and the given one or also one of integers. -/
def Fits (t : BaseType) (x : Expr) : Prop :=
  ∃ gt, typeOf env x = .ok (some gt) ∧ compatible gt t = true

/-- An integer literal is in the range of the type. -/
def InRange (t : BaseType) (x : Expr) : Prop :=
  ∀ lo hi v, t = .boundedInt lo hi → x = .lit (.int v) → lo ≤ v ∧ v ≤ hi

def knownType (x : Expr) : Option BaseType :=
  match typeOf env x with
  | .ok got => got
  | .error _ => none

/-- The type of the last field of the name whose type is known. -/
def lastKnown (l : String) : List (String × Expr) → Option BaseType
  | [] => none
  | (k, x) :: rest => (lastKnown l rest).or (if l = k then knownType env x else none)

/-- Without the fields of unknown type, and with the last of the fields of one name, the
literal has the declared fields with their types. -/
def ReadAs : Prop :=
  (∀ k x, (k, x) ∈ xs → ∃ got, typeOf env x = .ok got) ∧
    ∀ l, Option.Rel (fun gt t ↦ compatible gt t = true) (lastKnown env l xs) (fs.lookup l)

end Definitions

section Fields

variable {env : NameEnv} {fs g m : List (String × BaseType)} {xs : List (String × Expr)}
  {t gt : BaseType} {x : Expr}

theorem lookup_cons_if (l k : String) (t : BaseType) (m : List (String × BaseType)) :
    List.lookup l ((k, t) :: m) = if l = k then some t else m.lookup l := by
  rw [List.lookup_cons]
  by_cases hl : l = k
  · rw [if_pos hl, beq_iff_eq.mpr hl]
  · rw [if_neg hl, beq_false_of_ne hl]

theorem lookup_insertType (k l : String) (t : BaseType) (m : List (String × BaseType)) :
    (insertType k t m).lookup l = if l = k then some t else m.lookup l := by
  induction m with
  | nil => exact lookup_cons_if l k t []
  | cons e rest ih =>
      obtain ⟨k', u⟩ := e
      rw [insertType]
      by_cases hlt : k < k'
      · rw [if_pos hlt]
        exact lookup_cons_if l k t _
      · rw [if_neg hlt]
        by_cases heq : k = k'
        · subst heq
          rw [if_pos rfl, lookup_cons_if, lookup_cons_if]
          by_cases hl : l = k
          · rw [if_pos hl, if_pos hl]
          · rw [if_neg hl, if_neg hl, if_neg hl]
        · rw [if_neg heq, lookup_cons_if, lookup_cons_if, ih]
          by_cases hl : l = k
          · rw [if_pos hl, if_neg fun h ↦ heq (hl.symm.trans h), if_pos hl]
          · rw [if_neg hl, if_neg hl]

theorem mem_keys_iff_lookup {l : String} : l ∈ m.map (·.1) ↔ (m.lookup l).isSome = true := by
  rw [List.lookup_isSome_iff]
  simp

theorem lookup_of_mem {k : String} (hn : (m.map (·.1)).Nodup) (h : (k, t) ∈ m) :
    m.lookup k = some t := by
  induction m with
  | nil => exact absurd h List.not_mem_nil
  | cons e rest ih =>
      obtain ⟨k', u⟩ := e
      obtain ⟨hk', hrest⟩ := List.nodup_cons.mp hn
      rw [lookup_cons_if]
      rcases List.mem_cons.mp h with h | h
      · obtain ⟨rfl, rfl⟩ := Prod.mk.inj h
        exact if_pos rfl
      · have hmem : k ∈ rest.map (·.1) := List.mem_map_of_mem h
        have hne : k ≠ k' := fun hk ↦ hk' (hk ▸ hmem)
        rw [if_neg hne, ih hrest h]

theorem mem_of_lookup {k : String} (h : m.lookup k = some t) : (k, t) ∈ m := by
  induction m with
  | nil => cases h
  | cons e rest ih =>
      obtain ⟨k', u⟩ := e
      rw [lookup_cons_if] at h
      split_ifs at h with hk
      · obtain rfl := Option.some.inj h
        exact hk ▸ List.mem_cons_self
      · exact List.mem_cons_of_mem _ (ih h)

/-- The fields have a map of their types exactly if each of them has a type or an unknown
one. -/
theorem typeOfFields_isOk : (∃ g, typeOfFields env m xs = .ok g) ↔
    ∀ k x, (k, x) ∈ xs → ∃ got, typeOf env x = .ok got := by
  induction xs generalizing m with
  | nil => exact iff_of_true ⟨m, rfl⟩ fun k x hx ↦ absurd hx List.not_mem_nil
  | cons e rest ih =>
      obtain ⟨k, x⟩ := e
      simp only [List.mem_cons, Prod.mk.injEq]
      cases hx : typeOf env x with
      | error err =>
          refine iff_of_false ?_ fun h ↦ ?_
          · rintro ⟨g, hg⟩
            rw [typeOfFields, hx] at hg
            cases hg
          · obtain ⟨got, hgot⟩ := h k x (.inl ⟨rfl, rfl⟩)
            rw [hx] at hgot
            cases hgot
      | ok got =>
          have hstep : (∃ g, typeOfFields env m ((k, x) :: rest) = .ok g) ↔
              ∀ k x, (k, x) ∈ rest → ∃ got, typeOf env x = .ok got := by
            cases got with
            | none =>
                rw [typeOfFields, hx]
                exact ih
            | some ty =>
                rw [typeOfFields, hx]
                exact ih
          rw [hstep]
          constructor
          · rintro h k' x' (⟨rfl, rfl⟩ | hmem)
            · exact ⟨got, hx⟩
            · exact h k' x' hmem
          · exact fun h k' x' hmem ↦ h k' x' (.inr hmem)

/-- The map holds the last known types. -/
theorem lookup_typeOfFields (h : typeOfFields env m xs = .ok g) (l : String) :
    g.lookup l = (lastKnown env l xs).or (m.lookup l) := by
  induction xs generalizing m with
  | nil =>
      obtain rfl := Except.ok.inj h
      rfl
  | cons e rest ih =>
      obtain ⟨k, x⟩ := e
      rw [typeOfFields] at h
      rw [lastKnown, knownType]
      cases hx : typeOf env x with
      | error err =>
          rw [hx] at h
          cases h
      | ok got =>
          rw [hx] at h
          cases got with
          | none => simpa using ih h
          | some ty =>
              rw [ih h, lookup_insertType]
              dsimp only
              split_ifs <;> simp

end Fields

section Checks

variable {env : NameEnv} {fs g : List (String × BaseType)} {xs : List (String × Expr)}
  {t : BaseType} {x : Expr}

theorem checkFields_ok : checkFields g fs = .ok () ↔
    ∀ k t, (k, t) ∈ fs → ∃ gt, g.lookup k = some gt ∧ compatible gt t = true := by
  induction fs with
  | nil => exact iff_of_true rfl fun k t h ↦ absurd h List.not_mem_nil
  | cons e rest ih =>
      obtain ⟨k, et⟩ := e
      simp only [List.mem_cons, Prod.mk.injEq]
      rw [checkFields]
      cases hg : g.lookup k with
      | none =>
          refine iff_of_false (fun h ↦ by cases h) fun h ↦ ?_
          obtain ⟨gt, hgt, -⟩ := h k et (.inl ⟨rfl, rfl⟩)
          rw [hg] at hgt
          cases hgt
      | some gt =>
          dsimp only
          cases hc : compatible gt et with
          | false =>
              refine iff_of_false (fun h ↦ by cases h) fun h ↦ ?_
              obtain ⟨gt', hgt, hc'⟩ := h k et (.inl ⟨rfl, rfl⟩)
              obtain rfl := Option.some.inj (hg.symm.trans hgt)
              rw [hc] at hc'
              cases hc'
          | true =>
              rw [Bool.not_true, if_neg Bool.false_ne_true, ih]
              constructor
              · rintro h k' t' (⟨rfl, rfl⟩ | hmem)
                · exact ⟨gt, hg, hc⟩
                · exact h k' t' hmem
              · exact fun h k' t' hmem ↦ h k' t' (.inr hmem)

theorem checkUnknown_ok : checkUnknown fs g = .ok () ↔
    ∀ k ∈ g.map (·.1), (fs.lookup k).isSome = true := by
  induction g with
  | nil => exact iff_of_true rfl fun k h ↦ absurd h List.not_mem_nil
  | cons e rest ih =>
      obtain ⟨k, gt⟩ := e
      rw [checkUnknown, List.map_cons, List.forall_mem_cons]
      cases hk : fs.lookup k with
      | none =>
          exact iff_of_false (fun h ↦ by cases h) fun h ↦ by cases h.1
      | some t =>
          rw [Option.isNone_some, if_neg Bool.false_ne_true, ih]
          exact (and_iff_right rfl).symm

theorem compatible_struct : compatible (.struct g) (.struct fs) = decide (g = fs) := by
  simp [compatible, BaseType.isInt]

/-- A map of types is assigned by its fields. -/
theorem assignable_struct (hn : (fs.map (·.1)).Nodup) :
    assignable (some (.struct g)) (.struct fs) x = .ok () ↔
      ∀ l, Option.Rel (fun gt t ↦ compatible gt t = true) (g.lookup l) (fs.lookup l) := by
  have hchecks : (checkFields g fs = .ok () ∧ checkUnknown fs g = .ok ()) ↔
      ∀ l, Option.Rel (fun gt t ↦ compatible gt t = true) (g.lookup l) (fs.lookup l) := by
    rw [checkFields_ok, checkUnknown_ok]
    constructor
    · rintro ⟨hfields, hunknown⟩ l
      cases hl : fs.lookup l with
      | some t =>
          obtain ⟨gt, hgt, hc⟩ := hfields l t (mem_of_lookup hl)
          rw [hgt]
          exact .some hc
      | none =>
          cases hg : g.lookup l with
          | none => exact .none
          | some gt =>
              have hsome := hunknown l (List.mem_map_of_mem (mem_of_lookup hg))
              rw [hl] at hsome
              cases hsome
    · intro h
      constructor
      · intro k t hk
        have hrel := h k
        rw [lookup_of_mem hn hk] at hrel
        cases hg : g.lookup k with
        | none =>
            rw [hg] at hrel
            cases hrel
        | some gt =>
            rw [hg] at hrel
            cases hrel with
            | some hc => exact ⟨gt, rfl, hc⟩
      · intro k hk
        have hrel := h k
        obtain ⟨gt, hgt⟩ := Option.isSome_iff_exists.mp (mem_keys_iff_lookup.mp hk)
        rw [hgt] at hrel
        cases hl : fs.lookup k with
        | none =>
            rw [hl] at hrel
            cases hrel
        | some t => rfl
  rw [← hchecks, assignable, compatible_struct]
  by_cases heq : g = fs
  · subst heq
    rw [decide_eq_true rfl, if_pos rfl]
    refine iff_of_true ?_ (hchecks.mpr fun l ↦ ?_)
    · cases x with
      | lit l => cases l <;> rfl
      | _ => rfl
    · cases g.lookup l with
      | none => exact .none
      | some t => exact .some (by rw [compatible, decide_eq_true rfl, Bool.true_or])
  · rw [decide_eq_false heq, if_neg Bool.false_ne_true]
    cases checkFields g fs with
    | error err => exact iff_of_false (fun h ↦ by cases h) fun h ↦ by cases h.1
    | ok u => exact (and_iff_right rfl).symm

theorem accepts_struct_iff (hn : (fs.map (·.1)).Nodup) :
    Accepts env (.struct fs) (.struct xs) ↔ ReadAs env fs xs := by
  have hor : ∀ {g}, typeOfFields env [] xs = .ok g → ∀ l, g.lookup l = lastKnown env l xs :=
    fun hg l ↦ by rw [lookup_typeOfFields hg, List.lookup_nil, Option.or_none]
  constructor
  · rintro ⟨got, hgot, hassign⟩
    rw [typeOf] at hgot
    cases hg : typeOfFields env [] xs with
    | error err =>
        rw [hg] at hgot
        cases hgot
    | ok g =>
        rw [hg] at hgot
        obtain rfl := Except.ok.inj hgot
        refine ⟨typeOfFields_isOk.mp ⟨g, hg⟩, fun l ↦ ?_⟩
        rw [← hor hg]
        exact (assignable_struct hn).mp hassign l
  · rintro ⟨htypes, hrel⟩
    obtain ⟨g, hg⟩ := (@typeOfFields_isOk env [] xs).mpr htypes
    refine ⟨some (.struct g), ?_, (assignable_struct hn).mpr fun l ↦ ?_⟩
    · rw [typeOf, hg]
      rfl
    · rw [hor hg]
      exact hrel l

theorem lastKnown_eq_none {l : String} (h : l ∉ xs.map (·.1)) : lastKnown env l xs = none := by
  induction xs with
  | nil => rfl
  | cons e rest ih =>
      obtain ⟨k, x⟩ := e
      rw [List.map_cons, List.mem_cons, not_or] at h
      rw [lastKnown, ih h.2, if_neg h.1]
      rfl

theorem lastKnown_of_mem (hn : (xs.map (·.1)).Nodup) {k : String} (h : (k, x) ∈ xs) :
    lastKnown env k xs = knownType env x := by
  induction xs with
  | nil => exact absurd h List.not_mem_nil
  | cons e rest ih =>
      obtain ⟨k', y⟩ := e
      obtain ⟨hk', hrest⟩ := List.nodup_cons.mp hn
      rw [lastKnown]
      rcases List.mem_cons.mp h with h | h
      · obtain ⟨rfl, rfl⟩ := Prod.mk.inj h
        rw [lastKnown_eq_none hk', if_pos rfl, Option.none_or]
      · have hmem : k ∈ rest.map (·.1) := List.mem_map_of_mem h
        have hne : k ≠ k' := fun hk ↦ hk' (hk ▸ hmem)
        rw [ih hrest h, if_neg hne, Option.or_none]

/-- An expression that fits, and an integer literal that is in range, is accepted. -/
theorem accepts_of_fits (h : Fits env t x) (hrange : InRange t x) : Accepts env t x := by
  obtain ⟨gt, hgt, hc⟩ := h
  refine ⟨some gt, hgt, ?_⟩
  unfold assignable
  dsimp only
  rw [if_pos hc]
  split
  case h_1 lo hi v =>
    obtain ⟨hlo, hhi⟩ := hrange lo hi v rfl rfl
    rw [if_neg]
    omega
  case h_2 => rfl

/-- An integer literal that is accepted is in range. -/
theorem inRange_of_accepts (h : Accepts env t x) : InRange t x := by
  rintro lo hi v rfl rfl
  obtain ⟨got, hgot, hassign⟩ := h
  obtain rfl : some (BaseType.primitive "Int") = got := Except.ok.inj hgot
  have hc : compatible (.primitive "Int") (.boundedInt lo hi) = true := by
    simp [compatible, BaseType.isInt]
  unfold assignable at hassign
  dsimp only at hassign
  rw [if_pos hc] at hassign
  split_ifs at hassign with hout
  omega

/-- Where the fields are named as declared, the literal is read as its fields are. -/
theorem readAs_iff (hnamed : WellNamed fs xs) :
    ReadAs env fs xs ↔ EachField fs xs (Fits env) := by
  obtain ⟨hn, hkeys⟩ := hnamed
  constructor
  · rintro ⟨htypes, hrel⟩ k x t hx ht
    obtain ⟨got, hgot⟩ := htypes k x hx
    have hk := hrel k
    rw [lastKnown_of_mem hn hx, ht, knownType, hgot] at hk
    cases got with
    | none => cases hk
    | some gt =>
        cases hk with
        | some hc => exact ⟨gt, hgot, hc⟩
  · intro hfits
    have hdeclared : ∀ {k x}, (k, x) ∈ xs → ∃ t, fs.lookup k = some t := fun hx ↦
      Option.isSome_iff_exists.mp
        (mem_keys_iff_lookup.mp ((hkeys _).mp (List.mem_map_of_mem hx)))
    refine ⟨fun k x hx ↦ ?_, fun l ↦ ?_⟩
    · obtain ⟨t, ht⟩ := hdeclared hx
      obtain ⟨gt, hgt, -⟩ := hfits k x t hx ht
      exact ⟨some gt, hgt⟩
    · by_cases hl : l ∈ xs.map (·.1)
      · obtain ⟨⟨k, x⟩, hx, rfl⟩ := List.mem_map.mp hl
        obtain ⟨t, ht⟩ := hdeclared hx
        obtain ⟨gt, hgt, hc⟩ := hfits k x t hx ht
        rw [lastKnown_of_mem hn hx, ht, knownType, hgt]
        exact .some hc
      · have hnone : fs.lookup l = none :=
          Option.not_isSome_iff_eq_none.mp fun h ↦ hl ((hkeys l).mpr (mem_keys_iff_lookup.mpr h))
        rw [lastKnown_eq_none hl, hnone]
        exact .none

end Checks

section Claim

/-- A literal is accepted as a value of a struct type exactly if it is right field by field,
if and only if it is not one of these: one that is right where a field's type is unknown or
not the declared one, and one that has the declared fields with their types once the fields
of unknown type and all but the last of the fields of one name are left out, but names a
field twice or another field, or has an integer that is out of its field's range. -/
theorem structLiteral_exact (env : NameEnv) (fs : List (String × BaseType))
    (hn : (fs.map (·.1)).Nodup) (xs : List (String × Expr)) :
    (Accepts env (.struct fs) (.struct xs) ↔ FieldByField env fs xs) ↔
      (FieldByField env fs xs → EachField fs xs (Fits env)) ∧
      (ReadAs env fs xs → WellNamed fs xs ∧ EachField fs xs InRange) := by
  rw [accepts_struct_iff hn]
  constructor
  · intro h
    refine ⟨fun hright ↦ (readAs_iff hright.1).mp (h.mpr hright), fun hread ↦ ?_⟩
    obtain ⟨hnamed, hfields⟩ := h.mp hread
    exact ⟨hnamed, fun k x t hx ht ↦ inRange_of_accepts (hfields k x t hx ht)⟩
  · rintro ⟨hfits, hnamed⟩
    constructor
    · intro hread
      obtain ⟨hname, hrange⟩ := hnamed hread
      have hfit := (readAs_iff hname).mp hread
      exact ⟨hname, fun k x t hx ht ↦ accepts_of_fits (hfit k x t hx ht) (hrange k x t hx ht)⟩
    · exact fun hright ↦ (readAs_iff hright.1).mpr (hfits hright)

end Claim

section Lamp

/-- A lamp has a level and a mode. -/
def lampFields : List (String × BaseType) :=
  [("level", .boundedInt 0 10), ("mode", .enum ["On", "Off"])]

def lampEnv : NameEnv where
  slots := [("lamp", ⟨.var, some (.struct lampFields), true⟩),
    ("mode", ⟨.local, some (.enum ["On", "Off"]), true⟩)]
  nodup := by decide

/-- A level and a slot of the declared type. -/
def lampOfSlot : List (String × Expr) := [("level", .lit (.int 3)), ("mode", .name "mode")]

/-- A level and a variant. -/
def lampOfVariant : List (String × Expr) :=
  [("level", .lit (.int 3)), ("mode", .lit (.enum "On"))]

theorem structLiteral_exact_lamp : Accepts lampEnv (.struct lampFields) (.struct lampOfSlot) ↔
    FieldByField lampEnv lampFields lampOfSlot := by
  have hmem : ∀ k x t, (k, x) ∈ lampOfSlot → lampFields.lookup k = some t →
      (x = .lit (.int 3) ∧ t = .boundedInt 0 10) ∨
        (x = .name "mode" ∧ t = .enum ["On", "Off"]) := by
    intro k x t hx ht
    simp only [lampOfSlot, List.mem_cons, Prod.mk.injEq, List.not_mem_nil, or_false] at hx
    rcases hx with ⟨rfl, rfl⟩ | ⟨rfl, rfl⟩
    · exact .inl ⟨rfl, (Option.some.inj ht).symm⟩
    · exact .inr ⟨rfl, (Option.some.inj ht).symm⟩
  refine (structLiteral_exact lampEnv lampFields (by decide) lampOfSlot).mpr ⟨fun _ ↦ ?_, fun _ ↦ ?_⟩
  · intro k x t hx ht
    rcases hmem k x t hx ht with ⟨rfl, rfl⟩ | ⟨rfl, rfl⟩
    · exact ⟨.primitive "Int", rfl, by decide⟩
    · exact ⟨.enum ["On", "Off"], rfl, by decide⟩
  · refine ⟨⟨by decide, fun k ↦ Iff.rfl⟩, fun k x t hx ht ↦ ?_⟩
    rcases hmem k x t hx ht with ⟨rfl, rfl⟩ | ⟨rfl, rfl⟩
    · rintro lo hi v ⟨⟩ ⟨⟩
      decide
    · rintro lo hi v ⟨⟩

/-- The literal with a variant is right field by field and not accepted. -/
theorem not_structLiteral_lamp :
    ¬(Accepts lampEnv (.struct lampFields) (.struct lampOfVariant) ↔
      FieldByField lampEnv lampFields lampOfVariant) := by
  intro h
  obtain ⟨got, hgot, hassign⟩ := h.mpr <| by
    refine ⟨⟨by decide, fun k ↦ Iff.rfl⟩, fun k x t hx ht ↦ ?_⟩
    simp only [lampOfVariant, List.mem_cons, Prod.mk.injEq, List.not_mem_nil, or_false] at hx
    rcases hx with ⟨rfl, rfl⟩ | ⟨rfl, rfl⟩
    · obtain rfl := Option.some.inj ht
      exact ⟨some (.primitive "Int"), rfl, rfl⟩
    · obtain rfl := Option.some.inj ht
      exact ⟨none, rfl, rfl⟩
  obtain rfl := Except.ok.inj hgot
  cases hassign

end Lamp

end Expr

end ConcIR
