import ConcIR.Sem.Value
import Mathlib

/-!
# Keys of values

The key of a value ends where the value ends, whatever is written after it. A number ends
at a delimiter that is no digit, a string after the number of bytes before it, and a list
of values after the number of items before it.
-/

namespace ConcIR

section SelfDelimiting

variable {α β : Type} {a b : α} {s t xs ys : List Char}

/-- The text of a value tells the value and where its text ends. -/
def SelfDelimiting (f : α → List Char) : Prop :=
  ∀ a b s t, f a ++ s = f b ++ t → a = b ∧ s = t

/-- A text up to the first delimiter. -/
theorem append_delimiter_inj {d : Char} (hx : d ∉ xs) (hy : d ∉ ys)
    (h : xs ++ d :: s = ys ++ d :: t) : xs = ys ∧ s = t := by
  induction xs generalizing ys with
  | nil =>
      cases ys with
      | nil => exact ⟨rfl, (List.cons.inj h).2⟩
      | cons c ys =>
          obtain rfl : d = c := (List.cons.inj h).1
          exact absurd List.mem_cons_self hy
  | cons c xs ih =>
      cases ys with
      | nil =>
          obtain rfl : c = d := (List.cons.inj h).1
          exact absurd List.mem_cons_self hx
      | cons e ys =>
          obtain ⟨rfl, htail⟩ := List.cons.inj h
          obtain ⟨rfl, hst⟩ := ih (fun hd ↦ hx (List.mem_cons_of_mem c hd))
            (fun hd ↦ hy (List.mem_cons_of_mem c hd)) htail
          exact ⟨rfl, hst⟩

/-- A delimiter that does not occur in the text makes an injective text self-delimiting. -/
theorem selfDelimiting_of_injective {f : α → List Char} {d : Char}
    (hf : ∀ a b, f a = f b → a = b) (hd : ∀ a, d ∉ f a) : SelfDelimiting fun a ↦ f a ++ [d] := by
  intro a b s t h
  rw [List.append_assoc, List.append_assoc] at h
  obtain ⟨hab, hst⟩ := append_delimiter_inj (hd a) (hd b) h
  exact ⟨hf a b hab, hst⟩

theorem not_digit_mem_repr {d : Char} (hd : d.isDigit = false) (n : ℕ) :
    d ∉ (toString n).toList := by
  intro h
  change d ∈ (Nat.repr n).toList at h
  rw [Nat.toList_repr] at h
  rw [Nat.isDigit_of_mem_toDigits (by decide) (by decide) h] at hd
  cases hd

theorem selfDelimiting_nat {d : Char} (hd : d.isDigit = false) :
    SelfDelimiting fun n : ℕ ↦ (toString n).toList ++ [d] :=
  selfDelimiting_of_injective (fun _ _ h ↦ Nat.repr_injective (String.toList_inj.mp h))
    (not_digit_mem_repr hd)

theorem selfDelimiting_int {d : Char} (hd : d.isDigit = false) (hminus : d ≠ '-') :
    SelfDelimiting fun i : ℤ ↦ (toString i).toList ++ [d] := by
  refine selfDelimiting_of_injective (fun i j h ↦ Int.repr_injective (String.toList_inj.mp h))
    fun i ↦ ?_
  cases i with
  | ofNat n => exact not_digit_mem_repr hd n
  | negSucc n =>
      change d ∉ ("-" ++ toString (n + 1)).toList
      rw [String.toList_append, List.mem_append, not_or]
      exact ⟨fun h ↦ hminus (List.mem_singleton.mp h), not_digit_mem_repr hd (n + 1)⟩

/-- Two strings of one size at the beginning of one text. -/
theorem toList_append_inj {x y : String} (hsize : x.utf8ByteSize = y.utf8ByteSize)
    (h : x.toList ++ s = y.toList ++ t) : x = y ∧ s = t := by
  have longer : ∀ {u v : String} {c : List Char}, u.utf8ByteSize = v.utf8ByteSize →
      u.toList = v.toList ++ c → u = v := by
    intro u v c huv hlist
    have hu : u = v ++ String.ofList c := by
      rw [← String.toList_inj, String.toList_append, String.toList_ofList, hlist]
    rw [hu, String.utf8ByteSize_append] at huv
    have hempty : String.ofList c = "" := by
      rw [← String.utf8ByteSize_eq_zero_iff]
      omega
    rw [hu, hempty, String.append_empty]
  have hxy : x = y := by
    rcases List.append_eq_append_iff.mp h with ⟨c, hy, -⟩ | ⟨c, hx, -⟩
    · exact (longer hsize.symm hy).symm
    · exact longer hsize hx
  subst hxy
  exact ⟨rfl, List.append_cancel_left h⟩

/-- Strings with their number of bytes before them. -/
theorem selfDelimiting_string {d : Char} (hd : d.isDigit = false) :
    SelfDelimiting fun x : String ↦ (toString x.utf8ByteSize).toList ++ d :: x.toList := by
  intro x y s t h
  rw [List.append_assoc, List.append_assoc, List.cons_append, List.cons_append] at h
  obtain ⟨hsize, htail⟩ := append_delimiter_inj (not_digit_mem_repr hd _)
    (not_digit_mem_repr hd _) h
  exact toList_append_inj (Nat.repr_injective (String.toList_inj.mp hsize)) htail

/-- A text in brackets with a number before it. -/
theorem count_append_inj {m n : ℕ}
    (h : ((toString m).toList ++ ['[']) ++ (xs ++ [']']) ++ s =
      ((toString n).toList ++ ['[']) ++ (ys ++ [']']) ++ t) :
    m = n ∧ xs ++ ']' :: s = ys ++ ']' :: t := by
  rw [List.append_assoc, List.append_assoc ((toString n).toList ++ ['['])] at h
  obtain ⟨hmn, htail⟩ := selfDelimiting_nat (d := '[') (by decide) m n _ _ h
  rw [List.append_assoc, List.append_assoc, List.singleton_append, List.singleton_append] at htail
  exact ⟨hmn, htail⟩

end SelfDelimiting

namespace Value

section Keys

/-- The character that a key begins with. -/
def keyTag : Value → Char
  | .bool _ => 'B'
  | .int _ => 'I'
  | .float _ => 'F'
  | .str _ => 'T'
  | .enum _ => 'E'
  | .struct _ => 'S'
  | .array _ => 'A'

/-- What comes after that character. -/
def keyBody : Value → List Char
  | .bool b => [if b then '1' else '0']
  | .int i => (toString i).toList ++ [';']
  | .float f => (toString f.toNat).toList ++ [';']
  | .str s => (toString s.utf8ByteSize).toList ++ ':' :: s.toList
  | .enum e => (toString e.utf8ByteSize).toList ++ ':' :: e.toList
  | .struct fields =>
      ((toString fields.length).toList ++ ['[']) ++ ((keyFields fields).toList ++ [']'])
  | .array items =>
      ((toString items.length).toList ++ ['[']) ++ ((keyItems items).toList ++ [']'])

theorem toList_key (v : Value) : (key v).toList = v.keyTag :: v.keyBody := by
  cases v with
  | bool b => cases b <;> rfl
  | int i | float f =>
      simp only [key, keyTag, keyBody, String.toList_append]
      rfl
  | str x | enum x =>
      simp only [key, keyTag, keyBody, String.toList_append, List.append_assoc]
      rfl
  | struct fields | array items =>
      simp only [key, keyTag, keyBody, String.toList_append, List.append_assoc]
      rfl

theorem keyTag_keyBody_inj {v w : Value} {s t : List Char}
    (h : (key v).toList ++ s = (key w).toList ++ t) :
    v.keyTag = w.keyTag ∧ v.keyBody ++ s = w.keyBody ++ t := by
  rw [toList_key, toList_key, List.cons_append, List.cons_append] at h
  exact List.cons.inj h

theorem toList_keyFields_append (k : String) (v : Value) (rest : List (String × Value))
    (s : List Char) : (keyFields ((k, v) :: rest)).toList ++ s =
      ((toString k.utf8ByteSize).toList ++ ':' :: k.toList) ++
        '=' :: ((key v).toList ++ ';' :: ((keyFields rest).toList ++ s)) := by
  simp only [keyFields, String.toList_append, List.append_assoc]
  rfl

theorem toList_keyItems_append (v : Value) (rest : List Value) (s : List Char) :
    (keyItems (v :: rest)).toList ++ s =
      (key v).toList ++ ';' :: ((keyItems rest).toList ++ s) := by
  simp only [keyItems, String.toList_append, List.append_assoc]
  rfl

mutual

theorem selfDelimiting_key : ∀ (v w : Value) (s t : List Char),
    (key v).toList ++ s = (key w).toList ++ t → v = w ∧ s = t
  | .bool b, w, s, t, h => by
      obtain ⟨htag, hbody⟩ := keyTag_keyBody_inj h
      cases w with
      | bool c =>
          obtain ⟨hbit, hst⟩ := List.cons.inj hbody
          refine ⟨?_, hst⟩
          cases b <;> cases c
          · rfl
          · exact absurd hbit (by decide)
          · exact absurd hbit (by decide)
          · rfl
      | _ => simp [keyTag] at htag
  | .int i, w, s, t, h => by
      obtain ⟨htag, hbody⟩ := keyTag_keyBody_inj h
      cases w with
      | int j =>
          obtain ⟨rfl, hst⟩ := selfDelimiting_int (d := ';') (by decide) (by decide) i j s t hbody
          exact ⟨rfl, hst⟩
      | _ => simp [keyTag] at htag
  | .float f, w, s, t, h => by
      obtain ⟨htag, hbody⟩ := keyTag_keyBody_inj h
      cases w with
      | float g =>
          obtain ⟨hfg, hst⟩ := selfDelimiting_nat (d := ';') (by decide) f.toNat g.toNat s t hbody
          exact ⟨congrArg Value.float (UInt64.toNat_inj.mp hfg), hst⟩
      | _ => simp [keyTag] at htag
  | .str x, w, s, t, h => by
      obtain ⟨htag, hbody⟩ := keyTag_keyBody_inj h
      cases w with
      | str y =>
          obtain ⟨rfl, hst⟩ := selfDelimiting_string (d := ':') (by decide) x y s t hbody
          exact ⟨rfl, hst⟩
      | _ => simp [keyTag] at htag
  | .enum x, w, s, t, h => by
      obtain ⟨htag, hbody⟩ := keyTag_keyBody_inj h
      cases w with
      | enum y =>
          obtain ⟨rfl, hst⟩ := selfDelimiting_string (d := ':') (by decide) x y s t hbody
          exact ⟨rfl, hst⟩
      | _ => simp [keyTag] at htag
  | .struct fs, w, s, t, h => by
      obtain ⟨htag, hbody⟩ := keyTag_keyBody_inj h
      cases w with
      | struct gs =>
          obtain ⟨hlen, hfields⟩ := count_append_inj hbody
          obtain ⟨rfl, hend⟩ := selfDelimiting_keyFields fs gs _ _ hlen hfields
          exact ⟨rfl, (List.cons.inj hend).2⟩
      | _ => simp [keyTag] at htag
  | .array vs, w, s, t, h => by
      obtain ⟨htag, hbody⟩ := keyTag_keyBody_inj h
      cases w with
      | array ws =>
          obtain ⟨hlen, hitems⟩ := count_append_inj hbody
          obtain ⟨rfl, hend⟩ := selfDelimiting_keyItems vs ws _ _ hlen hitems
          exact ⟨rfl, (List.cons.inj hend).2⟩
      | _ => simp [keyTag] at htag

theorem selfDelimiting_keyFields : ∀ (fs gs : List (String × Value)) (s t : List Char),
    fs.length = gs.length → (keyFields fs).toList ++ s = (keyFields gs).toList ++ t →
      fs = gs ∧ s = t
  | [], [], s, t => fun _ h ↦ ⟨rfl, List.append_cancel_left h⟩
  | [], _ :: _, _, _ => fun hlen _ ↦ absurd hlen (Nat.succ_ne_zero _).symm
  | _ :: _, [], _, _ => fun hlen _ ↦ absurd hlen (Nat.succ_ne_zero _)
  | (k, v) :: fs, (l, w) :: gs, s, t => fun hlen h ↦ by
      rw [toList_keyFields_append, toList_keyFields_append] at h
      obtain ⟨rfl, hrest⟩ := selfDelimiting_string (d := ':') (by decide) k l _ _ h
      obtain ⟨rfl, hsemi⟩ := selfDelimiting_key v w _ _ (List.cons.inj hrest).2
      obtain ⟨rfl, hst⟩ := selfDelimiting_keyFields fs gs s t (Nat.succ.inj hlen)
        (List.cons.inj hsemi).2
      exact ⟨rfl, hst⟩

theorem selfDelimiting_keyItems : ∀ (vs ws : List Value) (s t : List Char),
    vs.length = ws.length → (keyItems vs).toList ++ s = (keyItems ws).toList ++ t →
      vs = ws ∧ s = t
  | [], [], s, t => fun _ h ↦ ⟨rfl, List.append_cancel_left h⟩
  | [], _ :: _, _, _ => fun hlen _ ↦ absurd hlen (Nat.succ_ne_zero _).symm
  | _ :: _, [], _, _ => fun hlen _ ↦ absurd hlen (Nat.succ_ne_zero _)
  | v :: vs, w :: ws, s, t => fun hlen h ↦ by
      rw [toList_keyItems_append, toList_keyItems_append] at h
      obtain ⟨rfl, hsemi⟩ := selfDelimiting_key v w _ _ h
      obtain ⟨rfl, hst⟩ := selfDelimiting_keyItems vs ws s t (Nat.succ.inj hlen)
        (List.cons.inj hsemi).2
      exact ⟨rfl, hst⟩

end

/-- A key tells the value and where its text ends. -/
theorem key_append_inj (v w : Value) (s t : String) (h : key v ++ s = key w ++ t) :
    v = w ∧ s = t := by
  have hlist := congrArg String.toList h
  rw [String.toList_append, String.toList_append] at hlist
  obtain ⟨hvw, hst⟩ := selfDelimiting_key v w _ _ hlist
  exact ⟨hvw, String.toList_inj.mp hst⟩

theorem key_append_inj_nested :
    Value.struct [("a", .str "];"), ("b", .array [.int (-1), .bool true])] =
      .struct [("a", .str "];"), ("b", .array [.int (-1), .bool true])] ∧ ";" = ";" :=
  key_append_inj _ _ _ _ rfl

end Keys

end Value

end ConcIR
