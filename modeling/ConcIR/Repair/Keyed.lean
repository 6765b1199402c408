import Mathlib

/-!
# Lists with keys

A list whose elements have different keys: where an element with a key stands, what it is,
and what taking an element out or exchanging two of them does. Of any list, the first
element with a property, and what putting another one in its place does.
-/

namespace ConcIR

namespace Keyed

variable {α κ : Type*} {f : α → κ} {l : List α} {i j : ℕ} {a b : α} {k : κ}

theorem index_unique (hn : (l.map f).Nodup) (hi : l[i]? = some a) (hj : l[j]? = some b)
    (h : f a = f b) : i = j := by
  have hlt : i < (l.map f).length := by
    rw [List.length_map]
    exact (List.getElem?_eq_some_iff.mp hi).1
  refine (List.getElem?_inj hlt hn).mp ?_
  rw [List.getElem?_map, List.getElem?_map, hi, hj, Option.map_some, Option.map_some, h]

theorem eq_of_key (hn : (l.map f).Nodup) (ha : a ∈ l) (hb : b ∈ l) (h : f a = f b) :
    a = b := by
  obtain ⟨i, hi⟩ := List.getElem?_of_mem ha
  obtain ⟨j, hj⟩ := List.getElem?_of_mem hb
  obtain rfl := index_unique hn hi hj h
  exact Option.some.inj (hi.symm.trans hj)

variable [DecidableEq κ]

theorem findIdx?_sound (h : l.findIdx? (fun x ↦ decide (f x = k)) = some i) :
    ∃ a, l[i]? = some a ∧ f a = k := by
  obtain ⟨hlt, hk, -⟩ := List.findIdx?_eq_some_iff_getElem.mp h
  exact ⟨l[i], List.getElem?_eq_getElem hlt, of_decide_eq_true hk⟩

theorem findIdx?_eq (hn : (l.map f).Nodup) (hi : l[i]? = some a) :
    l.findIdx? (fun x ↦ decide (f x = f a)) = some i := by
  obtain ⟨hlt, rfl⟩ := List.getElem?_eq_some_iff.mp hi
  refine List.findIdx?_eq_some_iff_getElem.mpr ⟨hlt, decide_eq_true rfl, fun j hj hk ↦ ?_⟩
  have heq := index_unique hn (List.getElem?_eq_getElem (hj.trans hlt)) hi (of_decide_eq_true hk)
  exact absurd heq hj.ne

theorem find?_eq (hn : (l.map f).Nodup) (ha : a ∈ l) :
    l.find? (fun x ↦ decide (f x = f a)) = some a := by
  cases hf : l.find? (fun x ↦ decide (f x = f a)) with
  | none => exact absurd (decide_eq_true rfl) (List.find?_eq_none.mp hf a ha)
  | some b =>
      have hb := List.find?_some hf
      rw [eq_of_key hn (List.mem_of_find?_eq_some hf) ha (of_decide_eq_true hb)]

/-- Taking an element out leaves those with other keys. -/
theorem eraseIdx_eq_filter (hn : (l.map f).Nodup) (hi : l[i]? = some a) :
    l.eraseIdx i = l.filter fun x ↦ !decide (f x = f a) := by
  induction l generalizing i with
  | nil => cases hi
  | cons b l ih =>
      obtain ⟨hb, hl⟩ := List.nodup_cons.mp hn
      cases i with
      | zero =>
          obtain rfl : b = a := Option.some.inj hi
          rw [List.eraseIdx_zero, List.tail_cons, List.filter_cons_of_neg (by simp)]
          refine (List.filter_eq_self.mpr fun x hx ↦ ?_).symm
          have hx : f x ≠ f b := fun h ↦ hb (h ▸ List.mem_map_of_mem hx)
          rw [decide_eq_false hx, Bool.not_false]
      | succ i =>
          have ha : f b ≠ f a := fun h ↦
            hb (h ▸ List.mem_map_of_mem (List.mem_of_getElem? hi))
          rw [List.eraseIdx_cons_succ, List.filter_cons_of_pos (by simp [ha]), ih hl hi]

omit [DecidableEq κ]

/-- Exchange the elements at two places. -/
def exchange (l : List α) (i j : ℕ) (a b : α) : List α := (l.set i b).set j a

theorem getElem?_exchange (hi : l[i]? = some a) (hj : l[j]? = some b) (n : ℕ) :
    (exchange l i j a b)[n]? = if n = j then some a else if n = i then some b else l[n]? := by
  have hlen : i < l.length := (List.getElem?_eq_some_iff.mp hi).1
  have hlen' : j < l.length := (List.getElem?_eq_some_iff.mp hj).1
  rw [exchange]
  split_ifs with hnj hni
  · rw [hnj, List.getElem?_set_self (by rwa [List.length_set])]
  · rw [List.getElem?_set_ne (Ne.symm hnj), hni, List.getElem?_set_self hlen]
  · rw [List.getElem?_set_ne (Ne.symm hnj), List.getElem?_set_ne (Ne.symm hni)]

/-- Exchanging two elements puts each in the place of the other. -/
theorem exchange_eq_map [DecidableEq κ] (hn : (l.map f).Nodup) (hi : l[i]? = some a) (hj : l[j]? = some b) :
    exchange l i j a b =
      l.map fun x ↦ if f x = f a then b else if f x = f b then a else x := by
  refine List.ext_getElem? fun n ↦ ?_
  rw [getElem?_exchange hi hj, List.getElem?_map]
  split_ifs with hnj hni
  · rw [hnj, hj, Option.map_some]
    split_ifs with hkey hkey'
    · obtain rfl := index_unique hn hi hj hkey.symm
      exact hi.symm.trans hj
    · rfl
    · exact absurd rfl hkey'
  · rw [hni, hi, Option.map_some, if_pos rfl]
  · cases hx : l[n]? with
    | none => rfl
    | some x =>
        have hxa : f x ≠ f a := fun h ↦ hni (index_unique hn hi hx h.symm).symm
        have hxb : f x ≠ f b := fun h ↦ hnj (index_unique hn hj hx h.symm).symm
        rw [Option.map_some, if_neg hxa, if_neg hxb]

theorem exchange_perm (hi : l[i]? = some a) (hj : l[j]? = some b) :
    (exchange l i j a b).Perm l := by
  obtain ⟨hlt, rfl⟩ := List.getElem?_eq_some_iff.mp hi
  obtain ⟨hlt', rfl⟩ := List.getElem?_eq_some_iff.mp hj
  exact List.set_set_perm hlt hlt'

/-- Exchanging the elements that stand there now restores the list. -/
theorem exchange_exchange (hi : l[i]? = some a) (hj : l[j]? = some b) (h : i ≠ j) :
    exchange (exchange l i j a b) j i a b = l := by
  have hi' : (exchange l i j a b)[i]? = some b := by
    rw [getElem?_exchange hi hj, if_neg h, if_pos rfl]
  have hj' : (exchange l i j a b)[j]? = some a := by
    rw [getElem?_exchange hi hj, if_pos rfl]
  refine List.ext_getElem? fun n ↦ ?_
  rw [getElem?_exchange hj' hi', getElem?_exchange hi hj]
  split_ifs with hni hnj
  · rw [hni, hi]
  · rw [hnj, hj]
  · rfl

/-- The first element that satisfies `q`, and where it stands. -/
structure FirstAt (l : List α) (q : α → Bool) (i : ℕ) (a : α) : Prop where
  get : l[i]? = some a
  holds : q a = true
  first : ∀ j < i, ∀ b, l[j]? = some b → q b = false

variable {q : α → Bool}

theorem find?_eq_some_iff : l.find? q = some a ↔ ∃ i, FirstAt l q i a := by
  rw [List.find?_eq_some_iff_getElem]
  constructor
  · rintro ⟨ha, i, hi, rfl, hfirst⟩
    refine ⟨i, List.getElem?_eq_getElem hi, ha, fun j hj b hb ↦ ?_⟩
    obtain ⟨hlt, rfl⟩ := List.getElem?_eq_some_iff.mp hb
    simpa using hfirst j hj
  · rintro ⟨i, hget, ha, hfirst⟩
    obtain ⟨hi, rfl⟩ := List.getElem?_eq_some_iff.mp hget
    exact ⟨ha, i, hi, rfl, fun j hj ↦ by
      simpa using hfirst j hj _ (List.getElem?_eq_getElem (hj.trans hi))⟩

theorem FirstAt.findIdx? (h : FirstAt l q i a) : l.findIdx? q = some i := by
  obtain ⟨hi, rfl⟩ := List.getElem?_eq_some_iff.mp h.get
  exact List.findIdx?_eq_some_iff_getElem.mpr ⟨hi, h.holds, fun j hj ↦ by
    simpa using h.first j hj _ (List.getElem?_eq_getElem (hj.trans hi))⟩

/-- The only element with its key is the first. -/
theorem firstAt [DecidableEq κ] (hn : (l.map f).Nodup) (ha : a ∈ l) :
    ∃ i, FirstAt l (fun x ↦ decide (f x = f a)) i a :=
  find?_eq_some_iff.mp (find?_eq hn ha)

/-- Another element in its place is the first one if it satisfies `q`. -/
theorem FirstAt.set (h : FirstAt l q i a) (hb : q b = true) : FirstAt (l.set i b) q i b where
  get := List.getElem?_set_self (List.getElem?_eq_some_iff.mp h.get).1
  holds := hb
  first := fun j hj c hc ↦ h.first j hj c (by rwa [List.getElem?_set_ne hj.ne'] at hc)

theorem set_self (h : l[i]? = some a) : l.set i a = l := by
  obtain ⟨hi, rfl⟩ := List.getElem?_eq_some_iff.mp h
  exact List.set_getElem_self hi

theorem modify_eq_set (h : l[i]? = some a) (g : α → α) : l.modify i g = l.set i (g a) := by
  refine List.ext_getElem? fun j ↦ ?_
  by_cases hij : i = j
  · subst hij
    rw [List.getElem?_modify_eq, List.getElem?_set_self (List.getElem?_eq_some_iff.mp h).1, h]
    rfl
  · rw [List.getElem?_modify_ne _ _ hij, List.getElem?_set_ne hij]

theorem map_fst_zip_sublist {β : Type*} (l : List α) (l' : List β) :
    ((l.zip l').map Prod.fst).Sublist l := by
  induction l generalizing l' with
  | nil => exact List.Sublist.refl _
  | cons a l ih =>
      cases l' with
      | nil => exact List.nil_sublist _
      | cons b l' => exact (ih l').cons_cons a

/-- Where only the element with one key contributes, its contribution is all there is. -/
theorem countP_flatMap_eq {β : Type*} {g : α → List β} {q : β → Bool} (hn : (l.map f).Nodup)
    (ha : a ∈ l) (h : ∀ b ∈ l, f b ≠ f a → ∀ c ∈ g b, q c = false) :
    (l.flatMap g).countP q = (g a).countP q := by
  have hzero : ∀ r ⊆ l, f a ∉ r.map f → (r.flatMap g).countP q = 0 := by
    intro r hr hfree
    refine List.countP_eq_zero.mpr fun c hc ↦ ?_
    obtain ⟨b, hb, hcb⟩ := List.mem_flatMap.mp hc
    have hne : f b ≠ f a := fun he ↦ hfree (he ▸ List.mem_map_of_mem hb)
    rw [h b (hr hb) hne c hcb]
    exact Bool.false_ne_true
  obtain ⟨l₁, l₂, rfl⟩ := List.append_of_mem ha
  rw [List.map_append, List.map_cons, List.nodup_append] at hn
  obtain ⟨-, hn₂, hdisjoint⟩ := hn
  have h₁ : f a ∉ l₁.map f := fun hm ↦ hdisjoint _ hm _ List.mem_cons_self rfl
  have h₂ : f a ∉ l₂.map f := (List.nodup_cons.mp hn₂).1
  have hsub₁ : l₁ ⊆ l₁ ++ a :: l₂ := List.subset_append_left l₁ _
  have hsub₂ : l₂ ⊆ l₁ ++ a :: l₂ :=
    List.Subset.trans (List.subset_cons_self a l₂) (List.subset_append_right l₁ _)
  rw [List.flatMap_append, List.flatMap_cons, List.countP_append, List.countP_append,
    hzero l₁ hsub₁ h₁, hzero l₂ hsub₂ h₂, Nat.zero_add, Nat.add_zero]

end Keyed

end ConcIR
