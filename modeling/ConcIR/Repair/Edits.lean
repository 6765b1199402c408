import ConcIR.Repair.Keyed
import ConcIR.Repair.Patch
import ConcIR.Validate.Names

/-!
# What a patch does

The changes of a patch are applied one after the other, each to the body that the ones
before it have left. As no two changes touch one statement, the result is the old body with
the exchanged statements in each other's places and without the deleted ones, and the order
of the changes does not matter.
-/

namespace ConcIR

namespace Repair

open Ast Keyed

section Spec

/-- Some change exchanges the two statements. -/
def exchanged (changes : List PatchChange) (x y : String) : Bool :=
  changes.contains (.swapStatements x y) || changes.contains (.swapStatements y x)

/-- The statement that comes in the place of `s`. -/
def replacement (changes : List PatchChange) (body : List Stmt) (s : Stmt) : Stmt :=
  (body.find? fun t ↦ exchanged changes s.sid t.sid).getD s

/-- The body with the listed pairs exchanged and without the deleted statements. -/
def edited (changes : List PatchChange) (body : List Stmt) : List Stmt :=
  (body.map (replacement changes body)).filter fun s ↦ !changes.contains (.deleteStatement s.sid)

/-- The two statements stand next to each other, as lock acquisitions. -/
def AdjacentLocks (body : List Stmt) (x y : String) : Prop :=
  ∃ pre s t post, body = pre ++ s :: t :: post ∧ Op.isMutexLock s.op = true ∧
    Op.isMutexLock t.op = true ∧ (s.sid = x ∧ t.sid = y ∨ s.sid = y ∧ t.sid = x)

/-- `p'` is `p` with another body for the function. -/
def BodyChanged (p p' : Program) (module function : String) (f : Function) (body : List Stmt) :
    Prop :=
  ∃ mi m fi, p.modules[mi]? = some m ∧ m.name = module ∧ m.functions[fi]? = some f ∧
    f.name = function ∧ p' = { p with
      modules := p.modules.set mi { m with functions := m.functions.set fi { f with body := body } } }

end Spec

section Exchanged

variable {changes changes' : List PatchChange} {c : PatchChange} {x y t a b : String}
  {body : List Stmt} {s : Stmt}

theorem exchanged_iff : exchanged changes x y = true ↔
    .swapStatements x y ∈ changes ∨ .swapStatements y x ∈ changes := by
  rw [exchanged, Bool.or_eq_true, List.contains_iff_mem, List.contains_iff_mem]

theorem touches_of_exchanged (h : exchanged changes x y = true) :
    ∃ c ∈ changes, x ∈ c.touches ∧ y ∈ c.touches := by
  rcases exchanged_iff.mp h with h | h
  · exact ⟨_, h, List.mem_cons_self, List.mem_cons_of_mem _ List.mem_cons_self⟩
  · exact ⟨_, h, List.mem_cons_of_mem _ List.mem_cons_self, List.mem_cons_self⟩

/-- A statement that no change touches stays. -/
theorem replacement_of_untouched (h : ∀ c ∈ changes, s.sid ∉ c.touches) :
    replacement changes body s = s := by
  have hnone : body.find? (fun t ↦ exchanged changes s.sid t.sid) = none := by
    refine List.find?_eq_none.mpr fun t _ ht ↦ ?_
    obtain ⟨c, hc, hs, -⟩ := touches_of_exchanged ht
    exact h c hc hs
  rw [replacement, hnone, Option.getD_none]

theorem replacement_eq (h : replacement changes body s ≠ s) :
    replacement changes body s ∈ body ∧
      exchanged changes s.sid (replacement changes body s).sid = true := by
  rw [replacement] at h ⊢
  cases hf : body.find? (fun t ↦ exchanged changes s.sid t.sid) with
  | none =>
      rw [hf] at h
      exact absurd rfl h
  | some t =>
      have hex := List.find?_some hf
      exact ⟨List.mem_of_find?_eq_some hf, hex⟩

/-- The result depends on which changes there are, not on their order. -/
theorem edited_congr (h : ∀ c, c ∈ changes ↔ c ∈ changes') :
    edited changes body = edited changes' body := by
  have hcontains : ∀ c, changes.contains c = changes'.contains c := fun c ↦ by
    rw [Bool.eq_iff_iff, List.contains_iff_mem, List.contains_iff_mem, h]
  have hexchanged : exchanged changes = exchanged changes' := by
    funext x y
    simp only [exchanged, hcontains]
  have hsame : replacement changes body = replacement changes' body := by
    funext s
    simp only [replacement, hexchanged]
  simp only [edited, hsame, hcontains]

theorem edited_nil : edited [] body = body := by
  have hmap : body.map (replacement [] body) = body :=
    (List.map_congr_left fun s _ ↦ replacement_of_untouched fun c hc ↦
      absurd hc List.not_mem_nil).trans (List.map_id body)
  rw [edited, hmap]
  exact List.filter_eq_self.mpr fun s _ ↦ rfl

end Exchanged

section OneChange

variable {changes : List PatchChange} {x y a b sid : String} {body : List Stmt} {sa sb s : Stmt}

/-- The changes after a deletion see the body without the statement. -/
theorem edited_delete (hfresh : ∀ c ∈ changes, sid ∉ c.touches) :
    edited (.deleteStatement sid :: changes) body =
      edited changes (body.filter fun s ↦ !decide (s.sid = sid)) := by
  have hexchanged : exchanged (.deleteStatement sid :: changes) = exchanged changes := by
    funext x y
    simp [exchanged]
  have hne : ∀ x t : String, exchanged changes x t = true → t ≠ sid := by
    rintro x t h rfl
    obtain ⟨c, hc, -, ht⟩ := touches_of_exchanged h
    exact hfresh c hc ht
  have hsame : replacement (.deleteStatement sid :: changes) body = replacement changes body := by
    funext s
    simp only [replacement, hexchanged]
  have hfilter : replacement changes (body.filter fun s ↦ !decide (s.sid = sid)) =
      replacement changes body := by
    funext s
    have hpred : (fun t : Stmt ↦ decide ((!decide (t.sid = sid)) = true ∧
        exchanged changes s.sid t.sid = true)) = fun t ↦ exchanged changes s.sid t.sid := by
      funext t
      rw [Bool.eq_iff_iff, decide_eq_true_eq]
      exact ⟨fun h ↦ h.2, fun h ↦ ⟨by simp [hne _ _ h], h⟩⟩
    rw [replacement, replacement, List.find?_filter, hpred]
  have hkey : ∀ s, (replacement changes body s).sid = sid ↔ s.sid = sid := by
    intro s
    by_cases hs : replacement changes body s = s
    · rw [hs]
    · have hex := (replacement_eq hs).2
      refine iff_of_false (hne _ _ hex) ?_
      rintro rfl
      obtain ⟨c, hc, ht, -⟩ := touches_of_exchanged hex
      exact hfresh c hc ht
  rw [edited, edited, hsame, hfilter, List.filter_map, List.filter_map, List.filter_filter]
  refine congrArg _ (List.filter_congr fun s _ ↦ ?_)
  rw [Bool.eq_iff_iff]
  simp only [Function.comp_apply, List.contains_cons, Bool.not_or, Bool.and_eq_true,
    Bool.not_eq_true', beq_eq_false_iff_ne, ne_eq, PatchChange.deleteStatement.injEq,
    decide_eq_false_iff_not, hkey]
  exact and_comm

/-- The changes after an exchange see the body with the two statements exchanged. -/
theorem edited_swap (hn : (body.map (·.sid)).Nodup) (ha : sa ∈ body) (hb : sb ∈ body)
    (hne : sa.sid ≠ sb.sid)
    (hfresh : ∀ c ∈ changes, sa.sid ∉ c.touches ∧ sb.sid ∉ c.touches) :
    edited (.swapStatements sa.sid sb.sid :: changes) body =
      edited changes (body.map fun s ↦ if s.sid = sa.sid then sb
        else if s.sid = sb.sid then sa else s) := by
  set swap : Stmt → Stmt := fun s ↦ if s.sid = sa.sid then sb
    else if s.sid = sb.sid then sa else s with hswap
  have hno : ∀ x t, exchanged changes x t = true →
      x ≠ sa.sid ∧ x ≠ sb.sid ∧ t ≠ sa.sid ∧ t ≠ sb.sid := by
    intro x t h
    obtain ⟨c, hc, hx, ht⟩ := touches_of_exchanged h
    refine ⟨?_, ?_, ?_, ?_⟩ <;> rintro rfl
    exacts [(hfresh c hc).1 hx, (hfresh c hc).2 hx, (hfresh c hc).1 ht, (hfresh c hc).2 ht]
  have hcons : ∀ x t, exchanged (.swapStatements sa.sid sb.sid :: changes) x t = true ↔
      (x = sa.sid ∧ t = sb.sid) ∨ (x = sb.sid ∧ t = sa.sid) ∨ exchanged changes x t = true := by
    intro x t
    simp only [exchanged_iff, List.mem_cons, PatchChange.swapStatements.injEq]
    tauto
  have hkeep : ∀ t, t.sid ≠ sa.sid → t.sid ≠ sb.sid → swap t = t := fun t h h' ↦ by
    rw [hswap]
    exact (if_neg h).trans (if_neg h')
  have hswapsid : ∀ x t, exchanged changes x (swap t).sid = exchanged changes x t.sid := by
    intro x t
    by_cases hta : t.sid = sa.sid
    · have hst : swap t = sb := if_pos hta
      rw [hst, hta, Bool.eq_iff_iff]
      exact ⟨fun h ↦ absurd rfl (hno _ _ h).2.2.2, fun h ↦ absurd rfl (hno _ _ h).2.2.1⟩
    · by_cases htb : t.sid = sb.sid
      · have hst : swap t = sa := (if_neg hta).trans (if_pos htb)
        rw [hst, htb, Bool.eq_iff_iff]
        exact ⟨fun h ↦ absurd rfl (hno _ _ h).2.2.1, fun h ↦ absurd rfl (hno _ _ h).2.2.2⟩
      · rw [hkeep t hta htb]
  have hpoint : ∀ s ∈ body, replacement (.swapStatements sa.sid sb.sid :: changes) body s =
      replacement changes (body.map swap) (swap s) := by
    intro s hs
    by_cases hsa : s.sid = sa.sid
    · have hst : swap s = sb := if_pos hsa
      have hpred : (fun t : Stmt ↦ exchanged (.swapStatements sa.sid sb.sid :: changes) s.sid t.sid) =
          fun t ↦ decide (t.sid = sb.sid) := by
        funext t
        rw [Bool.eq_iff_iff, hcons, decide_eq_true_eq, hsa]
        constructor
        · rintro (h | h | h)
          · exact h.2
          · exact absurd h.1 hne
          · exact absurd rfl (hno _ _ h).1
        · exact fun h ↦ .inl ⟨rfl, h⟩
      rw [hst, replacement_of_untouched fun c hc ↦ (hfresh c hc).2, replacement, hpred,
        find?_eq hn hb, Option.getD_some]
    · by_cases hsb : s.sid = sb.sid
      · have hst : swap s = sa := (if_neg hsa).trans (if_pos hsb)
        have hpred : (fun t : Stmt ↦ exchanged (.swapStatements sa.sid sb.sid :: changes) s.sid t.sid) =
            fun t ↦ decide (t.sid = sa.sid) := by
          funext t
          rw [Bool.eq_iff_iff, hcons, decide_eq_true_eq, hsb]
          constructor
          · rintro (h | h | h)
            · exact absurd h.1.symm hne
            · exact h.2
            · exact absurd rfl (hno _ _ h).2.1
          · exact fun h ↦ .inr (.inl ⟨rfl, h⟩)
        rw [hst, replacement_of_untouched fun c hc ↦ (hfresh c hc).1, replacement, hpred,
          find?_eq hn ha, Option.getD_some]
      · have hpred : (fun t : Stmt ↦ exchanged (.swapStatements sa.sid sb.sid :: changes) s.sid t.sid) =
            fun t ↦ exchanged changes s.sid t.sid := by
          funext t
          rw [Bool.eq_iff_iff, hcons]
          tauto
        have hcomp : ((fun t : Stmt ↦ exchanged changes s.sid t.sid) ∘ swap) =
            fun t ↦ exchanged changes s.sid t.sid := funext fun t ↦ hswapsid _ t
        rw [hkeep s hsa hsb, replacement, replacement, hpred, List.find?_map, hcomp]
        cases hf : body.find? (fun t ↦ exchanged changes s.sid t.sid) with
        | none => rfl
        | some t =>
            have hex := List.find?_some hf
            have ht := hno _ _ hex
            rw [Option.map_some, hkeep t ht.2.2.1 ht.2.2.2]
  have hdelete : ∀ s : Stmt, (PatchChange.swapStatements sa.sid sb.sid :: changes).contains
      (.deleteStatement s.sid) = changes.contains (.deleteStatement s.sid) := fun s ↦ by
    simp
  simp only [edited, hdelete, List.map_congr_left hpoint, List.map_map, Function.comp_def]

end OneChange

section Apply

variable {f f' : Function} {a b sid t : String}

/-- An exchange that is accepted, with everything that it has checked. -/
structure Swaps (f : Function) (a b : String) (ia ib : ℕ) (sa sb : Stmt) : Prop where
  first : f.body[ia]? = some sa
  second : f.body[ib]? = some sb
  firstSid : sa.sid = a
  secondSid : sb.sid = b
  firstLock : Op.isMutexLock sa.op = true
  secondLock : Op.isMutexLock sb.op = true
  adjacent : ia + 1 = ib ∨ ib + 1 = ia
  firstFree : isControlTarget f a = false
  secondFree : isControlTarget f b = false

theorem Swaps.ne {ia ib : ℕ} {sa sb : Stmt} (h : Swaps f a b ia ib sa sb) : ia ≠ ib := by
  rcases h.adjacent with h | h <;> omega

theorem applySwap_ok (h : applySwap f a b = .ok f') : ∃ ia ib sa sb, Swaps f a b ia ib sa sb ∧
    f' = { f with body := exchange f.body ia ib sa sb } := by
  rw [applySwap] at h
  split at h
  case _ => cases h
  case _ ia hia =>
    split at h
    case _ => cases h
    case _ ib hib =>
      obtain ⟨sa, hsa, rfl⟩ := findIdx?_sound hia
      obtain ⟨sb, hsb, rfl⟩ := findIdx?_sound hib
      simp only [hsa, hsb] at h
      split_ifs at h with heq hlock hadj htarget
      simp only [Bool.or_eq_true, Bool.not_eq_true', not_or, Bool.not_eq_false,
        Bool.not_eq_true] at hlock htarget
      refine ⟨ia, ib, sa, sb, ⟨hsa, hsb, rfl, rfl, hlock.1, hlock.2, ?_, htarget.1, htarget.2⟩,
        (Except.ok.inj h).symm⟩
      omega

theorem applySwap_eq (hn : (f.body.map (·.sid)).Nodup) {ia ib : ℕ} {sa sb : Stmt}
    (h : Swaps f a b ia ib sa sb) :
    applySwap f a b = .ok { f with body := exchange f.body ia ib sa sb } := by
  obtain ⟨hsa, hsb, rfl, rfl, hla, hlb, hadj, hta, htb⟩ := h
  have hia := findIdx?_eq (f := Stmt.sid) hn hsa
  have hib := findIdx?_eq (f := Stmt.sid) hn hsb
  have hne : ia ≠ ib := by omega
  have hnear : ¬(ia + 1 ≠ ib ∧ ib + 1 ≠ ia) := by omega
  rw [applySwap]
  simp only [hia, hib, hsa, hsb, if_neg hne, hla, hlb, if_neg hnear, hta, htb, Bool.not_true,
    Bool.or_self, Bool.false_eq_true, if_false]
  rfl

theorem applyDelete_ok (h : applyDelete f sid = .ok f') : ∃ i s, f.body[i]? = some s ∧
    s.sid = sid ∧ s.isControl = false ∧ isControlTarget f sid = false ∧
      f' = { f with body := f.body.eraseIdx i } := by
  rw [applyDelete] at h
  split at h
  case _ => cases h
  case _ i hi =>
    obtain ⟨s, hs, rfl⟩ := findIdx?_sound hi
    simp only [hs, Option.map_some, Option.getD_some] at h
    split_ifs at h with hcontrol htarget
    exact ⟨i, s, hs, rfl, Bool.eq_false_iff.mpr hcontrol, Bool.eq_false_iff.mpr htarget,
      (Except.ok.inj h).symm⟩

/-- What one accepted change does to the body. -/
structure Changed (f : Function) (c : PatchChange) (body : List Stmt) : Prop where
  nodup : (body.map (·.sid)).Nodup
  subset : body ⊆ f.body
  edited : ∀ cs : List PatchChange, (∀ d ∈ cs, ∀ x ∈ c.touches, x ∉ d.touches) →
    edited (c :: cs) f.body = edited cs body
  keeps : ∀ x ∈ f.body.map (·.sid), c ≠ .deleteStatement x → x ∈ body.map (·.sid)
  deleted : ∀ x, c = .deleteStatement x → isControlTarget f x = false
  swapped : ∀ x y, c = .swapStatements x y → AdjacentLocks body x y
  touched : ∀ x ∈ c.touches, x ∈ f.body.map (·.sid)
  adjacent : ∀ x y, x ∉ c.touches → y ∉ c.touches → AdjacentLocks f.body x y →
    AdjacentLocks body x y

theorem AdjacentLocks.filter {body : List Stmt} {x y : String} {q : Stmt → Bool}
    (h : AdjacentLocks body x y) (hq : ∀ s, s.sid = x ∨ s.sid = y → q s = true) :
    AdjacentLocks (body.filter q) x y := by
  obtain ⟨pre, s, t, post, rfl, hs, ht, hsid⟩ := h
  refine ⟨pre.filter q, s, t, post.filter q, ?_, hs, ht, hsid⟩
  have hqs : q s = true := hq s (hsid.imp And.left And.left)
  have hqt : q t = true := hq t (hsid.symm.imp And.right And.right)
  rw [List.filter_append, List.filter_cons_of_pos hqs, List.filter_cons_of_pos hqt]

theorem AdjacentLocks.map {body : List Stmt} {x y : String} {g : Stmt → Stmt}
    (h : AdjacentLocks body x y) (hg : ∀ s, s.sid = x ∨ s.sid = y → g s = s) :
    AdjacentLocks (body.map g) x y := by
  obtain ⟨pre, s, t, post, rfl, hs, ht, hsid⟩ := h
  refine ⟨pre.map g, s, t, post.map g, ?_, hs, ht, hsid⟩
  have hgs : g s = s := hg s (hsid.imp And.left And.left)
  have hgt : g t = t := hg t (hsid.symm.imp And.right And.right)
  rw [List.map_append, List.map_cons, List.map_cons, hgs, hgt]

theorem adjacentLocks_of_getElem? {body : List Stmt} {i : ℕ} {s t : Stmt}
    (hs : body[i]? = some s) (ht : body[i + 1]? = some t) (hls : Op.isMutexLock s.op = true)
    (hlt : Op.isMutexLock t.op = true) {x y : String}
    (h : s.sid = x ∧ t.sid = y ∨ s.sid = y ∧ t.sid = x) : AdjacentLocks body x y := by
  obtain ⟨hi, rfl⟩ := List.getElem?_eq_some_iff.mp hs
  obtain ⟨hi', rfl⟩ := List.getElem?_eq_some_iff.mp ht
  refine ⟨body.take i, _, _, body.drop (i + 2), ?_, hls, hlt, h⟩
  rw [← List.drop_eq_getElem_cons hi', ← List.drop_eq_getElem_cons hi, List.take_append_drop]

theorem applyChange_ok (hn : (f.body.map (·.sid)).Nodup) {c : PatchChange}
    (h : applyChange f c = .ok f') : ∃ body, f' = { f with body := body } ∧ Changed f c body := by
  cases c with
  | deleteStatement sid =>
      obtain ⟨i, s, hs, rfl, hcontrol, htarget, rfl⟩ := applyDelete_ok h
      have herase := eraseIdx_eq_filter (f := Stmt.sid) hn hs
      refine ⟨_, rfl, ?_⟩
      rw [herase]
      constructor
      · exact hn.sublist (List.filter_sublist.map _)
      · exact List.filter_subset_self _
      · intro cs hfresh
        exact edited_delete fun d hd ↦ hfresh d hd _ List.mem_cons_self
      · intro x hx hne
        obtain ⟨r, hr, rfl⟩ := List.mem_map.mp hx
        refine List.mem_map_of_mem (List.mem_filter.mpr ⟨hr, ?_⟩)
        have hrs : r.sid ≠ s.sid := fun he ↦ hne (by rw [he])
        rw [decide_eq_false hrs, Bool.not_false]
      · rintro x ⟨⟩
        exact htarget
      · rintro x y ⟨⟩
      · intro x hx
        rw [List.mem_singleton.mp hx]
        exact List.mem_map_of_mem (List.mem_of_getElem? hs)
      · intro x y hx hy hadj
        refine hadj.filter fun r hr ↦ ?_
        have hrs : r.sid ≠ s.sid := by
          rintro he
          rcases hr with rfl | rfl
          · exact hx (he ▸ List.mem_cons_self)
          · exact hy (he ▸ List.mem_cons_self)
        rw [decide_eq_false hrs, Bool.not_false]
  | swapStatements a b =>
      obtain ⟨ia, ib, sa, sb, hswap, rfl⟩ := applySwap_ok h
      have hne := hswap.ne
      obtain ⟨hsa, hsb, rfl, rfl, hla, hlb, hadj, -, -⟩ := hswap
      have hperm := exchange_perm hsa hsb
      have hmap := exchange_eq_map (f := Stmt.sid) hn hsa hsb
      have hsid : sa.sid ≠ sb.sid := fun he ↦ hne (index_unique hn hsa hsb he)
      refine ⟨_, rfl, ?_⟩
      constructor
      · exact (hperm.map _).nodup_iff.mpr hn
      · exact hperm.subset
      · intro cs hfresh
        rw [hmap]
        refine edited_swap hn (List.mem_of_getElem? hsa) (List.mem_of_getElem? hsb) hsid
          fun d hd ↦ ⟨hfresh d hd _ List.mem_cons_self, ?_⟩
        exact hfresh d hd _ (List.mem_cons_of_mem _ List.mem_cons_self)
      · exact fun x hx _ ↦ (hperm.map _).mem_iff.mpr hx
      · rintro x ⟨⟩
      · rintro x y ⟨⟩
        have hat : ∀ n, (exchange f.body ia ib sa sb)[n]? = if n = ib then some sa
            else if n = ia then some sb else f.body[n]? := getElem?_exchange hsa hsb
        have hia : (exchange f.body ia ib sa sb)[ia]? = some sb := by
          rw [hat, if_neg hne, if_pos rfl]
        have hib : (exchange f.body ia ib sa sb)[ib]? = some sa := by
          rw [hat, if_pos rfl]
        rcases hadj with rfl | rfl
        · exact adjacentLocks_of_getElem? hia hib hlb hla (.inr ⟨rfl, rfl⟩)
        · exact adjacentLocks_of_getElem? hib hia hla hlb (.inl ⟨rfl, rfl⟩)
      · intro x hx
        rcases List.mem_cons.mp hx with rfl | hx
        · exact List.mem_map_of_mem (List.mem_of_getElem? hsa)
        · rw [List.mem_singleton.mp hx]
          exact List.mem_map_of_mem (List.mem_of_getElem? hsb)
      · intro x y hx hy hadj'
        rw [hmap]
        refine hadj'.map fun r hr ↦ ?_
        have hout : r.sid ≠ sa.sid ∧ r.sid ≠ sb.sid := by
          constructor <;> rintro he <;> rcases hr with rfl | rfl
          · exact hx (he ▸ List.mem_cons_self)
          · exact hy (he ▸ List.mem_cons_self)
          · exact hx (he ▸ List.mem_cons_of_mem _ List.mem_cons_self)
          · exact hy (he ▸ List.mem_cons_of_mem _ List.mem_cons_self)
        rw [if_neg hout.1, if_neg hout.2]

end Apply

section Changes

variable {B : Toolchain} {f f' : Function} {changes : List PatchChange}

theorem touch_ok {touched touched' ids : List String} (h : touch touched ids = .ok touched') :
    (∀ x ∈ ids, x ∉ touched) ∧ ∀ x, x ∈ touched' ↔ x ∈ ids ∨ x ∈ touched := by
  induction ids generalizing touched with
  | nil =>
      obtain rfl := Except.ok.inj h
      exact ⟨fun x hx ↦ absurd hx List.not_mem_nil, fun x ↦ by simp⟩
  | cons id ids ih =>
      rw [touch] at h
      split_ifs at h with hid
      obtain ⟨hfresh, hmem⟩ := ih h
      constructor
      · exact List.forall_mem_cons.mpr
          ⟨hid, fun x hx hxt ↦ hfresh x hx (List.mem_cons_of_mem _ hxt)⟩
      · intro x
        rw [hmem, List.mem_cons, List.mem_cons]
        tauto

/-- What an accepted list of changes does to the body. -/
structure Edits (f : Function) (changes : List PatchChange) (body : List Stmt) : Prop where
  edited : body = edited changes f.body
  nodup : (body.map (·.sid)).Nodup
  subset : body ⊆ f.body
  keeps : ∀ x ∈ f.body.map (·.sid), .deleteStatement x ∉ changes → x ∈ body.map (·.sid)
  deleted : ∀ x, .deleteStatement x ∈ changes → isControlTarget { f with body := body } x = false
  swapped : ∀ x y, .swapStatements x y ∈ changes → AdjacentLocks body x y
  touched : ∀ c ∈ changes, ∀ x ∈ c.touches, x ∈ f.body.map (·.sid)
  adjacent : ∀ x y, (∀ c ∈ changes, x ∉ c.touches ∧ y ∉ c.touches) → AdjacentLocks f.body x y →
    AdjacentLocks body x y

theorem isControlTarget_mono {body : List Stmt} {x : String} (hsub : body ⊆ f.body)
    (h : isControlTarget { f with body := body } x = true) : isControlTarget f x = true := by
  obtain ⟨s, hs, ht⟩ := List.any_eq_true.mp h
  exact List.any_eq_true.mpr ⟨s, hsub hs, ht⟩

theorem applyChanges_ok {seen : List PatchChange} {touched : List String}
    (hn : (f.body.map (·.sid)).Nodup) (h : B.applyChanges seen touched f changes = .ok f') :
    (∀ c ∈ changes, ∀ x ∈ c.touches, x ∉ touched) ∧
      ∃ body, f' = { f with body := body } ∧ Edits f changes body := by
  induction changes generalizing seen touched f with
  | nil =>
      obtain rfl := Except.ok.inj h
      refine ⟨fun c hc ↦ absurd hc List.not_mem_nil, f.body, rfl, edited_nil.symm, hn,
        List.Subset.refl _, fun x hx _ ↦ hx, ?_, ?_, ?_, fun x y _ hadj ↦ hadj⟩
      · exact fun x hx ↦ absurd hx List.not_mem_nil
      · exact fun x y hx ↦ absurd hx List.not_mem_nil
      · exact fun c hc ↦ absurd hc List.not_mem_nil
  | cons c changes ih =>
      rw [Toolchain.applyChanges] at h
      split_ifs at h
      split at h
      case _ => cases h
      case _ touched' htouch =>
        split at h
        case _ => cases h
        case _ f₁ hchange =>
          obtain ⟨body₁, rfl, hc⟩ := applyChange_ok hn hchange
          obtain ⟨hfresh, body, rfl, he⟩ := ih hc.nodup h
          obtain ⟨hids, hmem⟩ := touch_ok htouch
          have hdisjoint : ∀ d ∈ changes, ∀ x ∈ c.touches, x ∉ d.touches := fun d hd x hx hxd ↦
            hfresh d hd x hxd ((hmem x).mpr (.inl hx))
          have hsub : ({ f with body := body₁ } : Function).body ⊆ f.body := hc.subset
          refine ⟨List.forall_mem_cons.mpr ⟨hids, fun d hd x hx hxt ↦
            hfresh d hd x hx ((hmem x).mpr (.inr hxt))⟩, body, rfl, ?_⟩
          constructor
          · exact he.edited.trans (hc.edited changes hdisjoint).symm
          · exact he.nodup
          · exact List.Subset.trans he.subset hsub
          · intro x hx hdel
            refine he.keeps x (hc.keeps x hx fun hcx ↦ hdel (hcx ▸ List.mem_cons_self)) fun hx ↦ ?_
            exact hdel (List.mem_cons_of_mem _ hx)
          · intro x hx
            rcases List.mem_cons.mp hx with hx | hx
            · have hfree := hc.deleted x hx.symm
              by_contra htarget
              have ht := Bool.eq_true_of_not_eq_false htarget
              exact Bool.false_ne_true
                (hfree.symm.trans (isControlTarget_mono (List.Subset.trans he.subset hsub) ht))
            · exact he.deleted x hx
          · intro x y hxy
            rcases List.mem_cons.mp hxy with hxy | hxy
            · refine he.adjacent x y (fun d hd ↦ ?_) (hc.swapped x y hxy.symm)
              subst hxy
              exact ⟨hdisjoint d hd x List.mem_cons_self,
                hdisjoint d hd y (List.mem_cons_of_mem _ List.mem_cons_self)⟩
            · exact he.swapped x y hxy
          · refine List.forall_mem_cons.mpr ⟨hc.touched, fun d hd x hx ↦ ?_⟩
            obtain ⟨s, hs, rfl⟩ := List.mem_map.mp (he.touched d hd x hx)
            exact List.mem_map_of_mem (hsub hs)
          · intro x y hno hadj
            have hhead := hno c List.mem_cons_self
            exact he.adjacent x y (fun d hd ↦ hno d (List.mem_cons_of_mem _ hd))
              (hc.adjacent x y hhead.1 hhead.2 hadj)

end Changes

section Frame

variable {B : Toolchain} {p p' : Program} {patch : CirPatch} {diff module function : String}
  {f g : Function}

/-- The function a patch is for, and where it stands. -/
structure Found (p : Program) (module function : String) (mi : ℕ) (m : Module) (fi : ℕ)
    (f : Function) : Prop where
  module : FirstAt p.modules (fun m ↦ decide (m.name = module)) mi m
  function : FirstAt m.functions (fun f ↦ decide (f.name = function)) fi f

theorem found_iff : Toolchain.findFunction p module function = .ok f ↔
    ∃ mi m fi, Found p module function mi m fi f := by
  rw [Toolchain.findFunction, Program.lookupModule]
  constructor
  · intro h
    split at h
    case _ => cases h
    case _ m hm =>
      split at h
      case _ => cases h
      case _ g hg =>
        obtain rfl := Except.ok.inj h
        obtain ⟨mi, hmi⟩ := find?_eq_some_iff.mp hm
        obtain ⟨fi, hfi⟩ := find?_eq_some_iff.mp hg
        exact ⟨mi, m, fi, hmi, hfi⟩
  · rintro ⟨mi, m, fi, hm, hf⟩
    rw [find?_eq_some_iff.mpr ⟨mi, hm⟩]
    simp only [find?_eq_some_iff.mpr ⟨fi, hf⟩]

/-- The program with another function in its place. -/
def replaced (p : Program) (mi : ℕ) (m : Module) (fi : ℕ) (g : Function) : Program :=
  { p with modules := p.modules.set mi { m with functions := m.functions.set fi g } }

variable {mi fi : ℕ} {m : Module}

theorem Found.setFunction (h : Found p module function mi m fi f) (g : Function) :
    Toolchain.setFunction p module function g = replaced p mi m fi g := by
  rw [Toolchain.setFunction, h.module.findIdx?]
  simp only [modify_eq_set h.module.get, h.function.findIdx?]
  rfl

/-- The function that a patch has put there is found there. -/
theorem Found.replaced (h : Found p module function mi m fi f) (hg : g.name = f.name) :
    Found (replaced p mi m fi g) module function mi
      { m with functions := m.functions.set fi g } fi g where
  module := h.module.set h.module.holds
  function := h.function.set (by rw [hg]; exact h.function.holds)

theorem Found.restore (h : Found p module function mi m fi f) (g : Function) :
    Repair.replaced (Repair.replaced p mi m fi g) mi
      { m with functions := m.functions.set fi g } fi f = p := by
  simp only [Repair.replaced, List.set_set, set_self h.function.get, set_self h.module.get]

/-- A patch that applies, from the outside in. -/
theorem apply_ok (h : B.apply p patch = .ok (p', diff)) :
    ∃ f f', Toolchain.findFunction p patch.module patch.function = .ok f ∧
      B.applyChanges [] [] f patch.changes = .ok f' ∧
      p' = Toolchain.setFunction p patch.module patch.function f' ∧
      diff = Toolchain.renderDiff patch.function patch.changes := by
  rw [Toolchain.apply] at h
  split at h
  case _ => cases h
  case _ =>
    split_ifs at h
    split at h
    case _ => cases h
    case _ f hf =>
      split at h
      case _ => cases h
      case _ f' hf' =>
        obtain ⟨rfl, rfl⟩ := Prod.mk.inj (Except.ok.inj h)
        exact ⟨f, f', hf, hf', rfl, rfl⟩

theorem apply_eq {f' : Function}
    (hhash : B.functionHash p patch.module patch.function = .ok patch.originalHash)
    (hf : Toolchain.findFunction p patch.module patch.function = .ok f)
    (hf' : B.applyChanges [] [] f patch.changes = .ok f') :
    B.apply p patch = .ok (Toolchain.setFunction p patch.module patch.function f',
      Toolchain.renderDiff patch.function patch.changes) := by
  simp only [Toolchain.apply, hhash, ne_eq, not_true_eq_false, if_false, hf, hf']

end Frame

section Claim

variable (B : Toolchain) {p : Program}

/-- Every jump of the body leads to a statement of it. -/
def TargetsExist (f : Function) (body : List Stmt) : Prop :=
  ∀ t, isControlTarget { f with body := body } t = true → t ∈ body.map (·.sid)

theorem mem_successors_of_isControlTarget {f : Function} {t : String}
    (h : isControlTarget f t = true) : ∃ i, t ∈ f.successors i := by
  obtain ⟨s, hs, ht⟩ := List.any_eq_true.mp h
  obtain ⟨i, hi⟩ := List.getElem?_of_mem hs
  refine ⟨i, ?_⟩
  rw [Function.successors, hi]
  simp only [Stmt.successors]
  cases hop : s.op with
  | goto target =>
      simp only [hop, decide_eq_true_eq] at ht
      exact ht ▸ List.mem_cons_self
  | branch cond thenTarget elseTarget =>
      simp only [hop, Bool.or_eq_true, decide_eq_true_eq] at ht
      rcases ht with rfl | rfl
      · exact List.mem_cons_self
      · exact List.mem_cons_of_mem _ List.mem_cons_self
  | switch var cases default =>
      simp only [hop, Bool.or_eq_true, List.any_eq_true, decide_eq_true_eq] at ht
      rcases ht with ⟨c, hc, rfl⟩ | rfl
      · exact List.mem_append_left _ (List.mem_map_of_mem hc)
      · exact List.mem_append_right _ List.mem_cons_self
  | select branches default =>
      simp only [hop, Bool.or_eq_true, List.any_eq_true, decide_eq_true_eq] at ht
      rcases ht with ⟨c, hc, rfl⟩ | rfl
      · exact List.mem_append_left _ (List.mem_map_of_mem hc)
      · exact List.mem_append_right _ List.mem_cons_self
  | _ =>
      rw [hop] at ht
      cases ht

theorem Edits.targetsExist {f : Function} {changes : List PatchChange} {body : List Stmt}
    (h : Edits f changes body) (hv : ∀ i, ∀ t ∈ f.successors i, t ∈ f.body.map (·.sid)) :
    TargetsExist f body := by
  intro t ht
  obtain ⟨i, hi⟩ := mem_successors_of_isControlTarget (isControlTarget_mono h.subset ht)
  refine h.keeps t (hv i t hi) fun hdel ↦ ?_
  rw [h.deleted t hdel] at ht
  cases ht

theorem applyChanges_swap {f : Function} {a b : String} (hne : a ≠ b) :
    B.applyChanges [] [] f [.swapStatements a b] = applySwap f a b := by
  have hb : b ∉ [a] := fun h ↦ hne (List.mem_singleton.mp h).symm
  simp only [Toolchain.applyChanges, List.not_mem_nil, if_false, PatchChange.touches, touch, hb,
    applyChange]
  cases applySwap f a b <;> rfl

theorem ne_of_applyChanges {f f' : Function} {a b : String}
    (h : B.applyChanges [] [] f [.swapStatements a b] = .ok f') : a ≠ b := by
  rintro rfl
  simp [Toolchain.applyChanges, PatchChange.touches, touch] at h

/-- Exchanging the same statements again. -/
theorem Swaps.again {f : Function} {a b : String} {ia ib : ℕ} {sa sb : Stmt}
    (h : Swaps f a b ia ib sa sb) :
    Swaps { f with body := exchange f.body ia ib sa sb } a b ib ia sa sb := by
  have hat := getElem?_exchange h.first h.second
  have hfree : ∀ x, isControlTarget f x = false →
      isControlTarget { f with body := exchange f.body ia ib sa sb } x = false := by
    intro x hx
    by_contra ht
    exact Bool.false_ne_true (hx.symm.trans (isControlTarget_mono
      (exchange_perm h.first h.second).subset (Bool.eq_true_of_not_eq_false ht)))
  exact ⟨by simp only [hat, if_true], by simp only [hat, if_neg h.ne, if_true], h.firstSid,
    h.secondSid, h.firstLock, h.secondLock, h.adjacent.symm, hfree a h.firstFree,
    hfree b h.secondFree⟩

/-- A patch that applies changes the body of its function only, to the body with the listed
pairs exchanged, which are adjacent lock acquisitions, and without the listed deletions, and
leaves every jump a target. The order of the changes does not matter, and the same exchange
again, made for the function as it then is, restores the program. -/
theorem apply_effect (hv : Validate.checkNames p = []) :
    (∀ patch p' diff, B.apply p patch = .ok (p', diff) →
      ∃ f, BodyChanged p p' patch.module patch.function f (edited patch.changes f.body) ∧
        (∀ c ∈ patch.changes, ∀ x ∈ c.touches, x ∈ f.body.map (·.sid)) ∧
        (∀ x y, .swapStatements x y ∈ patch.changes →
          AdjacentLocks (edited patch.changes f.body) x y) ∧
        TargetsExist f (edited patch.changes f.body)) ∧
    (∀ patch patch' p₁ d₁ p₂ d₂, patch'.module = patch.module →
      patch'.function = patch.function → patch.changes.Perm patch'.changes →
        B.apply p patch = .ok (p₁, d₁) → B.apply p patch' = .ok (p₂, d₂) → p₁ = p₂) ∧
    (∀ patch a b p' diff hash, patch.changes = [.swapStatements a b] →
      B.apply p patch = .ok (p', diff) →
        B.functionHash p' patch.module patch.function = .ok hash →
          B.apply p' { patch with originalHash := hash } = .ok (p, diff)) := by
  have hnames := Validate.namesUnique_of_checkNames hv
  have hfun : ∀ {module function mi m fi f}, Found p module function mi m fi f →
      m ∈ p.modules ∧ f ∈ m.functions := fun h ↦
    ⟨List.mem_of_getElem? h.module.get, List.mem_of_getElem? h.function.get⟩
  refine ⟨?_, ?_, ?_⟩
  · intro patch p' diff h
    obtain ⟨f, f', hf, hf', rfl, -⟩ := apply_ok h
    obtain ⟨mi, m, fi, hfound⟩ := found_iff.mp hf
    obtain ⟨hm, hfm⟩ := hfun hfound
    obtain ⟨-, body, rfl, he⟩ := applyChanges_ok (hnames.sids m hm f hfm) hf'
    have hbody := he.edited
    subst hbody
    refine ⟨f, ?_, he.touched, he.swapped, he.targetsExist (hnames.targets m hm f hfm)⟩
    exact ⟨mi, m, fi, hfound.module.get, of_decide_eq_true hfound.module.holds,
      hfound.function.get, of_decide_eq_true hfound.function.holds, hfound.setFunction _⟩
  · intro patch patch' p₁ d₁ p₂ d₂ hmodule hfunction hperm h h'
    obtain ⟨f, f₁, hf, hf₁, rfl, -⟩ := apply_ok h
    obtain ⟨g, f₂, hg, hf₂, rfl, -⟩ := apply_ok h'
    rw [hmodule, hfunction] at hg ⊢
    obtain rfl := Except.ok.inj (hf.symm.trans hg)
    obtain ⟨mi, m, fi, hfound⟩ := found_iff.mp hf
    obtain ⟨hm, hfm⟩ := hfun hfound
    obtain ⟨-, body₁, rfl, he₁⟩ := applyChanges_ok (hnames.sids m hm f hfm) hf₁
    obtain ⟨-, body₂, rfl, he₂⟩ := applyChanges_ok (hnames.sids m hm f hfm) hf₂
    rw [he₁.edited, he₂.edited, edited_congr fun c ↦ hperm.mem_iff]
  · intro patch a b p' diff hash hchanges h hhash
    obtain ⟨f, f', hf, hf', rfl, rfl⟩ := apply_ok h
    obtain ⟨mi, m, fi, hfound⟩ := found_iff.mp hf
    obtain ⟨hm, hfm⟩ := hfun hfound
    have hn := hnames.sids m hm f hfm
    rw [hchanges] at hf'
    have hne := ne_of_applyChanges B hf'
    rw [applyChanges_swap B hne] at hf'
    obtain ⟨ia, ib, sa, sb, hswap, rfl⟩ := applySwap_ok hf'
    rw [hfound.setFunction] at hhash ⊢
    set f₁ : Function := { f with body := exchange f.body ia ib sa sb } with hf₁
    have hfound₁ : Found (replaced p mi m fi f₁) patch.module patch.function mi
        { m with functions := m.functions.set fi f₁ } fi f₁ := hfound.replaced rfl
    have hn₁ : (f₁.body.map (·.sid)).Nodup :=
      ((exchange_perm hswap.first hswap.second).map _).nodup_iff.mpr hn
    have hback : applySwap f₁ a b = .ok f := by
      rw [applySwap_eq hn₁ hswap.again, hf₁]
      simp only [exchange_exchange hswap.first hswap.second hswap.ne]
    refine (@apply_eq B _ { patch with originalHash := hash } _ f hhash
      (found_iff.mpr ⟨_, _, _, hfound₁⟩) ?_).trans ?_
    · simp only [hchanges]
      rw [applyChanges_swap B hne]
      exact hback
    · simp only [hfound₁.setFunction, hfound.restore]

end Claim

section Weave

/-- The JSON text of a function with no fields beyond its name, its kind and its body, and
of its lock statements, returns and steps that do nothing. -/
def bareJson (f : Function) : String :=
  "\x7b\"name\":" ++ jsonString f.name ++ ",\"kind\":" ++ jsonString f.kind ++ ",\"body\":[" ++
    joinWith "," (f.body.map fun s ↦ "\x7b\"sid\":" ++ jsonString s.sid ++ ",\"kind\":" ++
      (match s.op with
        | .mutexLock r => "\"mutex_lock\",\"resource\":" ++ jsonString r
        | .mutexUnlock r => "\"mutex_unlock\",\"resource\":" ++ jsonString r
        | .ret none => "\"return\""
        | _ => "\"nop\"") ++ "\x7d") ++ "]\x7d"

def bareTools : Toolchain where
  functionJson f := .ok (bareJson f)
  programJson _ := .error "not serialised"
  specJson _ := .error "not serialised"
  debugString s := "\"" ++ s ++ "\""
  validate _ := ⟨true, []⟩
  lower _ := .error (.invalid ⟨"", "", none⟩)
  resolve _ _ := .error (.invalid "")
  diagnose _ _ := ([], [])
  crateVersion := ""
  binaryFingerprint := ""

/-- Two lock acquisitions with a step between them. -/
def weaveMain : Function where
  name := "main"
  kind := "normal"
  form := "function"
  params := []
  returns := none
  locals := []
  body := [⟨"s0", .mutexLock "a"⟩, ⟨"s1", .nop⟩, ⟨"s2", .mutexLock "b"⟩, ⟨"s3", .mutexUnlock "b"⟩,
    ⟨"s4", .mutexUnlock "a"⟩, ⟨"s5", .ret none⟩]
  effects := none
  mayBlock := none
  locks := ⟨[], [], []⟩
  bound := none

def weave : Program where
  program := "weave"
  version := "1"
  modules := [{
    name := "m"
    provides := ⟨[], [], []⟩
    requires := ⟨[], [], []⟩
    types := []
    resources := [⟨"a", "sync", "Mutex", some "Sync", none, none, none, none⟩,
      ⟨"b", "sync", "Mutex", some "Sync", none, none, none, none⟩]
    protection := []
    functions := [weaveMain] }]
  entry := "m::main"

/-- The exchange is possible once the step between the acquisitions is gone. -/
def weavePatch : CirPatch where
  id := "weave"
  module := "m"
  function := "main"
  originalHash := fnv (bareJson weaveMain)
  changes := [.deleteStatement "s1", .swapStatements "s0" "s2"]
  provenance := []

theorem apply_effect_weave : ∃ p' diff, bareTools.apply weave weavePatch = .ok (p', diff) ∧
    (∃ f, BodyChanged weave p' "m" "main" f (edited weavePatch.changes f.body)) ∧
    (edited weavePatch.changes weaveMain.body).map (·.sid) = ["s2", "s0", "s3", "s4", "s5"] := by
  have hok : (bareTools.apply weave weavePatch).toOption.isSome = true := by decide +kernel
  cases h : bareTools.apply weave weavePatch with
  | error e =>
      rw [h] at hok
      cases hok
  | ok r =>
      obtain ⟨f, hf, -⟩ := (apply_effect bareTools (p := weave) (by decide +kernel)).1 weavePatch
        r.1 r.2 h
      exact ⟨r.1, r.2, rfl, ⟨f, hf⟩, by decide +kernel⟩

end Weave

end Repair

end ConcIR
