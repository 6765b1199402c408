import ConcIR.Control.Threads

/-!
# Lock discipline

The locks that an activation holds follow from the way its control has gone. Where every body
gives back what it takes, on every way through it, the owner of a lock is the thread with an
activation that holds it, and a thread that has ended owns nothing.
-/

namespace ConcIR.Control

variable {T A F N L : Type*}

section Ways

variable [DecidableEq L]

/-- The locks that are held behind a point, from those held before it. -/
def Action.held (H : Finset L) : Action F L → Finset L
  | .lock l => insert l H
  | .unlock l => H.erase l
  | _ => H

theorem Action.held_of_passes {H : Finset L} {x : Action F L} (h : x.passes = true) :
    x.held H = H := by
  cases x <;> first | rfl | cases h

/-- Some way through the body leads to the point and takes these locks without giving them
back. -/
inductive Arrives (c : Code F N L) (f : F) : N → Finset L → Prop
  | entry : Arrives c f (c.entry f) ∅
  | step {n n' H} (h : Arrives c f n H) (hn : c.next f n n') :
      Arrives c f n' ((c.action f n).held H)

/-- Only what is held is given back, nothing is held in the end, and a function is called where
the locks it needs are held, here or by a caller (`K`). -/
def Action.Admits (needs : F → Finset L) (K H : Finset L) : Action F L → Prop
  | .unlock l => l ∈ H
  | .wait l => l ∈ H ∪ K
  | .ret => H = ∅
  | .call f => needs f ⊆ H ∪ K
  | _ => True

/-- Every body gives back what it takes. `needs` are the locks of a function that its callers
hold. -/
structure Balanced (needs : F → Finset L) (c : Code F N L) : Prop where
  admits : ∀ f n H, Arrives c f n H → (c.action f n).Admits needs (needs f) H
  starts : ∀ f, c.starts f → needs f = ∅

end Ways

/-- The thread has given the lock back for a while. -/
def Resting (c : Code F N L) (s : State T A F N L) (t : T) (l : L) : Prop :=
  s.waiting t = some l ∧ ∃ a p, Top s t a p ∧ c.action p.fn p.pc = .wait l

/-- The owner of a lock is the thread that holds it in one of its activations. What a function
needs is held below its activations. -/
structure Owned (needs : F → Finset L) (c : Code F N L) (s : State T A F N L)
    (H : A → Finset L) : Prop where
  owner : ∀ t l, s.owner l = some t ↔ (∃ a ∈ s.stack t, l ∈ H a) ∧ ¬Resting c s t l
  apart : ∀ t a b, a ∈ s.stack t → b ∈ s.stack t → a ≠ b → Disjoint (H a) (H b)
  lent : ∀ t a as p, a :: as <:+ s.stack t → s.place a = some p → ∀ l ∈ needs p.fn,
    ∃ b ∈ as, l ∈ H b

section Frames

variable {needs : F → Finset L} {c : Code F N L} {s s' : State T A F N L} {H H' : A → Finset L}
  {t u : T} {a b : A} {p : Place F N} {l : L}

theorem not_resting (h : s.waiting t = none) : ¬Resting c s t l := by
  rintro ⟨hw, -⟩
  rw [h] at hw
  cases hw

theorem Top.not_resting (top : Top s t a p) (hact : c.action p.fn p.pc ≠ .wait l) :
    ¬Resting c s t l := by
  rintro ⟨-, b, q, topq, hq⟩
  obtain ⟨rfl, rfl⟩ := top.unique topq
  exact hact hq

theorem resting_congr (hw : s'.waiting u = s.waiting u) (hst : s'.stack u = s.stack u)
    (hp : ∀ b ∈ s.stack u, s'.place b = s.place b) : Resting c s' u l ↔ Resting c s u l := by
  rw [Resting, Resting, hw]
  refine and_congr_right fun _ ↦ ⟨?_, ?_⟩
  · rintro ⟨b, q, top, hq⟩
    have hmem : b ∈ s.stack u := hst ▸ top.mem
    exact ⟨b, q, top.congr hst.symm (hp b hmem).symm, hq⟩
  · rintro ⟨b, q, top, hq⟩
    exact ⟨b, q, top.congr hst (hp b top.mem), hq⟩

/-- What a step does not touch of the other threads. -/
structure Aside (s s' : State T A F N L) (H H' : A → Finset L) (t : T) : Prop where
  stack : ∀ u, u ≠ t → s'.stack u = s.stack u
  place : ∀ u, u ≠ t → ∀ a ∈ s.stack u, s'.place a = s.place a
  held : ∀ u, u ≠ t → ∀ a ∈ s.stack u, H' a = H a
  waiting : ∀ u, u ≠ t → s'.waiting u = s.waiting u
  owner : ∀ u, u ≠ t → ∀ l, s'.owner l = some u ↔ s.owner l = some u

/-- It is enough to look at the thread that moves. -/
theorem Owned.of_aside (h : Owned needs c s H) (ha : Aside s s' H H' t)
    (howner : ∀ l, s'.owner l = some t ↔ (∃ a ∈ s'.stack t, l ∈ H' a) ∧ ¬Resting c s' t l)
    (hapart : ∀ a b, a ∈ s'.stack t → b ∈ s'.stack t → a ≠ b → Disjoint (H' a) (H' b))
    (hlent : ∀ a as p, a :: as <:+ s'.stack t → s'.place a = some p → ∀ l ∈ needs p.fn,
      ∃ b ∈ as, l ∈ H' b) : Owned needs c s' H' := by
  constructor
  · intro u l
    by_cases hu : u = t
    · subst hu
      exact howner l
    · rw [ha.owner u hu, h.owner, ha.stack u hu,
        resting_congr (ha.waiting u hu) (ha.stack u hu) (ha.place u hu)]
      refine and_congr_left fun _ ↦ exists_congr fun a ↦ and_congr_right fun hmem ↦ ?_
      rw [ha.held u hu a hmem]
  · intro u a b hau hbu hab
    by_cases hu : u = t
    · subst hu
      exact hapart a b hau hbu hab
    · rw [ha.stack u hu] at hau hbu
      rw [ha.held u hu a hau, ha.held u hu b hbu]
      exact h.apart u a b hau hbu hab
  · intro u a as p hsuf hp l hl
    by_cases hu : u = t
    · subst hu
      exact hlent a as p hsuf hp l hl
    · rw [ha.stack u hu] at hsuf
      rw [ha.place u hu a (hsuf.subset List.mem_cons_self)] at hp
      obtain ⟨b, hb, hbl⟩ := h.lent u a as p hsuf hp l hl
      exact ⟨b, hb, by rwa [ha.held u hu b (hsuf.subset (List.mem_cons_of_mem a hb))]⟩

theorem mem_tail_of_suffix {as bs : List A} (h : a :: as <:+ bs) (hb : b ∈ as) : b ∈ bs.tail := by
  obtain ⟨pre, rfl⟩ := h
  cases pre with
  | nil => exact hb
  | cons x pre => exact List.mem_append_right pre (List.mem_cons_of_mem a hb)

/-- What the running activation holds does not count for what is held below. -/
theorem Owned.lent_below (h : Owned needs c s H) (hst : s'.stack t = s.stack t)
    (hfn : ∀ x p', s'.place x = some p' → ∃ p, s.place x = some p ∧ p.fn = p'.fn)
    (hheld : ∀ x ∈ (s.stack t).tail, H' x = H x) :
    ∀ a as p, a :: as <:+ s'.stack t → s'.place a = some p → ∀ l ∈ needs p.fn,
      ∃ b ∈ as, l ∈ H' b := by
  intro a as p' hsuf hp' l hl
  rw [hst] at hsuf
  obtain ⟨p, hp, hfn⟩ := hfn a p' hp'
  obtain ⟨b, hb, hbl⟩ := h.lent t a as p hsuf hp l (hfn ▸ hl)
  exact ⟨b, hb, by rwa [hheld b (mem_tail_of_suffix hsuf hb)]⟩

/-- What an activation holds or needs is held by its thread. -/
theorem Owned.held_of_needs [DecidableEq L] (h : Owned needs c s H) (ha : a ∈ s.stack t)
    (hp : s.place a = some p) (hl : l ∈ H a ∪ needs p.fn) : ∃ b ∈ s.stack t, l ∈ H b := by
  rcases Finset.mem_union.mp hl with hl | hl
  · exact ⟨a, ha, hl⟩
  · obtain ⟨above, below, hst⟩ := List.append_of_mem ha
    obtain ⟨b, hb, hbl⟩ := h.lent t a below p ⟨above, hst.symm⟩ hp l hl
    refine ⟨b, ?_, hbl⟩
    rw [hst]
    exact List.mem_append_right above (List.mem_cons_of_mem a hb)

end Frames

section Runs

variable [DecidableEq T] [DecidableEq A] [DecidableEq L] {needs : F → Finset L} {c : Code F N L}
  {s s' : State T A F N L}
  {H : A → Finset L} {t u : T} {a b : A} {p q : Place F N} {n : N} {l : L}

/-- Every activation has come to where it is. -/
def Traced (c : Code F N L) (s : State T A F N L) (H : A → Finset L) : Prop :=
  ∀ a p, s.place a = some p → Arrives c p.fn p.pc (H a)

omit [DecidableEq T] in
theorem Traced.go (h : Traced c s H) (top : Top s t a p) (hn : c.next p.fn p.pc n)
    (hplace : s'.place = (s.put a (some { p with pc := n })).place) :
    Traced c s' (Function.update H a ((c.action p.fn p.pc).held (H a))) := by
  intro b q hq
  rw [hplace, State.put_place] at hq
  split_ifs at hq with hb
  · obtain rfl := Option.some.inj hq
    rw [hb, Function.update_self]
    exact .step (h a p top.place) hn
  · rw [Function.update_of_ne hb]
    exact h b q hq

omit [DecidableEq T] in
theorem Traced.push (h : Traced c s H) {f : F} {back : Option N}
    (hplace : s'.place = (s.put b (some ⟨f, c.entry f, back⟩)).place) :
    Traced c s' (Function.update H b ∅) := by
  intro x q hq
  rw [hplace, State.put_place] at hq
  split_ifs at hq with hx
  · obtain rfl := Option.some.inj hq
    rw [hx, Function.update_self]
    exact .entry
  · rw [Function.update_of_ne hx]
    exact h x q hq

end Runs

section Balance

variable [DecidableEq T] [DecidableEq A] [DecidableEq L] {needs : F → Finset L} {c : Code F N L}
  {s s' : State T A F N L}
  {H H' : A → Finset L} {t u : T} {a b : A} {p q : Place F N} {n : N} {l : L}

omit [DecidableEq T] [DecidableEq A] [DecidableEq L] in
/-- A step that touches only activations of its thread and new ones. -/
theorem Shaped.aside (h : Shaped c s) (hst : ∀ u, u ≠ t → s'.stack u = s.stack u)
    (hplace : ∀ b, b ∉ s.stack t → ¬Fresh s b → s'.place b = s.place b)
    (hheld : ∀ b, b ∉ s.stack t → ¬Fresh s b → H' b = H b)
    (hw : ∀ u, u ≠ t → s'.waiting u = s.waiting u)
    (howner : ∀ u, u ≠ t → ∀ l, s'.owner l = some u ↔ s.owner l = some u) :
    Aside s s' H H' t := by
  have hnot : ∀ u, u ≠ t → ∀ b ∈ s.stack u, b ∉ s.stack t ∧ ¬Fresh s b := fun u hu b hb ↦
    ⟨fun hmem ↦ hu (h.disjoint u t b hb hmem), fun hfresh ↦ hfresh.stack u hb⟩
  exact ⟨hst, fun u hu b hb ↦ hplace b (hnot u hu b hb).1 (hnot u hu b hb).2,
    fun u hu b hb ↦ hheld b (hnot u hu b hb).1 (hnot u hu b hb).2, hw, howner⟩

omit [DecidableEq T] [DecidableEq L] in
/-- The running activation goes on; `x` is what it holds then. -/
theorem Shaped.aside_go (h : Shaped c s) (top : Top s t a p) {x : Finset L}
    (hst : s'.stack = s.stack) (hplace : s'.place = (s.put a (some { p with pc := n })).place)
    (hw : ∀ u, u ≠ t → s'.waiting u = s.waiting u)
    (howner : ∀ u, u ≠ t → ∀ l, s'.owner l = some u ↔ s.owner l = some u) :
    Aside s s' H (Function.update H a x) t := by
  have hne : ∀ b, b ∉ s.stack t → b ≠ a := fun b hb heq ↦ hb (heq ▸ top.mem)
  refine h.aside (fun u _ ↦ congrFun hst u) (fun b hb _ ↦ ?_) (fun b hb _ ↦ ?_) hw howner
  · rw [hplace, State.put_place, if_neg (hne b hb)]
  · exact Function.update_of_ne (hne b hb) _ _

omit [DecidableEq T] [DecidableEq A] [DecidableEq L] in
theorem Owned.not_mem (h : Owned needs c s H) (hfree : s.owner l = none) (hrest : ¬Resting c s t l)
    (hb : b ∈ s.stack t) : l ∉ H b := by
  intro hmem
  have hown := (h.owner t l).mpr ⟨⟨b, hb, hmem⟩, hrest⟩
  rw [hfree] at hown
  cases hown

omit [DecidableEq T] [DecidableEq L] in
/-- An activation that goes on is in the same function. -/
theorem Top.fn_put (top : Top s t a p) {x : A} {p' : Place F N}
    (h : (s.put a (some { p with pc := n })).place x = some p') :
    ∃ q, s.place x = some q ∧ q.fn = p'.fn := by
  rw [State.put_place] at h
  split_ifs at h with hx
  · obtain rfl := Option.some.inj h
    exact ⟨p, hx ▸ top.place, rfl⟩
  · exact ⟨p', h, rfl⟩

omit [DecidableEq T] [DecidableEq L] in
/-- What is needed is still held below when the running activation goes on. -/
theorem Owned.lent_go (hs : Shaped c s) (h : Owned needs c s H) (top : Top s t a p) {x : Finset L}
    (hst : s'.stack = s.stack) (hplace : s'.place = (s.put a (some { p with pc := n })).place) :
    ∀ b as q, b :: as <:+ s'.stack t → s'.place b = some q → ∀ l ∈ needs q.fn,
      ∃ b' ∈ as, l ∈ Function.update H a x b' := by
  refine h.lent_below (congrFun hst t) (fun y q hq ↦ top.fn_put (hplace ▸ hq)) fun y hy ↦ ?_
  have hne : y ≠ a := fun heq ↦ hs.not_mem_tail top t (heq ▸ hy)
  exact Function.update_of_ne hne _ _

omit [DecidableEq T] [DecidableEq L] in
theorem exists_held_update {as : List A} (ha : a ∈ as) {x : Finset L} :
    (∃ b ∈ as, l ∈ Function.update H a x b) ↔ l ∈ x ∨ ∃ b ∈ as, b ≠ a ∧ l ∈ H b := by
  constructor
  · rintro ⟨b, hb, hmem⟩
    by_cases heq : b = a
    · subst heq
      rw [Function.update_self] at hmem
      exact .inl hmem
    · rw [Function.update_of_ne heq] at hmem
      exact .inr ⟨b, hb, heq, hmem⟩
  · rintro (hmem | ⟨b, hb, hne, hmem⟩)
    · exact ⟨a, ha, by rwa [Function.update_self]⟩
    · exact ⟨b, hb, by rwa [Function.update_of_ne hne]⟩

omit [DecidableEq T] [DecidableEq L] in
theorem Owned.apart_update (h : Owned needs c s H) (ha : a ∈ s.stack t) {x : Finset L}
    (hx : ∀ b ∈ s.stack t, b ≠ a → Disjoint x (H b)) {b b' : A} (hb : b ∈ s.stack t)
    (hb' : b' ∈ s.stack t) (hne : b ≠ b') :
    Disjoint (Function.update H a x b) (Function.update H a x b') := by
  by_cases hba : b = a
  · subst hba
    rw [Function.update_self, Function.update_of_ne hne.symm]
    exact hx b' hb' hne.symm
  · rw [Function.update_of_ne hba]
    by_cases hba' : b' = a
    · subst hba'
      rw [Function.update_self]
      exact (hx b hb hba).symm
    · rw [Function.update_of_ne hba']
      exact h.apart t b b' hb hb' hne

omit [DecidableEq T] [DecidableEq A] [DecidableEq L] in
/-- Neither locks nor what activations hold change, and no lock is given back for a while. -/
theorem Owned.still (h : Owned needs c s H) (ha : Aside s s' H H t) (hst : s'.stack = s.stack)
    (hfn : ∀ x p', s'.place x = some p' → ∃ p, s.place x = some p ∧ p.fn = p'.fn)
    (howner : s'.owner = s.owner) (hrest : ∀ l, ¬Resting c s t l)
    (hrest' : ∀ l, ¬Resting c s' t l) : Owned needs c s' H := by
  refine h.of_aside ha (fun l ↦ ?_) (fun a b hau hbu ↦ ?_)
    (h.lent_below (congrFun hst t) hfn fun _ _ ↦ rfl)
  · rw [howner, h.owner, hst]
    exact and_congr_right fun _ ↦ ⟨fun _ ↦ hrest' l, fun _ ↦ hrest l⟩
  · rw [hst] at hau hbu
    exact h.apart t a b hau hbu

/-- A thread takes a lock that is free. -/
theorem Owned.lock (hs : Shaped c s) (h : Owned needs c s H) (top : Top s t a p)
    (hact : c.action p.fn p.pc = .lock l) (hfree : s.owner l = none) :
    Owned needs c (((s.put a (some { p with pc := n })).own l (some t)).wait t none)
      (Function.update H a (insert l (H a))) := by
  have hrest : ∀ k, ¬Resting c s t k := fun k ↦ top.not_resting (by rw [hact]; simp)
  refine h.of_aside (hs.aside_go top rfl rfl (fun u hu ↦ ?_) fun u hu k ↦ ?_) (fun k ↦ ?_) ?_
    (h.lent_go hs top rfl rfl)
  · rw [State.wait_waiting, if_neg hu]
    rfl
  · rw [State.wait_owner, State.own_owner]
    split_ifs with hk
    · rw [hk, hfree]
      simp [hu.symm]
    · rfl
  · have hrest' : ¬Resting c (((s.put a (some { p with pc := n })).own l (some t)).wait t none) t k :=
      not_resting (by simp)
    rw [State.wait_stack, State.own_stack, State.put_stack, exists_held_update top.mem,
      State.wait_owner, State.own_owner, State.put_owner]
    split_ifs with hk
    · subst hk
      exact ⟨fun _ ↦ ⟨.inl (Finset.mem_insert_self k _), hrest'⟩, fun _ ↦ rfl⟩
    · rw [h.owner]
      refine ⟨fun hmem ↦ ⟨?_, hrest'⟩, fun hmem ↦ ⟨?_, hrest k⟩⟩
      · obtain ⟨⟨b, hb, hbk⟩, -⟩ := hmem
        by_cases hba : b = a
        · exact .inl (Finset.mem_insert_of_mem (hba ▸ hbk))
        · exact .inr ⟨b, hb, hba, hbk⟩
      · rcases hmem.1 with hmem | ⟨b, hb, -, hbk⟩
        · exact ⟨a, top.mem, (Finset.mem_insert.mp hmem).resolve_left hk⟩
        · exact ⟨b, hb, hbk⟩
  · intro b b' hb hb' hne
    refine h.apart_update top.mem (fun x hx hxa ↦ ?_) hb hb' hne
    exact Finset.disjoint_insert_left.mpr
      ⟨h.not_mem hfree (hrest l) hx, h.apart t a x top.mem hx (Ne.symm hxa)⟩

omit [DecidableEq T] in
/-- A thread gives back a lock that it holds where it is. -/
theorem Owned.unlock (hs : Shaped c s) (h : Owned needs c s H) (top : Top s t a p)
    (hact : c.action p.fn p.pc = .unlock l) (hown : s.owner l = some t) (hmem : l ∈ H a) :
    Owned needs c ((s.put a (some { p with pc := n })).own l none)
      (Function.update H a ((H a).erase l)) := by
  have hrest : ∀ k, ¬Resting c s t k := fun k ↦ top.not_resting (by rw [hact]; simp)
  have hwait := hs.not_waiting top (by simp [hact]) (by simp [hact])
  have hapart : ∀ x ∈ s.stack t, x ≠ a → l ∉ H x := fun x hx hxa ↦
    Finset.disjoint_left.mp (h.apart t a x top.mem hx (Ne.symm hxa)) hmem
  refine h.of_aside (hs.aside_go top rfl rfl (fun u _ ↦ rfl) fun u hu k ↦ ?_) (fun k ↦ ?_) ?_
    (h.lent_go hs top rfl rfl)
  · rw [State.own_owner]
    split_ifs with hk
    · rw [hk, hown]
      simp [hu.symm]
    · rfl
  · have hrest' : ¬Resting c ((s.put a (some { p with pc := n })).own l none) t k :=
      not_resting (by simpa using hwait)
    rw [State.own_stack, State.put_stack, exists_held_update top.mem, State.own_owner,
      State.put_owner]
    split_ifs with hk
    · subst hk
      constructor
      · intro hnone
        cases hnone
      · rintro ⟨hmem | ⟨b, hb, hba, hbk⟩, -⟩
        · exact absurd hmem (Finset.notMem_erase k _)
        · exact absurd hbk (hapart b hb hba)
    · rw [h.owner]
      refine ⟨fun hmem ↦ ⟨?_, hrest'⟩, fun hmem ↦ ⟨?_, hrest k⟩⟩
      · obtain ⟨⟨b, hb, hbk⟩, -⟩ := hmem
        by_cases hba : b = a
        · exact .inl (Finset.mem_erase.mpr ⟨hk, hba ▸ hbk⟩)
        · exact .inr ⟨b, hb, hba, hbk⟩
      · rcases hmem.1 with hmem | ⟨b, hb, -, hbk⟩
        · exact ⟨a, top.mem, Finset.mem_of_mem_erase hmem⟩
        · exact ⟨b, hb, hbk⟩
  · intro b b' hb hb' hne
    refine h.apart_update top.mem (fun x hx hxa ↦ ?_) hb hb' hne
    exact (h.apart t a x top.mem hx (Ne.symm hxa)).mono_left (Finset.erase_subset l _)

omit [DecidableEq A] in
/-- A thread gives a lock back for a while. -/
theorem Owned.suspend (hs : Shaped c s) (h : Owned needs c s H) (top : Top s t a p)
    (hact : c.action p.fn p.pc = .wait l) (hown : s.owner l = some t) :
    Owned needs c ((s.own l none).wait t (some l)) H := by
  have top' : Top ((s.own l none).wait t (some l)) t a p := top.congr rfl rfl
  refine h.of_aside (hs.aside (fun u _ ↦ rfl) (fun b _ _ ↦ rfl) (fun b _ _ ↦ rfl) (fun u hu ↦ ?_)
    fun u hu k ↦ ?_) (fun k ↦ ?_) (fun b b' ↦ h.apart t b b')
    (h.lent_below rfl (fun x q hq ↦ ⟨q, hq, rfl⟩) fun _ _ ↦ rfl)
  · rw [State.wait_waiting, if_neg hu]
    rfl
  · rw [State.wait_owner, State.own_owner]
    split_ifs with hk
    · rw [hk, hown]
      simp [hu.symm]
    · rfl
  · rw [State.wait_owner, State.own_owner]
    split_ifs with hk
    · subst hk
      have hresting : Resting c ((s.own k none).wait t (some k)) t k :=
        ⟨by simp, a, p, top', hact⟩
      exact ⟨fun hnone ↦ (by cases hnone), fun hmem ↦ absurd hresting hmem.2⟩
    · have hne : c.action p.fn p.pc ≠ .wait k := by
        rw [hact]
        simpa using Ne.symm hk
      rw [h.owner]
      exact and_congr_right fun _ ↦ ⟨fun _ ↦ top'.not_resting hne, fun _ ↦ top.not_resting hne⟩

/-- A thread takes its lock again and goes on. -/
theorem Owned.resume (hs : Shaped c s) (h : Owned needs c s H) (top : Top s t a p)
    (hact : c.action p.fn p.pc = .wait l) (hfree : s.owner l = none)
    (hmem : ∃ b ∈ s.stack t, l ∈ H b) :
    Owned needs c (((s.put a (some { p with pc := n })).own l (some t)).wait t none) H := by
  have haside := @Shaped.aside_go T A F N L _ c s
    (((s.put a (some { p with pc := n })).own l (some t)).wait t none) H t a p n hs top (H a) rfl rfl
  rw [Function.update_eq_self] at haside
  refine h.of_aside (haside (fun u hu ↦ ?_) fun u hu k ↦ ?_) (fun k ↦ ?_) (fun b b' ↦ h.apart t b b')
    (h.lent_below rfl (fun x q hq ↦ top.fn_put hq) fun _ _ ↦ rfl)
  · rw [State.wait_waiting, if_neg hu]
    rfl
  · rw [State.wait_owner, State.own_owner]
    split_ifs with hk
    · rw [hk, hfree]
      simp [hu.symm]
    · rfl
  · have hrest' : ¬Resting c (((s.put a (some { p with pc := n })).own l (some t)).wait t none) t k :=
      not_resting (by simp)
    rw [State.wait_owner, State.own_owner, State.put_owner]
    split_ifs with hk
    · subst hk
      exact ⟨fun _ ↦ ⟨hmem, hrest'⟩, fun _ ↦ rfl⟩
    · have hne : c.action p.fn p.pc ≠ .wait k := by
        rw [hact]
        simpa using Ne.symm hk
      rw [h.owner]
      exact and_congr_right fun _ ↦ ⟨fun _ ↦ hrest', fun _ ↦ top.not_resting hne⟩

omit [DecidableEq L] in
/-- A new activation holds nothing. What it needs is held below it. -/
theorem Owned.push (hs : Shaped c s) (h : Owned needs c s H) (hb : Fresh s b)
    (hwait : s.waiting t = none) (hneeds : ∀ l ∈ needs p.fn, ∃ x ∈ s.stack t, l ∈ H x) :
    Owned needs c ((s.put b (some p)).stackOf t (b :: s.stack t)) (Function.update H b ∅) := by
  have hold : ∀ x ∈ s.stack t, Function.update H b ∅ x = H x := by
    intro x hx
    have hne : x ≠ b := fun heq ↦ hb.stack t (heq ▸ hx)
    exact Function.update_of_ne hne _ _
  have haside : Aside s ((s.put b (some p)).stackOf t (b :: s.stack t)) H
      (Function.update H b ∅) t := by
    refine hs.aside (fun u hu ↦ ?_) (fun x _ hx ↦ ?_) (fun x _ hx ↦ ?_) (fun u _ ↦ rfl)
      fun u _ k ↦ Iff.rfl
    · rw [State.stackOf_stack, if_neg hu]
      rfl
    · have hne : x ≠ b := fun heq ↦ hx (heq ▸ hb)
      rw [State.stackOf_place, State.put_place, if_neg hne]
    · have hne : x ≠ b := fun heq ↦ hx (heq ▸ hb)
      exact Function.update_of_ne hne _ _
  refine h.of_aside haside (fun k ↦ ?_) ?_ ?_
  · have hrest' : ¬Resting c ((s.put b (some p)).stackOf t (b :: s.stack t)) t k := not_resting hwait
    rw [State.stackOf_owner, State.put_owner, h.owner, State.stackOf_stack, if_pos rfl]
    refine ⟨fun hmem ↦ ⟨?_, hrest'⟩, fun hmem ↦ ⟨?_, not_resting hwait⟩⟩
    · obtain ⟨⟨x, hx, hxk⟩, -⟩ := hmem
      exact ⟨x, List.mem_cons_of_mem b hx, by rwa [hold x hx]⟩
    · obtain ⟨⟨x, hx, hxk⟩, -⟩ := hmem
      rcases List.mem_cons.mp hx with rfl | hx
      · rw [Function.update_self] at hxk
        exact absurd hxk (Finset.notMem_empty k)
      · exact ⟨x, hx, by rwa [hold x hx] at hxk⟩
  · intro x y hx hy hne
    rw [State.stackOf_stack, if_pos rfl] at hx hy
    rcases List.mem_cons.mp hx with rfl | hx
    · rw [Function.update_self]
      exact Finset.disjoint_empty_left _
    · rcases List.mem_cons.mp hy with rfl | hy
      · rw [Function.update_self]
        exact Finset.disjoint_empty_right _
      · rw [hold x hx, hold y hy]
        exact h.apart t x y hx hy hne
  · intro x xs q hsuf hq k hk
    rw [State.stackOf_stack, if_pos rfl, List.suffix_cons_iff] at hsuf
    rw [State.stackOf_place, State.put_place] at hq
    rcases hsuf with heq | hsuf
    · obtain ⟨rfl, rfl⟩ := List.cons.inj heq
      rw [if_pos rfl] at hq
      obtain rfl := Option.some.inj hq
      obtain ⟨y, hy, hyk⟩ := hneeds k hk
      exact ⟨y, hy, by rwa [hold y hy]⟩
    · have hne : x ≠ b := fun heq ↦ hb.stack t (heq ▸ hsuf.subset List.mem_cons_self)
      rw [if_neg hne] at hq
      obtain ⟨y, hy, hyk⟩ := h.lent t x xs q hsuf hq k hk
      exact ⟨y, hy, by rwa [hold y (hsuf.subset (List.mem_cons_of_mem x hy))]⟩

omit [DecidableEq A] [DecidableEq L] in
/-- An activation that holds nothing goes from its stack. -/
theorem Owned.pop (hs : Shaped c s) (h : Owned needs c s H) (top : Top s t a p) (hempty : H a = ∅)
    (hwait : s.waiting t = none) (hst : s'.stack = (s.stackOf t (s.stack t).tail).stack)
    (hplace : ∀ b, b ∉ s.stack t → s'.place b = s.place b)
    (hfn : ∀ x p', s'.place x = some p' → ∃ p, s.place x = some p ∧ p.fn = p'.fn)
    (howner : s'.owner = s.owner) (hw : s'.waiting = s.waiting) : Owned needs c s' H := by
  have hstack : s.stack t = a :: (s.stack t).tail := by
    have hhead := top.head
    cases hs : s.stack t with
    | nil =>
        rw [hs] at hhead
        cases hhead
    | cons b rest =>
        rw [hs] at hhead
        obtain rfl := Option.some.inj hhead
        rfl
  have htail : s'.stack t = (s.stack t).tail := by rw [hst, State.stackOf_stack, if_pos rfl]
  refine h.of_aside (hs.aside (fun u hu ↦ ?_) (fun x hx _ ↦ hplace x hx) (fun x _ _ ↦ rfl)
    (fun u _ ↦ congrFun hw u) fun u _ k ↦ by rw [howner]) (fun k ↦ ?_) ?_ ?_
  · rw [hst, State.stackOf_stack, if_neg hu]
  · rw [howner, h.owner, htail]
    refine ⟨fun hmem ↦ ⟨?_, not_resting (by rw [hw, hwait])⟩, fun hmem ↦ ⟨?_, not_resting hwait⟩⟩
    · obtain ⟨⟨x, hx, hxk⟩, -⟩ := hmem
      rw [hstack] at hx
      rcases List.mem_cons.mp hx with rfl | hx
      · rw [hempty] at hxk
        exact absurd hxk (Finset.notMem_empty k)
      · exact ⟨x, hx, hxk⟩
    · obtain ⟨⟨x, hx, hxk⟩, -⟩ := hmem
      exact ⟨x, List.mem_of_mem_tail hx, hxk⟩
  · intro x y hx hy
    rw [htail] at hx hy
    exact h.apart t x y (List.mem_of_mem_tail hx) (List.mem_of_mem_tail hy)
  · intro x xs q' hsuf hq' k hk
    rw [htail] at hsuf
    obtain ⟨q, hq, hfn⟩ := hfn x q' hq'
    exact h.lent t x xs q (hsuf.trans (List.tail_suffix _)) hq k (hfn ▸ hk)

end Balance

section Steps

variable [DecidableEq T] [DecidableEq A] [DecidableEq L] {needs : F → Finset L} {c : Code F N L}
  {s s' : State T A F N L}
  {H : A → Finset L}

/-- A step leads every activation on along its way, and where bodies are balanced the owners of
the locks stay the threads that hold them. -/
theorem Step.held (hs : Shaped c s) (ht : Traced c s H) (h : Step c s s') :
    ∃ H', Traced c s' H' ∧ (Balanced needs c → Owned needs c s H → Owned needs c s' H') := by
  cases h with
  | @go t a p n top hact hn =>
      have hgo : Traced c (s.put a (some { p with pc := n })) (Function.update H a (H a)) := by
        have hgo := ht.go top hn rfl
        rwa [Action.held_of_passes hact] at hgo
      have haside : Aside s (s.put a (some { p with pc := n })) H (Function.update H a (H a)) t :=
        hs.aside_go top rfl rfl (fun _ _ ↦ rfl) fun _ _ _ ↦ Iff.rfl
      rw [Function.update_eq_self] at hgo haside
      have hwait := hs.not_waiting_of_passes top hact
      exact ⟨H, hgo, fun _ ho ↦ ho.still haside rfl (fun _ _ ↦ top.fn_put) rfl
        (fun _ ↦ not_resting hwait) fun _ ↦ not_resting hwait⟩
  | @ask t a p l top hact =>
      refine ⟨H, ht, fun _ ho ↦ ?_⟩
      have hlock : ∀ k, c.action p.fn p.pc ≠ .wait k := by simp [hact]
      refine ho.still (t := t) (hs.aside (fun _ _ ↦ rfl) (fun _ _ _ ↦ rfl) (fun _ _ _ ↦ rfl)
        (fun u hu ↦ ?_) fun _ _ _ ↦ Iff.rfl) rfl (fun _ q hq ↦ ⟨q, hq, rfl⟩) rfl
        (fun k ↦ top.not_resting (hlock k)) fun k ↦ ?_
      · rw [State.wait_waiting, if_neg hu]
      · have top' : Top (s.wait t (some l)) t a p := top.congr rfl rfl
        exact top'.not_resting (hlock k)
  | @lock t a p l n top hact hfree hn =>
      refine ⟨Function.update H a (insert l (H a)), ?_, fun _ ho ↦ ho.lock hs top hact hfree⟩
      have hgo := ht.go top hn rfl
      rwa [hact] at hgo
  | @unlock t a p l n top hact hown hn =>
      refine ⟨Function.update H a ((H a).erase l), ?_, fun hb ho ↦ ho.unlock hs top hact hown ?_⟩
      · have hgo := ht.go top hn rfl
        rwa [hact] at hgo
      · have hadm := hb.admits _ _ _ (ht a p top.place)
        rwa [hact] at hadm
  | @suspend t a p l top hact hown => exact ⟨H, ht, fun _ ho ↦ ho.suspend hs top hact hown⟩
  | @resume t a p l n top hact hwait hfree hn =>
      refine ⟨Function.update H a (H a), ?_, fun hb ho ↦ ?_⟩
      · have hgo := ht.go top hn rfl
        rwa [hact] at hgo
      · rw [Function.update_eq_self]
        refine ho.resume hs top hact hfree (ho.held_of_needs top.mem top.place ?_)
        have hadm := hb.admits _ _ _ (ht a p top.place)
        rwa [hact] at hadm
  | @call t a p f b n top hact hn hb =>
      have hwait := hs.not_waiting top (by simp [hact]) (by simp [hact])
      refine ⟨_, ht.push rfl, fun hbal ho ↦ ho.push hs hb hwait fun l hl ↦ ?_⟩
      have hadm := hbal.admits _ _ _ (ht a p top.place)
      rw [hact] at hadm
      exact ho.held_of_needs top.mem top.place (hadm hl)
  | @ret t a p b q n rest top hact hst hb hback =>
      have hwait := hs.not_waiting top (by simp [hact]) (by simp [hact])
      have hab : b ≠ a := fun heq ↦
        hs.not_mem_tail top t (by rw [hst, heq]; exact List.mem_cons_self)
      have hlink := hs.link t
      rw [hst, List.isChain_cons_cons] at hlink
      obtain ⟨hcall, hn⟩ := hlink.1 p q n top.place hb hback
      refine ⟨H, fun x r hr ↦ ?_, fun hbal ho ↦ ?_⟩
      · rw [State.stackOf_place, State.put_place, State.put_place] at hr
        split_ifs at hr with hxb hxa
        · obtain rfl := Option.some.inj hr
          subst hxb
          have harr := (ht x q hb).step hn
          rwa [hcall] at harr
        · exact ht x r hr
      · have hadm := hbal.admits _ _ _ (ht a p top.place)
        rw [hact] at hadm
        refine ho.pop hs top hadm hwait ?_ (fun x hx ↦ ?_) (fun x r hr ↦ ?_) rfl rfl
        · rw [hst]
          rfl
        · rw [hst, List.mem_cons, List.mem_cons, not_or, not_or] at hx
          rw [State.stackOf_place, State.put_place, State.put_place, if_neg hx.2.1, if_neg hx.1]
        · rw [State.stackOf_place, State.put_place, State.put_place] at hr
          split_ifs at hr with hxb hxa
          · obtain rfl := Option.some.inj hr
            exact ⟨q, hxb ▸ hb, rfl⟩
          · exact ⟨r, hr, rfl⟩
  | @finish t a p top hact hst =>
      have hwait := hs.not_waiting top (by simp [hact]) (by simp [hact])
      refine ⟨H, fun x r hr ↦ ?_, fun hbal ho ↦ ?_⟩
      · rw [State.stackOf_place, State.put_place] at hr
        split_ifs at hr
        exact ht x r hr
      · have hadm := hbal.admits _ _ _ (ht a p top.place)
        rw [hact] at hadm
        refine ho.pop hs top hadm hwait ?_ (fun x hx ↦ ?_) (fun x r hr ↦ ?_) rfl rfl
        · rw [hst]
          rfl
        · rw [hst, List.mem_singleton] at hx
          rw [State.stackOf_place, State.put_place, if_neg hx]
        · rw [State.stackOf_place, State.put_place] at hr
          split_ifs at hr
          exact ⟨r, hr, rfl⟩
  | @start t a f hf hst ha hwait =>
      refine ⟨_, ht.push rfl, fun hbal ho ↦ ?_⟩
      have hpush := ho.push (p := ⟨f, c.entry f, none⟩) hs ha hwait fun l hl ↦ by
        rw [hbal.starts f hf] at hl
        exact absurd hl (Finset.notMem_empty l)
      rwa [hst] at hpush

/-- What holds of the control state in every run. -/
structure Sound (needs : F → Finset L) (c : Code F N L) (s : State T A F N L) : Prop where
  shaped : Shaped c s
  held : ∃ H, Traced c s H ∧ (Balanced needs c → Owned needs c s H)

theorem Sound.step (h : Sound needs c s) (hs : Step c s s') : Sound needs c s' := by
  obtain ⟨H, ht, ho⟩ := h.held
  obtain ⟨H', ht', ho'⟩ := hs.held h.shaped ht
  exact ⟨hs.shaped h.shaped, H', ht', fun hb ↦ ho' hb (ho hb)⟩

theorem Sound.run (h : Sound needs c s) (hs : Relation.ReflTransGen (Step c) s s') :
    Sound needs c s' := by
  induction hs with
  | refl => exact h
  | tail _ hst ih => exact ih.step hst

end Steps

section Chains

/-- A finite chain comes to an end or into a cycle. -/
theorem exists_stop_or_cycle {R : T → T → Prop} {x : T}
    (hfin : {y | Relation.ReflTransGen R x y}.Finite) : ∃ y, Relation.ReflTransGen R x y ∧
      (Relation.TransGen R y y ∨ ∀ z, ¬R y z) := by
  by_contra hnone
  push Not at hnone
  let back : {y | Relation.ReflTransGen R x y} → {y | Relation.ReflTransGen R x y} → Prop :=
    fun y z ↦ Relation.TransGen R z y
  have : Finite {y | Relation.ReflTransGen R x y} := hfin
  have : IsTrans _ back := ⟨fun _ _ _ h h' ↦ h'.trans h⟩
  have : Std.Irrefl back := ⟨fun y h ↦ (hnone y y.2).1 h⟩
  have hwf : WellFounded back := Finite.wellFounded_of_trans_of_irrefl back
  obtain ⟨y, -, hmin⟩ := hwf.has_min Set.univ ⟨⟨x, .refl⟩, trivial⟩
  obtain ⟨z, hz⟩ := (hnone y y.2).2
  apply hmin ⟨z, y.2.tail hz⟩ trivial
  exact .single hz

end Chains

end ConcIR.Control
