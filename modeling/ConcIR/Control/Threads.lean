import Mathlib

/-!
# Threads with call stacks and locks

Control alone, without data: threads have stacks of activations, an activation stands at a
point of the body of its function, and a lock has at most one owner. A thread that waits with
a lock gives it back and takes it again before it goes on.
-/

namespace ConcIR.Control

/-- What a point of a body does. -/
inductive Action (F L : Type*)
  | step
  | lock (l : L)
  | unlock (l : L)
  | wait (l : L)
  | call (f : F)
  | ret

namespace Action

/-- Control goes on within the body. A call may be passed over. -/
def passes {F L : Type*} : Action F L → Bool
  | .step | .call _ => true
  | _ => false

end Action

structure Code (F N L : Type*) where
  entry : F → N
  action : F → N → Action F L
  next : F → N → N → Prop
  /-- Threads start with these functions. -/
  starts : F → Prop

/-- Where an activation is, and where its caller goes on. -/
structure Place (F N : Type*) where
  fn : F
  pc : N
  back : Option N

/-- The running activation of a thread is the head of its stack. A waiting thread names the
lock that it needs before it goes on. -/
@[ext]
structure State (T A F N L : Type*) where
  stack : T → List A
  place : A → Option (Place F N)
  owner : L → Option T
  waiting : T → Option L

variable {T A F N L : Type*}

/-- The activation is the running one of the thread. -/
structure Top (s : State T A F N L) (t : T) (a : A) (p : Place F N) : Prop where
  head : (s.stack t).head? = some a
  place : s.place a = some p

/-- No thread has or had a use for the activation. -/
structure Fresh (s : State T A F N L) (a : A) : Prop where
  place : s.place a = none
  stack : ∀ t, a ∉ s.stack t

namespace State

variable (s : State T A F N L)

section Places

variable [DecidableEq A]

def put (a : A) (p : Option (Place F N)) : State T A F N L :=
  { s with place := Function.update s.place a p }

variable {s} (a b : A) (p : Option (Place F N))

@[simp] theorem put_stack : (s.put a p).stack = s.stack := rfl

@[simp] theorem put_place : (s.put a p).place b = if b = a then p else s.place b :=
  Function.update_apply _ _ _ _

@[simp] theorem put_owner : (s.put a p).owner = s.owner := rfl

@[simp] theorem put_waiting : (s.put a p).waiting = s.waiting := rfl

end Places

section Owners

variable [DecidableEq L]

def own (l : L) (t : Option T) : State T A F N L := { s with owner := Function.update s.owner l t }

variable {s} (l k : L) (t : Option T)

@[simp] theorem own_stack : (s.own l t).stack = s.stack := rfl

@[simp] theorem own_place : (s.own l t).place = s.place := rfl

@[simp] theorem own_owner : (s.own l t).owner k = if k = l then t else s.owner k :=
  Function.update_apply _ _ _ _

@[simp] theorem own_waiting : (s.own l t).waiting = s.waiting := rfl

end Owners

section Threads

variable [DecidableEq T]

def wait (t : T) (l : Option L) : State T A F N L :=
  { s with waiting := Function.update s.waiting t l }

def stackOf (t : T) (as : List A) : State T A F N L :=
  { s with stack := Function.update s.stack t as }

variable {s} (t u : T) (l : Option L) (as : List A)

@[simp] theorem wait_stack : (s.wait t l).stack = s.stack := rfl

@[simp] theorem wait_place : (s.wait t l).place = s.place := rfl

@[simp] theorem wait_owner : (s.wait t l).owner = s.owner := rfl

@[simp] theorem wait_waiting : (s.wait t l).waiting u = if u = t then l else s.waiting u :=
  Function.update_apply _ _ _ _

@[simp] theorem stackOf_stack : (s.stackOf t as).stack u = if u = t then as else s.stack u :=
  Function.update_apply _ _ _ _

@[simp] theorem stackOf_place : (s.stackOf t as).place = s.place := rfl

@[simp] theorem stackOf_owner : (s.stackOf t as).owner = s.owner := rfl

@[simp] theorem stackOf_waiting : (s.stackOf t as).waiting = s.waiting := rfl

end Threads

end State

/-- One step of one thread. -/
inductive Step [DecidableEq T] [DecidableEq A] [DecidableEq L] (c : Code F N L) (s : State T A F N L) : State T A F N L → Prop
  | go {t a p n} (top : Top s t a p) (hact : (c.action p.fn p.pc).passes = true)
      (hn : c.next p.fn p.pc n) : Step c s (s.put a (some { p with pc := n }))
  | ask {t a p l} (top : Top s t a p) (hact : c.action p.fn p.pc = .lock l) :
      Step c s (s.wait t (some l))
  | lock {t a p l n} (top : Top s t a p) (hact : c.action p.fn p.pc = .lock l)
      (hfree : s.owner l = none) (hn : c.next p.fn p.pc n) :
      Step c s (((s.put a (some { p with pc := n })).own l (some t)).wait t none)
  | unlock {t a p l n} (top : Top s t a p) (hact : c.action p.fn p.pc = .unlock l)
      (hown : s.owner l = some t) (hn : c.next p.fn p.pc n) :
      Step c s ((s.put a (some { p with pc := n })).own l none)
  | suspend {t a p l} (top : Top s t a p) (hact : c.action p.fn p.pc = .wait l)
      (hown : s.owner l = some t) : Step c s ((s.own l none).wait t (some l))
  | resume {t a p l n} (top : Top s t a p) (hact : c.action p.fn p.pc = .wait l)
      (hwait : s.waiting t = some l) (hfree : s.owner l = none) (hn : c.next p.fn p.pc n) :
      Step c s (((s.put a (some { p with pc := n })).own l (some t)).wait t none)
  | call {t a p f b n} (top : Top s t a p) (hact : c.action p.fn p.pc = .call f)
      (hn : c.next p.fn p.pc n) (hb : Fresh s b) :
      Step c s ((s.put b (some ⟨f, c.entry f, some n⟩)).stackOf t (b :: s.stack t))
  | ret {t a p b q n rest} (top : Top s t a p) (hact : c.action p.fn p.pc = .ret)
      (hst : s.stack t = a :: b :: rest) (hb : s.place b = some q) (hback : p.back = some n) :
      Step c s (((s.put a none).put b (some { q with pc := n })).stackOf t (b :: rest))
  | finish {t a p} (top : Top s t a p) (hact : c.action p.fn p.pc = .ret)
      (hst : s.stack t = [a]) : Step c s ((s.put a none).stackOf t [])
  | start {t a f} (hf : c.starts f) (hst : s.stack t = []) (ha : Fresh s a)
      (hwait : s.waiting t = none) :
      Step c s ((s.put a (some ⟨f, c.entry f, none⟩)).stackOf t [a])

section Shape

/-- The activation `b` stands at the call that has created `a`, and goes on behind it. -/
def Link (c : Code F N L) (s : State T A F N L) (a b : A) : Prop :=
  ∀ p q n, s.place a = some p → s.place b = some q → p.back = some n →
    c.action q.fn q.pc = .call p.fn ∧ c.next q.fn q.pc n

/-- How stacks lie: an activation is in one place of one stack, each activation has been called
by the one below it, and a thread waits only where it needs a lock. -/
structure Shaped (c : Code F N L) (s : State T A F N L) : Prop where
  nodup : ∀ t, (s.stack t).Nodup
  disjoint : ∀ t u a, a ∈ s.stack t → a ∈ s.stack u → t = u
  link : ∀ t, (s.stack t).IsChain (Link c s)
  waits : ∀ t l, s.waiting t = some l → ∃ a p, Top s t a p ∧
    (c.action p.fn p.pc = .lock l ∨ c.action p.fn p.pc = .wait l)

variable {c : Code F N L} {s s' : State T A F N L} {t u : T} {a b : A} {p q : Place F N} {n : N}
  {l : L}

theorem Top.mem (h : Top s t a p) : a ∈ s.stack t := List.mem_of_head? h.head

theorem Top.unique (h : Top s t a p) (h' : Top s t b q) : a = b ∧ p = q := by
  obtain rfl : a = b := Option.some.inj (h.head.symm.trans h'.head)
  exact ⟨rfl, Option.some.inj (h.place.symm.trans h'.place)⟩

/-- The running activation is below no other one. -/
theorem Shaped.not_mem_tail (h : Shaped c s) (top : Top s t a p) (u : T) :
    a ∉ (s.stack u).tail := by
  intro hmem
  obtain rfl := h.disjoint t u a top.mem (List.mem_of_mem_tail hmem)
  cases hst : s.stack t with
  | nil =>
      rw [hst] at hmem
      cases hmem
  | cons b rest =>
      have hhead := top.head
      have hnodup := h.nodup t
      rw [hst] at hhead hmem hnodup
      obtain rfl := Option.some.inj hhead
      exact (List.nodup_cons.mp hnodup).1 hmem

/-- A thread that needs no lock where it stands does not wait. -/
theorem Shaped.not_waiting (h : Shaped c s) (top : Top s t a p)
    (hlock : ∀ l, c.action p.fn p.pc ≠ .lock l) (hwait : ∀ l, c.action p.fn p.pc ≠ .wait l) :
    s.waiting t = none := by
  cases hw : s.waiting t with
  | none => rfl
  | some l =>
      obtain ⟨b, q, topq, hq⟩ := h.waits t l hw
      obtain ⟨rfl, rfl⟩ := top.unique topq
      exact absurd hq (not_or_intro (hlock l) (hwait l))

/-- Links speak of the function and the return address of the callee, and of where the caller
is. -/
theorem Link.congr (h : Link c s a b) (ha : ∀ p', s'.place a = some p' →
      ∃ p, s.place a = some p ∧ p.fn = p'.fn ∧ p.back = p'.back)
    (hb : s'.place b = s.place b) : Link c s' a b := by
  intro p' q n hp hq hn
  obtain ⟨p, hp, hfn, hback⟩ := ha p' hp
  rw [← hfn]
  exact h p q n hp (hb ▸ hq) (hback ▸ hn)

theorem Shaped.not_waiting_of_passes (h : Shaped c s) (top : Top s t a p)
    (hact : (c.action p.fn p.pc).passes = true) : s.waiting t = none := by
  refine h.not_waiting top (fun l hl ↦ ?_) fun l hl ↦ ?_
  · rw [hl] at hact
    cases hact
  · rw [hl] at hact
    cases hact

theorem Top.congr (h : Top s t a p) (hst : s'.stack t = s.stack t)
    (hp : s'.place a = s.place a) : Top s' t a p :=
  ⟨hst ▸ h.head, hp ▸ h.place⟩

theorem Shaped.ne_top (h : Shaped c s) (top : Top s t a p) (hu : b ∈ s.stack u) (hut : u ≠ t) :
    b ≠ a := by
  rintro rfl
  exact hut (h.disjoint u t b hu top.mem)

/-- Waiting threads are not disturbed where the others move. -/
theorem Shaped.waits_of (h : Shaped c s) (hw : ∀ u l, s'.waiting u = some l →
      (∃ a p, Top s' u a p ∧ (c.action p.fn p.pc = .lock l ∨ c.action p.fn p.pc = .wait l)) ∨
      (s.waiting u = some l ∧ s'.stack u = s.stack u ∧
        ∀ b q, Top s u b q → s'.place b = s.place b)) :
    ∀ u l, s'.waiting u = some l → ∃ a p, Top s' u a p ∧
      (c.action p.fn p.pc = .lock l ∨ c.action p.fn p.pc = .wait l) := by
  intro u l hl
  rcases hw u l hl with hdone | ⟨hold, hst, hplace⟩
  · exact hdone
  · obtain ⟨b, q, topq, hq⟩ := h.waits u l hold
    exact ⟨b, q, topq.congr hst (hplace b q topq), hq⟩

/-- The running activation moves on in its body. -/
theorem Shaped.link_put [DecidableEq A] (h : Shaped c s) (top : Top s t a p) (n : N) (u : T) :
    (s.stack u).IsChain (Link c (s.put a (some { p with pc := n }))) := by
  refine (h.link u).imp_of_mem_tail_imp fun x y _ hy hxy ↦ hxy.congr (fun r hr ↦ ?_) ?_
  · by_cases hx : x = a
    · subst hx
      obtain rfl : { p with pc := n } = r := by simpa using hr
      exact ⟨p, top.place, rfl, rfl⟩
    · exact ⟨r, by simpa [hx] using hr, rfl, rfl⟩
  · have hy : y ≠ a := fun heq ↦ h.not_mem_tail top u (heq ▸ hy)
    exact Function.update_of_ne hy _ _

/-- The waiting threads besides the one that moves. -/
theorem Shaped.waits_move (h : Shaped c s) (top : Top s t a p)
    (hw : ∀ u l, s'.waiting u = some l → u ≠ t ∧ s.waiting u = some l)
    (hst : ∀ u, u ≠ t → s'.stack u = s.stack u)
    (hplace : ∀ b, b ≠ a → b ∉ (s.stack t).tail → s.place b ≠ none → s'.place b = s.place b) :
    ∀ u l, s'.waiting u = some l → ∃ a p, Top s' u a p ∧
      (c.action p.fn p.pc = .lock l ∨ c.action p.fn p.pc = .wait l) := by
  refine h.waits_of fun u l hl ↦ .inr ?_
  obtain ⟨hut, hold⟩ := hw u l hl
  refine ⟨hold, hst u hut, fun b q topq ↦ hplace b (h.ne_top top topq.mem hut) ?_ ?_⟩
  · exact fun hmem ↦ hut (h.disjoint u t b topq.mem (List.mem_of_mem_tail hmem))
  · rw [topq.place]
    exact Option.some_ne_none q

/-- The running activation goes on in its body. -/
theorem Shaped.go [DecidableEq A] (h : Shaped c s) (top : Top s t a p)
    (hw : ∀ u l, s'.waiting u = some l → u ≠ t ∧ s.waiting u = some l)
    (hst : s'.stack = s.stack) (hplace : s'.place = (s.put a (some { p with pc := n })).place) :
    Shaped c s' := by
  have hlink : Link c s' = Link c (s.put a (some { p with pc := n })) := by
    unfold Link
    rw [hplace]
  refine ⟨fun u ↦ hst ▸ h.nodup u, fun t u b ↦ hst ▸ h.disjoint t u b, fun u ↦ ?_, ?_⟩
  · rw [hst, hlink]
    exact h.link_put top n u
  · refine h.waits_move top hw (fun u _ ↦ congrFun hst u) fun b hb _ _ ↦ ?_
    rw [hplace, State.put_place, if_neg hb]

/-- A thread stands where it needs a lock, and waits for it. -/
theorem Shaped.rest [DecidableEq T] (h : Shaped c s) (top : Top s t a p)
    (hact : c.action p.fn p.pc = .lock l ∨ c.action p.fn p.pc = .wait l)
    (hst : s'.stack = s.stack) (hplace : s'.place = s.place)
    (hw : s'.waiting = (s.wait t (some l)).waiting) : Shaped c s' := by
  have hlink : Link c s' = Link c s := by
    unfold Link
    rw [hplace]
  refine ⟨fun u ↦ hst ▸ h.nodup u, fun t u b ↦ hst ▸ h.disjoint t u b, fun u ↦ ?_, ?_⟩
  · rw [hst, hlink]
    exact h.link u
  · refine h.waits_of fun u k hk ↦ ?_
    rw [hw, State.wait_waiting] at hk
    split_ifs at hk with hu
    · subst hu
      obtain rfl := Option.some.inj hk
      exact .inl ⟨a, p, top.congr (congrFun hst u) (congrFun hplace a), hact⟩
    · exact .inr ⟨hk, congrFun hst u, fun b _ _ ↦ congrFun hplace b⟩

/-- A new activation comes on top of a stack. -/
theorem Shaped.push [DecidableEq T] [DecidableEq A] (h : Shaped c s) (hb : Fresh s b) (hwait : s.waiting t = none)
    (hcall : ∀ a q n, (s.stack t).head? = some a → s.place a = some q → p.back = some n →
      c.action q.fn q.pc = .call p.fn ∧ c.next q.fn q.pc n) :
    Shaped c ((s.put b (some p)).stackOf t (b :: s.stack t)) := by
  have hold : ∀ x u, x ∈ s.stack u → x ≠ b := fun x u hx heq ↦ hb.stack u (heq ▸ hx)
  have hplace : ∀ x, x ≠ b →
      ((s.put b (some p)).stackOf t (b :: s.stack t)).place x = s.place x := fun x hx ↦ by
    rw [State.stackOf_place, State.put_place, if_neg hx]
  have hmem : ∀ u x, x ∈ (if u = t then b :: s.stack t else s.stack u) →
      x ∈ s.stack u ∨ (x = b ∧ u = t) := by
    intro u x hx
    split_ifs at hx with hu
    · rcases List.mem_cons.mp hx with heq | hx
      · exact .inr ⟨heq, hu⟩
      · exact .inl (hu ▸ hx)
    · exact .inl hx
  have hchain : ∀ u, (s.stack u).IsChain
      (Link c ((s.put b (some p)).stackOf t (b :: s.stack t))) := fun u ↦ by
    refine (h.link u).imp_of_mem_imp fun x y hx hy hxy ↦ hxy.congr (fun r hr ↦ ?_) ?_
    · exact ⟨r, by rw [← hplace x (hold x u hx), hr], rfl, rfl⟩
    · exact hplace y (hold y u hy)
  refine ⟨fun u ↦ ?_, fun u v x hx hy ↦ ?_, fun u ↦ ?_, ?_⟩
  · rw [State.stackOf_stack]
    split_ifs with hu
    · exact List.nodup_cons.mpr ⟨hb.stack t, h.nodup t⟩
    · exact h.nodup u
  · rw [State.stackOf_stack] at hx hy
    rcases hmem u x hx with hx | ⟨heq, hu⟩ <;> rcases hmem v x hy with hy | ⟨heq', hv⟩
    · exact h.disjoint u v x hx hy
    · exact absurd hx (heq' ▸ hb.stack u)
    · exact absurd hy (heq ▸ hb.stack v)
    · exact hu.trans hv.symm
  · rw [State.stackOf_stack]
    split_ifs with hu
    · refine (hchain t).cons fun y hy p' q k hp hq hk ↦ ?_
      obtain rfl : p = p' := by simpa using hp
      rw [hplace y (hold y t (List.mem_of_head? hy))] at hq
      exact hcall y q k hy hq hk
    · exact hchain u
  · refine h.waits_of fun u l hl ↦ .inr ⟨hl, ?_, fun x q topx ↦ hplace x (hold x u topx.mem)⟩
    have hu : u ≠ t := by
      rintro rfl
      rw [State.stackOf_waiting, State.put_waiting, hwait] at hl
      cases hl
    rw [State.stackOf_stack, if_neg hu]
    rfl

/-- The running activation goes from its stack. -/
theorem Shaped.pop [DecidableEq T] [DecidableEq A] (h : Shaped c s) (top : Top s t a p) (hwait : s.waiting t = none) :
    Shaped c ((s.put a none).stackOf t (s.stack t).tail) := by
  have hsub : ∀ u, ((s.put a none).stackOf t (s.stack t).tail).stack u <:+ s.stack u := fun u ↦ by
    rw [State.stackOf_stack]
    split_ifs with hu
    · exact hu ▸ List.tail_suffix _
    · exact List.suffix_rfl
  have hne : ∀ u x, x ∈ ((s.put a none).stackOf t (s.stack t).tail).stack u → x ≠ a := by
    intro u x hx
    by_cases hu : u = t
    · rw [State.stackOf_stack, if_pos hu] at hx
      exact fun heq ↦ h.not_mem_tail top t (heq ▸ hx)
    · exact h.ne_top top ((hsub u).subset hx) hu
  have hplace : ∀ x, x ≠ a →
      ((s.put a none).stackOf t (s.stack t).tail).place x = s.place x := fun x hx ↦ by
    rw [State.stackOf_place, State.put_place, if_neg hx]
  refine ⟨fun u ↦ (h.nodup u).sublist (hsub u).sublist,
    fun u v x hx hy ↦ h.disjoint u v x ((hsub u).subset hx) ((hsub v).subset hy), fun u ↦ ?_, ?_⟩
  · refine ((h.link u).suffix (hsub u)).imp_of_mem_imp fun x y hx hy hxy ↦
      hxy.congr (fun r hr ↦ ?_) (hplace y (hne u y hy))
    exact ⟨r, by rw [← hplace x (hne u x hx), hr], rfl, rfl⟩
  · refine h.waits_move top (fun u l hl ↦ ⟨?_, hl⟩) (fun u hu ↦ ?_) fun x hx _ _ ↦ hplace x hx
    · rintro rfl
      rw [State.stackOf_waiting, State.put_waiting, hwait] at hl
      cases hl
    · rw [State.stackOf_stack, if_neg hu]
      rfl

/-- A step keeps the shape of the stacks. -/
theorem Step.shaped [DecidableEq T] [DecidableEq A] [DecidableEq L] (h : Shaped c s)
    (hs : Step c s s') : Shaped c s' := by
  cases hs with
  | @go t a p n top hact hn =>
      have hwait := h.not_waiting_of_passes top hact
      refine h.go top (fun u l hl ↦ ⟨?_, hl⟩) rfl rfl
      rintro rfl
      rw [State.put_waiting, hwait] at hl
      cases hl
  | ask top hact => exact h.rest top (.inl hact) rfl rfl rfl
  | lock top hact hfree hn =>
      refine h.go top (fun u l hl ↦ ?_) rfl rfl
      rw [State.wait_waiting] at hl
      split_ifs at hl with hu
      exact ⟨hu, hl⟩
  | @unlock t a p l n top hact hown hn =>
      have hwait := h.not_waiting top (by simp [hact]) (by simp [hact])
      refine h.go top (fun u l hl ↦ ⟨?_, hl⟩) rfl rfl
      rintro rfl
      rw [State.own_waiting, State.put_waiting, hwait] at hl
      cases hl
  | suspend top hact hown => exact h.rest top (.inr hact) rfl rfl rfl
  | resume top hact hwait hfree hn =>
      refine h.go top (fun u l hl ↦ ?_) rfl rfl
      rw [State.wait_waiting] at hl
      split_ifs at hl with hu
      exact ⟨hu, hl⟩
  | @call t a p f b n top hact hn hb =>
      have hwait := h.not_waiting top (by simp [hact]) (by simp [hact])
      refine h.push hb hwait fun a' q n' ha hq hn' ↦ ?_
      obtain ⟨rfl, rfl⟩ := top.unique ⟨ha, hq⟩
      obtain rfl := Option.some.inj hn'
      exact ⟨hact, hn⟩
  | @ret t a p b q n rest top hact hst hb hback =>
      have hwait := h.not_waiting top (by simp [hact]) (by simp [hact])
      have hpop := h.pop top hwait
      rw [hst] at hpop
      have hab : b ≠ a := fun heq ↦ h.not_mem_tail top t (by rw [hst, heq]; exact List.mem_cons_self)
      have topb : Top ((s.put a none).stackOf t (b :: rest)) t b q :=
        ⟨by simp, by simp [hab, hb]⟩
      refine hpop.go topb (fun u l hl ↦ ⟨?_, hl⟩) rfl rfl
      rintro rfl
      rw [State.stackOf_waiting, State.put_waiting, State.put_waiting, hwait] at hl
      cases hl
  | @finish t a p top hact hst =>
      have hwait := h.not_waiting top (by simp [hact]) (by simp [hact])
      have hpop := h.pop top hwait
      rwa [hst] at hpop
  | @start t a f hf hst ha hwait =>
      have hpush := h.push (p := ⟨f, c.entry f, none⟩) ha hwait fun a q n hhead _ hback ↦ by cases hback
      rwa [hst] at hpush

/-- Control that cannot leave a part of a body stays in it, and the activation is never left. -/
theorem Step.stays [DecidableEq T] [DecidableEq A] [DecidableEq L] (h : Shaped c s) {f : F}
    {S : Set N} (hclosed : ∀ n ∈ S, ∀ n', c.next f n n' → n' ∈ S)
    (hret : ∀ n ∈ S, c.action f n ≠ .ret) (hs : Step c s s') (ha : a ∈ s.stack t)
    (hp : ∃ p, s.place a = some p ∧ p.fn = f ∧ p.pc ∈ S) :
    a ∈ s'.stack t ∧ ∃ p, s'.place a = some p ∧ p.fn = f ∧ p.pc ∈ S := by
  obtain ⟨p, hp, rfl, hS⟩ := hp
  have hmove : ∀ b q n, s.place b = some q → c.next q.fn q.pc n →
      ∃ r, (s.put b (some { q with pc := n })).place a = some r ∧ r.fn = p.fn ∧ r.pc ∈ S := by
    intro b q n hq hn
    by_cases hab : a = b
    · subst hab
      obtain rfl := Option.some.inj (hp.symm.trans hq)
      exact ⟨{ p with pc := n }, by simp, rfl, hclosed p.pc hS n hn⟩
    · exact ⟨p, by simp [hab, hp], rfl, hS⟩
  cases hs with
  | go top hact hn | lock top hact hfree hn | unlock top hact hown hn
  | resume top hact hwait hfree hn => exact ⟨ha, hmove _ _ _ top.place hn⟩
  | ask top hact | suspend top hact hown => exact ⟨ha, p, hp, rfl, hS⟩
  | @call u b q f e n top hact hn he =>
      have hae : a ≠ e := fun heq ↦ he.stack t (heq ▸ ha)
      refine ⟨?_, p, by simp [hae, hp], rfl, hS⟩
      rw [State.stackOf_stack]
      split_ifs with hu
      · exact List.mem_cons_of_mem e (hu ▸ ha)
      · exact ha
  | @ret u b q e r n rest top hact hst he hback =>
      have hab : a ≠ b := by
        rintro rfl
        obtain rfl := Option.some.inj (hp.symm.trans top.place)
        exact hret p.pc hS hact
      have hlink := h.link u
      rw [hst, List.isChain_cons_cons] at hlink
      obtain ⟨-, hn⟩ := hlink.1 q r n top.place he hback
      constructor
      · rw [State.stackOf_stack]
        split_ifs with hu
        · rw [hu, hst] at ha
          exact (List.mem_cons.mp ha).resolve_left hab
        · exact ha
      · obtain ⟨r', hr', hin⟩ := hmove e r n he hn
        refine ⟨r', ?_, hin⟩
        rw [State.put_place] at hr'
        rw [State.stackOf_place, State.put_place, State.put_place, if_neg hab]
        exact hr'
  | @finish u b q top hact hst =>
      have hab : a ≠ b := by
        rintro rfl
        obtain rfl := Option.some.inj (hp.symm.trans top.place)
        exact hret p.pc hS hact
      refine ⟨?_, p, by simp [hab, hp], rfl, hS⟩
      rw [State.stackOf_stack]
      split_ifs with hu
      · rw [hu, hst] at ha
        exact absurd (List.mem_singleton.mp ha) hab
      · exact ha
  | @start u b g hg hst hb hwait =>
      have hab : a ≠ b := fun heq ↦ hb.stack t (heq ▸ ha)
      refine ⟨?_, p, by simp [hab, hp], rfl, hS⟩
      rw [State.stackOf_stack]
      split_ifs with hu
      · rw [hu, hst] at ha
        cases ha
      · exact ha

theorem stays_run [DecidableEq T] [DecidableEq A] [DecidableEq L] (h : Shaped c s) {f : F}
    {S : Set N} (hclosed : ∀ n ∈ S, ∀ n', c.next f n n' → n' ∈ S)
    (hret : ∀ n ∈ S, c.action f n ≠ .ret) (hs : Relation.ReflTransGen (Step c) s s')
    (ha : a ∈ s.stack t) (hp : ∃ p, s.place a = some p ∧ p.fn = f ∧ p.pc ∈ S) :
    a ∈ s'.stack t ∧ ∃ p, s'.place a = some p ∧ p.fn = f ∧ p.pc ∈ S := by
  have hrun : Shaped c s' ∧ a ∈ s'.stack t ∧ ∃ p, s'.place a = some p ∧ p.fn = f ∧ p.pc ∈ S := by
    induction hs with
    | refl => exact ⟨h, ha, hp⟩
    | tail _ hst ih =>
        obtain ⟨hsh, ha, hp⟩ := ih
        exact ⟨hst.shaped hsh, hst.stays hsh hclosed hret ha hp⟩
  exact hrun.2

end Shape

end ConcIR.Control
