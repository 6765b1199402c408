import ConcIR.Validate.Walk

/-!
# Strongly connected components

Tarjan's depth-first search. Each node gets a number when it is entered and goes on a stack.
Its low link is the least number that is known to be reached from it on the stack. A node whose
low link is its own number is the root of a component, and the component is what lies on the
stack from there on.

The nodes that are being visited are gray. What the search keeps relates the stack to them: a
node on the stack reaches all nodes above it and some gray node below it.
-/

namespace ConcIR.Validate

namespace Tarjan

open Walk (Reach)

/-- The stack has its top first. -/
structure State (V : Type*) where
  indexCounter : ℕ
  stack : List V
  onStack : V → Bool
  index : V → Option ℕ
  lowlink : V → ℕ
  sccs : List (List V)

variable {V : Type*}

namespace State

def start : State V := ⟨0, [], fun _ ↦ false, fun _ ↦ none, fun _ ↦ 0, []⟩

def num (s : State V) (v : V) : ℕ := (s.index v).getD 0

variable [DecidableEq V]

/-- Number a node and push it. -/
def enter (s : State V) (v : V) : State V where
  indexCounter := s.indexCounter + 1
  stack := v :: s.stack
  onStack := Function.update s.onStack v true
  index := Function.update s.index v (some s.indexCounter)
  lowlink := Function.update s.lowlink v s.indexCounter
  sccs := s.sccs

def lower (s : State V) (v : V) (n : ℕ) : State V :=
  { s with lowlink := Function.update s.lowlink v (min (s.lowlink v) n) }

/-- Pop nodes into the component until `v` has been popped. -/
def popTo (v : V) (scc : List V) (s : State V) : List V → Option (State V)
  | [] => none
  | w :: rest =>
      let s := { s with stack := rest, onStack := Function.update s.onStack w false }
      if w = v then some { s with sccs := s.sccs ++ [scc ++ [w]] }
      else popTo v (scc ++ [w]) s rest

/-- The root of a component takes it off the stack. -/
def leave (s : State V) (v : V) : Option (State V) :=
  if s.lowlink v = s.num v then popTo v [] s s.stack else some s

end State

/-- Visit a node that has no number yet. `none` is a search that has run out of fuel, or a pop
from the empty stack. -/
def strongconnect [DecidableEq V] (next : V → List V) : ℕ → V → State V → Option (State V)
  | 0, _, _ => none
  | n + 1, v, s => do
      let s ← (next v).foldlM (fun s w ↦
        match s.index w with
        | none => do
            let s ← strongconnect next n w s
            some (s.lower v (s.lowlink w))
        | some i => if s.onStack w then some (s.lower v i) else some s) (s.enter v)
      s.leave v

/-- The components of the nodes in the order in which their roots are left. -/
def tarjanScc [DecidableEq V] (next : V → List V) (nodes : List V) : Option (List (List V)) := do
  let s ← nodes.foldlM (fun s v ↦
    if (s.index v).isNone then strongconnect next nodes.length v s else some s) State.start
  some s.sccs

/-- The state with a component taken off the stack. -/
def State.cut [DecidableEq V] (s : State V) (scc below : List V) : State V :=
  { s with
    stack := below
    onStack := fun x ↦ if x ∈ scc then false else s.onStack x
    sccs := s.sccs ++ [scc] }

/-- What the search keeps while the nodes of `gray` are being visited. -/
structure Inv (next : V → List V) (gray : List V) (s : State V) : Prop where
  onStack : ∀ x, s.onStack x = true ↔ x ∈ s.stack
  visited : ∀ x, (s.index x).isSome ↔ x ∈ s.stack ∨ x ∈ s.sccs.flatten
  fresh : ∀ x, (s.index x).isSome → s.num x < s.indexCounter
  order : s.stack.Pairwise fun x y ↦ s.num y < s.num x
  onPath : ∀ x ∈ gray, x ∈ s.stack
  black : ∀ x, (s.index x).isSome → x ∉ gray → ∀ y ∈ next x, (s.index y).isSome
  up : ∀ x ∈ s.stack, ∀ y ∈ s.stack, s.num x ≤ s.num y → Reach next x y
  down : ∀ y ∈ s.stack, ∃ x ∈ gray, s.num x ≤ s.num y ∧ Reach next y x
  disjoint : ∀ x ∈ s.stack, x ∉ s.sccs.flatten
  nodup : s.sccs.flatten.Nodup
  component : ∀ C ∈ s.sccs, C ≠ [] ∧ ∀ x ∈ C, ∀ y, y ∈ C ↔ Reach next x y ∧ Reach next y x
  closed : ∀ x ∈ s.sccs.flatten, ∀ y ∈ next x, y ∈ s.sccs.flatten
  topological : s.sccs.Pairwise fun C D ↦ ∀ x ∈ C, ∀ y ∈ D, ¬Reach next x y

section Kept

/-- Nodes that have numbers keep them, and keep their low links. -/
structure Kept (s s' : State V) : Prop where
  index : ∀ x, (s.index x).isSome → s'.index x = s.index x
  lowlink : ∀ x, (s.index x).isSome → s'.lowlink x = s.lowlink x
  counter : s.indexCounter ≤ s'.indexCounter

namespace Kept

variable {s s₁ s₂ s₃ : State V} {x : V}

theorem num (h : Kept s₁ s₂) (hx : (s₁.index x).isSome) : s₂.num x = s₁.num x := by
  rw [State.num, State.num, h.index x hx]

theorem isSome (h : Kept s₁ s₂) (hx : (s₁.index x).isSome) : (s₂.index x).isSome := by
  rw [h.index x hx]
  exact hx

theorem refl (s : State V) : Kept s s := ⟨fun _ _ ↦ rfl, fun _ _ ↦ rfl, le_rfl⟩

theorem trans (h : Kept s₁ s₂) (h' : Kept s₂ s₃) : Kept s₁ s₃ where
  index x hx := (h'.index x (h.isSome hx)).trans (h.index x hx)
  lowlink x hx := (h'.lowlink x (h.isSome hx)).trans (h.lowlink x hx)
  counter := h.counter.trans h'.counter

end Kept

/-- The nodes of `U` without a number. -/
def open_ (U : Finset V) (s : State V) : Finset V := U.filter fun x ↦ (s.index x).isNone

theorem open_subset {U : Finset V} {s₁ s₂ : State V} (h : Kept s₁ s₂) :
    open_ U s₂ ⊆ open_ U s₁ := by
  intro x hx
  obtain ⟨hU, hx⟩ := Finset.mem_filter.mp hx
  refine Finset.mem_filter.mpr ⟨hU, ?_⟩
  cases hi : s₁.index x with
  | none => rfl
  | some i =>
      rw [h.index x (by rw [hi]; rfl), hi] at hx
      cases hx

end Kept

section Invariant

variable {next : V → List V} {gray : List V} {s : State V} {v x y : V}

namespace Inv

theorem isSome_of_mem (h : Inv next gray s) (hx : x ∈ s.stack) : (s.index x).isSome :=
  (h.visited x).mpr (.inl hx)

theorem stack_nodup (h : Inv next gray s) : s.stack.Nodup :=
  by
  refine h.order.imp fun hlt heq ↦ ?_
  subst heq
  exact lt_irrefl _ hlt

theorem notMem (h : Inv next gray s) (hv : s.index v = none) :
    v ∉ s.stack ∧ v ∉ s.sccs.flatten := by
  rw [← not_or, ← h.visited, hv]
  exact Bool.false_ne_true

/-- What has left the stack reaches only what has left it. -/
theorem reach_closed (h : Inv next gray s) (hx : x ∈ s.sccs.flatten) (hxy : Reach next x y) :
    y ∈ s.sccs.flatten := by
  induction hxy with
  | refl => exact hx
  | tail _ hstep ih => exact h.closed _ ih _ hstep

theorem start : Inv next [] (State.start : State V) where
  onStack _ := by simp [State.start]
  visited _ := by simp [State.start]
  fresh _ hx := by cases hx
  order := List.Pairwise.nil
  onPath _ hx := by cases hx
  black _ hx := by cases hx
  up _ hx := by cases hx
  down _ hx := by cases hx
  disjoint _ hx := by cases hx
  nodup := List.nodup_nil
  component _ hC := by cases hC
  closed _ hx := by cases hx
  topological := List.Pairwise.nil

end Inv

end Invariant

variable [DecidableEq V]

section Operations

variable {next : V → List V} {gray : List V} {s : State V} {v w x : V} {n : ℕ}

@[simp] theorem num_lower : (s.lower v n).num x = s.num x := rfl

theorem num_enter_self : (s.enter v).num v = s.indexCounter := by
  simp [State.num, State.enter]

theorem num_enter_of_ne (h : x ≠ v) : (s.enter v).num x = s.num x := by
  simp [State.num, State.enter, h]

theorem index_enter_isSome : ((s.enter v).index x).isSome ↔ x = v ∨ (s.index x).isSome := by
  by_cases h : x = v
  · subst h
    simp [State.enter]
  · simp [State.enter, h]

theorem kept_enter (hv : s.index v = none) : Kept s (s.enter v) := by
  have hne : ∀ x, (s.index x).isSome → x ≠ v := by
    rintro x hx rfl
    rw [hv] at hx
    cases hx
  exact ⟨fun x hx ↦ Function.update_of_ne (hne x hx) _ _,
    fun x hx ↦ Function.update_of_ne (hne x hx) _ _, Nat.le_succ _⟩

theorem open_enter_lt {U : Finset V} (hv : s.index v = none) (hU : v ∈ U) :
    (open_ U (s.enter v)).card < (open_ U s).card := by
  refine Finset.card_lt_card ⟨open_subset (kept_enter hv), fun hsub ↦ ?_⟩
  have hmem : v ∈ open_ U s := Finset.mem_filter.mpr ⟨hU, by rw [hv]; rfl⟩
  have hnone := (Finset.mem_filter.mp (hsub hmem)).2
  simp [State.enter] at hnone

/-- Popping to a node on the stack takes off the nodes above it, and it. -/
theorem popTo_eq {above below : List V} (hv : v ∉ above) (scc : List V) :
    State.popTo v scc s (above ++ v :: below) =
      some { s with
        stack := below
        onStack := fun x ↦ if x ∈ above ++ [v] then false else s.onStack x
        sccs := s.sccs ++ [scc ++ (above ++ [v])] } := by
  induction above generalizing s scc with
  | nil =>
      rw [List.nil_append, State.popTo, if_pos rfl, List.nil_append]
      congr 2
      funext x
      simp [Function.update_apply]
  | cons w above ih =>
      rw [List.mem_cons, not_or] at hv
      rw [List.cons_append, State.popTo, if_neg (Ne.symm hv.1), ih hv.2]
      congr 2
      · funext x
        by_cases hx : x = w
        · subst hx
          simp
        · simp [hx]
      · simp

theorem leave_root {above below : List V} (hstack : s.stack = above ++ v :: below)
    (hv : v ∉ above) (hlow : s.lowlink v = s.num v) :
    s.leave v = some (s.cut (above ++ [v]) below) := by
  rw [State.leave, if_pos hlow, hstack, popTo_eq hv]
  rfl

end Operations

section Visit

variable {next : V → List V} {gray : List V} {s : State V} {v w x y : V} {n : ℕ}

namespace Inv

theorem lower (h : Inv next gray s) (v : V) (n : ℕ) : Inv next gray (s.lower v n) :=
  ⟨h.onStack, h.visited, h.fresh, h.order, h.onPath, h.black, h.up, h.down, h.disjoint, h.nodup,
    h.component, h.closed, h.topological⟩

/-- A node is entered when all gray nodes reach it. -/
theorem enter (h : Inv next gray s) (hv : s.index v = none)
    (hreach : ∀ x ∈ gray, Reach next x v) : Inv next (v :: gray) (s.enter v) := by
  obtain ⟨hstack, hsccs⟩ := h.notMem hv
  have hne : ∀ {x}, x ∈ s.stack → x ≠ v := fun hx he ↦ hstack (he ▸ hx)
  have hkept := kept_enter hv
  have hnum : ∀ {x}, x ∈ s.stack → (s.enter v).num x = s.num x := fun hx ↦
    num_enter_of_ne (hne hx)
  have hlt : ∀ x ∈ s.stack, (s.enter v).num x < (s.enter v).num v := by
    intro x hx
    rw [hnum hx, num_enter_self]
    exact h.fresh x (h.isSome_of_mem hx)
  have htop : ∀ x ∈ s.stack, Reach next x v := by
    intro x hx
    obtain ⟨g, hg, -, hxg⟩ := h.down x hx
    exact hxg.trans (hreach g hg)
  refine ⟨?_, ?_, ?_, ?_, ?_, ?_, ?_, ?_, ?_, h.nodup, h.component, h.closed, h.topological⟩
  · intro x
    by_cases hx : x = v
    · subst hx
      simp [State.enter]
    · simp [State.enter, hx, h.onStack]
  · intro x
    rw [index_enter_isSome, h.visited, ← or_assoc]
    exact or_congr_left List.mem_cons.symm
  · intro x hx
    by_cases hxv : x = v
    · subst hxv
      rw [num_enter_self]
      exact Nat.lt_succ_self _
    · rw [num_enter_of_ne hxv]
      exact Nat.lt_succ_of_lt (h.fresh x ((index_enter_isSome.mp hx).resolve_left hxv))
  · refine List.pairwise_cons.mpr ⟨hlt, h.order.imp_of_mem fun hx hy hlt ↦ ?_⟩
    rw [hnum hx, hnum hy]
    exact hlt
  · intro x hx
    rcases List.mem_cons.mp hx with rfl | hx
    · exact List.mem_cons_self
    · exact List.mem_cons_of_mem v (h.onPath x hx)
  · intro x hx hgray y hy
    rw [List.mem_cons, not_or] at hgray
    exact hkept.isSome (h.black x ((index_enter_isSome.mp hx).resolve_left hgray.1) hgray.2 y hy)
  · intro x hx y hy hle
    rcases List.mem_cons.mp hx with rfl | hx'
    · rcases List.mem_cons.mp hy with rfl | hy'
      · exact .refl
      · exact absurd hle (not_le.mpr (hlt y hy'))
    · rcases List.mem_cons.mp hy with rfl | hy'
      · exact htop x hx'
      · rw [hnum hx', hnum hy'] at hle
        exact h.up x hx' y hy' hle
  · intro y hy
    rcases List.mem_cons.mp hy with rfl | hy
    · exact ⟨y, List.mem_cons_self, le_rfl, .refl⟩
    · obtain ⟨g, hg, hle, hreach⟩ := h.down y hy
      refine ⟨g, List.mem_cons_of_mem v hg, ?_, hreach⟩
      rw [hnum (h.onPath g hg), hnum hy]
      exact hle
  · intro x hx
    rcases List.mem_cons.mp hx with rfl | hx
    · exact hsccs
    · exact h.disjoint x hx

end Inv

/-- The successors of `v` in `done` have been looked at, and `s₀` is the state in which `v` was
entered. -/
structure Scan (next : V → List V) (gray : List V) (v : V) (s₀ s : State V) (done : List V) :
    Prop where
  inv : Inv next (v :: gray) s
  kept : Kept s₀ s
  only : ∀ x, (s.index x).isSome → (s₀.index x).isSome ∨ Reach next v x
  unseen : s₀.index v = none
  isSome : (s.index v).isSome
  num : s.num v = s₀.indexCounter
  above : ∃ above, s.stack = above ++ v :: s₀.stack ∧
    ∀ x ∈ above, ∀ y ∈ next x, y ∈ s₀.stack → s.lowlink v ≤ s.num y
  le : s.lowlink v ≤ s.num v
  low : ∃ z ∈ s.stack, s.num z = s.lowlink v ∧ Reach next v z
  seen : ∀ y ∈ done, (s.index y).isSome ∧ (y ∈ s₀.stack → s.lowlink v ≤ s.num y)

/-- The visit of `v` has come to its end. -/
structure Done (next : V → List V) (gray : List V) (v : V) (s₀ s : State V) : Prop where
  inv : Inv next gray s
  kept : Kept s₀ s
  only : ∀ x, (s.index x).isSome → (s₀.index x).isSome ∨ Reach next v x
  isSome : (s.index v).isSome
  num : s₀.indexCounter ≤ s.num v
  above : ∃ above, s.stack = above ++ s₀.stack ∧
    ∀ x ∈ above, ∀ y ∈ next x, y ∈ s₀.stack → s.lowlink v ≤ s.num y
  low : (∃ z ∈ s.stack, s.num z = s.lowlink v ∧ Reach next v z) ∨ s.lowlink v = s.num v

namespace Scan

variable {s₀ s : State V} {above done : List V}

theorem start (h : Inv next gray s) (hv : s.index v = none) (hreach : ∀ x ∈ gray, Reach next x v) :
    Scan next gray v s (s.enter v) [] where
  inv := h.enter hv hreach
  kept := kept_enter hv
  only x hx := by
    rcases index_enter_isSome.mp hx with rfl | hx
    · exact .inr .refl
    · exact .inl hx
  unseen := hv
  isSome := index_enter_isSome.mpr (.inl rfl)
  num := num_enter_self
  above := ⟨[], rfl, fun _ hx ↦ by cases hx⟩
  le := by rw [num_enter_self]; simp [State.enter]
  low := ⟨v, List.mem_cons_self, by rw [num_enter_self]; simp [State.enter], .refl⟩
  seen _ hy := by cases hy

omit [DecidableEq V] in
/-- The numbers of the nodes above `v` are greater, those of the nodes below are less. -/
theorem num_lt (h : Scan next gray v s₀ s done) (hstack : s.stack = above ++ v :: s₀.stack) :
    (∀ x ∈ above, s.num v < s.num x) ∧ ∀ x ∈ s₀.stack, s.num x < s.num v := by
  have horder := h.inv.order
  rw [hstack] at horder
  obtain ⟨-, hbelow, habove⟩ := List.pairwise_append.mp horder
  exact ⟨fun x hx ↦ habove x hx v List.mem_cons_self, (List.pairwise_cons.mp hbelow).1⟩

omit [DecidableEq V] in
theorem notMem_above (h : Scan next gray v s₀ s done) (hstack : s.stack = above ++ v :: s₀.stack) :
    v ∉ above := fun hv ↦ lt_irrefl _ ((h.num_lt hstack).1 v hv)

/-- Only `v` turns black with its successors seen. -/
theorem black (h : Scan next gray v s₀ s (next v)) (hx : (s.index x).isSome) (hgray : x ∉ gray)
    (hy : y ∈ next x) : (s.index y).isSome := by
  by_cases hxv : x = v
  · subst hxv
    exact (h.seen y hy).1
  · exact h.inv.black x hx (by simp [hxv, hgray]) y hy

/-- A node that is not the root of a component stays on the stack. -/
theorem stay (h : Scan next gray v s₀ s (next v)) (hlow : s.lowlink v ≠ s.num v) :
    Done next gray v s₀ s := by
  obtain ⟨above, hstack, hbound⟩ := h.above
  obtain ⟨habove, hbelow⟩ := h.num_lt hstack
  have hlt : s.lowlink v < s.num v := lt_of_le_of_ne h.le hlow
  have hmem : ∀ x, x ∈ s.stack ↔ x ∈ above ∨ x = v ∨ x ∈ s₀.stack := fun x ↦ by
    rw [hstack, List.mem_append, List.mem_cons]
  -- `v` reaches a node below it, which reaches a gray node below that one
  have hdown : ∃ g ∈ gray, s.num g ≤ s.num v ∧ Reach next v g := by
    obtain ⟨z, hz, hzlow, hvz⟩ := h.low
    obtain ⟨g, hg, hgz, hzg⟩ := h.inv.down z hz
    have hgv : g ≠ v := by
      rintro rfl
      omega
    exact ⟨g, (List.mem_cons.mp hg).resolve_left hgv, by omega, hvz.trans hzg⟩
  refine ⟨⟨h.inv.onStack, h.inv.visited, h.inv.fresh, h.inv.order, ?_, ?_, h.inv.up, ?_,
    h.inv.disjoint, h.inv.nodup, h.inv.component, h.inv.closed, h.inv.topological⟩, h.kept, h.only,
    h.isSome, h.num.ge, ?_, .inl h.low⟩
  · exact fun x hx ↦ h.inv.onPath x (List.mem_cons_of_mem v hx)
  · exact fun x hx hgray y hy ↦ h.black hx hgray hy
  · intro y hy
    obtain ⟨g, hg, hle, hreach⟩ := h.inv.down y hy
    rcases List.mem_cons.mp hg with rfl | hg
    · obtain ⟨g', hg', hle', hreach'⟩ := hdown
      exact ⟨g', hg', hle'.trans hle, hreach.trans hreach'⟩
    · exact ⟨g, hg, hle, hreach⟩
  · refine ⟨above ++ [v], by rw [hstack, List.append_assoc]; rfl, ?_⟩
    intro x hx y hy hy₀
    rcases List.mem_append.mp hx with hx | hx
    · exact hbound x hx y hy hy₀
    · obtain rfl := List.mem_singleton.mp hx
      exact (h.seen y hy).2 hy₀

variable (hbase : Inv next gray s₀)
include hbase

/-- What lies on the stack from the root of a component on. -/
theorem component (h : Scan next gray v s₀ s (next v)) (hlow : s.lowlink v = s.num v)
    (hstack : s.stack = above ++ v :: s₀.stack)
    (hbound : ∀ x ∈ above, ∀ y ∈ next x, y ∈ s₀.stack → s.lowlink v ≤ s.num y) :
    (∀ x ∈ above ++ [v], ∀ y ∈ next x, y ∈ above ++ [v] ∨ y ∈ s.sccs.flatten) ∧
      ∀ x ∈ above ++ [v], Reach next x v ∧ Reach next v x := by
  obtain ⟨habove, hbelow⟩ := h.num_lt hstack
  have hv : v ∈ s.stack := by simp [hstack]
  have hon : ∀ x ∈ above ++ [v], x ∈ s.stack ∧ s.num v ≤ s.num x := by
    intro x hx
    rcases List.mem_append.mp hx with hx | hx
    · exact ⟨by simp [hstack, hx], (habove x hx).le⟩
    · obtain rfl := List.mem_singleton.mp hx
      exact ⟨hv, le_rfl⟩
  constructor
  · intro x hx y hy
    have hvisited : (s.index y).isSome := by
      refine h.black (h.inv.isSome_of_mem (hon x hx).1) (fun hgray ↦ ?_) hy
      exact absurd (hbelow x (hbase.onPath x hgray)) (not_lt.mpr (hon x hx).2)
    rcases (h.inv.visited y).mp hvisited with hys | hys
    · rw [hstack, List.mem_append, List.mem_cons] at hys
      rcases hys with hys | rfl | hys
      · exact .inl (List.mem_append_left _ hys)
      · exact .inl (by simp)
      · have hle : s.lowlink v ≤ s.num y := by
          rcases List.mem_append.mp hx with hx | hx
          · exact hbound x hx y hy hys
          · obtain rfl := List.mem_singleton.mp hx
            exact (h.seen y hy).2 hys
        have hlt := hbelow y hys
        omega
    · exact .inr hys
  · intro x hx
    obtain ⟨hxs, hle⟩ := hon x hx
    refine ⟨?_, h.inv.up v hv x hxs hle⟩
    obtain ⟨g, hg, -, hxg⟩ := h.inv.down x hxs
    rcases List.mem_cons.mp hg with rfl | hg
    · exact hxg
    · have hgs := h.inv.onPath g (List.mem_cons_of_mem v hg)
      have hlt := hbelow g (hbase.onPath g hg)
      exact hxg.trans (h.inv.up g hgs v hv hlt.le)

/-- Taking a component off the stack keeps the invariant. -/
theorem cut (h : Scan next gray v s₀ s (next v)) (hlow : s.lowlink v = s.num v)
    (hstack : s.stack = above ++ v :: s₀.stack)
    (hbound : ∀ x ∈ above, ∀ y ∈ next x, y ∈ s₀.stack → s.lowlink v ≤ s.num y) :
    Inv next gray (s.cut (above ++ [v]) s₀.stack) := by
  obtain ⟨hout, hvv⟩ := h.component hbase hlow hstack hbound
  have hbelow := (h.num_lt hstack).2
  have hsplit : s.stack = (above ++ [v]) ++ s₀.stack := by rw [hstack, List.append_assoc]; rfl
  have hsub : ∀ x ∈ s₀.stack, x ∈ s.stack := fun x hx ↦ hsplit ▸ List.mem_append_right _ hx
  have hscc : ∀ x ∈ above ++ [v], x ∈ s.stack := fun x hx ↦ hsplit ▸ List.mem_append_left _ hx
  have hnodup := h.inv.stack_nodup
  rw [hsplit] at hnodup
  obtain ⟨hscc_nodup, -, hdisjoint⟩ := List.nodup_append.mp hnodup
  have hflat : (s.cut (above ++ [v]) s₀.stack).sccs.flatten = s.sccs.flatten ++ (above ++ [v]) := by
    simp [State.cut]
  have hreach : ∀ x ∈ above ++ [v], ∀ y, Reach next x y → y ∈ above ++ [v] ∨ y ∈ s.sccs.flatten := by
    intro x hx y hxy
    induction hxy with
    | refl => exact .inl hx
    | tail _ hstep ih =>
        rcases ih with ih | ih
        · exact hout _ ih _ hstep
        · exact .inr (h.inv.closed _ ih _ hstep)
  refine ⟨?_, ?_, h.inv.fresh, ?_, hbase.onPath, ?_, ?_, ?_, ?_, ?_, ?_, ?_, ?_⟩
  · intro x
    have hon := h.inv.onStack x
    rw [hsplit, List.mem_append] at hon
    by_cases hx : x ∈ above ++ [v]
    · have hx₀ : x ∉ s₀.stack := fun hx₀ ↦ hdisjoint x hx x hx₀ rfl
      simp only [State.cut, if_pos hx, hx₀, iff_false]
      exact Bool.false_ne_true
    · simp only [State.cut, if_neg hx]
      rw [hon]
      exact or_iff_right hx
  · intro x
    have hvisited := h.inv.visited x
    rw [hsplit, List.mem_append] at hvisited
    rw [hflat, List.mem_append]
    change (s.index x).isSome ↔ x ∈ s₀.stack ∨ x ∈ s.sccs.flatten ∨ x ∈ above ++ [v]
    rw [hvisited]
    tauto
  · have horder := h.inv.order
    rw [hsplit] at horder
    exact (List.pairwise_append.mp horder).2.1
  · exact fun x hx hgray y hy ↦ h.black hx hgray hy
  · exact fun x hx y hy ↦ h.inv.up x (hsub x hx) y (hsub y hy)
  · intro y hy
    obtain ⟨g, hg, hle, hyg⟩ := h.inv.down y (hsub y hy)
    rcases List.mem_cons.mp hg with rfl | hg
    · exact absurd hle (not_le.mpr (hbelow y hy))
    · exact ⟨g, hg, hle, hyg⟩
  · intro x hx
    rw [hflat, List.mem_append, not_or]
    exact ⟨h.inv.disjoint x (hsub x hx), fun hx' ↦ hdisjoint x hx' x hx rfl⟩
  · rw [hflat]
    refine List.nodup_append.mpr ⟨h.inv.nodup, hscc_nodup, ?_⟩
    rintro x hx _ hy rfl
    exact h.inv.disjoint x (hscc x hy) hx
  · intro C hC
    rcases List.mem_append.mp hC with hC | hC
    · exact h.inv.component C hC
    · obtain rfl := List.mem_singleton.mp hC
      refine ⟨by simp, fun x hx y ↦ ⟨fun hy ↦ ?_, fun hxy ↦ ?_⟩⟩
      · exact ⟨(hvv x hx).1.trans (hvv y hy).2, (hvv y hy).1.trans (hvv x hx).2⟩
      · refine (hreach x hx y hxy.1).resolve_right fun hy ↦ ?_
        exact h.inv.disjoint x (hscc x hx) (h.inv.reach_closed hy hxy.2)
  · rw [hflat]
    intro x hx y hy
    rcases List.mem_append.mp hx with hx | hx
    · exact List.mem_append_left _ (h.inv.closed x hx y hy)
    · exact (hout x hx y hy).elim (List.mem_append_right _) (List.mem_append_left _)
  · refine List.pairwise_append.mpr ⟨h.inv.topological, List.pairwise_singleton _ _, ?_⟩
    intro C hC D hD x hx y hy hxy
    obtain rfl := List.mem_singleton.mp hD
    have hxs : x ∈ s.sccs.flatten := List.mem_flatten_of_mem hC hx
    exact h.inv.disjoint y (hscc y hy) (h.inv.reach_closed hxs hxy)

theorem leave (h : Scan next gray v s₀ s (next v)) :
    ∃ s', s.leave v = some s' ∧ Done next gray v s₀ s' := by
  by_cases hlow : s.lowlink v = s.num v
  · obtain ⟨above, hstack, hbound⟩ := h.above
    refine ⟨_, leave_root hstack (h.notMem_above hstack) hlow, h.cut hbase hlow hstack hbound,
      ⟨h.kept.index, h.kept.lowlink, h.kept.counter⟩, h.only, h.isSome, h.num.ge, ?_, .inr hlow⟩
    exact ⟨[], rfl, fun _ hx ↦ by cases hx⟩
  · exact ⟨s, if_neg hlow, h.stay hlow⟩

end Scan

section Lower

variable {s₀ s s₁ : State V} {done : List V}

theorem kept_lower (hkept : Kept s₀ s) (hv : s₀.index v = none) : Kept s₀ (s.lower v n) where
  index := hkept.index
  lowlink x hx := by
    have hne : x ≠ v := by
      rintro rfl
      rw [hv] at hx
      cases hx
    exact (Function.update_of_ne hne _ _).trans (hkept.lowlink x hx)
  counter := hkept.counter

theorem lowlink_lower : (s.lower v n).lowlink v = min (s.lowlink v) n := by
  simp [State.lower]

/-- A successor on the stack. -/
theorem Scan.onStack (h : Scan next gray v s₀ s done) (hw : w ∈ next v) (hstack : w ∈ s.stack) :
    Scan next gray v s₀ (s.lower v (s.num w)) (done ++ [w]) where
  inv := h.inv.lower v _
  kept := kept_lower h.kept h.unseen
  only := h.only
  unseen := h.unseen
  isSome := h.isSome
  num := h.num
  above := by
    obtain ⟨above, habove, hbound⟩ := h.above
    refine ⟨above, habove, fun x hx y hy hy₀ ↦ ?_⟩
    rw [lowlink_lower]
    exact (min_le_left _ _).trans (hbound x hx y hy hy₀)
  le := by
    rw [lowlink_lower]
    exact (min_le_left _ _).trans h.le
  low := by
    rw [lowlink_lower]
    rcases min_choice (s.lowlink v) (s.num w) with hmin | hmin <;> rw [hmin]
    · exact h.low
    · exact ⟨w, hstack, rfl, .single hw⟩
  seen := by
    intro y hy
    rw [lowlink_lower]
    rcases List.mem_append.mp hy with hy | hy
    · exact ⟨(h.seen y hy).1, fun hy₀ ↦ (min_le_left _ _).trans ((h.seen y hy).2 hy₀)⟩
    · obtain rfl := List.mem_singleton.mp hy
      exact ⟨h.inv.isSome_of_mem hstack, fun _ ↦ min_le_right _ _⟩

omit [DecidableEq V] in
/-- A successor whose component has been taken off already. -/
theorem Scan.offStack (h : Scan next gray v s₀ s done) (hsome : (s.index w).isSome)
    (hstack : w ∉ s.stack) : Scan next gray v s₀ s (done ++ [w]) := by
  refine ⟨h.inv, h.kept, h.only, h.unseen, h.isSome, h.num, h.above, h.le, h.low, fun y hy ↦ ?_⟩
  rcases List.mem_append.mp hy with hy | hy
  · exact h.seen y hy
  · obtain rfl := List.mem_singleton.mp hy
    refine ⟨hsome, fun hy₀ ↦ absurd ?_ hstack⟩
    obtain ⟨above, habove, -⟩ := h.above
    simp [habove, hy₀]

/-- A successor that has been visited from here. -/
theorem Scan.visit (h : Scan next gray v s₀ s done) (hw : w ∈ next v)
    (hdone : Done next (v :: gray) w s s₁) :
    Scan next gray v s₀ (s₁.lower v (s₁.lowlink w)) (done ++ [w]) := by
  have hnum : s₁.num v = s.num v := hdone.kept.num h.isSome
  have hlow : s₁.lowlink v = s.lowlink v := hdone.kept.lowlink v h.isSome
  have hkept := h.kept.trans hdone.kept
  obtain ⟨above, habove, hbound⟩ := h.above
  obtain ⟨new, hnew, hbound'⟩ := hdone.above
  have hmem : ∀ y ∈ s₀.stack, y ∈ s.stack := fun y hy ↦ by simp [habove, hy]
  have hsame : ∀ y, (s.index y).isSome → s₁.num y = s.num y := fun y hy ↦ hdone.kept.num hy
  refine ⟨hdone.inv.lower v _, kept_lower hkept h.unseen, ?_, h.unseen,
    hdone.kept.isSome h.isSome, hnum.trans h.num, ⟨new ++ above, ?_, ?_⟩, ?_, ?_, ?_⟩
  · intro x hx
    rcases hdone.only x hx with hx | hx
    · exact h.only x hx
    · exact .inr (hx.head hw)
  · rw [List.append_assoc, ← habove]
    exact hnew
  · intro x hx y hy hy₀
    rw [lowlink_lower, num_lower]
    rcases List.mem_append.mp hx with hx | hx
    · exact (min_le_right _ _).trans (hbound' x hx y hy (hmem y hy₀))
    · rw [hlow, hsame y (h.inv.isSome_of_mem (hmem y hy₀))]
      exact (min_le_left _ _).trans (hbound x hx y hy hy₀)
  · rw [lowlink_lower, num_lower, hlow, hnum]
    exact (min_le_left _ _).trans h.le
  · have hv : ∃ z ∈ s₁.stack, s₁.num z = s₁.lowlink v ∧ Reach next v z := by
      obtain ⟨z, hz, hzlow, hvz⟩ := h.low
      refine ⟨z, hnew ▸ List.mem_append_right _ hz, ?_, hvz⟩
      rw [hsame z (h.inv.isSome_of_mem hz), hlow, hzlow]
    rw [lowlink_lower]
    rcases min_choice (s₁.lowlink v) (s₁.lowlink w) with hmin | hmin
    · rw [hmin]
      exact hv
    · rcases hdone.low with ⟨z, hz, hzlow, hwz⟩ | hroot
      · rw [hmin]
        exact ⟨z, hz, hzlow, hwz.head hw⟩
      · -- a component of its own has numbers above that of `v`
        have hlt : s₁.lowlink v < s₁.lowlink w := by
          have hfresh := h.inv.fresh v h.isSome
          have hwnum := hdone.num
          have hle := h.le
          omega
        rw [min_eq_left hlt.le]
        exact hv
  · intro y hy
    rw [lowlink_lower, num_lower]
    rcases List.mem_append.mp hy with hy | hy
    · obtain ⟨hsome, hle⟩ := h.seen y hy
      refine ⟨hdone.kept.isSome hsome, fun hy₀ ↦ ?_⟩
      rw [hlow, hsame y hsome]
      exact (min_le_left _ _).trans (hle hy₀)
    · obtain rfl := List.mem_singleton.mp hy
      refine ⟨hdone.isSome, fun hy₀ ↦ ?_⟩
      have hsome := h.inv.isSome_of_mem (hmem y hy₀)
      have hlt := h.inv.fresh y hsome
      have hle := hdone.num
      rw [hsame y hsome] at hle
      omega

end Lower

/-- One successor of `v`. -/
def look (next : V → List V) (n : ℕ) (v : V) (s : State V) (w : V) : Option (State V) :=
  match s.index w with
  | none => do
      let s ← strongconnect next n w s
      some (s.lower v (s.lowlink w))
  | some i => if s.onStack w then some (s.lower v i) else some s

theorem strongconnect_succ : strongconnect next (n + 1) v s =
    ((next v).foldlM (look next n v) (s.enter v)).bind (·.leave v) := rfl

/-- With enough fuel for the open nodes a visit comes to its end. -/
theorem done_strongconnect {U : Finset V} (hU : ∀ x ∈ U, ∀ y ∈ next x, y ∈ U) (n : ℕ)
    (h : Inv next gray s) (hv : s.index v = none) (hvU : v ∈ U)
    (hreach : ∀ x ∈ gray, Reach next x v) (hn : (open_ U s).card ≤ n) :
    ∃ s', strongconnect next n v s = some s' ∧ Done next gray v s s' := by
  induction n generalizing gray v s with
  | zero =>
      have hmem : v ∈ open_ U s := Finset.mem_filter.mpr ⟨hvU, by rw [hv]; rfl⟩
      have hpos := Finset.card_pos.mpr ⟨v, hmem⟩
      omega
  | succ n ih =>
      have hopen := open_enter_lt hv hvU
      -- the successors that are left to look at
      have hscan : ∀ todo done s₁, done ++ todo = next v → Scan next gray v s s₁ done →
          (open_ U s₁).card ≤ n →
            ∃ s₂, todo.foldlM (look next n v) s₁ = some s₂ ∧ Scan next gray v s s₂ (next v) := by
        intro todo
        induction todo with
        | nil =>
            intro done s₁ hdone hs₁ _
            rw [List.append_nil] at hdone
            exact ⟨s₁, rfl, hdone ▸ hs₁⟩
        | cons w todo ihtodo =>
            intro done s₁ hdone hs₁ hcard
            have hw : w ∈ next v := by simp [← hdone]
            have hrest : (done ++ [w]) ++ todo = next v := by rw [← hdone, List.append_assoc]; rfl
            rw [List.foldlM_cons]
            cases hi : s₁.index w with
            | none =>
                have hwreach : ∀ x ∈ v :: gray, Reach next x w := by
                  intro x hx
                  rcases List.mem_cons.mp hx with rfl | hx
                  · exact .single hw
                  · exact (hreach x hx).tail hw
                obtain ⟨s₂, hs₂, hdone₂⟩ := ih hs₁.inv hi (hU v hvU w hw) hwreach hcard
                have hlook : look next n v s₁ w = some (s₂.lower v (s₂.lowlink w)) := by
                  rw [look, hi, hs₂]
                  rfl
                rw [hlook]
                have hsub : (open_ U s₂).card ≤ (open_ U s₁).card :=
                  Finset.card_le_card (open_subset hdone₂.kept)
                exact ihtodo _ _ hrest (hs₁.visit hw hdone₂) (hsub.trans hcard)
            | some i =>
                have hnum : i = s₁.num w := by rw [State.num, hi, Option.getD_some]
                have hsome : (s₁.index w).isSome := by rw [hi]; rfl
                by_cases hon : s₁.onStack w = true
                · have hlook : look next n v s₁ w = some (s₁.lower v (s₁.num w)) := by
                    rw [look, hi, hnum]
                    exact if_pos hon
                  rw [hlook]
                  exact ihtodo _ _ hrest (hs₁.onStack hw ((hs₁.inv.onStack w).mp hon)) hcard
                · have hlook : look next n v s₁ w = some s₁ := by
                    rw [look, hi]
                    exact if_neg hon
                  rw [hlook]
                  exact ihtodo _ _ hrest
                    (hs₁.offStack hsome fun hw ↦ hon ((hs₁.inv.onStack w).mpr hw)) hcard
      obtain ⟨s₁, hfold, hs₁⟩ := hscan (next v) [] _ rfl (Scan.start h hv hreach) (by omega)
      obtain ⟨s₂, hleave, hs₂⟩ := hs₁.leave h
      exact ⟨s₂, by rw [strongconnect_succ, hfold, Option.bind_some, hleave], hs₂⟩

end Visit

section Result

variable {next : V → List V} {nodes : List V}

/-- What the search returns: the classes of nodes that reach each other, those that are
reached first. -/
structure IsComponents (next : V → List V) (nodes : List V) (sccs : List (List V)) : Prop where
  mem : ∀ x, x ∈ sccs.flatten ↔ x ∈ nodes
  nodup : sccs.flatten.Nodup
  component : ∀ C ∈ sccs, C ≠ [] ∧ ∀ x ∈ C, ∀ y, y ∈ C ↔ Reach next x y ∧ Reach next y x
  topological : sccs.Pairwise fun C D ↦ ∀ x ∈ C, ∀ y ∈ D, ¬Reach next x y

/-- The search ends, and its components are the classes of nodes that reach each other. -/
theorem tarjanScc_components (hnext : ∀ x ∈ nodes, ∀ y ∈ next x, y ∈ nodes) :
    ∃ sccs, tarjanScc next nodes = some sccs ∧ IsComponents next nodes sccs := by
  have hU : ∀ x ∈ nodes.toFinset, ∀ y ∈ next x, y ∈ nodes.toFinset := fun x hx y hy ↦
    List.mem_toFinset.mpr (hnext x (List.mem_toFinset.mp hx) y hy)
  have hclosed : ∀ x ∈ nodes, ∀ y, Reach next x y → y ∈ nodes := by
    intro x hx y hxy
    induction hxy with
    | refl => exact hx
    | tail _ hstep ih => exact hnext _ ih _ hstep
  have hcard : ∀ s : State V, (open_ nodes.toFinset s).card ≤ nodes.length := fun s ↦
    (Finset.card_filter_le _ _).trans nodes.toFinset_card_le
  -- the nodes that are left to start from
  have hroots : ∀ todo done (s : State V), done ++ todo = nodes → Inv next [] s →
      (∀ x ∈ done, (s.index x).isSome) → (∀ x, (s.index x).isSome → x ∈ nodes) →
        ∃ s', todo.foldlM (fun s v ↦
          if (s.index v).isNone then strongconnect next nodes.length v s else some s) s = some s' ∧
            Inv next [] s' ∧ ∀ x, (s'.index x).isSome ↔ x ∈ nodes := by
    intro todo
    induction todo with
    | nil =>
        intro done s hdone hs hseen honly
        rw [List.append_nil] at hdone
        exact ⟨s, rfl, hs, fun x ↦ ⟨honly x, fun hx ↦ hseen x (hdone ▸ hx)⟩⟩
    | cons v todo ih =>
        intro done s hdone hs hseen honly
        have hv : v ∈ nodes := by simp [← hdone]
        have hrest : (done ++ [v]) ++ todo = nodes := by rw [← hdone, List.append_assoc]; rfl
        rw [List.foldlM_cons]
        cases hi : s.index v with
        | none =>
            obtain ⟨s', hs', hvisit⟩ := done_strongconnect hU _ hs hi (List.mem_toFinset.mpr hv)
              (fun x hx ↦ absurd hx List.not_mem_nil) (hcard s)
            rw [if_pos (by rw [Option.isNone_none]), hs']
            refine ih _ s' hrest hvisit.inv (fun x hx ↦ ?_) fun x hx ↦ ?_
            · rcases List.mem_append.mp hx with hx | hx
              · exact hvisit.kept.isSome (hseen x hx)
              · exact List.mem_singleton.mp hx ▸ hvisit.isSome
            · exact (hvisit.only x hx).elim (honly x) (hclosed v hv x)
        | some i =>
            rw [if_neg (by rw [Option.isNone_some]; exact Bool.false_ne_true)]
            refine ih _ s hrest hs (fun x hx ↦ ?_) honly
            rcases List.mem_append.mp hx with hx | hx
            · exact hseen x hx
            · rw [List.mem_singleton.mp hx, hi]
              rfl
  obtain ⟨s, hs, hinv, hvisited⟩ := hroots nodes [] State.start rfl Inv.start
    (fun x hx ↦ absurd hx List.not_mem_nil) fun x hx ↦ by cases hx
  have hstack : s.stack = [] := by
    refine List.eq_nil_iff_forall_not_mem.mpr fun x hx ↦ ?_
    obtain ⟨g, hg, -⟩ := hinv.down x hx
    cases hg
  refine ⟨s.sccs, ?_, fun x ↦ ?_, hinv.nodup, hinv.component, hinv.topological⟩
  · rw [tarjanScc, hs]
    rfl
  · rw [← hvisited, hinv.visited, hstack]
    simp

end Result

end Tarjan

end ConcIR.Validate
