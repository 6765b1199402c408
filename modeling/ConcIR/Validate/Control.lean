import ConcIR.Expr.Env
import ConcIR.Validate.Components
import ConcIR.Validate.Flood
import ConcIR.Validate.Interface

/-!
# Control flow

Statements that cannot be reached, paths that end without a return, branches with one target,
switches that leave out variants, and loops that are never left. The components of a body's
control-flow graph are found by a depth-first search, and a component with a cycle is a loop.
-/

namespace ConcIR

def Diagnostic.warning (code message : String) : Diagnostic :=
  ⟨code, .warning, message, none, none, none⟩

namespace Validate

open Ast

section Checks

variable (m : Module) (f : Function) (fnPath : String)

def atStmt (d : Diagnostic) (i : ℕ) (s : Stmt) (fix : String) : Diagnostic :=
  ((d.withPath (Program.bodyPath fnPath i)).withLocation (Program.stmtLocation m f s)).withFix fix

def sidAt (i : ℕ) : String := (f.body[i]?.map (·.sid)).getD ""

def unreachableStmt (i : ℕ) (s : Stmt) : Diagnostic :=
  atStmt m f fnPath (Diagnostic.warning "E601" ("unreachable statement '" ++ s.sid ++
    "' in function '" ++ f.name ++ "'")) i s
      "remove the statement or fix control flow to reach it"

/-- E601. `none` is a search that has run out of rounds. -/
def checkReachability : Option (List Diagnostic) := do
  let reachable ← Flood.run (buildCfg f).next f.body.length (Flood.start 0)
  some ((f.body.zipIdx.filter (·.2 ∉ reachable)).map fun p ↦ unreachableStmt m f fnPath p.2 p.1)

/-- A statement after which control does not fall through. -/
def leavesBody (s : Stmt) : Bool :=
  match s.op with
  | .ret _ | .goto _ | .branch .. | .switch .. => true
  | _ => false

/-- E114: the end of a body is an implicit return. -/
def checkFallOffEnd : List Diagnostic :=
  if (f.body.getLast?.map leavesBody).getD false then []
  else
    let wher := match f.body.getLast? with
      | none => "function '" ++ f.name ++ "' has an empty body"
      | some s => "function '" ++ f.name ++ "' ends at '" ++ s.sid ++
          "' without an explicit return/goto/branch/switch"
    [(((Diagnostic.warning "E114" (wher ++
      "; control falls off the end, which is an implicit return")).withPath fnPath).withLocation (Program.fnLocation m f)).withFix
          "add an explicit return, or rely on the documented implicit return"]

/-- E602. -/
def checkReturnPaths : List Diagnostic :=
  (f.body.zipIdx.filter fun p ↦ ((buildCfg f).next p.2).isEmpty && !p.1.isReturn).map fun p ↦
    atStmt m f fnPath (.error "E602" ("function '" ++ f.name ++ "' has a path ending at '" ++
      p.1.sid ++ "' without return")) p.2 p.1 "add a return statement at the end of this path"

/-- E603. -/
def checkBranchTargetsSame : List Diagnostic :=
  f.body.zipIdx.flatMap fun p ↦
    match p.1.op with
    | .branch _ thenTarget elseTarget =>
        if thenTarget = elseTarget then
          [atStmt m f fnPath (.warning "E603" ("branch at '" ++ p.1.sid ++
            "' has identical then/else targets '" ++ thenTarget ++ "'")) p.2 p.1 "use goto instead, or correct the branch targets"]
        else []
    | _ => []

/-- E604. -/
def checkSwitchExhaustive (env : NameEnv) : List Diagnostic :=
  f.body.zipIdx.flatMap fun p ↦
    match p.1.op with
    | .switch var cases _ =>
        match env.ty var with
        | some (.enum variants) =>
            let missing := variants.filter (· ∉ cases.map (·.1))
            if missing.isEmpty then []
            else
              [(((Diagnostic.error "E604" ("switch on '" ++ var ++
                "' is not exhaustive; missing variants: [" ++ ", ".intercalate missing ++
                  "]")).withPath (Program.bodyPath fnPath p.2 ++ ".cases")).withLocation
                    (Program.stmtLocation m f p.1)).withFix
                      "add case branches for the missing variants"]
        | _ => []
    | _ => []

def infiniteLoop (first : ℕ) : Diagnostic :=
  (((Diagnostic.warning "E605" ("potential infinite loop with no exit in function '" ++ f.name ++
    "' starting at '" ++ sidAt f first ++ "'")).withPath
      (Program.bodyPath fnPath first)).withLocation
        (location m.name f.name (sidAt f first))).withFix
          "add an exit condition or confirm this is an intentional event loop"

def stmtIs (q : Stmt → Bool) (i : ℕ) : Bool := (f.body[i]?.map q).getD false

/-- A cycle without an edge out of the component, a return or a blocking operation. -/
def isTrap (scc : List ℕ) : Bool :=
  let next := (buildCfg f).next
  !(scc.length < 2 && scc.any fun i ↦ !(next i).contains i) &&
    !(scc.any fun i ↦ (next i).any (· ∉ scc) || stmtIs f (·.isReturn) i) &&
      !scc.any fun i ↦ stmtIs f (·.op.isBlocking) i

/-- E605. `none` is a search that has run out of fuel. -/
def checkInfiniteLoop : Option (List Diagnostic) := do
  let sccs ← Tarjan.tarjanScc (buildCfg f).next (List.range f.body.length)
  some ((sccs.filter (isTrap f)).map fun scc ↦ infiniteLoop m f fnPath (scc.headD 0))

end Checks

/-- E6xx of a function; a body-less one only falls off its end. -/
def checkControlFn (p : Program) (m : Module) (f : Function) (fnPath : String) :
    Option (List Diagnostic) :=
  if f.body.isEmpty then some (checkFallOffEnd m f fnPath)
  else do
    let unreachable ← checkReachability m f fnPath
    let loops ← checkInfiniteLoop m f fnPath
    some (checkFallOffEnd m f fnPath ++ unreachable ++ checkReturnPaths m f fnPath ++
      checkBranchTargetsSame m f fnPath ++
        checkSwitchExhaustive m f fnPath (NameEnv.build p m f) ++ loops)

/-- E6xx. -/
def checkControl (p : Program) : Option (List Diagnostic) := do
  let fns := p.modules.zipIdx.flatMap fun mi ↦ mi.1.functions.zipIdx.map fun fi ↦
    (mi.1, fi.1, Program.fnPath mi.2 fi.2)
  let ds ← fns.mapM fun fn ↦ checkControlFn p fn.1 fn.2.1 fn.2.2
  some ds.flatten

open Walk (Reach)

section Reachability

variable {m : Module} {f : Function} {fnPath : String} {i : ℕ}

theorem reach_iff_path {g : Cfg} : Reach g.next 0 i ↔ ∃ p, g.Path p i := by
  constructor
  · intro h
    induction h with
    | refl => exact ⟨[], .entry⟩
    | tail _ hj ih =>
        obtain ⟨p, hp⟩ := ih
        exact ⟨_, hp.step hj⟩
  · rintro ⟨p, hp⟩
    induction hp with
    | entry => exact .refl
    | step _ hj ih => exact ih.tail hj

theorem next_range : ∀ i ∈ Finset.range f.body.length, ∀ j ∈ (buildCfg f).next i,
    j ∈ Finset.range f.body.length := fun _ _ _ hj ↦ Finset.mem_range.mpr (next_lt hj)

theorem path_lt {is : List ℕ} (hbody : f.body ≠ []) (h : (buildCfg f).Path is i) :
    i < f.body.length := by
  cases h with
  | entry => exact List.length_pos_of_ne_nil hbody
  | step _ hj => exact next_lt hj

theorem mem_checkReachability {ds : List Diagnostic} (h : checkReachability m f fnPath = some ds)
    {d : Diagnostic} : d ∈ ds ↔ ∃ i s, f.body[i]? = some s ∧ (∀ p, ¬(buildCfg f).Path p i) ∧
      d = unreachableStmt m f fnPath i s := by
  obtain ⟨reachable, hrun, h⟩ := Option.bind_eq_some_iff.mp h
  obtain rfl := Option.some.inj h
  have hreach : ∀ i s, f.body[i]? = some s → (i ∉ reachable ↔ ∀ p, ¬(buildCfg f).Path p i) := by
    intro i s hi
    have hpos : 0 < f.body.length :=
      Nat.zero_lt_of_lt (List.getElem?_eq_some_iff.mp hi).1
    obtain ⟨marked, hmark, hmarked⟩ := @Flood.run_start _ _ (buildCfg f).next 0 _ next_range
      (Finset.mem_range.mpr hpos)
    rw [Finset.card_range, hrun] at hmark
    obtain rfl := Option.some.inj hmark
    rw [hmarked, reach_iff_path, not_exists]
  simp only [List.mem_map, List.mem_filter, List.mem_zipIdx_iff_getElem?, Prod.exists,
    decide_eq_true_eq]
  constructor
  · rintro ⟨s, i, ⟨hi, hp⟩, rfl⟩
    exact ⟨i, s, hi, (hreach i s hi).mp hp, rfl⟩
  · rintro ⟨i, s, hi, hp, rfl⟩
    exact ⟨s, i, ⟨hi, (hreach i s hi).mpr hp⟩, rfl⟩

/-- E601 is reported once for each statement that no path leads to, and for no other. -/
theorem checkReachability_exact (hbody : f.body ≠ []) :
    ∃ ds, checkReachability m f fnPath = some ds ∧
      (∀ d, d ∈ ds ↔ ∃ i s, f.body[i]? = some s ∧ (∀ p, ¬(buildCfg f).Path p i) ∧
        d = unreachableStmt m f fnPath i s) ∧
          ds.Pairwise fun d e ↦ d.path ≠ e.path := by
  have hzero : 0 ∈ Finset.range f.body.length :=
    Finset.mem_range.mpr (List.length_pos_of_ne_nil hbody)
  obtain ⟨marked, hrun, -⟩ := @Flood.run_start _ _ (buildCfg f).next 0 _ next_range hzero
  rw [Finset.card_range] at hrun
  have hcheck : checkReachability m f fnPath = some ((f.body.zipIdx.filter (·.2 ∉ marked)).map
      fun p ↦ unreachableStmt m f fnPath p.2 p.1) := by
    rw [checkReachability, hrun]
    rfl
  refine ⟨_, hcheck, fun d ↦ mem_checkReachability hcheck, ?_⟩
  rw [List.pairwise_map]
  have hidx : f.body.zipIdx.Pairwise fun p q ↦ p.2 ≠ q.2 := by
    have hnodup : (f.body.zipIdx.map (·.2)).Nodup := by
      rw [List.zipIdx_map_snd]
      exact List.nodup_range'
    exact List.pairwise_map.mp hnodup
  refine (hidx.sublist List.filter_sublist).imp fun hne heq ↦ hne ?_
  exact Program.bodyPath_inj (Option.some.inj heq)

/-- A return with a statement behind it. -/
def detour : Function where
  name := "detour"
  kind := "normal"
  form := "function"
  params := []
  returns := none
  locals := []
  body := [⟨"s1", .ret none⟩, ⟨"s2", .goto "s1"⟩]
  effects := none
  mayBlock := none
  locks := ⟨[], [], []⟩
  bound := none

def detourModule : Module := ⟨"core", ⟨[], [], []⟩, ⟨[], [], []⟩, [], [], [], [detour]⟩

theorem checkReachability_exact_detour : ∃ ds, checkReachability detourModule detour "f" = some ds ∧
    unreachableStmt detourModule detour "f" 1 ⟨"s2", .goto "s1"⟩ ∈ ds := by
  have hno : ∀ p, ¬(buildCfg detour).Path p 1 := by
    intro p hp
    rcases Relation.ReflTransGen.cases_head (reach_iff_path.mpr ⟨p, hp⟩) with heq | ⟨j, hj, -⟩
    · cases heq
    · have hnext : (buildCfg detour).next 0 = [] := by decide
      rw [hnext] at hj
      cases hj
  obtain ⟨ds, hrun, hmem, -⟩ := @checkReachability_exact detourModule detour "f" (by simp [detour])
  exact ⟨ds, hrun, (hmem _).mpr ⟨1, _, rfl, hno, rfl⟩⟩

end Reachability

section Loops

variable {m : Module} {f : Function} {fnPath : String} {i j : ℕ}

/-- The statements reach each other. -/
def Mutual (f : Function) (i j : ℕ) : Prop :=
  Reach (buildCfg f).next i j ∧ Reach (buildCfg f).next j i

/-- Control that has come to the statement goes around forever: it comes back to it from
wherever it gets, and it gets neither to a return nor to a statement that may block. -/
structure Trapped (f : Function) (i : ℕ) : Prop where
  cycle : Relation.TransGen (fun i j ↦ j ∈ (buildCfg f).next i) i i
  stays : ∀ j, Reach (buildCfg f).next i j → Reach (buildCfg f).next j i
  noReturn : ∀ j, Reach (buildCfg f).next i j → stmtIs f (·.isReturn) j = false
  noBlocking : ∀ j, Reach (buildCfg f).next i j → stmtIs f (·.op.isBlocking) j = false

theorem Trapped.mutual (h : Trapped f i) (hij : Mutual f i j) : Trapped f j where
  cycle := .trans_right hij.2 (h.cycle.trans_left hij.1)
  stays k hk := (h.stays k (hij.1.trans hk)).trans hij.1
  noReturn k hk := h.noReturn k (hij.1.trans hk)
  noBlocking k hk := h.noBlocking k (hij.1.trans hk)

/-- The components of a body are the classes of statements that reach each other, each statement
is in one place of one component, and no component is reached from one that comes before it. -/
theorem bodyComponents_exact (f : Function) :
    ∃ sccs, Tarjan.tarjanScc (buildCfg f).next (List.range f.body.length) = some sccs ∧
      (∀ i, i ∈ sccs.flatten ↔ i < f.body.length) ∧ sccs.flatten.Nodup ∧
      (∀ C ∈ sccs, ∀ i ∈ C, ∀ j, j ∈ C ↔ Mutual f i j) ∧
        sccs.Pairwise fun C D ↦ ∀ i ∈ C, ∀ j ∈ D, ¬Reach (buildCfg f).next i j := by
  obtain ⟨sccs, hrun, h⟩ := @Tarjan.tarjanScc_components _ _ (buildCfg f).next
    (List.range f.body.length) fun i _ j hj ↦ List.mem_range.mpr (next_lt hj)
  exact ⟨sccs, hrun, fun i ↦ (h.mem i).trans List.mem_range, h.nodup,
    fun C hC ↦ (h.component C hC).2, h.topological⟩

/-- A cycle of a component: two nodes, or one with an edge to itself. -/
theorem cycle_iff {scc : List ℕ} (hnodup : scc.Nodup) (hi : i ∈ scc)
    (hscc : ∀ j, j ∈ scc ↔ Mutual f i j) :
    Relation.TransGen (fun i j ↦ j ∈ (buildCfg f).next i) i i ↔
      ¬(scc.length < 2 ∧ ∃ j ∈ scc, j ∉ (buildCfg f).next j) := by
  constructor
  · rintro hcycle ⟨hlen, j, hj, hself⟩
    obtain ⟨k, rfl⟩ : ∃ k, scc = [k] := by
      cases scc with
      | nil => cases hi
      | cons k rest =>
          refine ⟨k, ?_⟩
          rw [List.length_cons] at hlen
          rw [List.eq_nil_of_length_eq_zero (by omega : rest.length = 0)]
    obtain rfl := List.mem_singleton.mp hi
    obtain rfl := List.mem_singleton.mp hj
    obtain ⟨k, hk, hback⟩ := Relation.TransGen.head'_iff.mp hcycle
    have hmem := (hscc k).mpr ⟨.single hk, hback⟩
    exact hself (List.mem_singleton.mp hmem ▸ hk)
  · intro h
    by_cases hlen : scc.length < 2
    · have hself : i ∈ (buildCfg f).next i := by
        by_contra hself
        exact h ⟨hlen, i, hi, hself⟩
      exact .single hself
    · obtain ⟨j, hj, hne⟩ : ∃ j ∈ scc, j ≠ i := by
        by_contra hall
        have hsub : scc ⊆ [i] := fun k hk ↦
          List.mem_singleton.mpr (by_contra fun hne ↦ hall ⟨k, hk, hne⟩)
        have hle := (hnodup.subperm hsub).length_le
        rw [List.length_singleton] at hle
        omega
      obtain ⟨hij, hji⟩ := (hscc j).mp hj
      rcases Relation.reflTransGen_iff_eq_or_transGen.mp hij with heq | htrans
      · exact absurd heq hne
      · exact htrans.trans_left hji

theorem isTrap_eq {scc : List ℕ} : isTrap f scc = true ↔
    ¬(scc.length < 2 ∧ ∃ j ∈ scc, j ∉ (buildCfg f).next j) ∧
      (∀ j ∈ scc, (∀ k ∈ (buildCfg f).next j, k ∈ scc) ∧ stmtIs f (·.isReturn) j = false) ∧
        ∀ j ∈ scc, stmtIs f (·.op.isBlocking) j = false := by
  simp only [isTrap, Bool.and_eq_true, Bool.not_eq_true', Bool.eq_false_iff, ne_eq,
    decide_eq_true_eq, List.any_eq_true, List.contains_iff_mem, Bool.or_eq_true, not_exists,
    not_and, not_or, not_not, and_assoc]

/-- A component is a trap exactly when control that has come to one of its statements is
trapped. -/
theorem isTrap_iff {scc : List ℕ} (hnodup : scc.Nodup) (hi : i ∈ scc)
    (hscc : ∀ j, j ∈ scc ↔ Mutual f i j) : isTrap f scc = true ↔ Trapped f i := by
  rw [isTrap_eq, ← cycle_iff hnodup hi hscc]
  constructor
  · rintro ⟨hcycle, hstay, hblock⟩
    have hmem : ∀ j, Reach (buildCfg f).next i j → j ∈ scc := by
      intro j hj
      induction hj with
      | refl => exact hi
      | tail _ hk ih => exact (hstay _ ih).1 _ hk
    exact ⟨hcycle, fun j hj ↦ ((hscc j).mp (hmem j hj)).2, fun j hj ↦ (hstay j (hmem j hj)).2,
      fun j hj ↦ hblock j (hmem j hj)⟩
  · intro h
    refine ⟨h.cycle, fun j hj ↦ ⟨fun k hk ↦ ?_, ?_⟩, fun j hj ↦ ?_⟩
    · have hik := ((hscc j).mp hj).1.tail hk
      exact (hscc k).mpr ⟨hik, h.stays k hik⟩
    · exact h.noReturn j ((hscc j).mp hj).1
    · exact h.noBlocking j ((hscc j).mp hj).1

theorem infiniteLoop_inj (h : infiniteLoop m f fnPath i = infiniteLoop m f fnPath j) : i = j :=
  Program.bodyPath_inj (Option.some.inj (congrArg Diagnostic.path h))

/-- Where E605 is reported, control is trapped. -/
theorem trapped_of_infiniteLoop {ds : List Diagnostic} (h : checkInfiniteLoop m f fnPath = some ds)
    (hd : infiniteLoop m f fnPath i ∈ ds) : Trapped f i := by
  obtain ⟨sccs, hrun, hcomp⟩ := @Tarjan.tarjanScc_components _ _ (buildCfg f).next
    (List.range f.body.length) fun i _ j hj ↦ List.mem_range.mpr (next_lt hj)
  rw [checkInfiniteLoop, hrun] at h
  obtain rfl := Option.some.inj h
  obtain ⟨C, hfilter, heq⟩ := List.mem_map.mp hd
  obtain ⟨hC, htrap⟩ := List.mem_filter.mp hfilter
  obtain ⟨hne, hclass⟩ := hcomp.component C hC
  have hhead : C.headD 0 ∈ C := by
    obtain ⟨c, rest, rfl⟩ := List.exists_cons_of_ne_nil hne
    exact List.mem_cons_self
  obtain rfl := infiniteLoop_inj heq
  exact (isTrap_iff ((List.nodup_flatten.mp hcomp.nodup).1 C hC) hhead (hclass _ hhead)).mp htrap

/-- E605 is reported at exactly one statement of each class of statements that reach each other
and trap control, and nowhere else. -/
theorem checkInfiniteLoop_exact (m : Module) (f : Function) (fnPath : String) :
    ∃ ds, checkInfiniteLoop m f fnPath = some ds ∧
      (∀ i < f.body.length, Trapped f i ↔
        ∃ j, Mutual f i j ∧ infiniteLoop m f fnPath j ∈ ds) ∧
      (∀ d ∈ ds, ∃ i < f.body.length, Trapped f i ∧ d = infiniteLoop m f fnPath i) ∧
        ds.Pairwise fun d e ↦ ∀ i j, d = infiniteLoop m f fnPath i →
          e = infiniteLoop m f fnPath j → ¬Mutual f i j := by
  obtain ⟨sccs, hrun, h⟩ := @Tarjan.tarjanScc_components _ _ (buildCfg f).next
    (List.range f.body.length) fun i _ j hj ↦ List.mem_range.mpr (next_lt hj)
  have hclass : ∀ C ∈ sccs, ∀ i ∈ C, ∀ j, j ∈ C ↔ Mutual f i j := fun C hC ↦ (h.component C hC).2
  have hnodup : ∀ C ∈ sccs, C.Nodup := fun C hC ↦ (List.nodup_flatten.mp h.nodup).1 C hC
  have hhead : ∀ C ∈ sccs, C.headD 0 ∈ C := by
    intro C hC
    obtain ⟨c, rest, rfl⟩ := List.exists_cons_of_ne_nil (h.component C hC).1
    exact List.mem_cons_self
  have htrap : ∀ C ∈ sccs, isTrap f C = true ↔ Trapped f (C.headD 0) := fun C hC ↦
    isTrap_iff (hnodup C hC) (hhead C hC) (hclass C hC _ (hhead C hC))
  have hlt : ∀ C ∈ sccs, ∀ i ∈ C, i < f.body.length := fun C hC i hi ↦
    List.mem_range.mp ((h.mem i).mp (List.mem_flatten_of_mem hC hi))
  refine ⟨_, by rw [checkInfiniteLoop, hrun]; rfl, fun i hi ↦ ?_, fun d hd ↦ ?_, ?_⟩
  · constructor
    · intro htrapped
      obtain ⟨C, hC, hiC⟩ := List.mem_flatten.mp ((h.mem i).mpr (List.mem_range.mpr hi))
      have hmutual := (hclass C hC i hiC _).mp (hhead C hC)
      exact ⟨_, hmutual, List.mem_map.mpr ⟨C, List.mem_filter.mpr
        ⟨hC, (htrap C hC).mpr (htrapped.mutual hmutual)⟩, rfl⟩⟩
    · rintro ⟨j, hij, hj⟩
      obtain ⟨C, hfilter, heq⟩ := List.mem_map.mp hj
      obtain ⟨hC, hCtrap⟩ := List.mem_filter.mp hfilter
      obtain rfl := infiniteLoop_inj heq
      exact ((htrap C hC).mp hCtrap).mutual ⟨hij.2, hij.1⟩
  · obtain ⟨C, hfilter, rfl⟩ := List.mem_map.mp hd
    obtain ⟨hC, hCtrap⟩ := List.mem_filter.mp hfilter
    exact ⟨_, hlt C hC _ (hhead C hC), (htrap C hC).mp hCtrap, rfl⟩
  · -- statements of two components do not reach each other
    have hdisjoint : sccs.Pairwise fun C D ↦ ¬Mutual f (C.headD 0) (D.headD 0) := by
      refine h.topological.imp_of_mem fun {C D} hC hD hno hmutual ↦ ?_
      exact hno _ (hhead C hC) _ (hhead D hD) hmutual.1
    rw [List.pairwise_map]
    refine (hdisjoint.sublist List.filter_sublist).imp fun hno i j hi hj hij ↦ hno ?_
    rw [infiniteLoop_inj hi, infiniteLoop_inj hj]
    exact hij

end Loops

end Validate

end ConcIR
