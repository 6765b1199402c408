import ConcIR.Codegen.Generate

/-!
# Lines of the generated source

Every step of the generator adds lines behind those it finds, and no line holds a line break,
so the number that is noted for an arm is the number of the line at which the arm begins. The
map keeps all of them exactly when no two statements have one key.
-/

namespace ConcIR

namespace Codegen

section Lines

variable {cur cs l : List Char} {code : String}

theorem notMem_dropReturn (h : '\n' ∉ cur) : '\n' ∉ dropReturn cur := by
  unfold dropReturn
  split
  · exact fun hmem ↦ h (List.mem_cons_of_mem _ hmem)
  · exact h

/-- A line holds no line break. -/
theorem notMem_of_mem_linesFrom (hcur : '\n' ∉ cur) (h : l ∈ linesFrom cur cs) : '\n' ∉ l := by
  induction cs generalizing cur with
  | nil =>
      rw [linesFrom] at h
      split_ifs at h
      · cases h
      · rw [List.mem_singleton.mp h, List.mem_reverse]
        exact hcur
  | cons c cs ih =>
      rw [linesFrom] at h
      split_ifs at h with hc
      · rcases List.mem_cons.mp h with rfl | h
        · rw [List.mem_reverse]
          exact notMem_dropReturn hcur
        · exact ih List.not_mem_nil h
      · refine ih (fun hmem ↦ ?_) h
        rcases List.mem_cons.mp hmem with hc' | hmem
        · exact hc hc'.symm
        · exact hcur hmem

theorem notMem_of_mem_lines {s : String} (h : s ∈ lines code) : '\n' ∉ s.toList := by
  obtain ⟨l, hl, rfl⟩ := List.mem_map.mp h
  rw [String.toList_ofList]
  exact notMem_of_mem_linesFrom List.not_mem_nil hl

/-- A text without a line break is one line. -/
theorem linesFrom_of_notMem (h : '\n' ∉ cs) (hne : cur.reverse ++ cs ≠ []) :
    linesFrom cur cs = [cur.reverse ++ cs] := by
  induction cs generalizing cur with
  | nil =>
      have hcur : cur ≠ [] := fun hcur ↦ hne (by rw [hcur]; rfl)
      rw [linesFrom, if_neg (by simpa using hcur), List.append_nil]
  | cons c cs ih =>
      have hc : c ≠ '\n' := fun hc ↦ h (hc ▸ List.mem_cons_self)
      rw [linesFrom, if_neg hc, ih (fun hmem ↦ h (List.mem_cons_of_mem _ hmem)) (by simp)]
      simp

theorem lines_armHeader (idx : ℕ) : lines (armHeader idx) = [armHeader idx] := by
  have hdigits : '\n' ∉ (toString idx).toList := by
    change '\n' ∉ (Nat.repr idx).toList
    rw [Nat.repr_eq_ofList_toDigits, String.toList_ofList]
    intro hmem
    exact absurd (Nat.isDigit_of_mem_toDigits (by decide) (by decide) hmem) (by decide)
  have hmem : '\n' ∉ (armHeader idx).toList := by
    rw [armHeader, String.toList_append, String.toList_append]
    simpa using hdigits
  rw [lines, linesFrom_of_notMem hmem (by simp [armHeader])]
  simp

/-- The text of some lines. -/
def unlines (ls : List String) : List Char := ls.flatMap fun l ↦ l.toList ++ ['\n']

theorem unlines_append {ls ls' : List String} : unlines (ls ++ ls') = unlines ls ++ unlines ls' :=
  List.flatMap_append

theorem count_unlines {ls : List String} (h : ∀ l ∈ ls, '\n' ∉ l.toList) :
    (unlines ls).count '\n' = ls.length := by
  induction ls with
  | nil => rfl
  | cons l ls ih =>
      rw [List.forall_mem_cons] at h
      have hl : l.toList.count '\n' = 0 := List.count_eq_zero.mpr h.1
      rw [unlines, List.flatMap_cons, List.count_append, List.count_append, ← unlines, ih h.2, hl,
        List.count_singleton_self, List.length_cons]
      omega

theorem toList_joinWith {l : String} {ls : List String} :
    (joinWith "\n" (l :: ls) ++ "\n").toList = unlines (l :: ls) := by
  induction ls generalizing l with
  | nil => simp [joinWith, unlines]
  | cons l' ls ih =>
      rw [joinWith, String.append_assoc, String.append_assoc, String.toList_append,
        String.toList_append, ih]
      simp [unlines]

end Lines

section Growth

variable {P : SemProgram} {D : DebugText} {g g' g₁ : Gen}

/-- Lines are added behind those that are there, none of them with a line break. -/
structure Grows (g g' : Gen) : Prop where
  lines : ∃ new, g'.lines = g.lines ++ new ∧ ∀ l ∈ new, '\n' ∉ l.toList

/-- The entries of the map stay. -/
structure Keeps (g g' : Gen) : Prop extends Grows g g' where
  sids : g'.sids = g.sids

theorem Grows.refl (g : Gen) : Grows g g := ⟨[], (List.append_nil _).symm, by simp⟩

theorem Grows.trans (h : Grows g g₁) (h' : Grows g₁ g') : Grows g g' := by
  obtain ⟨new, hnew, hclean⟩ := h.lines
  obtain ⟨new', hnew', hclean'⟩ := h'.lines
  refine ⟨new ++ new', by rw [hnew', hnew, List.append_assoc], fun l hl ↦ ?_⟩
  rcases List.mem_append.mp hl with hl | hl
  · exact hclean l hl
  · exact hclean' l hl

theorem Keeps.refl (g : Gen) : Keeps g g := ⟨.refl g, rfl⟩

theorem Keeps.trans (h : Keeps g g₁) (h' : Keeps g₁ g') : Keeps g g' :=
  ⟨h.toGrows.trans h'.toGrows, h'.sids.trans h.sids⟩

theorem keeps_emit (g : Gen) (code : String) : Keeps g (g.emit code) :=
  ⟨⟨lines code, rfl, fun _ ↦ notMem_of_mem_lines⟩, rfl⟩

theorem keeps_emitAll (g : Gen) (codes : List String) : Keeps g (g.emitAll codes) := by
  induction codes generalizing g with
  | nil => exact .refl g
  | cons code codes ih => exact (keeps_emit g code).trans (ih (g.emit code))

theorem keeps_hole (g : Gen) (function sid expected : String) :
    Keeps g (g.hole function sid expected).2 :=
  ⟨⟨[], (List.append_nil _).symm, by simp⟩, rfl⟩

theorem keeps_tag (g : Gen) (record : TagRecord) : Keeps g (g.tag record) :=
  ⟨⟨[], (List.append_nil _).symm, by simp⟩, rfl⟩

theorem keeps_renderExpr (function sid : String) (e : LExpr) (g : Gen) :
    Keeps g (renderExpr P D function sid e g).2 := by
  fun_induction renderExpr P D function sid e g with
  | case1 => exact .refl _
  | case2 => exact keeps_hole _ function sid _
  | case3 | case4 | case5 => exact .refl _
  | case6 g inner e ih => exact ih
  | case7 g op lhs rhs a b ih₁ ih₂ => exact ih₁.trans ih₂
  | case8 g op lhs rhs a b ih₁ ih₂ => exact ih₁.trans ih₂
  | case9 => exact keeps_hole _ function sid _

theorem keeps_renderArgs (function sid : String) (args : List LExpr) (g : Gen) :
    Keeps g (renderArgs P D function sid args g) := by
  induction args generalizing g with
  | nil => exact .refl g
  | cons a args ih => exact (keeps_renderExpr function sid a g).trans (ih _)

theorem keeps_opText {func : SemFunction} {op : SemOp} {idx : ℕ} {sid : String}
    {codes : List String} (h : opText P D func op idx sid g = .ok (codes, g')) : Keeps g g' := by
  have hexpr := keeps_renderExpr (P := P) (D := D) func.name sid
  cases op with
  | nop | mutexLock | mutexUnlock | condvarWait | condvarNotify | condvarNotifyAll
  | semaphoreAcquire | semaphoreRelease | goto | join =>
      obtain ⟨-, rfl⟩ := Prod.mk.inj (Except.ok.inj h)
      exact .refl g
  | writeShared r e | atomicStore r e | channelSend r e | branch e | switch e =>
      obtain ⟨-, rfl⟩ := Prod.mk.inj (Except.ok.inj h)
      exact hexpr e g
  | assignLocal target e =>
      cases target with
      | localSlot | shared | discard =>
          obtain ⟨-, rfl⟩ := Prod.mk.inj (Except.ok.inj h)
          exact hexpr e g
  | readShared r dst =>
      rcases dst with _ | _ | _ | _ <;>
        (obtain ⟨-, rfl⟩ := Prod.mk.inj (Except.ok.inj h); exact .refl g)
  | atomicLoad r dst | channelRecv r dst =>
      cases dst with
      | localSlot | shared | discard =>
          obtain ⟨-, rfl⟩ := Prod.mk.inj (Except.ok.inj h)
          exact .refl g
  | atomicCas r expected desired dst =>
      cases dst with
      | localSlot | shared | discard =>
          obtain ⟨-, rfl⟩ := Prod.mk.inj (Except.ok.inj h)
          exact (hexpr expected g).trans (hexpr desired _)
  | call callee args dst =>
      cases dst with
      | none | some =>
          obtain ⟨-, rfl⟩ := Prod.mk.inj (Except.ok.inj h)
          exact keeps_renderArgs func.name sid args g
  | scope | spawn =>
      obtain ⟨-, rfl⟩ := Prod.mk.inj (Except.ok.inj h)
      exact keeps_tag g _
  | «return» value =>
      obtain ⟨-, rfl⟩ := Prod.mk.inj (Except.ok.inj h)
      exact keeps_renderArgs func.name sid _ g
  | unsupported => cases h

theorem keeps_renderOp {func : SemFunction} {op : SemOp} {idx : ℕ} {sid : String}
    (h : renderOp P D func op idx sid g = .ok g') : Keeps g g' := by
  rw [renderOp] at h
  cases ht : opText P D func op idx sid g with
  | error e =>
      rw [ht] at h
      cases h
  | ok r =>
      rw [ht] at h
      obtain rfl := Except.ok.inj h
      exact (keeps_opText ht).trans (keeps_emitAll r.2 r.1)

end Growth

/-- The statement a step is for, and its key in the map. -/
def Act.label : Act → Option (FunctionId × ℕ)
  | .statement id _ idx _ => some (id, idx)
  | _ => none

@[simp] theorem Act.label_text (code : String) : (Act.text code).label = none := rfl

@[simp] theorem Act.label_slot (i : ℕ) (slot : SemSlot) : (Act.slot i slot).label = none := rfl

@[simp] theorem Act.label_sharedField (r : ResourceId) : (Act.sharedField r).label = none := rfl

@[simp] theorem Act.label_sharedValue (r : ResourceId) : (Act.sharedValue r).label = none := rfl

def Act.key (P : SemProgram) : Act → Option String
  | .statement _ func _ stmt => some (sidKey P func stmt.sid)
  | _ => none

section Steps

variable {P : SemProgram} {D : DebugText} {g g' : Gen} {a : Act} {as : List Act} {k : String}

theorem Grows.emit (h : Grows g g') (code : String) : Grows g (g'.emit code) :=
  h.trans (keeps_emit g' code).toGrows

theorem map_ok {α β ε : Type} {x : Except ε α} {f : α → β} {b : β} (h : x.map f = .ok b) :
    ∃ a, x = .ok a ∧ f a = b := by
  cases x with
  | error e => cases h
  | ok a => exact ⟨a, rfl, Except.ok.inj h⟩

/-- A step for a statement notes the line it begins at and writes its arm there. -/
theorem step_statement {id idx : ℕ} {func : SemFunction} {stmt : SemStmt}
    (h : step P D g (.statement id func idx stmt) = .ok g') :
    g'.sids = g.sids.insert (sidKey P func stmt.sid) ⟨"src/main.rs", g.line⟩ ∧
      ∃ new, g'.lines = g.lines ++ armHeader idx :: new ∧ ∀ l ∈ new, '\n' ∉ l.toList := by
  obtain ⟨g₂, hop, rfl⟩ := map_ok h
  have hkeeps := (keeps_emit _ ("                // @cir " ++ stmt.sid)).trans
    ((keeps_renderOp hop).trans (keeps_emit g₂ "            \x7d"))
  obtain ⟨new, hnew, hclean⟩ := hkeeps.lines
  refine ⟨hkeeps.sids, new, ?_, hclean⟩
  rw [hnew, Gen.emit, lines_armHeader, List.append_assoc]
  rfl

/-- Other steps leave the map alone. -/
theorem keeps_step (h : step P D g a = .ok g') (ha : a.label = none) : Keeps g g' := by
  cases a with
  | text code =>
      obtain rfl := Except.ok.inj h
      exact keeps_emit g code
  | sharedField r | sharedValue r | slot i slot =>
      obtain ⟨x, -, rfl⟩ := map_ok h
      exact keeps_emit g _
  | nobody func =>
      obtain rfl := Except.ok.inj h
      exact ((keeps_hole g func.name "" "()").trans (keeps_emit _ _)).trans (keeps_emit _ _)
  | statement id func idx stmt => cases ha

theorem grows_step (h : step P D g a = .ok g') : Grows g g' := by
  cases a with
  | statement id func idx stmt =>
      obtain ⟨-, new, hnew, hclean⟩ := step_statement h
      refine ⟨armHeader idx :: new, hnew, List.forall_mem_cons.mpr ⟨?_, hclean⟩⟩
      exact notMem_of_mem_lines (by rw [lines_armHeader]; exact List.mem_cons_self)
  | text | sharedField | sharedValue | slot | nobody => exact (keeps_step h rfl).toGrows

/-- A step touches the entry of its own key only. -/
theorem sids_step (h : step P D g a = .ok g') (hk : a.key P ≠ some k) :
    g'.sids[k]? = g.sids[k]? := by
  cases a with
  | statement id func idx stmt =>
      have hne : sidKey P func stmt.sid ≠ k := fun heq ↦ hk (congrArg some heq)
      rw [(step_statement h).1, Std.ExtTreeMap.getElem?_insert,
        if_neg (by simpa using hne)]
  | text | sharedField | sharedValue | slot | nobody => rw [(keeps_step h rfl).sids]

theorem grows_run (h : as.foldlM (step P D) g = .ok g') : Grows g g' := by
  induction as generalizing g with
  | nil =>
      obtain rfl := Except.ok.inj h
      exact .refl g
  | cons a as ih =>
      obtain ⟨g₁, hstep, hrun⟩ := except_bind_ok h
      exact (grows_step hstep).trans (ih hrun)

theorem sids_run (h : as.foldlM (step P D) g = .ok g') (hk : ∀ a ∈ as, a.key P ≠ some k) :
    g'.sids[k]? = g.sids[k]? := by
  induction as generalizing g with
  | nil =>
      obtain rfl := Except.ok.inj h
      rfl
  | cons a as ih =>
      rw [List.forall_mem_cons] at hk
      obtain ⟨g₁, hstep, hrun⟩ := except_bind_ok h
      rw [ih hrun hk.2, sids_step hstep hk.1]

end Steps

section Statements

variable (P : SemProgram)

/-- A statement of a function with a body. -/
structure IsStatement (id : FunctionId) (func : SemFunction) (idx : ℕ) (stmt : SemStmt) :
    Prop where
  function : P.functions[id]? = some func
  body : func.isNobody = false
  stmt : func.body[idx]? = some stmt

variable {P} {id idx : ℕ} {func : SemFunction} {stmt : SemStmt} {m : ModuleId} {a : Act}

theorem mem_armActs {id' : FunctionId} {func' : SemFunction} :
    Act.statement id func idx stmt ∈ armActs id' func' ↔
      id' = id ∧ func' = func ∧ func.body[idx]? = some stmt := by
  rw [armActs, List.mem_mapIdx]
  constructor
  · rintro ⟨i, hi, heq⟩
    obtain ⟨rfl, rfl, rfl, rfl⟩ := Act.statement.inj heq
    exact ⟨rfl, rfl, List.getElem?_eq_getElem hi⟩
  · rintro ⟨rfl, rfl, h⟩
    obtain ⟨hi, rfl⟩ := List.getElem?_eq_some_iff.mp h
    exact ⟨idx, hi, rfl⟩

theorem mem_bodyActs {f : SemFunction × FunctionId} :
    Act.statement id func idx stmt ∈ bodyActs P f ↔
      f.1.isNobody = false ∧ f.2 = id ∧ f.1 = func ∧ func.body[idx]? = some stmt := by
  rw [bodyActs]
  cases hb : f.1.isNobody with
  | true => simp
  | false =>
      rw [← mem_armActs, functionActs, guardActs]
      simp

theorem mem_moduleOrder_fold {fs : List SemFunction} {ms : List ModuleId} :
    m ∈ fs.foldl (fun ms f ↦ if f.module ∈ ms then ms else ms ++ [f.module]) ms ↔
      m ∈ ms ∨ ∃ f ∈ fs, f.module = m := by
  induction fs generalizing ms with
  | nil => simp
  | cons f fs ih =>
      rw [List.foldl_cons, ih, List.exists_mem_cons_iff]
      split_ifs with hf
      · constructor
        · exact Or.imp_right .inr
        · rintro (h | rfl | h)
          · exact .inl h
          · exact .inl hf
          · exact .inr h
      · rw [List.mem_append, List.mem_singleton, or_assoc, eq_comm]

theorem nodup_moduleOrder_fold {fs : List SemFunction} {ms : List ModuleId} (h : ms.Nodup) :
    (fs.foldl (fun ms f ↦ if f.module ∈ ms then ms else ms ++ [f.module]) ms).Nodup := by
  induction fs generalizing ms with
  | nil => exact h
  | cons f fs ih =>
      rw [List.foldl_cons]
      split_ifs with hf
      · exact ih h
      · exact ih (List.nodup_append.mpr ⟨h, List.nodup_singleton _, by
          intro a ha b hb
          rw [List.mem_singleton.mp hb]
          exact ne_of_mem_of_not_mem ha hf⟩)

theorem mem_moduleOrder : m ∈ moduleOrder P ↔ ∃ f ∈ P.functions, f.module = m := by
  rw [moduleOrder, mem_moduleOrder_fold]
  simp

theorem mem_acts : Act.statement id func idx stmt ∈ acts P ↔ IsStatement P id func idx stmt := by
  have hacts : Act.statement id func idx stmt ∈ acts P ↔
      ∃ m ∈ moduleOrder P, ∃ f ∈ moduleFunctions P m,
        Act.statement id func idx stmt ∈ bodyActs P f := by
    rw [acts, headerActs, mainActs]
    simp [moduleActs]
  rw [hacts]
  simp only [mem_bodyActs, moduleFunctions, List.mem_filter, List.mem_zipIdx_iff_getElem?]
  constructor
  · rintro ⟨m, hm, f, ⟨hf, hfm⟩, hb, rfl, rfl, hstmt⟩
    exact ⟨hf, hb, hstmt⟩
  · rintro ⟨hf, hb, hstmt⟩
    exact ⟨func.module, mem_moduleOrder.mpr ⟨func, List.mem_of_getElem? hf, rfl⟩, (func, id),
      ⟨hf, decide_eq_true rfl⟩, hb, rfl, rfl, hstmt⟩

/-- Two steps are not for one statement. -/
def Act.Apart (a b : Act) : Prop := ∀ x, a.label = some x → b.label ≠ some x

theorem Act.apart_of_none {b : Act} (h : b.label = none) : a.Apart b :=
  fun x _ hb ↦ by rw [h] at hb; cases hb

theorem Act.apart_of_none_left {b : Act} (h : a.label = none) : a.Apart b :=
  fun x ha ↦ by rw [h] at ha; cases ha

/-- A list of steps no two of which are for one statement. -/
abbrev Simple (as : List Act) : Prop := as.Pairwise Act.Apart

theorem simple_of_none {as : List Act} (h : ∀ a ∈ as, a.label = none) : Simple as :=
  List.pairwise_of_forall_mem_list fun _ ha _ _ ↦ Act.apart_of_none_left (h _ ha)

/-- Steps without a statement around a simple list. -/
theorem Simple.wrap {as bs cs : List Act} (ha : ∀ a ∈ as, a.label = none) (hb : Simple bs)
    (hc : ∀ a ∈ cs, a.label = none) : Simple (as ++ bs ++ cs) := by
  refine List.pairwise_append.mpr ⟨List.pairwise_append.mpr ⟨simple_of_none ha, hb, ?_⟩,
    simple_of_none hc, ?_⟩
  · exact fun a hmem b _ ↦ Act.apart_of_none_left (ha a hmem)
  · exact fun a _ b hmem ↦ Act.apart_of_none (hc b hmem)

theorem simple_armActs : Simple (armActs id func) := by
  refine List.pairwise_iff_getElem.mpr fun i j hi hj hij x hx hx' ↦ ?_
  simp only [armActs, List.getElem_mapIdx, Act.label, Option.some.injEq] at hx hx'
  obtain ⟨-, heq⟩ := Prod.mk.inj (hx.trans hx'.symm)
  exact hij.ne heq

theorem simple_functionActs : Simple (functionActs P id func) := by
  rw [functionActs]
  refine Simple.wrap ?_ simple_armActs ?_
  · simp only [guardActs, List.forall_mem_append, List.forall_mem_cons, List.forall_mem_map,
      List.mem_mapIdx]
    simp only [Act.label_text, true_and, List.not_mem_nil, false_implies, implies_true, and_true]
    rintro _ ⟨i, hi, rfl⟩
    rfl
  · simp

theorem simple_bodyActs (f : SemFunction × FunctionId) : Simple (bodyActs P f) := by
  rw [bodyActs]
  split_ifs
  · exact List.pairwise_singleton _ _
  · exact simple_functionActs

/-- The steps of functions with different ids are for different statements. -/
theorem apart_bodyActs {f f' : SemFunction × FunctionId} (hne : f.2 ≠ f'.2) {b : Act}
    (ha : a ∈ bodyActs P f) (hb : b ∈ bodyActs P f') : a.Apart b := by
  cases a with
  | statement id func idx stmt =>
      cases b with
      | statement id' func' idx' stmt' =>
          obtain ⟨-, rfl, -⟩ := mem_bodyActs.mp ha
          obtain ⟨-, rfl, -⟩ := mem_bodyActs.mp hb
          intro x hx hx'
          obtain ⟨heq, -⟩ := Prod.mk.inj (Option.some.inj (hx.trans hx'.symm))
          exact hne heq
      | text | sharedField | sharedValue | slot | nobody => exact Act.apart_of_none rfl
  | text | sharedField | sharedValue | slot | nobody => exact Act.apart_of_none_left rfl

theorem ids_moduleFunctions : (moduleFunctions P m).Pairwise fun f f' ↦ f.2 ≠ f'.2 := by
  refine List.Pairwise.filter _ ?_
  refine List.pairwise_iff_getElem.mpr fun i j hi hj hij ↦ ?_
  rw [List.getElem_zipIdx, List.getElem_zipIdx]
  exact fun heq ↦ hij.ne (Nat.add_left_cancel heq)

theorem simple_moduleActs : Simple (moduleActs P m) := by
  rw [moduleActs]
  refine Simple.wrap (by simp [Act.label]) ?_ (by simp [Act.label])
  refine List.pairwise_flatMap.mpr ⟨fun f _ ↦ simple_bodyActs f, ?_⟩
  exact ids_moduleFunctions.imp fun hne a ha b hb ↦ apart_bodyActs hne ha hb

theorem apart_moduleActs {m' : ModuleId} (hne : m ≠ m') {b : Act} (ha : a ∈ moduleActs P m)
    (hb : b ∈ moduleActs P m') : a.Apart b := by
  have hmem : ∀ {m a}, a ∈ moduleActs P m → a.label = none ∨
      ∃ f ∈ moduleFunctions P m, a ∈ bodyActs P f := by
    intro m a h
    simp only [moduleActs, List.mem_append, List.mem_flatMap, List.mem_cons,
      List.not_mem_nil, or_false] at h
    rcases h with (rfl | h) | rfl | rfl
    · exact .inl rfl
    · exact .inr h
    · exact .inl rfl
    · exact .inl rfl
  rcases hmem ha with hnone | ⟨f, hf, ha⟩
  · exact Act.apart_of_none_left hnone
  · rcases hmem hb with hnone | ⟨f', hf', hb⟩
    · exact Act.apart_of_none hnone
    · refine apart_bodyActs (fun heq ↦ hne ?_) ha hb
      simp only [moduleFunctions, List.mem_filter, List.mem_zipIdx_iff_getElem?,
        decide_eq_true_eq] at hf hf'
      rw [heq, hf'.1] at hf
      rw [← hf.2, ← hf'.2, Option.some.inj hf.1]

/-- Every statement has one step. -/
theorem simple_acts : Simple (acts P) := by
  rw [acts]
  have hheader : ∀ a ∈ headerActs P, a.label = none := by
    simp [headerActs, or_imp, forall_and]
  have hmain : ∀ a ∈ mainActs P, a.label = none := by
    simp [mainActs, or_imp, forall_and]
  refine Simple.wrap hheader ?_ hmain
  refine List.pairwise_flatMap.mpr ⟨fun m _ ↦ simple_moduleActs, ?_⟩
  have hnodup : (moduleOrder P).Nodup := nodup_moduleOrder_fold List.nodup_nil
  exact hnodup.imp fun hne a ha b hb ↦ apart_moduleActs hne ha hb

end Statements

end Codegen

end ConcIR
