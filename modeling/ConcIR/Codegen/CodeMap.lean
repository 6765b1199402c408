import ConcIR.Codegen.Layout

/-!
# The map from statements to lines

The map is complete when every statement has an entry of its own with the line at which its
arm begins. An entry is found by the module and the statement id alone, so the map is complete
exactly when no two statements of one module, in whatever functions, have one id.
-/

namespace ConcIR

namespace Codegen

section Specification

variable (P : SemProgram) (D : DebugText) (out : Generated)

/-- The arm of a statement begins at a line of the source: the generator comes to the statement
when the lines before it are written. -/
def ArmLine (id : FunctionId) (idx n : ℕ) : Prop :=
  ∃ i func stmt g rest, (acts P)[i]? = some (.statement id func idx stmt) ∧
    ((acts P).take i).foldlM (step P D) .initial = .ok g ∧
    out.mainRs.toList = unlines g.lines ++ ((armHeader idx).toList ++ '\n' :: rest) ∧
    n = (unlines g.lines).count '\n' + 1

/-- Each statement has its own entry, and the entry holds the line of its arm. -/
def MapComplete : Prop :=
  ∃ key : FunctionId → ℕ → String,
    (∀ id func idx stmt, IsStatement P id func idx stmt →
      ∃ n, out.map.sids[key id idx]? = some ⟨"src/main.rs", n⟩ ∧ ArmLine P D out id idx n) ∧
    ∀ id func idx stmt id' func' idx' stmt', IsStatement P id func idx stmt →
      IsStatement P id' func' idx' stmt' → key id idx = key id' idx' → id = id' ∧ idx = idx'

/-- No two statements have the same module and the same id. -/
def KeysDistinct : Prop :=
  ∀ id func idx stmt id' func' idx' stmt', IsStatement P id func idx stmt →
    IsStatement P id' func' idx' stmt' → sidKey P func stmt.sid = sidKey P func' stmt'.sid →
      id = id' ∧ idx = idx'

end Specification

section Runs

variable {P : SemProgram} {D : DebugText} {g g' g₁ g₂ : Gen} {a : Act} {as : List Act}
  {k : String} {loc : SidLocation} {id idx i j : ℕ} {func : SemFunction} {stmt : SemStmt}

/-- A run goes through the states before and after each of its steps. -/
theorem run_at (h : as.foldlM (step P D) g = .ok g') (hi : as[i]? = some a) :
    ∃ g₁ g₂, (as.take i).foldlM (step P D) g = .ok g₁ ∧ step P D g₁ a = .ok g₂ ∧
      (as.drop (i + 1)).foldlM (step P D) g₂ = .ok g' := by
  obtain ⟨hlt, rfl⟩ := List.getElem?_eq_some_iff.mp hi
  have hsplit : as = as.take i ++ as[i] :: as.drop (i + 1) := by
    rw [← List.drop_eq_getElem_cons hlt, List.take_append_drop]
  rw [hsplit, List.foldlM_append] at h
  obtain ⟨g₁, htake, h⟩ := except_bind_ok h
  obtain ⟨g₂, hstep, h⟩ := except_bind_ok h
  exact ⟨g₁, g₂, htake, hstep, h⟩

/-- An entry is an old one, or that of the last step with its key. -/
theorem entry_of_run (h : as.foldlM (step P D) g = .ok g') (hk : g'.sids[k]? = some loc) :
    (g.sids[k]? = some loc ∧ ∀ a ∈ as, a.key P ≠ some k) ∨
      ∃ i a g₁, as[i]? = some a ∧ a.key P = some k ∧
        (as.take i).foldlM (step P D) g = .ok g₁ ∧ loc = ⟨"src/main.rs", g₁.line⟩ ∧
          ∀ b ∈ as.drop (i + 1), b.key P ≠ some k := by
  induction as generalizing g with
  | nil =>
      obtain rfl := Except.ok.inj h
      exact .inl ⟨hk, by simp⟩
  | cons a as ih =>
      obtain ⟨g₁, hstep, hrun⟩ := except_bind_ok h
      rcases ih hrun with ⟨hold, hnone⟩ | ⟨i, b, g₂, hb, hbk, htake, hloc, hnone⟩
      · by_cases ha : a.key P = some k
        · refine .inr ⟨0, a, g, rfl, ha, rfl, ?_, hnone⟩
          cases a with
          | statement id func idx stmt =>
              obtain rfl : sidKey P func stmt.sid = k := Option.some.inj ha
              rw [(step_statement hstep).1, Std.ExtTreeMap.getElem?_insert_self] at hold
              exact (Option.some.inj hold).symm
          | text | sharedField | sharedValue | slot | nobody => cases ha
        · exact .inl ⟨by rw [← sids_step hstep ha, hold], List.forall_mem_cons.mpr ⟨ha, hnone⟩⟩
      · refine .inr ⟨i + 1, b, g₂, hb, hbk, ?_, hloc, hnone⟩
        rw [List.take_succ_cons, List.foldlM_cons, hstep]
        exact htake

/-- No line of the source so far holds a line break. -/
theorem count_of_run (h : as.foldlM (step P D) .initial = .ok g) :
    (unlines g.lines).count '\n' = g.lines.length := by
  obtain ⟨new, hnew, hclean⟩ := (grows_run h).lines
  refine count_unlines fun l hl ↦ ?_
  rw [hnew] at hl
  exact hclean l hl

/-- The arms of later statements begin at later lines. -/
theorem line_lt_of_lt (hi : as[i]? = some (.statement id func idx stmt))
    (htake : (as.take i).foldlM (step P D) .initial = .ok g₁) (hij : i < j)
    (hj : (as.take j).foldlM (step P D) .initial = .ok g₂) : g₁.line < g₂.line := by
  have hi' : (as.take j)[i]? = some (.statement id func idx stmt) := by
    rw [List.getElem?_take_of_lt hij, hi]
  obtain ⟨g₃, g₄, h₃, hstep, hrest⟩ := run_at hj hi'
  rw [List.take_take, min_eq_left hij.le, htake] at h₃
  obtain rfl := Except.ok.inj h₃
  obtain ⟨-, new, hnew, -⟩ := step_statement hstep
  obtain ⟨new', hnew', -⟩ := (grows_run hrest).lines
  rw [Gen.line, Gen.line, hnew', hnew, List.length_append, List.length_append,
    List.length_cons]
  omega

end Runs

section Complete

variable {P : SemProgram} {D : DebugText} {out : Generated} {g : Gen} {id idx i j n : ℕ}
  {func : SemFunction} {stmt : SemStmt}

theorem run_of_generate (h : generate P D = .ok out) :
    ∃ g, (acts P).foldlM (step P D) .initial = .ok g ∧ out.map.sids = g.sids ∧
      out.mainRs = joinWith "\n" g.lines ++ "\n" := by
  obtain ⟨g, hrun, rfl⟩ := map_ok h
  exact ⟨g, hrun, rfl, rfl⟩

/-- A statement has one step only. -/
theorem position_unique {func' : SemFunction} {stmt' : SemStmt}
    (hi : (acts P)[i]? = some (.statement id func idx stmt))
    (hj : (acts P)[j]? = some (.statement id func' idx stmt')) : i = j := by
  obtain ⟨hlt, hi⟩ := List.getElem?_eq_some_iff.mp hi
  obtain ⟨hlt', hj⟩ := List.getElem?_eq_some_iff.mp hj
  have hpair := List.pairwise_iff_getElem.mp (simple_acts (P := P))
  rcases lt_trichotomy i j with hij | hij | hij
  · exact absurd (by rw [hj]; rfl) (hpair i j hlt hlt' hij (id, idx) (by rw [hi]; rfl))
  · exact hij
  · exact absurd (by rw [hi]; rfl) (hpair j i hlt' hlt hij (id, idx) (by rw [hj]; rfl))

/-- The line that is noted for a statement is the line of its arm. -/
theorem armLine_of_run (h : generate P D = .ok out)
    (hi : (acts P)[i]? = some (.statement id func idx stmt))
    (htake : ((acts P).take i).foldlM (step P D) .initial = .ok g) :
    ArmLine P D out id idx g.line := by
  obtain ⟨g', hrun, -, hmain⟩ := run_of_generate h
  obtain ⟨g₁, g₂, htake', hstep, hrest⟩ := run_at hrun hi
  obtain rfl := Except.ok.inj (htake.symm.trans htake')
  obtain ⟨-, new, hnew, -⟩ := step_statement hstep
  obtain ⟨new', hnew', -⟩ := (grows_run hrest).lines
  have hlines : g'.lines = g.lines ++ armHeader idx :: (new ++ new') := by
    rw [hnew', hnew, List.append_assoc, List.cons_append]
  refine ⟨i, func, stmt, g, unlines (new ++ new'), hi, htake, ?_, ?_⟩
  · have hmainlines : out.mainRs.toList = unlines g'.lines := by
      rw [hmain]
      cases hg : g'.lines with
      | nil => simp [hg] at hlines
      | cons l ls => exact toList_joinWith
    rw [hmainlines, hlines, unlines_append]
    simp [unlines]
  · rw [count_of_run htake, Gen.line]

/-- The arm of a statement has one line. -/
theorem line_of_armLine (h : ArmLine P D out id idx n)
    (hi : (acts P)[i]? = some (.statement id func idx stmt))
    (htake : ((acts P).take i).foldlM (step P D) .initial = .ok g) : n = g.line := by
  obtain ⟨j, func', stmt', g', rest, hj, htake', -, hn⟩ := h
  obtain rfl := position_unique hi hj
  obtain rfl := Except.ok.inj (htake.symm.trans htake')
  rw [hn, count_of_run htake, Gen.line]

/-- In a complete map no later statement has the key of an earlier one. -/
theorem MapComplete.key_ne (h : generate P D = .ok out) (hc : MapComplete P D out)
    {id' idx' : ℕ} {func' : SemFunction} {stmt' : SemStmt}
    (hi : (acts P)[i]? = some (.statement id func idx stmt))
    (hj : (acts P)[j]? = some (.statement id' func' idx' stmt')) (hij : i < j) :
    sidKey P func stmt.sid ≠ sidKey P func' stmt'.sid := by
  intro heq
  obtain ⟨key, hentry, -⟩ := hc
  obtain ⟨n, hsids, harm⟩ := hentry id func idx stmt (mem_acts.mp (List.mem_of_getElem? hi))
  obtain ⟨g', hrun, hmap, -⟩ := run_of_generate h
  obtain ⟨g₁, -, htake, -, -⟩ := run_at hrun hi
  rw [hmap] at hsids
  obtain rfl := line_of_armLine harm hi htake
  rcases entry_of_run hrun hsids with ⟨hold, -⟩ | ⟨p, b, g₂, hp, hbk, htakep, hloc, hnone⟩
  · simp [Gen.initial] at hold
  · have hline : g₁.line = g₂.line := congrArg SidLocation.line hloc
    cases b with
    | statement id₂ func₂ idx₂ stmt₂ =>
        have hpi : p = i := by
          rcases lt_trichotomy p i with hlt | rfl | hlt
          · exact absurd hline (line_lt_of_lt hp htakep hlt htake).ne'
          · rfl
          · exact absurd hline (line_lt_of_lt hi htake hlt htakep).ne
        obtain rfl := hpi
        obtain ⟨rfl, rfl, rfl, rfl⟩ := Act.statement.inj (Option.some.inj (hi.symm.trans hp))
        have hdrop : ((acts P).drop (p + 1))[j - (p + 1)]? =
            some (.statement id' func' idx' stmt') := by
          rw [List.getElem?_drop, show p + 1 + (j - (p + 1)) = j by omega]
          exact hj
        exact hnone _ (List.mem_of_getElem? hdrop) ((congrArg some heq.symm).trans hbk)
    | text | sharedField | sharedValue | slot | nobody => cases hbk

theorem MapComplete.keysDistinct (h : generate P D = .ok out) (hc : MapComplete P D out) :
    KeysDistinct P := by
  intro id func idx stmt id' func' idx' stmt' hs hs' hkey
  obtain ⟨i, hi⟩ := List.getElem?_of_mem (mem_acts.mpr hs)
  obtain ⟨j, hj⟩ := List.getElem?_of_mem (mem_acts.mpr hs')
  rcases lt_trichotomy i j with hij | rfl | hij
  · exact absurd hkey (hc.key_ne h hi hj hij)
  · obtain ⟨rfl, -, rfl, -⟩ := Act.statement.inj (Option.some.inj (hi.symm.trans hj))
    exact ⟨rfl, rfl⟩
  · exact absurd hkey.symm (hc.key_ne h hj hi hij)

/-- The key under which a statement is noted. -/
def entryKey (P : SemProgram) (id : FunctionId) (idx : ℕ) : String :=
  ((P.functions[id]?).bind fun f ↦ f.body[idx]?.map fun s ↦ sidKey P f s.sid).getD ""

theorem entryKey_eq (hs : IsStatement P id func idx stmt) :
    entryKey P id idx = sidKey P func stmt.sid := by
  rw [entryKey, hs.function, Option.bind_some, hs.stmt]
  rfl

theorem KeysDistinct.mapComplete (h : generate P D = .ok out) (hk : KeysDistinct P) :
    MapComplete P D out := by
  obtain ⟨g', hrun, hmap, -⟩ := run_of_generate h
  refine ⟨entryKey P, fun id func idx stmt hs ↦ ?_,
    fun id func idx stmt id' func' idx' stmt' hs hs' heq ↦ ?_⟩
  · obtain ⟨i, hi⟩ := List.getElem?_of_mem (mem_acts.mpr hs)
    obtain ⟨g₁, g₂, htake, hstep, hrest⟩ := run_at hrun hi
    refine ⟨g₁.line, ?_, armLine_of_run h hi htake⟩
    rw [hmap, entryKey_eq hs, sids_run hrest, (step_statement hstep).1,
      Std.ExtTreeMap.getElem?_insert_self]
    intro b hb hbk
    obtain ⟨m, hm⟩ := List.getElem?_of_mem hb
    rw [List.getElem?_drop] at hm
    cases b with
    | statement id' func' idx' stmt' =>
        have hs' := mem_acts.mp (List.mem_of_getElem? hm)
        obtain ⟨rfl, rfl⟩ := hk _ _ _ _ _ _ _ _ hs hs' (Option.some.inj hbk).symm
        have heq := position_unique hi hm
        omega
    | text | sharedField | sharedValue | slot | nobody => cases hbk
  · rw [entryKey_eq hs, entryKey_eq hs'] at heq
    exact hk _ _ _ _ _ _ _ _ hs hs' heq

/-- Where the generator succeeds, its map is complete exactly when no two statements have the
same module and the same id. -/
theorem mapComplete_iff (h : generate P D = .ok out) :
    MapComplete P D out ↔ KeysDistinct P :=
  ⟨MapComplete.keysDistinct h, KeysDistinct.mapComplete h⟩

end Complete

section Instances

/-- Quotes around a text, as for one without special characters. -/
def plainText : DebugText := ⟨fun s ↦ "\"" ++ s ++ "\"", fun _ ↦ "0.0"⟩

theorem noResources_ok : ∀ r ∈ ([] : List SemResource), r.isLowered = true := by simp

/-- A function with one statement. -/
def singleSem : SemProgram where
  moduleNames := ["main"]
  functions := [⟨0, "main", false, true, none, none, [], [⟨"s1", .return none⟩], none⟩]
  resources := []
  entry := 0
  unsupported := []
  entry_lt := by decide
  functions_ok := by decide
  resources_ok := noResources_ok

theorem mapComplete_iff_single : ∃ out, generate singleSem plainText = .ok out ∧
    MapComplete singleSem plainText out := by
  obtain ⟨out, hout⟩ : ∃ out, generate singleSem plainText = .ok out := ⟨_, rfl⟩
  have honly : ∀ {id func idx stmt}, IsStatement singleSem id func idx stmt →
      id = 0 ∧ idx = 0 := by
    intro id func idx stmt hs
    have hid : id < 1 := (List.getElem?_eq_some_iff.mp hs.function).1
    obtain rfl := Nat.lt_one_iff.mp hid
    obtain rfl := Option.some.inj hs.function
    have hidx : idx < 1 := (List.getElem?_eq_some_iff.mp hs.stmt).1
    exact ⟨rfl, Nat.lt_one_iff.mp hidx⟩
  refine ⟨out, hout, (mapComplete_iff hout).mpr ?_⟩
  intro id func idx stmt id' func' idx' stmt' hs hs' _
  obtain ⟨rfl, rfl⟩ := honly hs
  obtain ⟨rfl, rfl⟩ := honly hs'
  exact ⟨rfl, rfl⟩

/-- Two functions of one module, each with a statement `s1`. -/
def pairSem : SemProgram where
  moduleNames := ["main"]
  functions := [⟨0, "main", false, true, none, none, [], [⟨"s1", .scope [1]⟩], none⟩,
    ⟨0, "t1", false, true, none, none, [], [⟨"s1", .return none⟩], none⟩]
  resources := []
  entry := 0
  unsupported := []
  entry_lt := by decide
  functions_ok := by decide
  resources_ok := noResources_ok

/-- The entry of the second `s1` takes the place of the first. -/
theorem not_mapComplete_pair : ∃ out, generate pairSem plainText = .ok out ∧
    ¬ MapComplete pairSem plainText out := by
  obtain ⟨out, hout⟩ : ∃ out, generate pairSem plainText = .ok out := ⟨_, rfl⟩
  refine ⟨out, hout, fun hc ↦ ?_⟩
  have hkey := hc.keysDistinct hout 0 _ 0 _ 1 _ 0 _ ⟨rfl, rfl, rfl⟩ ⟨rfl, rfl, rfl⟩ rfl
  exact absurd hkey.1 (by decide)

end Instances

end Codegen

end ConcIR
