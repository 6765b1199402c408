import ConcIR.Sem.Discipline

/-!
# Accesses of lowered statements

The cells that a lowered statement reads or writes. Each Var among them is one of the names that
the lock checks look at in the source.
-/

namespace ConcIR

section Cells

mutual

/-- The cells that an expression reads. -/
def LExpr.cells : LExpr → List ResourceId
  | .lit _ => []
  | .slot (.shared r) => [r]
  | .slot _ => []
  | .field base _ => base.cells
  | .neg e => e.cells
  | .bin _ x y => x.cells ++ y.cells
  | .cmp _ x y => x.cells ++ y.cells
  | .struct fields => LExpr.fieldCells fields

def LExpr.fieldCells : List (String × LExpr) → List ResourceId
  | [] => []
  | (_, e) :: rest => e.cells ++ LExpr.fieldCells rest

end

/-- The cell that a destination is. -/
def SlotRef.cells : SlotRef → List ResourceId
  | .shared r => [r]
  | _ => []

/-- The Vars that a statement reads or writes, and the cells in its expressions and
destinations. -/
def SemOp.accesses : SemOp → List ResourceId
  | .assignLocal target e => target.cells ++ e.cells
  | .readShared r dst => r :: dst.toList.flatMap (·.cells)
  | .writeShared r e => r :: e.cells
  | .atomicLoad _ dst => dst.cells
  | .atomicStore _ e => e.cells
  | .atomicCas _ expected desired dst => expected.cells ++ desired.cells ++ dst.cells
  | .channelSend _ e => e.cells
  | .channelRecv _ dst => dst.cells
  | .call _ args dst => args.flatMap (·.cells) ++ dst.toList.flatMap (·.cells)
  | .branch c _ _ => c.cells
  | .switch e _ _ => e.cells
  | .return value => value.toList.flatMap (·.cells)
  | _ => []

end Cells

namespace NameEnv

variable {env env' env'' : NameEnv} {n name : String} {slot : Slot} {K : SlotKind}

/-- A name keeps its slot, and a new one is of the kind. -/
structure Grows (n : String) (K : SlotKind) (env env' : NameEnv) : Prop where
  keeps : ∀ slot, env.get n = some slot → env'.get n = some slot
  adds : env.get n = none → ∀ slot, env'.get n = some slot → slot.kind = K

theorem Grows.refl (n : String) (K : SlotKind) (env : NameEnv) : Grows n K env env :=
  ⟨fun _ h ↦ h, fun hnone slot h ↦ by rw [hnone] at h; cases h⟩

theorem Grows.trans (h : Grows n K env env') (h' : Grows n K env' env'') : Grows n K env env'' := by
  refine ⟨fun slot hs ↦ h'.keeps slot (h.keeps slot hs), fun hnone slot hs ↦ ?_⟩
  cases hmid : env'.get n with
  | none => exact h'.adds hmid slot hs
  | some slot' =>
      obtain rfl := Option.some.inj (hs.symm.trans (h'.keeps slot' hmid))
      exact h.adds hnone _ hmid

theorem grows_orInsert (hkind : name = n → slot.kind = K) :
    Grows n K env (env.orInsert name slot) := by
  constructor
  · intro s hs
    rw [get_orInsert]
    split_ifs
    · rw [hs]
      rfl
    · exact hs
  · intro hnone s hs
    rw [get_orInsert, hnone] at hs
    split_ifs at hs with hn
    obtain rfl := Option.some.inj hs
    exact hkind hn.symm

theorem get_orInsert_self (env : NameEnv) (n : String) (slot : Slot) :
    ((env.orInsert n slot).get n).isSome = true := by
  rw [get_orInsert, if_pos rfl]
  cases env.get n <;> rfl

section Folds

variable {A : Type} {st : NameEnv → A → NameEnv} {xs : List A}

theorem grows_foldl (h : ∀ x ∈ xs, ∀ env, Grows n K env (st env x)) (env : NameEnv) :
    Grows n K env (xs.foldl st env) := by
  induction xs generalizing env with
  | nil => exact .refl n K env
  | cons x xs ih =>
      obtain ⟨hx, hxs⟩ := List.forall_mem_cons.mp h
      exact (hx env).trans (ih hxs (st env x))

theorem isSome_foldl (h : ∀ x ∈ xs, ∀ env, Grows n K env (st env x)) {x : A} (hx : x ∈ xs)
    (hsome : ∀ env, ((st env x).get n).isSome = true) (env : NameEnv) :
    ((xs.foldl st env).get n).isSome = true := by
  obtain ⟨front, rest, rfl⟩ := List.append_of_mem hx
  rw [List.foldl_append, List.foldl_cons]
  obtain ⟨slot, hslot⟩ := Option.isSome_iff_exists.mp (hsome (front.foldl st env))
  have hrest := grows_foldl (fun y hy ↦ h y (List.mem_append_right _ (List.mem_cons_of_mem x hy)))
    (st (front.foldl st env) x)
  rw [hrest.keeps slot hslot]
  rfl

theorem get_foldl (h : ∀ x ∈ xs, ∀ env, (st env x).get n = env.get n) (env : NameEnv) :
    (xs.foldl st env).get n = env.get n := by
  induction xs generalizing env with
  | nil => rfl
  | cons x xs ih =>
      obtain ⟨hx, hxs⟩ := List.forall_mem_cons.mp h
      rw [List.foldl_cons, ih hxs, hx]

end Folds

end NameEnv

namespace Lower

open Ast Validate

variable {p : Program} {P : SemProgram} {res : List LowResource} {l : Lowerer} {ctx : BodyCtx}
  {loc : String} {m owner : Module} {mid : ModuleId} {f : Function} {k : FunctionId}
  {r : ResourceId} {rs : Resource} {n : String} {slots : List SemSlot} {op : Op} {o : SemOp}

section Env

theorem not_mem_of_lastIndex {names : List String} (h : lastIndex names n = none) : n ∉ names := by
  intro hmem
  obtain ⟨i, hi⟩ := List.getElem?_of_mem hmem
  rw [lastIndex, Option.map_eq_none_iff, List.find?_eq_none] at h
  exact h (n, i) (List.mem_reverse.mpr (List.mem_zipIdx_iff_getElem?.mpr hi)) (decide_eq_true rfl)

/-- A name that is no slot is not yet there before the resources are. -/
theorem get_slots (tenv : Typedef.TypeEnv) (hslot : n ∉ slotNames f) (hn : n ≠ "_") :
    (f.returns.toList.foldl (NameEnv.addReturn tenv m) (f.locals.foldl (NameEnv.addLocal tenv m)
      (f.params.foldl (NameEnv.addParam tenv m)
        (NameEnv.empty.insert "_" ⟨.discard, none, false⟩)))).get n = none := by
  have hdeclared : n ∉ declaredNames f := fun h ↦ hslot (List.mem_append_left _ h)
  have hparams : n ∉ f.params.map (·.name) := fun h ↦ hdeclared (List.mem_append_left _ h)
  have hlocals : n ∉ f.locals.map (·.name) := fun h ↦ hdeclared (List.mem_append_right _ h)
  have hreturns : ∀ ret ∈ f.returns.toList, n ≠ ret.name := by
    rintro ret hret rfl
    refine hslot (List.mem_append_right _ (List.mem_map.mpr ⟨ret, ?_, rfl⟩))
    rw [ownReturn, Option.mem_toList]
    exact Option.filter_eq_some_iff.mpr ⟨Option.mem_toList.mp hret, by simpa using hdeclared⟩
  rw [NameEnv.get_foldl, NameEnv.get_foldl, NameEnv.get_foldl, NameEnv.get_insert, if_neg hn]
  · rfl
  · intro x hx env
    rw [NameEnv.addParam, NameEnv.get_insert, if_neg]
    exact fun heq ↦ hparams (List.mem_map.mpr ⟨x, hx, heq.symm⟩)
  · intro x hx env
    rw [NameEnv.addLocal, NameEnv.get_insert, if_neg]
    exact fun heq ↦ hlocals (List.mem_map.mpr ⟨x, hx, heq.symm⟩)
  · intro x hx env
    rw [NameEnv.addReturn, NameEnv.get_orInsert, if_neg (hreturns x hx)]

/-- A body sees a resource under the names of the resources of its module. -/
theorem lookup_own (hN : NamesClean p) (howner : owner ∈ p.modules) (hname : owner.name = m.name)
    (hrs : rs ∈ owner.resources) (h : n = rs.name ∨ n = fqn owner.name rs.name) :
    p.lookupResource m.name n = some (owner, rs) := by
  have hident := hN.resources owner howner rs hrs
  refine lookupResource_eq hN howner hrs ?_ rfl
  rcases h with rfl | rfl
  · rw [resolveName, splitFqn_ident hident, hname]
    rfl
  · rw [resolveName, splitFqn_fqn (hN.modules owner howner) hident]
    rfl

/-- A resource that comes in under the name is the one that the name stands for. -/
theorem kind_of_lookup (hlookup : p.lookupResource m.name n = some (owner, rs))
    (tenv : Typedef.TypeEnv) {owner' : Module} {rs' : Resource}
    (h : p.lookupResource m.name n = some (owner', rs')) :
    (resolveSlot tenv owner'.name (resourceSlot rs')).kind = (resourceSlot rs).kind := by
  obtain ⟨-, rfl⟩ := Prod.mk.inj (Option.some.inj (hlookup.symm.trans h))
  rfl

theorem grows_addResource (hN : NamesClean p) (hlookup : p.lookupResource m.name n = some (owner, rs))
    (tenv : Typedef.TypeEnv) {owner' : Module} {rs' : Resource} (howner : owner' ∈ p.modules)
    (hrs : rs' ∈ owner'.resources) (env : NameEnv) :
    NameEnv.Grows n (resourceSlot rs).kind env (NameEnv.addResource tenv m owner' env rs') := by
  rw [NameEnv.addResource]
  split_ifs with hmod
  · apply NameEnv.Grows.trans
    · apply NameEnv.grows_orInsert
      exact fun heq ↦ kind_of_lookup hlookup tenv (lookup_own hN howner hmod hrs (.inl heq.symm))
    · apply NameEnv.grows_orInsert
      exact fun heq ↦ kind_of_lookup hlookup tenv (lookup_own hN howner hmod hrs (.inr heq.symm))
  · exact .refl n _ env

theorem grows_addRequired (hlookup : p.lookupResource m.name n = some (owner, rs))
    (tenv : Typedef.TypeEnv) (env : NameEnv) (req : String) :
    NameEnv.Grows n (resourceSlot rs).kind env (NameEnv.addRequired tenv m p env req) := by
  rw [NameEnv.addRequired]
  split
  · rename_i owner' rs' hreq
    apply NameEnv.grows_orInsert
    exact fun heq ↦ kind_of_lookup hlookup tenv (heq ▸ hreq)
  · exact .refl n _ env

theorem isSome_addResource (hmod : owner.name = m.name)
    (h : n = rs.name ∨ n = fqn owner.name rs.name) (tenv : Typedef.TypeEnv) (env : NameEnv) :
    ((NameEnv.addResource tenv m owner env rs).get n).isSome = true := by
  rw [NameEnv.addResource, if_pos hmod]
  rcases h with rfl | rfl
  · obtain ⟨s, hs⟩ := Option.isSome_iff_exists.mp
      (NameEnv.get_orInsert_self env rs.name (resolveSlot tenv owner.name (resourceSlot rs)))
    rw [(NameEnv.grows_orInsert fun _ ↦ rfl).keeps s hs]
    rfl
  · exact NameEnv.get_orInsert_self _ _ _

/-- The names that lowering knows resources by. -/
theorem names_of_mem (h : (n, r) ∈ resourceNames l p m mid) :
    (∃ owner ∈ p.modules, owner.name = m.name ∧
      ∃ rs ∈ owner.resources, n = rs.name ∨ n = fqn owner.name rs.name) ∨
    n ∈ m.requires.resources := by
  rcases List.mem_append.mp h with hown | hreq
  · obtain ⟨owner, howner, hown⟩ := List.mem_flatMap.mp hown
    obtain ⟨howner, hmod⟩ := List.mem_filter.mp howner
    have hmod : owner.name = m.name := of_decide_eq_true hmod
    obtain ⟨rs, hrs, hown⟩ := List.mem_flatMap.mp hown
    refine .inl ⟨owner, howner, hmod, rs, hrs, ?_⟩
    cases hr : l.resourceOf mid rs.name with
    | none =>
        rw [hr] at hown
        cases hown
    | some rid =>
        rw [hr] at hown
        have hlist : (n, r) ∈ [(rs.name, rid), (fqn m.name rs.name, rid)] := hown
        rw [hmod]
        simp only [List.mem_cons, Prod.mk.injEq, List.not_mem_nil, or_false] at hlist
        exact hlist.imp And.left And.left
  · obtain ⟨req, hmem, hrid⟩ := List.mem_filterMap.mp hreq
    obtain ⟨rid, -, heq⟩ := Option.map_eq_some_iff.mp hrid
    obtain ⟨rfl, rfl⟩ := Prod.mk.inj heq
    exact .inr hmem

/-- The checks and lowering agree on what kind of resource a name stands for. -/
theorem get_build (hN : NamesClean p) (hslot : (bodyCtx p l m f mid slots).nameToSlot n = none)
    (hn : n ≠ "_") (hname : (bodyCtx p l m f mid slots).nameToResource n = some r)
    (hlookup : p.lookupResource m.name n = some (owner, rs)) :
    ∃ slot, (NameEnv.build p m f).get n = some slot ∧ slot.kind = (resourceSlot rs).kind := by
  have hresource : ∀ tenv, ∀ owner' ∈ p.modules, ∀ rs' ∈ owner'.resources, ∀ env,
      NameEnv.Grows n (resourceSlot rs).kind env (NameEnv.addResource tenv m owner' env rs') :=
    fun tenv owner' howner rs' hrs env ↦ grows_addResource hN hlookup tenv howner hrs env
  have hmodules : ∀ tenv, ∀ owner' ∈ p.modules, ∀ env, NameEnv.Grows n (resourceSlot rs).kind env
      (owner'.resources.foldl (NameEnv.addResource tenv m owner') env) :=
    fun tenv owner' howner ↦ NameEnv.grows_foldl (hresource tenv owner' howner)
  have hrequired : ∀ tenv, ∀ req ∈ m.requires.resources, ∀ env,
      NameEnv.Grows n (resourceSlot rs).kind env (NameEnv.addRequired tenv m p env req) :=
    fun tenv req _ env ↦ grows_addRequired hlookup tenv env req
  have hsome : ((NameEnv.build p m f).get n).isSome = true := by
    rcases names_of_mem (lastValue_mem hname) with ⟨owner', howner, hmod, rs', hrs, hnames⟩ | hreq
    · have hcame : ∀ env, ((owner'.resources.foldl (NameEnv.addResource
          (Typedef.TypeEnv.fromProgram p) m owner') env).get n).isSome = true :=
        NameEnv.isSome_foldl (hresource _ owner' howner) hrs (isSome_addResource hmod hnames _)
      obtain ⟨s, hs⟩ := Option.isSome_iff_exists.mp
        (NameEnv.isSome_foldl (hmodules _) howner hcame _)
      rw [NameEnv.build, (NameEnv.grows_foldl (hrequired _) _).keeps s hs]
      rfl
    · apply NameEnv.isSome_foldl (hrequired _) hreq
      intro env
      rw [NameEnv.addRequired, hlookup]
      exact NameEnv.get_orInsert_self _ _ _
  obtain ⟨slot, hget⟩ := Option.isSome_iff_exists.mp hsome
  refine ⟨slot, hget, ?_⟩
  apply ((NameEnv.grows_foldl (hmodules (Typedef.TypeEnv.fromProgram p)) _).trans
    (NameEnv.grows_foldl (hrequired (Typedef.TypeEnv.fromProgram p)) _)).adds _ slot hget
  exact get_slots _ (not_mem_of_lastIndex hslot) hn

end Env

section Reads

variable {env : NameEnv}

theorem resourceSlot_var (h : resKind rs = .ok .var) : (resourceSlot rs).kind = .var := by
  rw [resKind] at h
  rw [resourceSlot]
  split at h <;> simp_all

/-- The name of a Var that is read. -/
theorem shared_of_valueSlot {slot : SlotRef} (h : valueSlot l ctx loc n = .ok slot)
    (hr : r ∈ slot.cells) : ctx.nameToSlot n = none ∧ ctx.nameToResource n = some r := by
  rw [valueSlot] at h
  split at h
  · obtain rfl := Except.ok.inj h
    cases hr
  · rename_i hslot
    split at h
    · rename_i r' hname
      split_ifs at h
      obtain rfl := Except.ok.inj h
      obtain rfl := List.mem_singleton.mp hr
      exact ⟨hslot, hname⟩
    · cases h

/-- The name of a Var that is written. -/
theorem shared_of_writableSlot {slot : SlotRef} (h : writableSlot l ctx loc n = .ok slot)
    (hr : r ∈ slot.cells) : n ∈ wr n ∧ ctx.nameToResource n = some r := by
  rw [writableSlot] at h
  split_ifs at h with hdiscard
  · obtain rfl := Except.ok.inj h
    cases hr
  · split at h
    · split_ifs at h
      obtain rfl := Except.ok.inj h
      cases hr
    · split at h
      · rename_i r' hname
        split_ifs at h
        obtain rfl := Except.ok.inj h
        obtain rfl := List.mem_singleton.mp hr
        exact ⟨by rw [wr, if_neg hdiscard]; exact List.mem_singleton_self _, hname⟩
      · cases h

mutual

/-- A cell that a lowered expression reads is named in the source. -/
theorem collected_of_cells (hvar : ∀ n slot, valueSlot l ctx loc n = .ok slot → r ∈ slot.cells →
      n ∈ Expr.collectNames env (.name n) ∧ ctx.nameToResource n = some r) :
    ∀ e x, lowerExpr l ctx loc e = .ok x → r ∈ x.cells →
      ∃ n ∈ Expr.collectNames env e, ctx.nameToResource n = some r
  | .lit v, x, h, hr => by
      obtain rfl := Except.ok.inj h
      cases hr
  | .name n, x, h, hr => by
      obtain ⟨slot, hslot, h⟩ := bind_eq_ok.mp h
      obtain rfl := Except.ok.inj h
      have hcells : r ∈ slot.cells := by
        cases slot with
        | shared r' => exact hr
        | _ => cases hr
      obtain ⟨hmem, hname⟩ := hvar n slot hslot hcells
      exact ⟨n, hmem, hname⟩
  | .field base field, x, h, hr => by
      obtain ⟨y, hy, h⟩ := bind_eq_ok.mp h
      obtain rfl := Except.ok.inj h
      exact collected_of_cells hvar base y hy hr
  | .unaryNeg e, x, h, hr => by
      obtain ⟨y, hy, h⟩ := bind_eq_ok.mp h
      obtain rfl := Except.ok.inj h
      exact collected_of_cells hvar e y hy hr
  | .binOp op lhs rhs, x, h, hr => by
      obtain ⟨y, hy, h⟩ := bind_eq_ok.mp h
      obtain ⟨z, hz, h⟩ := bind_eq_ok.mp h
      obtain rfl := Except.ok.inj h
      rcases List.mem_append.mp hr with hr | hr
      · obtain ⟨n, hn, hname⟩ := collected_of_cells hvar lhs y hy hr
        exact ⟨n, List.mem_append_left _ hn, hname⟩
      · obtain ⟨n, hn, hname⟩ := collected_of_cells hvar rhs z hz hr
        exact ⟨n, List.mem_append_right _ hn, hname⟩
  | .cmp op lhs rhs, x, h, hr => by
      obtain ⟨y, hy, h⟩ := bind_eq_ok.mp h
      obtain ⟨z, hz, h⟩ := bind_eq_ok.mp h
      obtain rfl := Except.ok.inj h
      rcases List.mem_append.mp hr with hr | hr
      · obtain ⟨n, hn, hname⟩ := collected_of_cells hvar lhs y hy hr
        exact ⟨n, List.mem_append_left _ hn, hname⟩
      · obtain ⟨n, hn, hname⟩ := collected_of_cells hvar rhs z hz hr
        exact ⟨n, List.mem_append_right _ hn, hname⟩
  | .struct fields, x, h, hr => by
      obtain ⟨fs, hfs, h⟩ := bind_eq_ok.mp h
      obtain rfl := Except.ok.inj h
      exact collected_of_fieldCells hvar fields fs hfs hr

theorem collected_of_fieldCells (hvar : ∀ n slot, valueSlot l ctx loc n = .ok slot →
      r ∈ slot.cells → n ∈ Expr.collectNames env (.name n) ∧ ctx.nameToResource n = some r) :
    ∀ fields fs, lowerFields l ctx loc fields = .ok fs → r ∈ LExpr.fieldCells fs →
      ∃ n ∈ Expr.collectFields env fields, ctx.nameToResource n = some r
  | [], fs, h, hr => by
      obtain rfl := Except.ok.inj h
      cases hr
  | (key, e) :: rest, fs, h, hr => by
      obtain ⟨x, hx, h⟩ := bind_eq_ok.mp h
      obtain ⟨xs, hxs, h⟩ := bind_eq_ok.mp h
      obtain rfl := Except.ok.inj h
      rcases List.mem_append.mp hr with hr | hr
      · obtain ⟨n, hn, hname⟩ := collected_of_cells hvar e x hx hr
        exact ⟨n, List.mem_append_left _ hn, hname⟩
      · obtain ⟨n, hn, hname⟩ := collected_of_fieldCells hvar rest xs hxs hr
        exact ⟨n, List.mem_append_right _ hn, hname⟩

end

end Reads

section Statements

theorem exists_of_lowerArgs {args : List String} {xs : List LExpr} {x : LExpr}
    (h : lowerArgs l ctx loc args = .ok xs) (hx : x ∈ xs) :
    ∃ text ∈ args, lowerText l ctx loc text = .ok x := by
  induction args generalizing xs with
  | nil =>
      obtain rfl := Except.ok.inj h
      cases hx
  | cons a rest ih =>
      obtain ⟨y, hy, h⟩ := bind_eq_ok.mp h
      obtain ⟨ys, hys, h⟩ := bind_eq_ok.mp h
      obtain rfl := Except.ok.inj h
      rcases List.mem_cons.mp hx with rfl | hx
      · exact ⟨a, List.mem_cons_self, hy⟩
      · obtain ⟨text, htext, hlow⟩ := ih hys hx
        exact ⟨text, List.mem_cons_of_mem a htext, hlow⟩

/-- The checks see a Var that a body reads under its name. A Var with the name of what is discarded
would escape them. -/
theorem named_of_valueSlot (hN : NamesClean p)
    (hdiscard : ∀ m ∈ p.modules, ∀ rs ∈ m.resources, rs.name ≠ "_")
    (hres : lowerResources p = .ok res) (hlike : Like p res l) (hm : p.modules[mid]? = some m)
    (hkind : kindOf l r = some .var) {slot : SlotRef}
    (h : valueSlot l (bodyCtx p l m f mid slots) loc n = .ok slot) (hr : r ∈ slot.cells) :
    (∃ s, (NameEnv.build p m f).get n = some s ∧ s.kind = .var) ∧
      (bodyCtx p l m f mid slots).nameToResource n = some r := by
  obtain ⟨hslot, hname⟩ := shared_of_valueSlot h hr
  obtain ⟨owner, omid, rs, hat, hvar, hlookup, -⟩ :=
    Names.canonical hN hres hlike hm (⟨hname, hkind⟩ : Names l _ .var n r)
  refine ⟨?_, hname⟩
  have hn : n ≠ "_" := by
    rintro rfl
    obtain ⟨howner, hrs, -, hentity⟩ := lookupResource_mem hlookup
    exact hdiscard owner howner rs hrs hentity
  obtain ⟨s, hs, hk⟩ := get_build hN hslot hn hname hlookup
  exact ⟨s, hs, hk.trans (resourceSlot_var hvar)⟩

/-- Lowering keeps the kinds of resources. -/
theorem kindOf_of_resourceAt {kind : ResKind} (hres : lowerResources p = .ok res)
    (hlike : Like p res l) (hat : ResourceAt p r owner mid rs) (h : resKind rs = .ok kind) :
    kindOf l r = some kind := by
  have hlt : r < res.length := by
    rw [← (lowered_resources hres).length_eq]
    exact (List.getElem?_eq_some_iff.mp hat).1
  obtain ⟨owner', rs', hat', -, hkind⟩ := resourceAt_of_lowered hres (List.getElem?_eq_getElem hlt)
  cases (show (allResources p)[r]? = _ from hat).symm.trans hat'
  rw [kindOf, hlike.resources, List.getElem?_eq_getElem hlt]
  exact congrArg some (Except.ok.inj (hkind.symm.trans h))

/-- The checks look at the cell in the statement, under its name. -/
def Seen (ctx : BodyCtx) (op : Op) (r : ResourceId) : Prop :=
  ∃ name ∈ protectedVarAccesses op ctx.env, ctx.nameToResource name = some r

/-- A cell that an expression of the statement reads. -/
theorem seen_of_text {text : String} {e : LExpr} (hvar : ∀ n slot,
      valueSlot l ctx loc n = .ok slot → r ∈ slot.cells →
        n ∈ Expr.collectNames ctx.env (.name n) ∧ ctx.nameToResource n = some r)
    (htext : text ∈ op.rvalueExprs) (he : lowerText l ctx loc text = .ok e) (hr : r ∈ e.cells) :
    Seen ctx op r := by
  rw [lowerText] at he
  split at he
  · rename_i parsed hparsed
    obtain ⟨name, hname, hres⟩ := collected_of_cells hvar parsed e he hr
    refine ⟨name, List.mem_append_left _ (List.mem_append_right _ ?_), hres⟩
    refine List.mem_flatMap.mpr ⟨text, htext, ?_⟩
    rw [show Expr.parseText ctx.env text = _ from hparsed]
    exact hname
  · cases he

/-- A cell that the statement writes. -/
theorem seen_of_write {dst : String} {d : SlotRef} (hd : writableSlot l ctx loc dst = .ok d)
    (hr : r ∈ d.cells) (hdst : wr dst ⊆ dstWrites op) : Seen ctx op r := by
  obtain ⟨hmem, hname⟩ := shared_of_writableSlot hd hr
  exact ⟨dst, List.mem_append_right _ (hdst hmem), hname⟩

theorem seen_of_dst {dst : Option String} {d : Option SlotRef} (hd : lowerDst l ctx loc dst = .ok d)
    (hr : r ∈ d.toList.flatMap (·.cells)) (hdst : ∀ name, dst = some name → wr name ⊆ dstWrites op) :
    Seen ctx op r := by
  cases dst with
  | none =>
      obtain rfl := Except.ok.inj hd
      cases hr
  | some name =>
      obtain ⟨slot, hslot, hd⟩ := bind_eq_ok.mp hd
      obtain rfl := Except.ok.inj hd
      obtain ⟨slot', hmem, hwritten⟩ := List.mem_flatMap.mp hr
      obtain rfl := List.mem_singleton.mp hmem
      exact seen_of_write hslot hwritten (hdst name rfl)

/-- The Var that the statement is about. -/
theorem seen_of_shared {name : String} (hop : op.sharedVarAccess = some name)
    (hname : ctx.nameToResource name = some r) : Seen ctx op r := by
  refine ⟨name, List.mem_append_left _ (List.mem_append_left _ (List.mem_append_left _
    (List.mem_append_left _ ?_))), hname⟩
  rw [hop]
  exact List.mem_singleton_self name

/-- A Var that a lowered statement reads or writes is one of those that the checks look at in the
statement of the source. -/
theorem seen_of_accesses (hN : NamesClean p)
    (hdiscard : ∀ m ∈ p.modules, ∀ rs ∈ m.resources, rs.name ≠ "_")
    (hres : lowerResources p = .ok res) (hlike : Like p res l) (hm : p.modules[mid]? = some m)
    (hkind : kindOf l r = some .var) (h : LowOp l (bodyCtx p l m f mid slots) loc op o)
    (hr : r ∈ o.accesses) : Seen (bodyCtx p l m f mid slots) op r := by
  have hvalue : ∀ n slot, valueSlot l (bodyCtx p l m f mid slots) loc n = .ok slot →
      r ∈ slot.cells → n ∈ Expr.collectNames (NameEnv.build p m f) (.name n) ∧
        (bodyCtx p l m f mid slots).nameToResource n = some r := by
    intro n slot hslot hcells
    obtain ⟨⟨s, hs, hk⟩, hname⟩ := named_of_valueSlot hN hdiscard hres hlike hm hkind hslot hcells
    refine ⟨?_, hname⟩
    rw [Expr.collectNames, hs]
    simp [hk]
  cases h with
  | assignLocal ht he => exact seen_of_text hvalue (List.mem_singleton_self _) he hr
  | readShared hname hd =>
      rcases List.mem_cons.mp hr with rfl | hr
      · exact seen_of_shared rfl hname.1
      · refine seen_of_dst hd hr fun name hdst ↦ ?_
        subst hdst
        exact List.Subset.refl _
  | writeShared hname he =>
      rcases List.mem_cons.mp hr with rfl | hr
      · exact seen_of_shared rfl hname.1
      · exact seen_of_text hvalue (List.mem_singleton_self _) he hr
  | atomicLoad hname hd => exact seen_of_write hd hr (List.Subset.refl _)
  | atomicStore hname he => exact seen_of_text hvalue (List.mem_singleton_self _) he hr
  | atomicCas hname he he' hd =>
      rcases List.mem_append.mp hr with hr | hr
      · rcases List.mem_append.mp hr with hr | hr
        · exact seen_of_text hvalue List.mem_cons_self he hr
        · exact seen_of_text hvalue (List.mem_cons_of_mem _ (List.mem_singleton_self _)) he' hr
      · exact seen_of_write hd hr (List.Subset.refl _)
  | channelSend hname he => exact seen_of_text hvalue (List.mem_singleton_self _) he hr
  | channelRecv hname hd => exact seen_of_write hd hr (List.Subset.refl _)
  | func hg hxs hd =>
      rcases List.mem_append.mp hr with hr | hr
      · obtain ⟨x, hx, hr⟩ := List.mem_flatMap.mp hr
        obtain ⟨text, htext, hlow⟩ := exists_of_lowerArgs hxs hx
        exact seen_of_text hvalue htext hlow hr
      · refine seen_of_dst hd hr fun name hdst ↦ ?_
        subst hdst
        exact List.Subset.refl _
  | branch hc hi hj => exact seen_of_text hvalue (List.mem_singleton_self _) hc hr
  | @switch var cs d slot cases' i hvar hcs hi =>
      have hcells : r ∈ slot.cells := by
        cases slot with
        | shared r' => exact hr
        | _ => cases hr
      obtain ⟨⟨s, hs, hk⟩, hname⟩ := named_of_valueSlot hN hdiscard hres hlike hm hkind hvar hcells
      refine ⟨var, List.mem_append_left _ (List.mem_append_left _ (List.mem_append_right _ ?_)),
        hname⟩
      change var ∈ if ((NameEnv.build p m f).get var).any (·.kind = .var) then [var] else []
      simp [hs, hk]
  | @ret value e hv he =>
      cases value with
      | none =>
          obtain rfl := he rfl
          cases hr
      | some text =>
          obtain ⟨x, hx, hlow⟩ := hv text rfl
          obtain rfl := Option.mem_def.mp hx
          obtain ⟨y, hy, hread⟩ := List.mem_flatMap.mp hr
          obtain rfl := List.mem_singleton.mp hy
          exact seen_of_text hvalue (List.mem_singleton_self _) hlow hread
  | _ => cases hr

end Statements

end Lower

end ConcIR
