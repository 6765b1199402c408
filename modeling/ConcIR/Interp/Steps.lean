import ConcIR.Machine.Channels
import ConcIR.Interp.Labels

/-!
# The interpreter takes elementary steps

Every step the interpreter offers in a well-formed state is a step of the machine,
statement by statement.
-/

namespace ConcIR

open MachineState

variable {E : Engine} {σ τ : MachineState} {x y : ThreadId} {t : ThreadState}
  {f : FrameId} {fr : Frame} {op : SemOp}

namespace Engine

@[simp] theorem offers_one {σ' : MachineState} : Offers (E.one x f fr σ') τ ↔ τ = σ' := by
  simp [one, Enabled.single, eq_comm]

@[simp] theorem offers_many {σs : List MachineState} :
    Offers (E.many x f fr σs) τ ↔ τ ∈ σs := by
  simp [many]

@[simp] theorem offers_oneOf {o : Option MachineState} :
    Offers (E.oneOf x f fr o) τ ↔ o = some τ := by
  cases o <;> simp [oneOf, eq_comm]

@[simp] theorem offers_fail {code message : String} :
    ¬ Offers (E.fail fr code message) τ := by
  simp [fail]

end Engine

section Lookups

variable {P : SemProgram} (hw : Wf P σ)

theorem MachineState.views_of_channel {c : ResourceId} {ch : ChannelState}
    (h : σ.store.channels[c]? = some ch) :
    σ.sends c = ch.pendingSend ∧ σ.recvs c = ch.pendingRecv ∧ σ.buffer c = ch.buffer := by
  simp [sends, recvs, buffer, h]

theorem Top.recvDstOf (top : Top σ x t f fr) {c : ResourceId} {dst : SlotRef}
    (hop : E.program.opAt fr.function fr.pc = some (.channelRecv c dst)) :
    E.recvDstOf σ x = some dst := by
  rw [Engine.recvDstOf, top.currentFrame, Option.bind_some, hop]

/-- The destination of a waiting receiver. -/
theorem Wf.receiver {σ : MachineState} (hw : Wf E.program σ) {c : ResourceId}
    (hy : y ∈ σ.recvs c) : ∃ u g gr dst, Top σ y u g gr ∧
      E.program.opAt gr.function gr.pc = some (.channelRecv c dst) ∧
        ∀ v, E.deliverToRecv σ y v = E.tryWriteDst σ g dst v := by
  obtain ⟨u, g, gr, op, top, -, hop, dst, rfl⟩ := hw.blocked_thread (hw.mem_recvs c hy)
  refine ⟨u, g, gr, dst, top, hop, fun v ↦ ?_⟩
  rw [Engine.deliverToRecv, top.recvDstOf hop, top.currentFrameId]

include hw

theorem Wf.semaphore {r : ResourceId} (h : hasKind P.resources r .semaphore = true) :
    ∃ k, σ.store.semaphores[r]? = some k := by
  rw [← hw.stores.semaphores, Std.ExtTreeMap.contains_eq_isSome_getElem?,
    Option.isSome_iff_exists] at h
  exact h

end Lookups

section Statements

variable [FloatArith]

theorem executes_send (hw : Wf E.program σ) {c : ResourceId} {e : LExpr} {v : Value}
    (he : E.evalIn σ fr e = .ok v) (h : Offers (E.stepSend σ x f fr c v) τ) :
    Executes E σ x t f fr (.channelSend c e) τ := by
  rw [Engine.stepSend] at h
  by_cases hok : E.resourceTypeOk c v = true
  swap
  · simp [hok] at h
  simp only [hok, Bool.not_true, Bool.false_eq_true, if_false] at h
  cases hch : σ.store.channels[c]? with
  | none => simp [hch] at h
  | some ch =>
      obtain ⟨hse, hre, hbu⟩ := views_of_channel hch
      simp only [hch] at h
      split_ifs at h with hcap hnil hlt
      · obtain rfl := Engine.offers_one.mp h
        refine .block (.send c e v he hok (fun _ ↦ by rw [hre, hnil]) ?_)
        rw [hcap]
        exact Nat.zero_le _
      · obtain ⟨y, hy, hmap⟩ := List.mem_filterMap.mp (Engine.offers_many.mp h)
        obtain ⟨σ₁, hd, rfl⟩ := Option.map_eq_some_iff.mp hmap
        rw [← hre] at hy
        obtain ⟨u, g, gr, dst, topy, hopy, hdel⟩ := hw.receiver hy
        exact .pair (.send c e v y u g gr dst σ₁ he hok hcap hy topy hopy (by rwa [← hdel]))
      · obtain rfl := Engine.offers_one.mp h
        exact .done (.send c e v he hok hcap (by rwa [hbu]))
      · obtain rfl := Engine.offers_one.mp h
        refine .block (.send c e v he hok (fun h ↦ absurd h hcap) ?_)
        rw [hbu]
        exact Nat.le_of_not_lt hlt

theorem executes_recv (hw : Wf E.program σ) (top : Top σ x t f fr) {c : ResourceId}
    {dst : SlotRef} (hop : E.program.opAt fr.function fr.pc = some (.channelRecv c dst))
    (h : Offers (E.stepRecv σ x f fr c) τ) : Executes E σ x t f fr (.channelRecv c dst) τ := by
  rw [Engine.stepRecv] at h
  cases hch : σ.store.channels[c]? with
  | none => simp [hch] at h
  | some ch =>
      obtain ⟨hse, hre, hbu⟩ := views_of_channel hch
      simp only [hch, top.recvDstOf hop, Option.getD_some] at h
      split_ifs at h with hcap hnil
      · obtain rfl := Engine.offers_one.mp h
        have hempty : σ.buffer c = [] := by
          have := hw.stores.capacity c
          rw [hcap] at this
          exact List.length_eq_zero_iff.mp (Nat.le_zero.mp this)
        exact .block (.recv c dst (fun _ ↦ by rw [hse, hnil]) hempty)
      · obtain ⟨p, hp, hmap⟩ := List.mem_filterMap.mp (Engine.offers_many.mp h)
        obtain ⟨σ₁, hd, rfl⟩ := Option.map_eq_some_iff.mp hmap
        rw [← hse] at hp
        exact .pair (.recv c dst p σ₁ hcap hp hd)
      · split at h
        case _ v vs hb =>
          obtain ⟨σ₁, hd, rfl⟩ := Option.map_eq_some_iff.mp (Engine.offers_oneOf.mp h)
          exact .done (.recv c dst v vs σ₁ hcap (by rw [hbu, hb]) hd)
        case _ hb =>
          obtain rfl := Engine.offers_one.mp h
          exact .block (.recv c dst (fun h ↦ absurd h hcap) (by rw [hbu, hb]))

theorem executes_notify {cv : ResourceId} (h : Offers (E.stepNotify σ x f fr cv) τ) :
    Executes E σ x t f fr (.condvarNotify cv) τ := by
  change Offers (if σ.waiters cv = [] then _ else E.many x f fr ((σ.waiters cv).map _)) τ at h
  split_ifs at h with hnil
  · obtain rfl := Engine.offers_one.mp h
    exact .done (.notifyMiss cv hnil)
  · obtain ⟨w, hmem, rfl⟩ := List.mem_map.mp (Engine.offers_many.mp h)
    exact .pair (.notify cv w hmem)

theorem executes_notifyAll {cv : ResourceId} (h : Offers (E.stepNotifyAll σ x f fr cv) τ) :
    Executes E σ x t f fr (.condvarNotifyAll cv) τ := by
  rw [Engine.stepNotifyAll] at h
  cases hcv : σ.store.condvars[cv]? with
  | none => simp [hcv] at h
  | some c =>
      simp only [hcv] at h
      obtain rfl := Engine.offers_one.mp h
      have hwa : c.waiters = σ.waiters cv := by simp [waiters, hcv]
      rw [hwa]
      exact .pair (.notifyAll cv)

theorem executes_call (top : Top σ x t f fr) {g : FunctionId} {args : List LExpr}
    {dst : Option SlotRef} (h : Offers (E.stepCall σ x f fr g args dst) τ) :
    Executes E σ x t f fr (.call g args dst) τ := by
  simp only [Engine.stepCall] at h
  by_cases htr : (E.function g).isTransparentNobody = true
  · rw [if_pos htr] at h
    obtain rfl := Engine.offers_one.mp h
    exact .done (.skipCall g args dst htr)
  · rw [if_neg htr, show σ.threads[x]? = some t from top.thread] at h
    split_ifs at h with hlim
    · simp at h
    · obtain ⟨values, hv, h⟩ := offers_bind.mp h
      split_ifs at h with hok
      · obtain rfl := Engine.offers_one.mp h
        exact .create (.call g args dst values (Nat.lt_of_not_le hlim) hv hok)
      · simp at h

theorem executes_spawn {g : FunctionId} {handle : String}
    (h : Offers (E.stepSpawn σ x f fr g handle) τ) :
    Executes E σ x t f fr (.spawn g handle) τ := by
  rw [Engine.stepSpawn] at h
  split_ifs at h with hbad
  · simp at h
  have hb : E.withinFunctionBound σ g = true := by simpa using hbad
  cases hc : E.createThread σ g none with
  | none => simp [hc] at h
  | some p =>
      obtain ⟨child, σ₁⟩ := p
      simp only [hc] at h
      obtain rfl := Engine.offers_one.mp h
      exact .create (.spawn g handle child σ₁ hb hc)

theorem executes_scope {gs : List FunctionId} (h : Offers (E.stepScope σ x f fr gs) τ) :
    Executes E σ x t f fr (.scope gs) τ := by
  rw [Engine.stepScope] at h
  split_ifs at h with hne hbad
  · simp at h
  · simp at h
  · have hb : gs.all (E.withinFunctionBound σ) = true := by simpa using hbad
    simp only at h
    split at h
    case _ => simp at h
    case _ σ₁ remaining hc =>
      split_ifs at h with hr
      · obtain rfl := Engine.offers_one.mp h
        rw [Std.ExtTreeSet.isEmpty_iff] at hr
        subst hr
        exact .create (.scopeDone gs σ₁ hne hb hc)
      · obtain rfl := Engine.offers_one.mp h
        rw [Std.ExtTreeSet.isEmpty_iff] at hr
        exact .create (.scope gs σ₁ remaining hne hb hc hr)

theorem executes_join (top : Top σ x t f fr) {name : String}
    (h : Offers (E.stepJoin σ x f fr name) τ) : Executes E σ x t f fr (.join name) τ := by
  rw [Engine.stepJoin] at h
  cases hh : fr.handles[name]? with
  | none => simp [hh] at h
  | some k =>
      simp only [hh, show σ.threads[x]? = some t from top.thread, Option.bind_some] at h
      cases hc : t.handleChildren[k]? with
      | none => simp [hc] at h
      | some c =>
          simp only [hc] at h
          split_ifs at h with hf
          · obtain rfl := Engine.offers_one.mp h
            exact .create (.join name k c hh hc hf)
          · obtain rfl := Engine.offers_one.mp h
            exact .block (.join name k t c hh top.thread hc hf)

omit [FloatArith] in
theorem switchTo_of_target {cases : BTreeMap String ℕ} {default target : ℕ} {v : Value}
    (h : E.switchTarget fr cases default v = .ok target) :
    SwitchTo cases default v target := by
  cases v with
  | enum e =>
      obtain rfl := Except.ok.inj h
      cases hc : cases[e]? with
      | some target => exact .case e target hc (decide_eq_true rfl)
      | none =>
          refine .default fun label hl ↦ decide_eq_false fun he ↦ ?_
          rw [Std.ExtTreeMap.mem_iff_isSome_getElem?, ← he, hc] at hl
          cases hl
  | int i =>
      obtain rfl := Except.ok.inj h
      cases hc : cases.toList.findSome? fun p ↦
          if parseI64 p.1 = some i then some p.2 else none with
      | some target =>
          obtain ⟨⟨label, target'⟩, hmem, hp⟩ := List.exists_of_findSome?_eq_some hc
          split_ifs at hp with hparse
          obtain rfl := Option.some.inj hp
          exact .case label target' (Std.ExtTreeMap.mem_toList_iff_getElem?_eq_some.mp hmem)
            (decide_eq_true hparse)
      | none =>
          refine .default fun label hl ↦ decide_eq_false fun hparse ↦ ?_
          rw [Std.ExtTreeMap.mem_iff_isSome_getElem?, Option.isSome_iff_exists] at hl
          obtain ⟨target, hl⟩ := hl
          have := List.findSome?_eq_none_iff.mp hc (label, target)
            (Std.ExtTreeMap.mem_toList_iff_getElem?_eq_some.mpr hl)
          simp [hparse] at this
  | _ => cases h

theorem executes_of_offers (hw : Wf E.program σ) (top : Top σ x t f fr)
    (hop : E.program.opAt fr.function fr.pc = some op) (h : Offers (E.stepOp σ x f fr op) τ) :
    Executes E σ x t f fr op τ := by
  have hok := SemProgram.opAt_ok hop
  cases op with
  | nop =>
      obtain rfl := Engine.offers_one.mp h
      exact .done .nop
  | assignLocal target e =>
      obtain ⟨v, hv, h⟩ := offers_bind.mp h
      split_ifs at h with hokv
      · obtain rfl := Engine.offers_one.mp h
        exact .done (.assign target e v hv hokv)
      · simp at h
  | readShared r dst =>
      simp only [Engine.stepOp] at h
      cases hv : σ.store.readShared r with
      | none => simp [hv] at h
      | some v =>
          rw [hv] at h
          obtain ⟨σ₁, hd, rfl⟩ := Option.map_eq_some_iff.mp (Engine.offers_oneOf.mp h)
          exact .done (.read r dst v σ₁ hv hd)
  | writeShared r e =>
      obtain ⟨v, hv, h⟩ := offers_bind.mp h
      split_ifs at h with hokv
      · obtain rfl := Engine.offers_one.mp h
        exact .done (.write r e v hv hokv)
      · simp at h
  | atomicLoad r dst =>
      simp only [Engine.stepOp] at h
      cases hv : σ.store.atomics[r]? with
      | none => simp [hv] at h
      | some v =>
          rw [hv] at h
          obtain ⟨σ₁, hd, rfl⟩ := Option.map_eq_some_iff.mp (Engine.offers_oneOf.mp h)
          exact .done (.load r dst v σ₁ hv hd)
  | atomicStore r e =>
      obtain ⟨v, hv, h⟩ := offers_bind.mp h
      split_ifs at h with hokv
      · obtain rfl := Engine.offers_one.mp h
        exact .done (.store r e v hv hokv)
      · simp at h
  | atomicCas r e d dst =>
      obtain ⟨exp, he, h⟩ := offers_bind.mp h
      obtain ⟨des, hd, h⟩ := offers_bind.mp h
      split_ifs at h with hokv
      · cases hv : σ.store.atomics[r]? with
        | none => simp [hv] at h
        | some old =>
            rw [hv] at h
            obtain ⟨σ₁, hwr, rfl⟩ := Option.map_eq_some_iff.mp (Engine.offers_oneOf.mp h)
            exact .done (.cas r e d dst exp des old σ₁ he hd hokv hv hwr)
      · simp at h
  | mutexLock r =>
      simp only [Engine.stepOp] at h
      split_ifs at h with hm
      · obtain rfl := Engine.offers_one.mp h
        exact .done (.lock r hm)
      · obtain rfl := Engine.offers_one.mp h
        exact .block (.lock r hm)
  | mutexUnlock r =>
      simp only [Engine.stepOp] at h
      split at h
      case _ owner hm =>
        split_ifs at h with ho
        · obtain rfl := Engine.offers_one.mp h
          exact .done (.unlock r (ho ▸ hm))
        · simp at h
      case _ => simp at h
  | channelSend c e =>
      obtain ⟨v, hv, h⟩ := offers_bind.mp h
      exact executes_send hw hv h
  | channelRecv c dst => exact executes_recv hw top hop h
  | condvarWait cv lk =>
      simp only [Engine.stepOp] at h
      split_ifs at h with hm hc
      · obtain rfl := Engine.offers_one.mp h
        exact .block (.wait cv lk hm)
      · simp at h
      · simp at h
  | condvarNotify cv => exact executes_notify h
  | condvarNotifyAll cv => exact executes_notifyAll h
  | semaphoreAcquire r n =>
      obtain ⟨k, hk⟩ := hw.semaphore hok
      simp only [Engine.stepOp, hk, Option.getD_some] at h
      split_ifs at h with hn hle
      · simp at h
      · obtain rfl := Engine.offers_one.mp h
        exact .done (.acquire r n k (lt_of_not_ge hn) hk hle)
      · obtain rfl := Engine.offers_one.mp h
        exact .block (.acquire r n k (lt_of_not_ge hn) hk (lt_of_not_ge hle))
  | semaphoreRelease r n =>
      obtain ⟨k, hk⟩ := hw.semaphore hok
      simp only [Engine.stepOp, hk, Option.getD_some] at h
      split_ifs at h with hn
      · simp at h
      · cases hm : checkedI64 (k + n) with
        | none => simp [hm] at h
        | some m =>
            simp only [hm] at h
            obtain rfl := Engine.offers_one.mp h
            exact .done (.release r n k m (lt_of_not_ge hn) hk hm)
  | call g args dst => exact executes_call top h
  | spawn g handle => exact executes_spawn h
  | scope gs => exact executes_scope h
  | join name => exact executes_join top h
  | goto target =>
      obtain rfl := Engine.offers_one.mp h
      exact .done (.goto target)
  | branch c th el =>
      obtain ⟨v, hv, h⟩ := offers_bind.mp h
      cases v with
      | bool b =>
          obtain rfl := Engine.offers_one.mp h
          exact .done (.branch c th el b hv)
      | _ => simp [Value.asBool] at h
  | switch e cases default =>
      obtain ⟨v, hv, h⟩ := offers_bind.mp h
      obtain ⟨target, ht, h⟩ := offers_bind.mp h
      obtain rfl := Engine.offers_one.mp h
      exact .done (.switch e cases default v target hv (switchTo_of_target ht))
  | «return» e =>
      cases e with
      | none => exact .ret rfl .none (Engine.offers_oneOf.mp h)
      | some e =>
          obtain ⟨v, hv, h⟩ := offers_bind.mp h
          exact .ret rfl (.some e v hv) (Engine.offers_oneOf.mp h)
  | unsupported c => simp [Engine.stepOp] at h

end Statements

section Resumption

theorem MachineState.removeSend_eq_dropSend {c : ResourceId}
    (hnd : ((σ.sends c).map (·.thread)).Nodup) : σ.removeSend c x = σ.dropSend c x := by
  have hfilter : ∀ l : List PendingSend, (l.map (·.thread)).Nodup →
      l.eraseP (·.thread = x) = l.filter (·.thread ≠ x) := by
    intro l hl
    induction l with
    | nil => rfl
    | cons p l ih =>
        rw [List.map_cons, List.nodup_cons] at hl
        by_cases hp : p.thread = x
        · have hno : ∀ q ∈ l, q.thread ≠ x := fun q hq he ↦
            hl.1 (List.mem_map.mpr ⟨q, hq, he.trans hp.symm⟩)
          rw [List.eraseP_cons_of_pos (by simpa using hp),
            List.filter_cons_of_neg (by simpa using hp), List.filter_eq_self.mpr]
          simpa using hno
        · rw [List.eraseP_cons_of_neg (by simpa using hp),
            List.filter_cons_of_pos (by simpa using hp), ih hl.2]
  have hch : (σ.store.channels.modify c fun ch ↦
      { ch with pendingSend := ch.pendingSend.eraseP (·.thread = x) }) =
      σ.store.channels.modify c fun ch ↦
        { ch with pendingSend := ch.pendingSend.filter (·.thread ≠ x) } := by
    ext1 d
    rw [Std.ExtTreeMap.getElem?_modify, Std.ExtTreeMap.getElem?_modify]
    split_ifs with hd
    · cases hc : σ.store.channels[c]? with
      | none => rfl
      | some ch =>
          rw [(views_of_channel hc).1] at hnd
          simp only [Option.map_some, hfilter _ hnd]
    · rfl
  simp only [removeSend, dropSend, modifyChannel, hch]

theorem fires_resume {r : BlockReason} (hw : Wf E.program σ) (top : Top σ x t f fr)
    (hb : t.status = .blocked r) (h : Offers (E.resumeOp σ x f fr r) τ) :
    ∃ σ', Resumes E σ x f fr r σ' ∧ τ = Engine.complete σ' x := by
  have hx : σ.status x = some (.blocked r) := by rw [top.status, hb]
  cases r with
  | lock r =>
      simp only [Engine.resumeOp] at h
      split_ifs at h with hm
      · exact ⟨_, .lock r hm, Engine.offers_one.mp h⟩
      · simp at h
  | semaphore r =>
      simp only [Engine.resumeOp, Engine.resumeSemaphore] at h
      cases hq : ((σ.semWaiters[r]?).getD []).find? (·.1 = x) with
      | none => simp [hq] at h
      | some w =>
          obtain ⟨y, n⟩ := w
          obtain rfl : y = x := by simpa using List.find?_some hq
          obtain ⟨k, hk⟩ : ∃ k, σ.store.semaphores[r]? = some k := by
            obtain ⟨u, g, gr, op, top', -, hop, m, rfl, -⟩ := hw.blocked_thread hx
            exact hw.semaphore (SemProgram.opAt_ok hop)
          simp only [hq, hk, Option.getD_some] at h
          split_ifs at h with hlt
          · simp at h
          · exact ⟨_, .semaphore r n k (List.mem_of_find?_eq_some hq) hk (le_of_not_gt hlt),
              Engine.offers_one.mp h⟩
  | channelSend c =>
      simp only [Engine.resumeOp, Engine.resumeSend] at h
      cases hch : σ.store.channels[c]? with
      | none => simp [hch] at h
      | some ch =>
          obtain ⟨hse, hre, hbu⟩ := views_of_channel hch
          simp only [hch] at h
          cases hp : ch.pendingSend.find? (·.thread = x) with
          | none => simp [hp] at h
          | some p =>
              simp only [hp] at h
              have hmem := List.mem_of_find?_eq_some hp
              have hpx : p.thread = x := by simpa using List.find?_some hp
              rw [← hse] at hmem
              split_ifs at h with hcap hlt
              · -- A sender and a receiver are never both waiting at a rendezvous.
                rcases hw.stores.rendezvous c hcap with hnil | hnil
                · simp [hnil] at hmem
                · rw [hre] at hnil
                  simp [hnil] at h
              · rw [removeSend_eq_dropSend (hw.regs.sends_nodup c)] at h
                refine ⟨_, .send c p.value (hpx ▸ hmem) hcap (by rwa [hbu]),
                  Engine.offers_one.mp h⟩
              · simp at h
  | channelRecv c =>
      obtain ⟨u, g, gr, op, top', -, hop, dst, rfl⟩ := hw.blocked_thread hx
      obtain rfl : t = u := Option.some.inj (top.thread.symm.trans top'.thread)
      obtain rfl : f = g := Option.some.inj (top.head.symm.trans top'.head)
      obtain rfl : fr = gr := Option.some.inj (top.frame.symm.trans top'.frame)
      simp only [Engine.resumeOp, Engine.resumeRecv] at h
      cases hch : σ.store.channels[c]? with
      | none => simp [hch] at h
      | some ch =>
          obtain ⟨hse, hre, hbu⟩ := views_of_channel hch
          have hmem : x ∈ σ.recvs c := (hw.regs.iff x (.channelRecv c) rfl).mpr hx
          simp only [hch, top.recvDstOf hop, Option.getD_some] at h
          split_ifs at h with hcap
          · rcases hw.stores.rendezvous c hcap with hnil | hnil
            · rw [hse] at hnil
              simp [hnil] at h
            · simp [hnil] at hmem
          · split at h
            case _ => simp at h
            case _ v vs hb' =>
              obtain ⟨σ₁, hd, rfl⟩ := Option.map_eq_some_iff.mp (Engine.offers_oneOf.mp h)
              exact ⟨_, .recv c dst v vs σ₁ hop hcap (by rw [hbu, hb']) hd, rfl⟩
  | _ => simp [Engine.resumeOp] at h

end Resumption

section Labels

/-- Every offered step is one of thread `x`. -/
def OffersOf (x : ThreadId) (r : BackendResult (Enabled MachineState)) : Prop :=
  ∀ en, r = .ok en → ∀ st ∈ en.steps, st.label.thread = some x

end Labels

section Successors

variable [FloatArith]

omit [FloatArith] in
theorem top_of_running {f : FrameId} {fr : Frame}
    (h : Engine.running σ x = .ok (f, fr)) : ∃ t, Top σ x t f fr := by
  rw [Engine.running] at h
  cases hf : σ.currentFrameId x with
  | none => simp [hf] at h
  | some g =>
      rw [hf] at h
      simp only at h
      split at h
      case _ => cases h
      case _ gr hg =>
        obtain ⟨rfl, rfl⟩ := Prod.mk.inj (Except.ok.inj h)
        rw [MachineState.currentFrameId, Option.bind_eq_some_iff] at hf
        obtain ⟨t, ht, hhead⟩ := hf
        exact ⟨t, ht, hhead, hg⟩

theorem fires_of_threadSteps (hw : Wf E.program σ) (hx : σ.HasThread x t)
    (h : Offers (E.threadSteps σ x t) τ) : Fires E x σ τ := by
  rw [Engine.threadSteps] at h
  cases hst : t.status with
  | finished => simp [hst] at h
  | runnable =>
      simp only [hst, Engine.stepThread] at h
      obtain ⟨⟨f, fr⟩, hr, h⟩ := offers_bind.mp h
      obtain ⟨u, top⟩ := top_of_running hr
      obtain rfl : t = u := Option.some.inj (hx.symm.trans top.thread)
      cases hop : E.program.opAt fr.function fr.pc with
      | none =>
          simp only [hop] at h
          exact .endOfBody top hst hop (Engine.offers_oneOf.mp h)
      | some op =>
          simp only [hop] at h
          have top₁ : Top (σ.markReached fr.function fr.pc) x t f fr :=
            ⟨top.thread, top.head, top.frame⟩
          exact .exec top hst hop
            (executes_of_offers (hw.quiet (quiet_markReached _ _)) top₁ hop h)
  | blocked r =>
      simp only [hst, Engine.resumeThread] at h
      obtain ⟨⟨f, fr⟩, hr, h⟩ := offers_bind.mp h
      obtain ⟨u, top⟩ := top_of_running hr
      obtain rfl : t = u := Option.some.inj (hx.symm.trans top.thread)
      obtain ⟨σ', hre, rfl⟩ := fires_resume hw top hst h
      exact .resume top hst hre

theorem Engine.mem_allSteps {σ : MachineState} {ts : List (ThreadId × ThreadState)}
    {en : Enabled MachineState} (h : E.allSteps σ ts = .ok en) {st : Step MachineState}
    (hst : st ∈ en.steps) : ∃ p ∈ ts, ∃ en', E.threadSteps σ p.1 p.2 = .ok en' ∧
      st ∈ en'.steps := by
  induction ts generalizing en with
  | nil =>
      obtain rfl := Except.ok.inj h
      cases hst
  | cons p ts ih =>
      obtain ⟨en₁, h₁, h⟩ := bind_eq_ok.mp h
      obtain ⟨en₂, h₂, h⟩ := bind_eq_ok.mp h
      obtain rfl := Except.ok.inj h
      rcases List.mem_append.mp hst with hst | hst
      · exact ⟨p, List.mem_cons_self, en₁, h₁, hst⟩
      · obtain ⟨q, hq, hrest⟩ := ih h₂ hst
        exact ⟨q, List.mem_cons_of_mem _ hq, hrest⟩

theorem fires_of_next (hw : Wf E.program σ) (h : E.interpreter.Next σ τ) :
    ∃ x, Fires E x σ τ := by
  obtain ⟨en, hen, st, hst, rfl⟩ := h
  obtain ⟨⟨x, t⟩, hmem, en', hen', hst'⟩ := Engine.mem_allSteps hen hst
  exact ⟨x, fires_of_threadSteps hw (Std.ExtTreeMap.mem_toList_iff_getElem?_eq_some.mp hmem)
    ⟨en', hen', st, hst', rfl⟩⟩

theorem offersOf_threadSteps (t : ThreadState) : OffersOf x (E.threadSteps σ x t) := by
  intro en hen st hst
  obtain ⟨f, fr, -, hl⟩ := threadSteps_label hen hst
  rw [hl]
  rfl

/-- A step is labelled with the statement its thread stands at. -/
theorem successors_label {en : Enabled MachineState} (h : E.successors σ = .ok en)
    {st : Step MachineState} (hst : st ∈ en.steps) :
    ∃ x f fr, σ.currentFrame x = some fr ∧ st.label = E.stepLabel fr x f := by
  obtain ⟨⟨x, t⟩, -, en', hen', hst'⟩ := Engine.mem_allSteps h hst
  exact ⟨x, threadSteps_label hen' hst'⟩

theorem fires_of_takes (hw : Wf E.program σ) (h : E.interpreter.Takes σ x τ) :
    Fires E x σ τ := by
  obtain ⟨en, hen, st, hst, hx, rfl⟩ := h
  obtain ⟨⟨y, t⟩, hmem, en', hen', hst'⟩ := Engine.mem_allSteps hen hst
  obtain rfl : y = x := Option.some.inj ((offersOf_threadSteps t en' hen' st hst').symm.trans hx)
  exact fires_of_threadSteps hw (Std.ExtTreeMap.mem_toList_iff_getElem?_eq_some.mp hmem)
    ⟨en', hen', st, hst', rfl⟩

/-- Every reachable state is the end of a run. -/
theorem exists_run (h : E.interpreter.Reachable σ) : ∃ es, E.interpreter.Run es σ := by
  refine h.invariant (P := fun σ ↦ ∃ es, E.interpreter.Run es σ) (fun s hs ↦ ⟨[], .start hs⟩) ?_
  rintro s _ ⟨es, hes⟩ ⟨en, hen, st, hst, rfl⟩
  obtain ⟨⟨x, t⟩, -, en', hen', hst'⟩ := Engine.mem_allSteps hen hst
  exact ⟨_, hes.step ⟨en, hen, st, hst, offersOf_threadSteps t en' hen' st hst', rfl⟩⟩

/-- Every reachable state of the interpreter is well-formed and live. -/
theorem wf_of_reachable (h : E.interpreter.Reachable σ) : Wf E.program σ ∧ Live σ := by
  refine h.invariant (P := fun σ ↦ Wf E.program σ ∧ Live σ) (fun s hs ↦ wf_initial hs) ?_
  rintro s τ ⟨hw, hl⟩ hn
  obtain ⟨x, hf⟩ := fires_of_next hw hn
  exact hf.wf hw hl

end Successors

end ConcIR
