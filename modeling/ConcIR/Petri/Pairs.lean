import ConcIR.Petri.Agree

/-!
# Both engines agree on the statements of two threads

Rendezvous and notification move a waiting thread along with the one that takes the step.
-/

namespace ConcIR

open MachineState

namespace Petri

variable {E : Engine} {P : SemProgram} {out : Set ThreadId} {σ σ' σ₁ : MachineState}
  {m m' m₁ : NetState} {x y : ThreadId} {t u : ThreadState} {f g : FrameId} {fr gr : Frame}
  {r c : ResourceId} {v : Value} {dst : SlotRef} {qs : List (BackendResult Fired)}
  {op : SemOp} {tok : NetToken}

section Pairs

theorem Agrees.many {σs : List MachineState} (hfail : ∀ q ∈ qs, ¬ Fails q)
    (hoffer : ∀ σ' ∈ σs, ∃ m', fired m' ∈ qs ∧ Corr P ∅ σ' m')
    (htake : ∀ m' bs, .ok ⟨some m', bs⟩ ∈ qs → ∃ σ' ∈ σs, Corr P ∅ σ' m') :
    Agrees P (E.many x f fr σs) qs where
  fails := ⟨fun h ↦ absurd h (not_fails_ok _), fun ⟨q, hq, hf⟩ ↦ absurd hf (hfail q hq)⟩
  offered := by
    intro σ' h
    obtain ⟨m', hm, hc⟩ := hoffer σ' (Engine.offers_many.mp h)
    exact ⟨m', [], hm, hc⟩
  taken := by
    intro _ m' bs hq
    obtain ⟨σ', hσ, hc⟩ := htake m' bs hq
    exact ⟨σ', Engine.offers_many.mpr hσ, hc⟩

/-- A waiting partner goes on, and then the thread itself. -/
theorem Corr.handshake (h : Corr E.program (insert y (insert x ∅)) σ₁ m₁) (hxy : y ≠ x)
    (top : Top σ x t f fr) (hrun : t.status = .runnable) (topy : Top σ y u g gr)
    (hop : E.program.opAt gr.function gr.pc = some op) (hgt : g ∉ t.stack)
    (hx : spot σ₁ x = spot σ x) (hy : spot σ₁ y = spot σ y) {tr : Transition}
    (htr : tr.next = some (.control fr.function (fr.pc + 1))) :
    ∃ m', (wakeControlNext E m₁ y g >>= fun m ↦ Petri.proceed tr m x f) = fired m' ∧
      Corr E.program ∅ ((Engine.complete σ₁ y).advance x) m' := by
  obtain ⟨u', gr', topy', -, hfn, hpc⟩ := top_of_spot_eq hy topy
  have hnext : hasPlace E (.control gr'.function (gr'.pc + 1)) = true := by
    rw [hfn, hpc]
    exact hasPlace_iff.mpr (control_mem_places (E.program.lt_of_opAt hop)
      (SemProgram.opAt_lt hop))
  have hwake : wakeControlNext E m₁ y g =
      .ok ((Petri.placeControl m₁ (.control gr'.function (gr'.pc + 1)) y g).unblock y) := by
    rw [wakeControlNext, h.records.frames, show σ₁.store.frames[g]? = some gr' from topy'.frame]
    simp only [hnext, if_true]
  have h₂ := h.complete (by simpa using hxy) topy'
  have hspot : spot (Engine.complete σ₁ y) x = spot σ x := by
    have hset : spot (σ₁.setRunnable y) x = spot σ₁ x := spot_setStatus_other hxy.symm _
    rw [Engine.complete, spot_advance_other (top_setRunnable topy'), hset, hx]
    intro t' ht' hg
    rw [HasThread, MachineState.setRunnable, setStatus, getElem?_modifyThread,
      if_neg hxy.symm] at ht'
    have := hx
    rw [spot_of_top top, spot, show σ₁.threads[x]? = some t' from ht'] at this
    simp only [Option.map_some, Option.some.injEq, Prod.mk.injEq] at this
    exact hgt (this.2.1 ▸ hg)
  rw [hwake]
  refine ⟨_, ?_, h₂.proceed (Set.notMem_empty x) top hrun hspot⟩
  change Petri.proceed tr _ x f = _
  rw [Petri.proceed, htr]

end Pairs

section Rendezvous

/-- The tokens of the waiting receivers. -/
theorem mem_channelRecv (h : Corr P out σ m) (hw : Wf P σ) (hout : ∀ y ∈ out, y ∉ σ.recvs c) :
    tok ∈ m.marking (.channelRecv c) ↔
      ∃ y u g gr, tok = .recvWait y g ∧ y ∈ σ.recvs c ∧ Top σ y u g gr := by
  rw [(h.seats _ rfl).2]
  constructor
  · rintro ⟨y, hy, hs⟩
    generalize hk : PlaceKey.channelRecv c = k at hs
    cases hs with
    | control top hrun => cases hk
    | @wait u g gr r _ top hb hwt =>
        cases hwt <;> cases hk
        exact ⟨y, u, g, gr, rfl, (hw.regs.iff y (.channelRecv c) rfl).mpr (by
          rw [top.status, hb]), top⟩
  · rintro ⟨y, u, g, gr, rfl, hy, top⟩
    have hb := hw.mem_recvs c hy
    rw [top.status] at hb
    exact ⟨y, fun hmem ↦ hout y hmem hy, .wait top (Option.some.inj hb) (.recv c)⟩

/-- The tokens of the waiting senders. -/
theorem mem_channelSend (h : Corr P out σ m) (hw : Wf P σ)
    (hout : ∀ p ∈ σ.sends c, p.thread ∉ out) :
    tok ∈ m.marking (.channelSend c) ↔ ∃ p ∈ σ.sends c, ∃ u g gr,
      tok = .sendWait p.thread g p.value ∧ Top σ p.thread u g gr := by
  rw [(h.seats _ rfl).2]
  constructor
  · rintro ⟨y, hy, hs⟩
    generalize hk : PlaceKey.channelSend c = k at hs
    cases hs with
    | control top hrun => cases hk
    | @wait u g gr r _ top hb hwt =>
        cases hwt with
        | send c' v hv =>
            cases hk
            exact ⟨_, hv, u, g, gr, rfl, top⟩
        | _ => cases hk
  · rintro ⟨p, hp, u, g, gr, rfl, top⟩
    have hb := hw.mem_sends c hp
    rw [top.status] at hb
    exact ⟨p.thread, hout p hp, .wait top (Option.some.inj hb) (.send c p.value hp)⟩

/-- A blocked thread leaves its place. -/
theorem Corr.takeWait (h : Corr P out σ m) (hw : Wf P σ) (hy : y ∉ out) (top : Top σ y u g gr)
    {r : BlockReason} (hb : u.status = .blocked r) (hr : ∀ s, r ≠ .scope s)
    (hwt : WaitToken σ y g r tok) :
    Corr P (insert y out) σ (m.takeToken (waitPlace gr.function gr.pc r) tok) := by
  have hs : Seat σ y (waitPlace gr.function gr.pc r) tok := .wait top hb hwt
  refine h.take hy hs (fun k' tok' hs' ↦ hs.unique hw.regs hs') (Wf.free hw top.thread fun s ↦ ?_)
  rw [hb]
  simpa using hr s

/-- What a match with another thread amounts to. -/
def Matches (P : SemProgram) (o : Option MachineState) (q : BackendResult Fired) : Prop :=
  match o with
  | none => q = disabled
  | some σ' => ∃ m', q = fired m' ∧ Corr P ∅ σ' m'

variable [FloatArith] (h : Corr E.program (insert x ∅) σ m) (hw : Wf E.program σ)
  (top : Top σ x t f fr) (hrun : t.status = .runnable)

include h hw top hrun

theorem matches_send {e : LExpr} {tr : Transition}
    (htr : tr.next = some (.control fr.function (fr.pc + 1)))
    (hop : E.program.opAt fr.function fr.pc = some (.channelSend c e))
    (he : E.evalIn σ fr e = .ok v) (hok : E.resourceTypeOk c v = true) (hy : y ∈ σ.recvs c)
    (topy : Top σ y u g gr) :
    Matches E.program ((E.deliverToRecv σ y v).map fun σ ↦
      (Engine.complete (σ.dropRecv c y) y).advance x)
      (fireSendPair tr m x f E fr c (some (.recvWait y g))) := by
  obtain ⟨u', g', gr', dst, topy', hopy, hdel⟩ := hw.receiver hy
  obtain ⟨rfl, rfl, rfl⟩ := top_unique topy topy'
  have hb : u.status = .blocked (.channelRecv c) := by
    have := hw.mem_recvs c hy
    rw [topy.status] at this
    exact Option.some.inj this
  have hxy : y ≠ x := by
    rintro rfl
    obtain ⟨rfl, -, -⟩ := top_unique top topy
    rw [hrun] at hb
    cases hb
  have hdst : dstOk E.program.resources dst = true := by
    have := SemProgram.opAt_ok hopy
    simp only [opOk, Bool.and_eq_true] at this
    exact this.2
  have hgt : g ∉ t.stack := fun hg ↦ hxy (hw.stack.disjoint y u x t g topy.thread top.thread
    topy.mem hg)
  have hmem : NetToken.recvWait y g ∈ m.marking (.channelRecv c) :=
    ((h.seats _ rfl).2 _).mpr ⟨y, by simpa using hxy, .wait topy hb (.recv c)⟩
  have h₁ : Corr E.program (insert y (insert x ∅)) σ
      (m.takeToken (.channelRecv c) (.recvWait y g)) :=
    h.takeWait hw (by simpa using hxy) topy hb (by simp) (.recv c)
  have hwrite := h₁.writeDst hw.stores hdst g v
  have hsend : sendValue m E fr "SendPair" = .ok v := by
    rw [sendValue, hop]
    exact (evalIn_eq h hw.stores fr e).trans he
  rw [fireSendPair, hsend, hdel]
  change Matches _ _ (if (!payloadOk E c v) = true then _ else _)
  rw [payloadOk, hok]
  simp only [Bool.not_true, Bool.false_eq_true, if_false, hmem, not_true_eq_false]
  rw [deliver_eq h₁ topy.frame hopy]
  cases ho : E.tryWriteDst σ g dst v with
  | none =>
      rw [ho] at hwrite
      rw [hwrite]
      rfl
  | some σ₁ =>
      rw [ho] at hwrite
      obtain ⟨m₁, hm₁, h₂⟩ := hwrite
      have hspot : ∀ z, spot σ₁ z = spot σ z := fun z ↦ spot_tryWriteDst ho
      rw [hm₁]
      exact (h₂.dropRecv c y).handshake hxy top hrun topy hopy hgt (hspot x) (hspot y) htr

omit [FloatArith] in
theorem matches_recv {p : PendingSend} {tr : Transition}
    (htr : tr.next = some (.control fr.function (fr.pc + 1)))
    (hop : E.program.opAt fr.function fr.pc = some (.channelRecv c dst)) (hp : p ∈ σ.sends c)
    (topy : Top σ p.thread u g gr) :
    Matches E.program ((E.tryWriteDst σ f dst p.value).map fun σ ↦
      (Engine.complete (σ.dropSend c p.thread) p.thread).advance x)
      (fireRecvPair tr m x f E c (some (.sendWait p.thread g p.value))) := by
  obtain ⟨u', g', gr', op, topy', hb, hopy, -⟩ := hw.blocked_thread (hw.mem_sends c hp)
  obtain ⟨rfl, rfl, rfl⟩ := top_unique topy topy'
  have hxy : p.thread ≠ x := by
    intro he
    rw [he] at topy
    obtain ⟨rfl, -, -⟩ := top_unique top topy
    rw [hrun] at hb
    cases hb
  have hdst : dstOk E.program.resources dst = true := by
    have := SemProgram.opAt_ok hop
    simp only [opOk, Bool.and_eq_true] at this
    exact this.2
  have hgt : g ∉ t.stack := fun hg ↦ hxy (hw.stack.disjoint _ u x t g topy.thread top.thread
    topy.mem hg)
  have hok : payloadOk E c p.value = true :=
    resourceTypeOk_iff.mpr fun ty hty ↦ hw.stores.payload c p ty hp hty
  have hmem : NetToken.sendWait p.thread g p.value ∈ m.marking (.channelSend c) :=
    ((h.seats _ rfl).2 _).mpr ⟨p.thread, by simpa using hxy, .wait topy hb (.send c p.value hp)⟩
  have h₁ : Corr E.program (insert p.thread (insert x ∅)) σ
      (m.takeToken (.channelSend c) (.sendWait p.thread g p.value)) :=
    h.takeWait hw (by simpa using hxy) topy hb (by simp) (.send c p.value hp)
  have hwrite := h₁.writeDst hw.stores hdst f p.value
  rw [fireRecvPair, hok]
  simp only [Bool.not_true, Bool.false_eq_true, if_false, hmem, not_true_eq_false]
  rw [deliver_eq h₁ top.frame hop]
  cases ho : E.tryWriteDst σ f dst p.value with
  | none =>
      rw [ho] at hwrite
      rw [hwrite]
      rfl
  | some σ₁ =>
      rw [ho] at hwrite
      obtain ⟨m₁, hm₁, h₂⟩ := hwrite
      have hspot : ∀ z, spot σ₁ z = spot σ z := fun z ↦ spot_tryWriteDst ho
      rw [hm₁]
      exact (h₂.dropSend (Set.mem_insert _ _) c).handshake hxy top hrun topy hopy hgt (hspot x)
        (hspot p.thread) htr

omit [FloatArith] h hw top hrun in
theorem Agrees.rotate {r : BackendResult (Enabled MachineState)} (h : Agrees P r (disabled :: qs)) :
    Agrees P r (qs ++ [disabled]) := h.pad (by simp [or_comm]) (by simp [or_comm])

omit [FloatArith] h hw top hrun in
/-- Any of the waiting partners may be matched. -/
theorem Agrees.matches {A : Type} {l : List A} {toks : List NetToken}
    {F : A → Option MachineState} {G : NetToken → BackendResult Fired}
    (hl : ∀ a ∈ l, ∃ tok ∈ toks, Matches P (F a) (G tok))
    (htoks : ∀ tok ∈ toks, ∃ a ∈ l, Matches P (F a) (G tok)) :
    Agrees P (E.many x f fr (l.filterMap F)) (disabled :: toks.map G) := by
  have hcases : ∀ tok ∈ toks, G tok = disabled ∨
      ∃ a ∈ l, ∃ σ' m', F a = some σ' ∧ G tok = fired m' ∧ Corr P ∅ σ' m' := by
    intro tok htok
    obtain ⟨a, ha, hm⟩ := htoks tok htok
    cases hF : F a with
    | none =>
        rw [hF] at hm
        exact .inl hm
    | some σ' =>
        rw [hF] at hm
        obtain ⟨m', hG, hc⟩ := hm
        exact .inr ⟨a, ha, σ', m', hF, hG, hc⟩
  refine .many (fun q hq ↦ ?_) (fun σ' hσ ↦ ?_) fun m' bs hq ↦ ?_
  · rcases List.mem_cons.mp hq with rfl | hq
    · exact not_fails_ok _
    · obtain ⟨tok, htok, rfl⟩ := List.mem_map.mp hq
      rcases hcases tok htok with hG | ⟨a, ha, σ', m', hF, hG, hc⟩ <;> rw [hG] <;>
        exact not_fails_ok _
  · obtain ⟨a, ha, hF⟩ := List.mem_filterMap.mp hσ
    obtain ⟨tok, htok, hm⟩ := hl a ha
    rw [hF] at hm
    obtain ⟨m', hG, hc⟩ := hm
    exact ⟨m', List.mem_cons_of_mem _ (List.mem_map.mpr ⟨tok, htok, hG⟩), hc⟩
  · rcases List.mem_cons.mp hq with hq | hq
    · cases hq
    · obtain ⟨tok, htok, hG⟩ := List.mem_map.mp hq
      rcases hcases tok htok with hG' | ⟨a, ha, σ', m'', hF, hG', hc⟩
      · rw [hG] at hG'
        cases hG'
      · rw [hG, fired, Except.ok.injEq, Fired.mk.injEq, Option.some.injEq] at hG'
        exact ⟨σ', List.mem_filterMap.mpr ⟨a, ha, hF⟩, hG'.1 ▸ hc⟩

omit [FloatArith] h in
/-- The thread that takes the step is entered in no table. -/
theorem not_entered (r : BlockReason) : ¬ σ.registered x r :=
  hw.not_registered (by rw [top.status, hrun]) (by simp) r

omit [FloatArith] in
theorem mem_recvToken : tok ∈ m.marking (.channelRecv c) ↔
    ∃ y u g gr, tok = .recvWait y g ∧ y ∈ σ.recvs c ∧ Top σ y u g gr := by
  refine mem_channelRecv h hw ?_
  rintro y (rfl | hy)
  · exact not_entered hw top hrun (.channelRecv c)
  · exact absurd hy (Set.notMem_empty y)

omit [FloatArith] in
theorem mem_sendToken : tok ∈ m.marking (.channelSend c) ↔ ∃ p ∈ σ.sends c, ∃ u g gr,
    tok = .sendWait p.thread g p.value ∧ Top σ p.thread u g gr := by
  refine mem_channelSend h hw fun p hp hout ↦ ?_
  rcases hout with he | hout
  · exact not_entered hw top hrun (.channelSend c) ⟨p, hp, he⟩
  · exact absurd hout (Set.notMem_empty _)

omit [FloatArith] in
theorem recvTokens_nil : m.marking (.channelRecv c) = [] ↔ σ.recvs c = [] := by
  simp only [List.eq_nil_iff_forall_not_mem, mem_recvToken h hw top hrun]
  constructor
  · intro hno y hy
    obtain ⟨u, g, gr, _, topy, -⟩ := hw.blocked_thread (hw.mem_recvs c hy)
    exact hno _ ⟨y, u, g, gr, rfl, hy, topy⟩
  · rintro hno _ ⟨y, u, g, gr, rfl, hy, -⟩
    exact hno y hy

omit [FloatArith] in
theorem sendTokens_nil : m.marking (.channelSend c) = [] ↔ σ.sends c = [] := by
  simp only [List.eq_nil_iff_forall_not_mem, mem_sendToken h hw top hrun]
  constructor
  · intro hno p hp
    obtain ⟨u, g, gr, _, topy, -⟩ := hw.blocked_thread (hw.mem_sends c hp)
    exact hno _ ⟨p, hp, u, g, gr, rfl, topy⟩
  · rintro hno _ ⟨p, hp, u, g, gr, rfl, -⟩
    exact hno p hp

/-- A send over a channel without a buffer. -/
theorem agrees_send_unbuffered {e : LExpr} (hcap : (E.program.resource c).capacity = 0)
    (hop : E.program.opAt fr.function fr.pc = some (.channelSend c e)) :
    Agrees E.program (E.stepOp σ x f fr (.channelSend c e))
      (outcomes E m x f fr (.channelSend c e)) := by
  have hkind : hasKind E.program.resources c .channel = true := SemProgram.opAt_ok hop
  obtain ⟨ch, hch⟩ := exists_cell (hw.stores.channels c) hkind
  obtain ⟨-, hrecvs, -⟩ := MachineState.views_of_channel hch
  have hx : σ.status x = some .runnable := by rw [top.status, hrun]
  have hnil := recvTokens_nil h hw top hrun (c := c)
  have hsend : ∀ site, sendValue m E fr site = E.evalIn σ fr e := fun site ↦ by
    rw [sendValue, hop]
    exact evalIn_eq h hw.stores fr e
  simp only [Engine.stepOp, Engine.stepSend, outcomes, buildStmt, hcap, if_true,
    List.flatMap_cons, List.flatMap_nil, List.append_nil, List.cons_append, List.nil_append, fireOp,
    hch, hsend]
  by_cases hm : m.marking (.channelRecv c) = []
  · have hr : σ.recvs c = [] := hnil.mp hm
    simp only [hm, ne_eq, not_true_eq_false, if_false, List.map_nil]
    refine .bind fun v _ ↦ ?_
    rw [hrecvs] at hr
    by_cases hok : E.resourceTypeOk c v = true
    · simp only [payloadOk, hr, hok, Bool.not_true, Bool.false_eq_true, if_false, if_true]
      have hre := Retabled.pushSend hw (v := v) hx ((hw.stores.channels c).trans hkind)
        (fun _ ↦ hrecvs.trans hr) (resourceTypeOk_iff.mp hok)
      refine .only (Corr.wait top (h.pushSend (Set.mem_insert x ∅) c v) hre (.send c v ?_))
      rw [MachineState.sends_pushSend ((hw.stores.channels c).trans hkind), if_pos rfl]
      exact List.mem_append_right _ List.mem_cons_self
    · simp only [payloadOk, hok, Bool.not_false, if_true]
      exact .off
  · have hr : ch.pendingRecv ≠ [] := fun hr ↦ hm (hnil.mpr (hrecvs.trans hr))
    simp only [hm, ne_eq, not_false_eq_true, if_true, hr, if_false]
    cases he : E.evalIn σ fr e with
    | error err =>
        obtain ⟨tok, htok⟩ := List.exists_mem_of_ne_nil _ hm
        obtain ⟨y, u, g, gr, rfl, -, -⟩ := (mem_recvToken h hw top hrun).mp htok
        refine .error ⟨_, List.mem_cons_of_mem _ (List.mem_map.mpr ⟨_, htok, rfl⟩), err, ?_⟩
        rw [fireSendPair, hsend, he]
        rfl
    | ok v =>
        change Agrees _ (if (!E.resourceTypeOk c v) = true then _ else _) _
        by_cases hok : E.resourceTypeOk c v = true
        · simp only [hok, Bool.not_true, Bool.false_eq_true, if_false]
          refine Agrees.matches (fun y hy ↦ ?_) fun tok htok ↦ ?_
          · rw [← hrecvs] at hy
            obtain ⟨u, g, gr, _, topy, -⟩ := hw.blocked_thread (hw.mem_recvs c hy)
            exact ⟨_, (mem_recvToken h hw top hrun).mpr ⟨y, u, g, gr, rfl, hy, topy⟩,
              matches_send h hw top hrun rfl hop he hok hy topy⟩
          · obtain ⟨y, u, g, gr, rfl, hy, topy⟩ := (mem_recvToken h hw top hrun).mp htok
            exact ⟨y, hrecvs ▸ hy, matches_send h hw top hrun rfl hop he hok hy topy⟩
        · simp only [hok, Bool.not_false, if_true]
          refine .stay fun q hq ↦ ⟨[], ?_⟩
          rcases List.mem_cons.mp hq with rfl | hq
          · rfl
          · obtain ⟨tok, htok, rfl⟩ := List.mem_map.mp hq
            obtain ⟨y, u, g, gr, rfl, -, -⟩ := (mem_recvToken h hw top hrun).mp htok
            rw [fireSendPair, hsend, he]
            change (if (!E.resourceTypeOk c v) = true then _ else _) = _
            simp only [hok, Bool.not_false, if_true]
            rfl

/-- A receive over a channel without a buffer. -/
theorem agrees_recv_unbuffered (hcap : (E.program.resource c).capacity = 0)
    (hop : E.program.opAt fr.function fr.pc = some (.channelRecv c dst)) :
    Agrees E.program (E.stepOp σ x f fr (.channelRecv c dst))
      (outcomes E m x f fr (.channelRecv c dst)) := by
  have hkind : hasKind E.program.resources c .channel = true := by
    have := SemProgram.opAt_ok hop
    simp only [opOk, Bool.and_eq_true] at this
    exact this.1
  obtain ⟨ch, hch⟩ := exists_cell (hw.stores.channels c) hkind
  obtain ⟨hsends, -, -⟩ := MachineState.views_of_channel hch
  have hx : σ.status x = some .runnable := by rw [top.status, hrun]
  have hnil := sendTokens_nil h hw top hrun (c := c)
  simp only [Engine.stepOp, Engine.stepRecv, outcomes, buildStmt, hcap, if_true,
    List.flatMap_cons, List.flatMap_nil, List.append_nil, List.cons_append, List.nil_append, fireOp,
    hch, top.recvDstOf hop, Option.getD_some]
  by_cases hm : m.marking (.channelSend c) = []
  · have hs : σ.sends c = [] := hnil.mp hm
    rw [hsends] at hs
    simp only [hm, ne_eq, not_true_eq_false, if_false, List.map_nil, hs, if_true]
    have hre := Retabled.pushRecv hw hx ((hw.stores.channels c).trans hkind)
      fun _ ↦ hsends.trans hs
    exact .only (Corr.wait top (h.pushRecv c x) hre (.recv c))
  · have hs : ch.pendingSend ≠ [] := fun hs ↦ hm (hnil.mpr (hsends.trans hs))
    simp only [hm, ne_eq, not_false_eq_true, if_true, hs, if_false]
    refine Agrees.matches (fun p hp ↦ ?_) fun tok htok ↦ ?_
    · rw [← hsends] at hp
      obtain ⟨u, g, gr, _, topy, -⟩ := hw.blocked_thread (hw.mem_sends c hp)
      exact ⟨_, (mem_sendToken h hw top hrun).mpr ⟨p, hp, u, g, gr, rfl, topy⟩,
        matches_recv h hw top hrun rfl hop hp topy⟩
    · obtain ⟨p, hp, u, g, gr, rfl, topy⟩ := (mem_sendToken h hw top hrun).mp htok
      exact ⟨p, hsends ▸ hp, matches_recv h hw top hrun rfl hop hp topy⟩

end Rendezvous

section Buffers

theorem tryWriteDst_popBuffer : E.tryWriteDst (σ.popBuffer c) f dst v =
    (E.tryWriteDst σ f dst v).map (·.popBuffer c) := by
  have hcomm : (σ.popBuffer c).writeDst f dst v = (σ.writeDst f dst v).popBuffer c := by
    cases dst with
    | shared r =>
        simp only [MachineState.writeDst, Store.writeShared, popBuffer, modifyChannel]
        by_cases hv : σ.store.vars.contains r = true <;> simp [hv]
    | _ => rfl
  have hok : E.dstTypeOk (σ.popBuffer c) f dst v = E.dstTypeOk σ f dst v := by
    cases dst <;> rfl
  rw [Engine.tryWriteDst, Engine.tryWriteDst, hok, hcomm]
  split_ifs <;> rfl

variable [FloatArith] (h : Corr E.program (insert x ∅) σ m) (hw : Wf E.program σ)
  (top : Top σ x t f fr) (hrun : t.status = .runnable)

include h hw top hrun

/-- A send over a channel with a buffer. -/
theorem agrees_send_buffered {e : LExpr} (hcap : (E.program.resource c).capacity ≠ 0)
    (hop : E.program.opAt fr.function fr.pc = some (.channelSend c e)) :
    Agrees E.program (E.stepOp σ x f fr (.channelSend c e))
      (outcomes E m x f fr (.channelSend c e)) := by
  have hkind : hasKind E.program.resources c .channel = true := SemProgram.opAt_ok hop
  have hc : σ.store.channels.contains c = true := (hw.stores.channels c).trans hkind
  obtain ⟨ch, hch⟩ := exists_cell (hw.stores.channels c) hkind
  have hx : σ.status x = some .runnable := by rw [top.status, hrun]
  simp only [Engine.stepOp, Engine.stepSend, outcomes, buildStmt, hcap, if_false, fireSendBuf,
    fireSendBufBlock, List.flatMap_cons, List.flatMap_nil, List.append_nil, List.cons_append,
    List.nil_append, fireOp, hch, Cells.readArray h.cells, Option.map_some, Option.getD_some,
    evalIn_eq h hw.stores]
  by_cases hlt : ch.buffer.length < (E.program.resource c).capacity
  · simp only [hlt, not_le.mpr hlt, if_true, if_false]
    refine .left (.bind fun v _ ↦ ?_)
    by_cases hok : E.resourceTypeOk c v = true
    · simp only [payloadOk, hok, Bool.not_true, Bool.false_eq_true, if_false]
      exact .only (Corr.proceed (h.setBuffer hch fun _ ↦ rfl) (Set.notMem_empty x) top hrun rfl)
    · simp only [payloadOk, hok, Bool.not_false, if_true]
      exact .off
  · have hle : (E.program.resource c).capacity ≤ ch.buffer.length := not_lt.mp hlt
    simp only [hlt, hle, if_true, if_false]
    refine .right (.bind fun v _ ↦ ?_)
    by_cases hok : E.resourceTypeOk c v = true
    · simp only [payloadOk, hok, Bool.not_true, Bool.false_eq_true, if_false]
      have hre := Retabled.pushSend hw (v := v) hx hc (fun h0 ↦ absurd h0 hcap)
        (resourceTypeOk_iff.mp hok)
      refine .only (Corr.wait top (h.pushSend (Set.mem_insert x ∅) c v) hre (.send c v ?_))
      rw [MachineState.sends_pushSend hc, if_pos rfl]
      exact List.mem_append_right _ List.mem_cons_self
    · simp only [payloadOk, hok, Bool.not_false, if_true]
      exact .off

/-- A receive over a channel with a buffer. -/
theorem agrees_recv_buffered (hcap : (E.program.resource c).capacity ≠ 0)
    (hop : E.program.opAt fr.function fr.pc = some (.channelRecv c dst)) :
    Agrees E.program (E.stepOp σ x f fr (.channelRecv c dst))
      (outcomes E m x f fr (.channelRecv c dst)) := by
  have hok := SemProgram.opAt_ok hop
  simp only [opOk, Bool.and_eq_true] at hok
  have hc : σ.store.channels.contains c = true := (hw.stores.channels c).trans hok.1
  obtain ⟨ch, hch⟩ := exists_cell (hw.stores.channels c) hok.1
  have hx : σ.status x = some .runnable := by rw [top.status, hrun]
  simp only [Engine.stepOp, Engine.stepRecv, outcomes, buildStmt, hcap, if_false, fireRecvBuf,
    List.flatMap_cons, List.flatMap_nil, List.append_nil, List.cons_append, List.nil_append, fireOp,
    hch, Cells.readArray h.cells, Option.map_some, Option.getD_some, top.recvDstOf hop]
  cases hb : ch.buffer with
  | nil =>
      have hre := Retabled.pushRecv hw hx hc fun h0 ↦ absurd h0 hcap
      exact .second (Corr.wait top (h.pushRecv c x) hre (.recv c))
  | cons v rest =>
      have hpop : Corr E.program (insert x ∅) (σ.popBuffer c)
          (m.setData (.channel c) (.array rest)) := by
        have := h.setBuffer hch (F := fun ch ↦ { ch with buffer := ch.buffer.tail }) fun _ ↦ rfl
        rwa [hb] at this
      have hcomm : ((E.tryWriteDst σ f dst v).map fun σ ↦ (σ.popBuffer c).advance x) =
          (E.tryWriteDst (σ.popBuffer c) f dst v).map fun σ ↦ σ.advance x := by
        rw [tryWriteDst_popBuffer, Option.map_map]
        rfl
      have top₁ : Top (σ.popBuffer c) x t f fr := ⟨top.thread, top.head, top.frame⟩
      simp only [hcomm]
      exact .left (agrees_write hpop top₁ hrun (hw.quiet (hw.quiet_popBuffer c)).stores hok.2 v
        (fun _ _ _ h₁ ↦ ⟨h₁, rfl⟩) rfl fun _ ↦ rfl)

end Buffers

section Notify

variable {cv : ResourceId} {w : ThreadId × ResourceId}

/-- A waiter that is notified goes on to wait for its lock. -/
theorem Corr.notifyOne (h : Corr P out σ m) (hw : Wf P σ) (hmem : w ∈ σ.waiters cv)
    (hout : w.1 ∉ out) (top : Top σ w.1 u g gr) :
    Corr P out (notifyOne cv σ w) (notifyToken cv m (.condvarWait w.1 g w.2)) := by
  have hb : u.status = .blocked (.condvar cv w.2) := by
    have := hw.mem_waiters cv hmem
    rw [top.status] at this
    exact Option.some.inj this
  have h₁ : Corr P (insert w.1 out) σ (m.takeToken (.condvar cv) (.condvarWait w.1 g w.2)) :=
    h.takeWait hw hout top hb (by simp) (.condvar cv w.2)
  have top₁ : Top (σ.modifyWaiters cv (·.filter (· ≠ w))) w.1 u g gr :=
    ⟨top.thread, top.head, top.frame⟩
  exact (h₁.modifyWaiters cv _).block hout top₁ (.lock w.2) fun tok' hwt ↦ by cases hwt; rfl

theorem spot_notifyOne (hxw : x ≠ w.1) : spot (notifyOne cv σ w) x = spot σ x :=
  spot_setStatus_other hxw _

theorem spot_notifyMany (ws : List (ThreadId × ResourceId)) (hxw : ∀ w ∈ ws, x ≠ w.1) :
    spot (ws.foldl (notifyOne cv) σ) x = spot σ x := by
  induction ws generalizing σ with
  | nil => rfl
  | cons w ws ih =>
      rw [List.foldl_cons, ih fun w' hw' ↦ hxw w' (List.mem_cons_of_mem w hw')]
      exact spot_notifyOne (hxw w List.mem_cons_self)

theorem waiters_notifyOne_filter (hc : σ.store.condvars.contains cv = true) :
    (notifyOne cv σ w).waiters cv = (σ.waiters cv).filter (· ≠ w) := by
  have := waiters_modifyWaiters hc (·.filter (· ≠ w)) cv
  rwa [if_pos rfl] at this

/-- The token of a waiter. -/
def waiterToken (σ : MachineState) (w : ThreadId × ResourceId) : NetToken :=
  .condvarWait w.1 ((σ.currentFrameId w.1).getD 0) w.2

theorem waiterToken_eq (top : Top σ w.1 u g gr) :
    waiterToken σ w = .condvarWait w.1 g w.2 := by
  rw [waiterToken, top.currentFrameId, Option.getD_some]

theorem mem_condvar (h : Corr P out σ m) (hw : Wf P σ) (hout : ∀ w ∈ σ.waiters cv, w.1 ∉ out) :
    tok ∈ m.marking (.condvar cv) ↔ ∃ w ∈ σ.waiters cv, tok = waiterToken σ w := by
  rw [(h.seats _ rfl).2]
  constructor
  · rintro ⟨y, hy, hs⟩
    generalize hk : PlaceKey.condvar cv = k at hs
    cases hs with
    | control top hrun => cases hk
    | @wait u g gr r _ top hb hwt =>
        cases hwt with
        | condvar cv' lk =>
            cases hk
            refine ⟨(y, lk), (hw.regs.iff y (.condvar cv lk) rfl).mpr ?_, (waiterToken_eq (w := (y, lk)) top).symm⟩
            rw [top.status, hb]
        | _ => cases hk
  · rintro ⟨w, hmem, rfl⟩
    obtain ⟨u, g, gr, _, top, hb, -⟩ := hw.blocked_thread (hw.mem_waiters cv hmem)
    rw [waiterToken_eq top]
    exact ⟨w.1, hout w hmem, .wait top hb (.condvar cv w.2)⟩

/-- Waiters that are notified in turn. -/
theorem Corr.notifyMany (ws : List (ThreadId × ResourceId)) (h : Corr P out σ m) (hw : Wf P σ)
    (hc : σ.store.condvars.contains cv = true) (hsub : ∀ w ∈ ws, w ∈ σ.waiters cv)
    (hnd : ws.Nodup) (hout : ∀ w ∈ ws, w.1 ∉ out) :
    Corr P out (ws.foldl (ConcIR.notifyOne cv) σ)
      ((ws.map (waiterToken σ)).foldl (notifyToken cv) m) := by
  induction ws generalizing σ m with
  | nil => exact h
  | cons w ws ih =>
      have hmem := hsub w List.mem_cons_self
      obtain ⟨u, g, gr, _, top, -⟩ := hw.blocked_thread (hw.mem_waiters cv hmem)
      have h₁ := h.notifyOne hw hmem (hout w List.mem_cons_self) top
      rw [← waiterToken_eq top] at h₁
      have htok : waiterToken (ConcIR.notifyOne cv σ w) = waiterToken σ := by
        funext w'
        rw [waiterToken, waiterToken, ConcIR.notifyOne, MachineState.block, currentFrameId_setStatus]
        rfl
      have := ih h₁ (hw.notifyOne hc hmem) ((contains_modifyWaiters cv cv _).trans hc)
        (fun w' hw' ↦ ?_)
        (List.nodup_cons.mp hnd).2 fun w' hw' ↦ hout w' (List.mem_cons_of_mem w hw')
      · rw [htok] at this
        exact this
      · rw [waiters_notifyOne_filter hc, List.mem_filter]
        refine ⟨hsub w' (List.mem_cons_of_mem w hw'), ?_⟩
        simp only [ne_eq, decide_not, Bool.not_eq_true', decide_eq_false_iff_not]
        rintro rfl
        exact (List.nodup_cons.mp hnd).1 hw'

/-- Waiters that wait for different threads may be notified in either order. -/
theorem notifyOne_comm {w w' : ThreadId × ResourceId} (hne : w.1 = w'.1 → w = w') :
    notifyOne cv (notifyOne cv σ w) w' = notifyOne cv (notifyOne cv σ w') w := by
  by_cases he : w = w'
  · rw [he]
  · have h1 : w.1 ≠ w'.1 := fun h ↦ he (hne h)
    have hcv := modify_comm σ.store.condvars cv
      (F := fun c ↦ ⟨c.waiters.filter (· ≠ w)⟩) (G := fun c ↦ ⟨c.waiters.filter (· ≠ w')⟩)
      fun c ↦ by rw [List.filter_comm]
    have hth : (σ.threads.modify w.1 fun t ↦ { t with status := .blocked (.lock w.2) }).modify w'.1
        (fun t ↦ { t with status := .blocked (.lock w'.2) }) =
        (σ.threads.modify w'.1 fun t ↦ { t with status := .blocked (.lock w'.2) }).modify w.1
          fun t ↦ { t with status := .blocked (.lock w.2) } := by
      ext1 y
      grind
    simp only [ConcIR.notifyOne, modifyWaiters, MachineState.block, setStatus,
      MachineState.modifyThread, hcv, hth]

variable [FloatArith] (h : Corr E.program (insert x ∅) σ m) (hw : Wf E.program σ)
  (top : Top σ x t f fr) (hrun : t.status = .runnable)

include h hw top hrun

omit [FloatArith] in
theorem mem_waiterToken : tok ∈ m.marking (.condvar cv) ↔
    ∃ w ∈ σ.waiters cv, tok = waiterToken σ w := by
  refine mem_condvar h hw fun w hmem hout ↦ ?_
  rcases hout with he | hout
  · exact not_entered hw top hrun (.condvar cv w.2) (he ▸ hmem)
  · exact absurd hout (Set.notMem_empty _)

omit [FloatArith] h in
theorem waiter_ne (hmem : w ∈ σ.waiters cv) : x ≠ w.1 := fun he ↦
  not_entered hw top hrun (.condvar cv w.2) (he ▸ hmem)

theorem agrees_notify :
    Agrees E.program (E.stepOp σ x f fr (.condvarNotify cv))
      (outcomes E m x f fr (.condvarNotify cv)) := by
  have hstep : E.stepOp σ x f fr (.condvarNotify cv) =
      if σ.waiters cv = [] then E.one x f fr (σ.advance x) else
        E.many x f fr ((σ.waiters cv).map fun w ↦ (notifyOne cv σ w).advance x) := rfl
  rw [hstep]
  simp only [outcomes, buildStmt, List.flatMap_cons, List.flatMap_nil, List.append_nil, fireOp]
  by_cases hnil : σ.waiters cv = []
  · have hm : m.marking (.condvar cv) = [] :=
      List.eq_nil_iff_forall_not_mem.mpr fun tok htok ↦ by
        obtain ⟨w, hmem, -⟩ := (mem_waiterToken h hw top hrun).mp htok
        rw [hnil] at hmem
        cases hmem
    simp only [hnil, if_true, hm, List.map_nil, List.nil_append, List.all_nil]
    exact .only (h.proceed (Set.notMem_empty x) top hrun rfl)
  · have hall : ((m.marking (.condvar cv)).all fun tok ↦ !tok.isCondvarWait) = false := by
      obtain ⟨w, hmem⟩ := List.exists_mem_of_ne_nil _ hnil
      rw [List.all_eq_false]
      exact ⟨_, (mem_waiterToken h hw top hrun).mpr ⟨w, hmem, rfl⟩, by
        simp [waiterToken, NetToken.isCondvarWait]⟩
    simp only [hnil, if_false, hall, Bool.false_eq_true]
    -- Each waiter has one token, and each token is a choice of its own.
    have hone : ∀ w ∈ σ.waiters cv, ∃ m', Corr E.program ∅ ((notifyOne cv σ w).advance x) m' ∧
        ∀ tr : Transition, tr.next = some (.control fr.function (fr.pc + 1)) →
          Petri.proceed tr (notifyToken cv m (waiterToken σ w)) x f = fired m' := by
      intro w hmem
      obtain ⟨u, g, gr, _, topw, -⟩ := hw.blocked_thread (hw.mem_waiters cv hmem)
      have hxw := waiter_ne hw top hrun hmem
      have h₁ := h.notifyOne hw hmem (by simpa using hxw.symm) topw
      rw [← waiterToken_eq topw] at h₁
      refine ⟨_, h₁.proceed (Set.notMem_empty x) top hrun (spot_notifyOne hxw), fun tr htr ↦ ?_⟩
      rw [Petri.proceed, htr]
    rw [← List.filterMap_eq_map]
    refine Agrees.rotate (Agrees.matches (fun w hmem ↦ ?_) fun tok htok ↦ ?_)
    · have htok := (mem_waiterToken h hw top hrun).mpr ⟨w, hmem, rfl⟩
      obtain ⟨m', hc, hp⟩ := hone w hmem
      exact ⟨_, htok, m', (if_pos htok).trans (hp _ rfl), hc⟩
    · obtain ⟨w, hmem, rfl⟩ := (mem_waiterToken h hw top hrun).mp htok
      obtain ⟨m', hc, hp⟩ := hone w hmem
      exact ⟨w, hmem, m', (if_pos htok).trans (hp _ rfl), hc⟩

omit [FloatArith] in
/-- The tokens of the waiters are the waiters in some order. -/
theorem exists_waiters : ∃ ws : List (ThreadId × ResourceId),
    m.marking (.condvar cv) = ws.map (waiterToken σ) ∧ ws.Perm (σ.waiters cv) := by
  have hrange : m.marking (.condvar cv) ∈ Set.range (List.map (waiterToken σ)) := by
    rw [Set.range_list_map]
    intro tok htok
    obtain ⟨w, -, rfl⟩ := (mem_waiterToken h hw top hrun).mp htok
    exact ⟨w, rfl⟩
  obtain ⟨ws, hws⟩ := hrange
  have hinj : Function.Injective (waiterToken σ) := by
    intro w w' he
    rw [waiterToken, waiterToken, NetToken.condvarWait.injEq] at he
    exact Prod.ext he.1 he.2.2
  have hnd : ws.Nodup := .of_map (waiterToken σ) (hws ▸ (h.seats (.condvar cv) rfl).1)
  refine ⟨ws, hws.symm, (List.perm_ext_iff_of_nodup hnd (hw.regs.waiters_nodup cv)).mpr fun w ↦ ?_⟩
  have : waiterToken σ w ∈ m.marking (.condvar cv) ↔ w ∈ ws := by
    rw [← hws, List.mem_map_of_injective hinj]
  rw [← this, mem_waiterToken h hw top hrun]
  constructor
  · rintro ⟨w', hmem, he⟩
    rwa [hinj he]
  · exact fun hmem ↦ ⟨w, hmem, rfl⟩

omit [FloatArith] h top hrun in
/-- The order in which waiters are notified does not matter. -/
theorem foldl_notifyOne_perm {ws : List (ThreadId × ResourceId)}
    (hperm : ws.Perm (σ.waiters cv)) :
    (σ.waiters cv).foldl (notifyOne cv) σ = ws.foldl (notifyOne cv) σ := by
  refine (hperm.foldl_eq' (fun w hmem w' hmem' τ ↦ notifyOne_comm fun he ↦ ?_) σ).symm
  have h₁ := hw.mem_waiters cv (hperm.mem_iff.mp hmem)
  have h₂ := hw.mem_waiters cv (hperm.mem_iff.mp hmem')
  rw [he] at h₁
  have := Option.some.inj (h₁.symm.trans h₂)
  simp only [ThreadStatus.blocked.injEq, BlockReason.condvar.injEq, true_and] at this
  exact Prod.ext he this

theorem agrees_notifyAll (hcv : hasKind E.program.resources cv .condvar = true) :
    Agrees E.program (E.stepOp σ x f fr (.condvarNotifyAll cv))
      (outcomes E m x f fr (.condvarNotifyAll cv)) := by
  have hc : σ.store.condvars.contains cv = true := (hw.stores.condvars cv).trans hcv
  obtain ⟨c, hcell⟩ := exists_cell (hw.stores.condvars cv) hcv
  have hwait : σ.waiters cv = c.waiters := by
    rw [waiters, hcell, Option.map_some, Option.getD_some]
  obtain ⟨ws, hws, hperm⟩ : ∃ ws : List (ThreadId × ResourceId),
      m.marking (.condvar cv) = ws.map (waiterToken σ) ∧ ws.Perm (σ.waiters cv) :=
    exists_waiters h hw top hrun
  have hfilter : (m.marking (.condvar cv)).filter NetToken.isCondvarWait =
      ws.map (waiterToken σ) := by
    rw [hws, List.filter_eq_self]
    intro tok htok
    obtain ⟨w, -, rfl⟩ := List.mem_map.mp htok
    rfl
  have hmany := h.notifyMany ws hw hc (fun w hmem ↦ hperm.mem_iff.mp hmem)
    (hperm.nodup_iff.mpr (hw.regs.waiters_nodup cv)) fun w hmem hout ↦ by
      rcases hout with he | hout
      · exact waiter_ne hw top hrun (hperm.mem_iff.mp hmem) he.symm
      · exact hout
  have hspot : spot (ws.foldl (notifyOne cv) σ) x = spot σ x :=
    spot_notifyMany ws fun w hmem ↦ waiter_ne hw top hrun (hperm.mem_iff.mp hmem)
  simp only [Engine.stepOp, Engine.stepNotifyAll, outcomes, buildStmt, List.flatMap_cons,
    List.flatMap_nil, List.append_nil, fireOp, hcell, hfilter]
  rw [← hwait, notifyAll_eq _ hc rfl (hw.regs.waiters_nodup cv), foldl_notifyOne_perm hw hperm]
  exact .only (hmany.proceed (Set.notMem_empty x) top hrun hspot)

end Notify

end Petri

end ConcIR
