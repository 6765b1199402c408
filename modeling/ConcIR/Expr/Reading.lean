import ConcIR.Expr.Grammar

/-!
# What the parser reads

Whatever the parser returns for a text, the text begins with a derivation of it. The text
that an operand leaves begins after the blanks that follow the operand, so a reading of a
text is a derivation from a piece of it and the blanks after that piece.
-/

namespace ConcIR

theorem Reply.bind_done {α β : Type} {r : Reply α} {f : α → List Char → Reply β} {b : β}
    {rest : List Char} (h : r.bind f = .done b rest) :
    ∃ a mid, r = .done a mid ∧ f a mid = .done b rest := by
  cases r with
  | done a mid => exact ⟨a, mid, rfl, h⟩
  | fail e => cases h
  | more => cases h

namespace Expr

section Tokens

variable {tok cs rest w : List Char}

theorem eat_true (h : eat tok cs = (true, rest)) :
    ∃ w, Blank w ∧ cs = w ++ (tok ++ rest) := by
  unfold eat at h
  split at h
  case isTrue hpre =>
    obtain ⟨w, hw, hcs⟩ := exists_skip cs
    obtain ⟨tail, htail⟩ := List.isPrefixOf_iff_prefix.mp hpre
    refine ⟨w, hw, ?_⟩
    have hrest : (skip cs).drop tok.length = rest := congrArg Prod.snd h
    rw [← htail, List.drop_left] at hrest
    rw [← hrest, htail]
    exact hcs
  case isFalse => cases congrArg Prod.fst h

theorem eat_false (h : eat tok cs = (false, rest)) : rest = skip cs := by
  unfold eat at h
  split at h
  · cases congrArg Prod.fst h
  · exact (congrArg Prod.snd h).symm

theorem eatOp_some {α : Type} {op : α} {ops : List (List Char × α)}
    (h : eatOp ops cs = (some op, rest)) :
    ∃ w tok, Blank w ∧ (tok, op) ∈ ops ∧ cs = w ++ (tok ++ rest) := by
  induction ops generalizing cs with
  | nil => cases h
  | cons p ops ih =>
      obtain ⟨tok, op'⟩ := p
      unfold eatOp at h
      rcases heat : eat tok cs with ⟨_ | _, mid⟩
      · rw [heat] at h
        obtain rfl := eat_false heat
        obtain ⟨w, tok', hw, hmem, hskip⟩ := ih h
        obtain ⟨w', hw', hcs⟩ := exists_skip cs
        refine ⟨w' ++ w, tok', hw'.append hw, List.mem_cons_of_mem _ hmem, ?_⟩
        rw [List.append_assoc, ← hskip]
        exact hcs
      · rw [heat] at h
        obtain ⟨w, hw, hcs⟩ := eat_true heat
        cases h
        exact ⟨w, tok, hw, List.mem_cons_self, hcs⟩

theorem eatOp_none {α : Type} {ops : List (List Char × α)}
    (h : eatOp ops cs = (none, rest)) : rest = skip cs := by
  induction ops generalizing cs with
  | nil => exact (congrArg Prod.snd h).symm
  | cons p ops ih =>
      obtain ⟨tok, op'⟩ := p
      unfold eatOp at h
      rcases heat : eat tok cs with ⟨_ | _, mid⟩
      · rw [heat] at h
        obtain rfl := eat_false heat
        rw [ih h, skip_skip]
      · rw [heat] at h
        cases h

theorem parseIdent_done {name : String} (h : parseIdent cs = .done name rest) :
    ∃ w i, Blank w ∧ Ident i ∧ name = String.ofList i ∧ cs = w ++ (i ++ rest) := by
  unfold parseIdent at h
  obtain ⟨w, hw, hcs⟩ := exists_skip cs
  split at h
  case h_1 c tail hskip =>
    split at h
    case isTrue hc =>
      cases h
      refine ⟨w, c :: tail.takeWhile identChar, hw,
        ⟨hc, fun d hd ↦ List.mem_takeWhile_imp hd⟩, rfl, ?_⟩
      rw [List.cons_append, List.takeWhile_append_dropWhile, ← hskip]
      exact hcs
    case isFalse => cases h
  case h_2 => cases h

theorem parseString_done {e : Expr} (h : parseString cs = .done e rest) :
    ∃ s, '"' ∉ s ∧ e = .lit (.string (String.ofList s)) ∧ cs = s ++ '"' :: rest := by
  unfold parseString at h
  split at h
  case h_1 c tail hdrop =>
    cases h
    refine ⟨cs.takeWhile (· ≠ '"'), fun hmem ↦ ?_, rfl, ?_⟩
    · have := List.mem_takeWhile_imp hmem
      simp at this
    · have hc : c = '"' := by
        have := List.head_dropWhile_not (fun d : Char ↦ decide (d ≠ '"')) (l := cs)
          (by rw [hdrop]; exact List.cons_ne_nil c _)
        simp only [hdrop, List.head_cons, decide_eq_false_iff_not, not_not] at this
        exact this
      have hcs := List.takeWhile_append_dropWhile (p := fun d : Char ↦ decide (d ≠ '"')) (l := cs)
      rw [hdrop, hc] at hcs
      exact hcs.symm
  case h_2 => cases h

theorem digits_takeWhile {c : Char} (hc : c.isDigit = true) :
    Digits ((c :: cs).takeWhile Char.isDigit) := by
  refine ⟨?_, fun d hd ↦ List.mem_takeWhile_imp hd⟩
  rw [List.takeWhile_cons_of_pos hc]
  exact List.cons_ne_nil _ _

end Tokens

section Literals

variable {env : NameEnv} {cs rest : List Char} {e : Expr}

/-- The text begins with a derivation of the expression, blanks, and what is left. -/
def Reads (env : NameEnv) (s : Symbol) (cs : List Char) (e : Expr) (rest : List Char) : Prop :=
  ∃ xs w, cs = xs ++ (w ++ rest) ∧ Blank w ∧ Derives .implemented env s xs e

theorem parseNumber_done {c : Char} {w : List Char} (hw : Blank w) (hc : c.isDigit = true)
    (h : parseNumber (c :: cs) = .done e rest) : Reads env .atom (w ++ c :: cs) e rest := by
  have hds := @digits_takeWhile cs c hc
  have hcs := List.takeWhile_append_dropWhile (p := Char.isDigit) (l := c :: cs)
  have int : ∀ tail, (c :: cs).dropWhile Char.isDigit = tail →
      (if Nat.ofDigitChars 10 ((c :: cs).takeWhile Char.isDigit) 0 < 2 ^ 63 then
        Reply.done (.lit (.int (Nat.ofDigitChars 10 ((c :: cs).takeWhile Char.isDigit) 0))) tail
      else .fail ⟨"invalid integer '" ++ String.ofList ((c :: cs).takeWhile Char.isDigit) ++ "'"⟩)
        = .done e rest → Reads env .atom (w ++ c :: cs) e rest := by
    intro tail htail hdone
    split at hdone
    case isTrue hrange =>
      cases hdone
      refine ⟨w ++ (c :: cs).takeWhile Char.isDigit, [], ?_, blank_nil, .int hw hds fun _ ↦ hrange⟩
      rw [List.nil_append, List.append_assoc, ← htail, hcs]
    case isFalse => cases hdone
  unfold parseNumber at h
  dsimp only at h
  split at h
  case h_1 d tail hdrop =>
    split at h
    case isTrue hd =>
      cases h
      refine ⟨w ++ ((c :: cs).takeWhile Char.isDigit ++
        '.' :: (d :: tail).takeWhile Char.isDigit), [], ?_, blank_nil,
        .float hw hds (digits_takeWhile hd)⟩
      rw [List.nil_append, List.append_assoc, List.append_assoc, List.cons_append,
        List.takeWhile_append_dropWhile, ← hdrop, hcs]
    case isFalse => exact int _ hdrop h
  case h_2 => exact int _ rfl h

/-- A name without a colon is its own text. -/
theorem NameText.eq_toList {xs : List Char} {n : String} (h : NameText xs n)
    (hn : ':' ∉ n.toList) : xs = n.toList := by
  cases h with
  | short hi => exact String.toList_ofList.symm
  | qualified hi hw hw' hj =>
      refine absurd ?_ hn
      simp only [String.toList_append, List.mem_append]
      exact Or.inl (Or.inr (by decide))

theorem classify_done {name : String} {w : List Char} (hw : Blank w) {xs : List Char}
    (hname : NameText xs name) {cs : List Char} (h : classify env name cs = .done e rest) :
    rest = cs ∧ Derives .implemented env .atom (w ++ xs) e := by
  unfold classify at h
  split_ifs at h with hget htrue hfalse hvar
  · cases h
    exact ⟨rfl, .name hw hname hget⟩
  · cases h
    obtain rfl := htrue
    obtain rfl := hname.eq_toList (by decide)
    exact ⟨rfl, .bool (b := true) hw fun _ ↦ Option.not_isSome_iff_eq_none.mp hget⟩
  · cases h
    obtain rfl := hfalse
    obtain rfl := hname.eq_toList (by decide)
    exact ⟨rfl, .bool (b := false) hw fun _ ↦ Option.not_isSome_iff_eq_none.mp hget⟩
  · cases h
    refine ⟨rfl, .enum hw ⟨hname, htrue, hfalse⟩ ?_ (by simpa using hvar)⟩
    simpa using hget

theorem parseNameOrEnum_skip (env : NameEnv) (cs : List Char) :
    parseNameOrEnum env (skip cs) = parseNameOrEnum env cs := by
  rw [parseNameOrEnum, parseNameOrEnum, parseIdent, parseIdent, skip_skip]

theorem parseNameOrEnum_done (h : parseNameOrEnum env cs = .done e rest) :
    Reads env .atom cs e rest := by
  unfold parseNameOrEnum at h
  obtain ⟨i, mid, hident, hnext⟩ := Reply.bind_done h
  obtain ⟨w, xs, hw, hxs, rfl, rfl⟩ := parseIdent_done hident
  rcases heat : eat [':', ':'] mid with ⟨_ | _, mid'⟩
  · rw [heat] at hnext
    obtain rfl := eat_false heat
    obtain ⟨w', hw', hmid⟩ := exists_skip mid
    obtain ⟨rfl, hderives⟩ := classify_done hw (.short hxs) hnext
    refine ⟨w ++ xs, w', ?_, hw', hderives⟩
    rw [← hmid, List.append_assoc]
  · rw [heat] at hnext
    obtain ⟨w', hw', rfl⟩ := eat_true heat
    obtain ⟨j, mid'', hident', hlast⟩ := Reply.bind_done hnext
    obtain ⟨w'', ys, hw'', hys, rfl, rfl⟩ := parseIdent_done hident'
    obtain ⟨rfl, hderives⟩ := classify_done hw (.qualified hxs hw' hw'' hys) hlast
    refine ⟨w ++ (xs ++ (w' ++ ':' :: ':' :: (w'' ++ ys))), [], ?_, blank_nil, hderives⟩
    simp only [List.append_assoc, List.cons_append, List.nil_append]

end Literals

section Readings

variable {env : NameEnv} {cs mid rest : List Char} {e l r : Expr} {s : Symbol}

theorem Reads.skip (h : Reads env s cs e rest) : Reads env s cs e (skip rest) := by
  obtain ⟨xs, w, rfl, hw, hd⟩ := h
  obtain ⟨w', hw', hrest⟩ := exists_skip rest
  refine ⟨xs, w ++ w', ?_, hw.append hw', hd⟩
  rw [List.append_assoc, ← hrest]

/-- The same text read as another symbol. -/
theorem Reads.imp {t : Symbol} (h : Reads env s cs e rest)
    (f : ∀ xs, Derives .implemented env s xs e → Derives .implemented env t xs e) :
    Reads env t cs e rest := by
  obtain ⟨xs, w, hcs, hw, hd⟩ := h
  exact ⟨xs, w, hcs, hw, f xs hd⟩

/-- Two readings with an operator between them. -/
theorem Reads.operator {cs' : List Char} {t u : Symbol} {tok w : List Char}
    (h : Reads env s cs l mid) (hmid : mid = w ++ (tok ++ cs')) (hw : Blank w) (h' : Reads env t cs' r rest)
    (f : ∀ xs v ys, Blank v → Derives .implemented env s xs l → Derives .implemented env t ys r →
      Derives .implemented env u (xs ++ (v ++ (tok ++ ys))) e) :
    Reads env u cs e rest := by
  obtain ⟨xs, v, rfl, hv, hd⟩ := h
  obtain ⟨ys, v', rfl, hv', hd'⟩ := h'
  refine ⟨xs ++ ((v ++ w) ++ (tok ++ ys)), v', ?_, hv', f xs (v ++ w) ys (hv.append hw) hd hd'⟩
  rw [hmid]
  simp only [List.append_assoc]

/-- What ends a struct literal after its last field. -/
def Closing (cs : List Char) : Prop :=
  (∃ w, Blank w ∧ cs = w ++ ['\x7d']) ∨
    ∃ w w', Blank w ∧ Blank w' ∧ cs = w ++ ',' :: (w' ++ ['\x7d'])

/-- The text begins with the fields and the end of a struct literal. -/
def ReadsFields (env : NameEnv) (cs : List Char) (xs : List (String × Expr))
    (rest : List Char) : Prop :=
  ∃ body tail, cs = body ++ (tail ++ rest) ∧ Closing tail ∧
    Derives .implemented env .fields body (.struct xs)

theorem ReadsFields.atom {w : List Char} {xs : List (String × Expr)}
    (h : ReadsFields env cs xs rest) (hw : Blank w) :
    Reads env .atom (w ++ '\x7b' :: cs) (.struct xs) rest := by
  obtain ⟨body, tail, rfl, ⟨v, hv, rfl⟩ | ⟨v, v', hv, hv', rfl⟩, hd⟩ := h
  · refine ⟨_, [], ?_, blank_nil, .struct hw hd hv⟩
    simp only [List.append_assoc, List.cons_append, List.nil_append]
  · refine ⟨_, [], ?_, blank_nil, .trailing rfl hw hd hv hv'⟩
    simp only [List.append_assoc, List.cons_append, List.nil_append]

end Readings

section Soundness

variable (env : NameEnv)

/-- What the parser's functions read when they have this many rounds. -/
structure SoundAt (n : ℕ) : Prop where
  cmp : ∀ {cs e rest}, parseCmp env n cs = .done e rest → Reads env .expr cs e rest
  add : ∀ {cs e rest}, parseAdd env n cs = .done e rest → Reads env .add cs e rest
  addRest : ∀ {cs l mid e rest}, Reads env .add cs l mid →
    addLoop env n l mid = .done e rest → Reads env .add cs e rest
  mul : ∀ {cs e rest}, parseMul env n cs = .done e rest → Reads env .mul cs e rest
  mulRest : ∀ {cs l mid e rest}, Reads env .mul cs l mid →
    mulLoop env n l mid = .done e rest → Reads env .mul cs e rest
  unary : ∀ {cs e rest}, parseUnary env n cs = .done e rest → Reads env .unary cs e rest
  chain : ∀ {cs e rest}, parsePostfix env n cs = .done e rest → Reads env .atom cs e rest
  chainRest : ∀ {cs l mid e rest}, Reads env .atom cs l mid →
    postfixLoop env n l mid = .done e rest → Reads env .atom cs e rest
  primary : ∀ {cs e rest}, parsePrimary env n cs = .done e rest → Reads env .atom cs e rest
  struct : ∀ {w cs e rest}, Blank w → parseStruct env n cs = .done e rest →
    Reads env .atom (w ++ '\x7b' :: cs) e rest
  fields : ∀ {acc cs e rest}, structLoop env n acc cs = .done e rest →
    ∃ xs, e = .struct (acc ++ xs) ∧ ReadsFields env cs xs rest

theorem parsePrimary_skip (n : ℕ) (cs : List Char) :
    parsePrimary env n (skip cs) = parsePrimary env n cs := by
  cases n with
  | zero => rfl
  | succ n => rw [parsePrimary, parsePrimary, skip_skip]

theorem parsePostfix_skip (n : ℕ) (cs : List Char) :
    parsePostfix env n (skip cs) = parsePostfix env n cs := by
  cases n with
  | zero => rfl
  | succ n => rw [parsePostfix, parsePostfix, parsePrimary_skip]

theorem structLoop_skip (n : ℕ) (acc : List (String × Expr)) (cs : List Char) :
    structLoop env n acc (skip cs) = structLoop env n acc cs := by
  cases n with
  | zero => rfl
  | succ n => rw [structLoop, structLoop, parseIdent, parseIdent, skip_skip]

variable {env}
variable {n : ℕ} {cs mid rest : List Char} {e l : Expr} (ih : SoundAt env n)

include ih

theorem SoundAt.cmp_succ (h : parseCmp env (n + 1) cs = .done e rest) :
    Reads env .expr cs e rest := by
  unfold parseCmp at h
  obtain ⟨l, mid, hadd, hnext⟩ := Reply.bind_done h
  have hl := ih.add hadd
  rcases hop : eatOp cmpOps mid with ⟨_ | op, mid'⟩
  · rw [hop] at hnext
    cases hnext
    obtain rfl := eatOp_none hop
    exact hl.skip.imp fun _ ↦ .sum
  · rw [hop] at hnext
    obtain ⟨r, mid'', hadd', hdone⟩ := Reply.bind_done hnext
    cases hdone
    obtain ⟨w, tok, hw, hmem, hmid⟩ := eatOp_some hop
    exact hl.operator hmid hw (ih.add hadd') fun _ _ _ hv hd hd' ↦ .cmp hd hv hmem hd'

theorem SoundAt.addRest_succ (hl : Reads env .add cs l mid)
    (h : addLoop env (n + 1) l mid = .done e rest) : Reads env .add cs e rest := by
  unfold addLoop at h
  rcases hop : eatOp addOps mid with ⟨_ | op, mid'⟩
  · rw [hop] at h
    cases h
    obtain rfl := eatOp_none hop
    exact hl.skip
  · rw [hop] at h
    obtain ⟨r, mid'', hmul, hnext⟩ := Reply.bind_done h
    obtain ⟨w, tok, hw, hmem, hmid⟩ := eatOp_some hop
    refine ih.addRest ?_ hnext
    exact hl.operator hmid hw (ih.mul hmul) fun _ _ _ hv hd hd' ↦ .addOp hd hv hmem hd'

theorem SoundAt.mulRest_succ (hl : Reads env .mul cs l mid)
    (h : mulLoop env (n + 1) l mid = .done e rest) : Reads env .mul cs e rest := by
  unfold mulLoop at h
  rcases hop : eatOp mulOps mid with ⟨_ | op, mid'⟩
  · rw [hop] at h
    cases h
    obtain rfl := eatOp_none hop
    exact hl.skip
  · rw [hop] at h
    obtain ⟨r, mid'', hunary, hnext⟩ := Reply.bind_done h
    obtain ⟨w, tok, hw, hmem, hmid⟩ := eatOp_some hop
    refine ih.mulRest ?_ hnext
    exact hl.operator hmid hw (ih.unary hunary) fun _ _ _ hv hd hd' ↦ .mulOp hd hv hmem hd'

theorem SoundAt.unary_succ (h : parseUnary env (n + 1) cs = .done e rest) :
    Reads env .unary cs e rest := by
  unfold parseUnary at h
  rcases heat : eat ['-'] cs with ⟨_ | _, mid⟩
  · rw [heat] at h
    obtain rfl := eat_false heat
    have hchain := (parsePostfix_skip env n cs).symm.trans h
    exact (ih.chain hchain).imp fun _ ↦ .plain
  · rw [heat] at h
    obtain ⟨r, mid', hunary, hdone⟩ := Reply.bind_done h
    cases hdone
    obtain ⟨w, hw, rfl⟩ := eat_true heat
    obtain ⟨xs, v, rfl, hv, hd⟩ := ih.unary hunary
    refine ⟨w ++ '-' :: xs, v, ?_, hv, .negs rfl hw hd⟩
    simp only [List.append_assoc, List.cons_append, List.nil_append]

theorem SoundAt.chainRest_succ (hl : Reads env .atom cs l mid)
    (h : postfixLoop env (n + 1) l mid = .done e rest) : Reads env .atom cs e rest := by
  unfold postfixLoop at h
  rcases heat : eat ['.'] mid with ⟨_ | _, mid'⟩
  · rw [heat] at h
    cases h
    obtain rfl := eat_false heat
    exact hl.skip
  · rw [heat] at h
    obtain ⟨f, mid'', hident, hnext⟩ := Reply.bind_done h
    obtain ⟨w, hw, rfl⟩ := eat_true heat
    obtain ⟨w', i, hw', hi, rfl, rfl⟩ := parseIdent_done hident
    refine ih.chainRest ?_ hnext
    obtain ⟨xs, v, rfl, hv, hd⟩ := hl
    refine ⟨xs ++ ((v ++ w) ++ '.' :: (w' ++ i)), [], ?_, blank_nil,
      .field hd (hv.append hw) hw' hi⟩
    simp only [List.append_assoc, List.cons_append, List.nil_append]

theorem SoundAt.primary_succ (h : parsePrimary env (n + 1) cs = .done e rest) :
    Reads env .atom cs e rest := by
  unfold parsePrimary at h
  obtain ⟨w, hw, hcs⟩ := exists_skip cs
  split at h
  case h_1 tail hskip =>
    rw [hskip] at hcs
    obtain ⟨inner, mid, hcmp, hnext⟩ := Reply.bind_done h
    rcases heat : eat [')'] mid with ⟨_ | _, mid'⟩
    · rw [heat] at hnext
      cases hnext
    · rw [heat] at hnext
      cases hnext
      obtain ⟨w', hw', rfl⟩ := eat_true heat
      obtain ⟨xs, v, rfl, hv, hd⟩ := ih.cmp hcmp
      refine ⟨w ++ '(' :: (xs ++ ((v ++ w') ++ [')'])), [], ?_, blank_nil,
        .paren hw hd (hv.append hw')⟩
      rw [hcs]
      simp only [List.append_assoc, List.cons_append, List.nil_append]
  case h_2 tail hskip =>
    rw [hskip] at hcs
    rw [hcs]
    exact ih.struct hw h
  case h_3 tail hskip =>
    rw [hskip] at hcs
    obtain ⟨s, hs, rfl, rfl⟩ := parseString_done h
    refine ⟨w ++ '"' :: (s ++ ['"']), [], ?_, blank_nil, .string hw hs⟩
    rw [hcs]
    simp only [List.append_assoc, List.cons_append, List.nil_append]
  case h_4 c tail _ _ _ hskip =>
    split_ifs at h with hdigit hstart
    · rw [hskip] at hcs
      rw [hcs]
      exact parseNumber_done hw hdigit h
    · rw [← hskip, parseNameOrEnum_skip] at h
      exact parseNameOrEnum_done h
  case h_5 => cases h

theorem SoundAt.struct_succ {w : List Char} (hw : Blank w)
    (h : parseStruct env (n + 1) cs = .done e rest) :
    Reads env .atom (w ++ '\x7b' :: cs) e rest := by
  unfold parseStruct at h
  rcases heat : eat ['\x7d'] cs with ⟨_ | _, mid⟩
  · rw [heat] at h
    obtain rfl := eat_false heat
    have hfields := (structLoop_skip env n [] cs).symm.trans h
    obtain ⟨xs, rfl, hxs⟩ := ih.fields hfields
    exact hxs.atom hw
  · rw [heat] at h
    cases h
    obtain ⟨w', hw', rfl⟩ := eat_true heat
    refine ⟨w ++ '\x7b' :: (w' ++ ['\x7d']), [], ?_, blank_nil, .empty hw hw'⟩
    simp only [List.append_assoc, List.cons_append, List.nil_append]

theorem SoundAt.fields_succ {acc : List (String × Expr)}
    (h : structLoop env (n + 1) acc cs = .done e rest) :
    ∃ xs, e = .struct (acc ++ xs) ∧ ReadsFields env cs xs rest := by
  unfold structLoop at h
  obtain ⟨name, mid, hident, hnext⟩ := Reply.bind_done h
  obtain ⟨w, k, hw, hk, rfl, rfl⟩ := parseIdent_done hident
  rcases hcolon : eat [':'] mid with ⟨_ | _, mid'⟩
  · rw [hcolon] at hnext
    cases hnext
  rw [hcolon] at hnext
  obtain ⟨w', hw', rfl⟩ := eat_true hcolon
  obtain ⟨val, mid'', hcmp, htail⟩ := Reply.bind_done hnext
  obtain ⟨vs, v, rfl, hv, hval⟩ := ih.cmp hcmp
  rcases hcomma : eat [','] mid'' with ⟨_ | _, after⟩
  · rw [hcomma] at htail
    dsimp only at htail
    rcases hclose : eat ['\x7d'] after with ⟨_ | _, after'⟩
    · rw [hclose] at htail
      cases htail
    rw [hclose] at htail
    cases htail
    obtain rfl := eat_false hcomma
    rw [eat_skip] at hclose
    obtain ⟨w'', hw'', rfl⟩ := eat_true hclose
    refine ⟨_, rfl, _, (v ++ w'') ++ ['\x7d'], ?_, Or.inl ⟨_, hv.append hw'', rfl⟩,
      .one hw hk hw' hval⟩
    simp only [List.append_assoc, List.cons_append, List.nil_append]
  · rw [hcomma] at htail
    dsimp only at htail
    obtain ⟨w'', hw'', rfl⟩ := eat_true hcomma
    split at htail
    case h_1 tail hskip =>
      cases htail
      obtain ⟨u, hu, hafter⟩ := exists_skip after
      refine ⟨_, rfl, _, (v ++ w'') ++ ',' :: (u ++ ['\x7d']), ?_,
        Or.inr ⟨_, _, hv.append hw'', hu, rfl⟩, .one hw hk hw' hval⟩
      rw [hafter, hskip]
      simp only [List.append_assoc, List.cons_append, List.nil_append]
    case h_2 =>
      have hfields := (structLoop_skip env n _ after).symm.trans htail
      obtain ⟨xs, rfl, body, tail, hbody, hclosing, hd⟩ := ih.fields hfields
      refine ⟨_, congrArg Expr.struct (List.append_assoc acc [_] xs), _, tail, ?_, hclosing,
        .more hw hk hw' hval (hv.append hw'') hd⟩
      rw [hbody]
      simp only [List.append_assoc, List.cons_append, List.nil_append]

omit ih in
theorem soundAt_zero : SoundAt env 0 where
  cmp h := by cases h
  add h := by cases h
  addRest _ h := by cases h
  mul h := by cases h
  mulRest _ h := by cases h
  unary h := by cases h
  chain h := by cases h
  chainRest _ h := by cases h
  primary h := by cases h
  struct _ h := by cases h
  fields h := by cases h

theorem SoundAt.succ : SoundAt env (n + 1) where
  cmp := ih.cmp_succ
  add h := by
    unfold parseAdd at h
    obtain ⟨l, mid, hmul, hnext⟩ := Reply.bind_done h
    exact ih.addRest ((ih.mul hmul).imp fun _ ↦ .product) hnext
  addRest := ih.addRest_succ
  mul h := by
    unfold parseMul at h
    obtain ⟨l, mid, hunary, hnext⟩ := Reply.bind_done h
    exact ih.mulRest ((ih.unary hunary).imp fun _ ↦ .factor) hnext
  mulRest := ih.mulRest_succ
  unary := ih.unary_succ
  chain h := by
    unfold parsePostfix at h
    obtain ⟨l, mid, hprimary, hnext⟩ := Reply.bind_done h
    exact ih.chainRest (ih.primary hprimary) hnext
  chainRest := ih.chainRest_succ
  primary := ih.primary_succ
  struct := ih.struct_succ
  fields := ih.fields_succ

omit ih in
theorem soundAt (env : NameEnv) (n : ℕ) : SoundAt env n := by
  induction n with
  | zero => exact soundAt_zero
  | succ n ih => exact ih.succ

omit ih in
/-- What the parser returns is what the whole text is. -/
theorem parses_of_parse {input : String} (h : parse env input = some (.ok e)) :
    Parses .implemented env input e := by
  unfold parse at h
  split at h
  case h_1 e' rest hcmp =>
    obtain ⟨xs, w, hinput, hw, hd⟩ := (soundAt env _).cmp hcmp
    split at h
    case h_1 hrest =>
      obtain ⟨w', hw', hrest'⟩ := exists_skip rest
      rw [hrest, List.append_nil] at hrest'
      cases h
      exact ⟨xs, w ++ rest, hinput, hw.append (hrest' ▸ hw'), hd⟩
    case h_2 => cases h
  case h_2 => cases h
  case h_3 => cases h

end Soundness

end Expr

end ConcIR
