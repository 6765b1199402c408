import ConcIR.Expr.Accepting

/-!
# The parser and its grammar

By induction on the derivation, every derived text is read to its end, and every text the
parser returns a tree for is derived. The documented grammar is a smaller one.
-/

namespace ConcIR

namespace Expr

section Recognizes

variable (env : NameEnv)

/-- The characters that would go on with a derived text. A product that is read may still
be the first factor of a longer one, and a sum the first term. -/
def goesOn : Symbol → List Char
  | .atom => [':']
  | .unary | .mul => ['.', ':']
  | .add => ['*', '/', '%', '.', ':']
  | .expr => ['=', '!', '<', '>', '+', '-', '*', '/', '%', '.', ':']
  | .fields => []

/-- The parser reads the text to its end, before everything that does not go on with it. -/
def Recognizes : Symbol → List Char → Expr → Prop
  | .expr, cs, e => ∀ rest n, Stops (goesOn .expr) rest → 8 * (cs ++ rest).length + 7 ≤ n →
      parseCmp env n (cs ++ rest) = .done e (skip rest)
  | .add, cs, e => ∀ rest n, Stops (goesOn .add) rest → 8 * (cs ++ rest).length + 6 ≤ n →
      ∃ m, 8 * rest.length + 6 ≤ m ∧ parseAdd env n (cs ++ rest) = addLoop env m e (skip rest)
  | .mul, cs, e => ∀ rest n, Stops (goesOn .mul) rest → 8 * (cs ++ rest).length + 5 ≤ n →
      ∃ m, 8 * rest.length + 5 ≤ m ∧ parseMul env n (cs ++ rest) = mulLoop env m e (skip rest)
  | .unary, cs, e => ∀ rest n, Stops (goesOn .unary) rest → 8 * (cs ++ rest).length + 4 ≤ n →
      parseUnary env n (cs ++ rest) = .done e (skip rest)
  | .atom, cs, e => ∀ rest n, Stops (goesOn .atom) rest → 8 * (cs ++ rest).length + 3 ≤ n →
      ∃ m, 8 * rest.length + 3 ≤ m ∧
        parsePostfix env n (cs ++ rest) = postfixLoop env m e (skip rest)
  | .fields, cs, e => ∀ xs acc tail rest n, e = .struct xs → Closing tail →
      8 * (cs ++ (tail ++ rest)).length + 8 ≤ n →
        structLoop env n acc (cs ++ (tail ++ rest)) = .done (.struct (acc ++ xs)) rest

variable {env} {cs xs ys rest tok w : List Char} {e l r : Expr} {n : ℕ}

/-- A number of rounds that is not zero. -/
theorem exists_rounds {k : ℕ} (h : k + 1 ≤ n) : ∃ m, n = m + 1 ∧ k ≤ m :=
  ⟨n - 1, by omega, by omega⟩

theorem addLoop_stop (hn : 0 < n)
    (hrest : Stops ['+', '-', '*', '/', '%', '.', ':'] rest) :
    addLoop env n e (skip rest) = .done e (skip rest) := by
  obtain ⟨n, rfl, -⟩ := exists_rounds hn
  have hop : eatOp addOps (skip rest) = (none, skip (skip rest)) := by
    refine eatOp_ne ['+', '-'] (by decide) (by decide) fun c hc ↦ ?_
    rw [skip_skip]
    exact hrest.skip_ne (List.mem_append_left ['*', '/', '%', '.', ':'] hc)
  rw [addLoop, hop, skip_skip]

theorem mulLoop_stop (hn : 0 < n) (hrest : Stops (goesOn .add) rest) :
    mulLoop env n e (skip rest) = .done e (skip rest) := by
  obtain ⟨n, rfl, -⟩ := exists_rounds hn
  have hop : eatOp mulOps (skip rest) = (none, skip (skip rest)) := by
    refine eatOp_ne ['*', '/', '%'] (by decide) (by decide) fun c hc ↦ ?_
    rw [skip_skip]
    exact hrest.skip_ne (List.mem_append_left ['.', ':'] hc)
  rw [mulLoop, hop, skip_skip]

theorem postfixLoop_stop (hn : 0 < n) (hrest : Stops (goesOn .unary) rest) :
    postfixLoop env n e (skip rest) = .done e (skip rest) := by
  obtain ⟨n, rfl, -⟩ := exists_rounds hn
  have heat : eat ['.'] (skip rest) = (false, skip (skip rest)) := by
    refine eat_ne fun r ↦ ?_
    rw [skip_skip]
    exact hrest.skip_ne List.mem_cons_self r
  rw [postfixLoop, heat, skip_skip]

theorem Recognizes.add_done (h : Recognizes env .add cs e)
    (hrest : Stops ['+', '-', '*', '/', '%', '.', ':'] rest)
    (hn : 8 * (cs ++ rest).length + 6 ≤ n) :
    parseAdd env n (cs ++ rest) = .done e (skip rest) := by
  obtain ⟨m, hm, hadd⟩ := h rest n (hrest.mono (by decide)) hn
  rw [hadd, addLoop_stop (by omega) hrest]

theorem Recognizes.mul_done (h : Recognizes env .mul cs e) (hrest : Stops (goesOn .add) rest)
    (hn : 8 * (cs ++ rest).length + 5 ≤ n) :
    parseMul env n (cs ++ rest) = .done e (skip rest) := by
  obtain ⟨m, hm, hmul⟩ := h rest n (hrest.mono (by decide)) hn
  rw [hmul, mulLoop_stop (by omega) hrest]

theorem Recognizes.chain_done (h : Recognizes env .atom cs e) (hrest : Stops (goesOn .unary) rest)
    (hn : 8 * (cs ++ rest).length + 3 ≤ n) :
    parsePostfix env n (cs ++ rest) = .done e (skip rest) := by
  obtain ⟨m, hm, hchain⟩ := h rest n (hrest.mono (by decide)) hn
  rw [hchain, postfixLoop_stop (by omega) hrest]

theorem Recognizes.sum (h : Recognizes env .add cs e) : Recognizes env .expr cs e := by
  intro rest n hrest hn
  obtain ⟨n, rfl, hle⟩ := exists_rounds hn
  have hop : eatOp cmpOps (skip rest) = (none, skip (skip rest)) := by
    refine eatOp_ne ['=', '!', '<', '>'] (by decide) (by decide) fun c hc ↦ ?_
    rw [skip_skip]
    exact hrest.skip_ne (List.mem_append_left ['+', '-', '*', '/', '%', '.', ':'] hc)
  rw [parseCmp, h.add_done (hrest.mono (by decide)) (by omega), Reply.done_bind, hop, skip_skip]

/-- Before an operator a text stops that does not go on with its first character. -/
theorem stops_operator {α : Type} {ops : List (List Char × α)} {op : α} {bad : List Char}
    (hops : ∀ p ∈ ops, Follows bad (p.1.headD ' ') ∧ p.1.headD ' ' ≠ '.') (hw : Blank w)
    (hop : (tok, op) ∈ ops) : Stops bad (w ++ (tok ++ rest)) := by
  obtain ⟨hfollows, hpoint⟩ := hops _ hop
  cases tok with
  | nil => exact absurd hfollows.1 (by decide : ¬ isWhitespace ' ' = false)
  | cons c tok => exact Stops.cons hw hfollows fun h ↦ absurd h hpoint

theorem Recognizes.cmp {op : CmpOp} (hl : Recognizes env .add xs l) (hw : Blank w)
    (hop : (tok, op) ∈ cmpOps) (hr : Recognizes env .add ys r)
    (hys : ∀ rest t, ys ++ rest ≠ '=' :: t) :
    Recognizes env .expr (xs ++ (w ++ (tok ++ ys))) (.cmp op l r) := by
  intro rest n hrest hn
  obtain ⟨n, rfl, hle⟩ := exists_rounds hn
  simp only [List.append_assoc, List.length_append] at hn ⊢
  have hstops : Stops ['+', '-', '*', '/', '%', '.', ':'] (w ++ (tok ++ (ys ++ rest))) :=
    stops_operator (by decide) hw hop
  have hadd : parseAdd env n (xs ++ (w ++ (tok ++ (ys ++ rest)))) = .done l _ :=
    hl.add_done hstops (by simp only [List.length_append]; omega)
  have hadd' : parseAdd env n (ys ++ rest) = .done r _ :=
    hr.add_done (hrest.mono (by decide)) (by simp only [List.length_append]; omega)
  rw [parseCmp, hadd, Reply.done_bind, eatOp_skip, eatOp_cmp hop hw (hys rest)]
  dsimp only
  rw [hadd', Reply.done_bind]

theorem Recognizes.product (h : Recognizes env .mul cs e) (hlen : 0 < cs.length) :
    Recognizes env .add cs e := by
  intro rest n hrest hn
  obtain ⟨n, rfl, hle⟩ := exists_rounds hn
  have hmul : parseMul env n (cs ++ rest) = .done e _ := h.mul_done hrest hle
  refine ⟨n, ?_, ?_⟩
  · simp only [List.length_append] at hn
    omega
  · rw [parseAdd, hmul, Reply.done_bind]

theorem addLoop_skip (n : ℕ) (cs : List Char) : addLoop env n e (skip cs) = addLoop env n e cs := by
  cases n with
  | zero => rfl
  | succ n => rw [addLoop, addLoop, eatOp_skip]

theorem mulLoop_skip (n : ℕ) (cs : List Char) : mulLoop env n e (skip cs) = mulLoop env n e cs := by
  cases n with
  | zero => rfl
  | succ n => rw [mulLoop, mulLoop, eatOp_skip]

theorem postfixLoop_skip (n : ℕ) (cs : List Char) :
    postfixLoop env n e (skip cs) = postfixLoop env n e cs := by
  cases n with
  | zero => rfl
  | succ n => rw [postfixLoop, postfixLoop, eat_skip]

theorem Recognizes.addOp {op : BinOp} (hl : Recognizes env .add xs l) (hw : Blank w)
    (hop : (tok, op) ∈ addOps) (hr : Recognizes env .mul ys r) (hlen : 0 < ys.length) :
    Recognizes env .add (xs ++ (w ++ (tok ++ ys))) (.binOp op l r) := by
  intro rest n hrest hn
  simp only [List.append_assoc, List.length_append] at hn ⊢
  have hstops : Stops (goesOn .add) (w ++ (tok ++ (ys ++ rest))) :=
    stops_operator (by decide) hw hop
  obtain ⟨m, hm, hadd⟩ := hl _ n hstops (by simp only [List.length_append]; omega)
  obtain ⟨m, rfl, -⟩ := exists_rounds hm
  simp only [List.length_append] at hm
  have hmul : parseMul env m (ys ++ rest) = .done r _ :=
    hr.mul_done hrest (by simp only [List.length_append]; omega)
  refine ⟨m, by omega, ?_⟩
  rw [hadd, addLoop, eatOp_skip, eatOp_add hop hw]
  dsimp only
  rw [hmul, Reply.done_bind]

theorem Recognizes.factor (h : Recognizes env .unary cs e) (hlen : 0 < cs.length) :
    Recognizes env .mul cs e := by
  intro rest n hrest hn
  obtain ⟨n, rfl, hle⟩ := exists_rounds hn
  have hunary : parseUnary env n (cs ++ rest) = .done e _ := h rest n hrest hle
  refine ⟨n, ?_, ?_⟩
  · simp only [List.length_append] at hn
    omega
  · rw [parseMul, hunary, Reply.done_bind]

theorem Recognizes.mulOp {op : BinOp} (hl : Recognizes env .mul xs l) (hw : Blank w)
    (hop : (tok, op) ∈ mulOps) (hr : Recognizes env .unary ys r) (hlen : 0 < ys.length) :
    Recognizes env .mul (xs ++ (w ++ (tok ++ ys))) (.binOp op l r) := by
  intro rest n hrest hn
  simp only [List.append_assoc, List.length_append] at hn ⊢
  have hstops : Stops (goesOn .mul) (w ++ (tok ++ (ys ++ rest))) :=
    stops_operator (by decide) hw hop
  obtain ⟨m, hm, hmul⟩ := hl _ n hstops (by simp only [List.length_append]; omega)
  obtain ⟨m, rfl, -⟩ := exists_rounds hm
  simp only [List.length_append] at hm
  have hunary : parseUnary env m (ys ++ rest) = .done r _ :=
    hr rest m hrest (by simp only [List.length_append]; omega)
  refine ⟨m, by omega, ?_⟩
  rw [hmul, mulLoop, eatOp_skip, eatOp_mul hop hw]
  dsimp only
  rw [hunary, Reply.done_bind]

theorem Recognizes.plain (h : Recognizes env .atom cs e)
    (hcs : ∀ rest t, skip (cs ++ rest) ≠ '-' :: t) :
    Recognizes env .unary cs e := by
  intro rest n hrest hn
  obtain ⟨n, rfl, hle⟩ := exists_rounds hn
  have hchain : parsePostfix env n (cs ++ rest) = .done e _ := h.chain_done hrest hle
  rw [parseUnary, eat_ne (hcs rest)]
  dsimp only
  rw [parsePostfix_skip, hchain]

theorem Recognizes.negs (h : Recognizes env .unary cs e) (hw : Blank w) :
    Recognizes env .unary (w ++ '-' :: cs) (.unaryNeg e) := by
  intro rest n hrest hn
  obtain ⟨n, rfl, hle⟩ := exists_rounds hn
  simp only [List.append_assoc, List.cons_append, List.length_append, List.length_cons] at hn ⊢
  have heat : eat ['-'] (w ++ '-' :: (cs ++ rest)) = (true, cs ++ rest) :=
    @eat_append [] _ w '-' hw (by decide)
  have hunary : parseUnary env n (cs ++ rest) = .done e _ :=
    h rest n hrest (by simp only [List.length_append]; omega)
  rw [parseUnary, heat]
  dsimp only
  rw [hunary, Reply.done_bind]

theorem Recognizes.field {w' i : List Char} (h : Recognizes env .atom xs e) (hw : Blank w)
    (hw' : Blank w') (hi : Ident i) :
    Recognizes env .atom (xs ++ (w ++ '.' :: (w' ++ i))) (.field e (String.ofList i)) := by
  intro rest n hrest hn
  simp only [List.append_assoc, List.cons_append, List.length_append, List.length_cons] at hn ⊢
  have hdigit : ∀ d r, w' ++ (i ++ rest) = d :: r → d.isDigit = false := by
    intro d r hd
    obtain ⟨c, i, rfl, hc⟩ := hi.opens
    by_contra hdigit
    rw [Bool.not_eq_false] at hdigit
    cases w' with
    | nil =>
        obtain rfl : c = d := (List.cons.inj hd).1
        rw [identStart_of_isDigit hdigit] at hc
        cases hc
    | cons v w' =>
        obtain rfl : v = d := (List.cons.inj hd).1
        have hv := hw' v List.mem_cons_self
        rw [isWhitespace_of_identChar (identChar_of_isDigit hdigit)] at hv
        cases hv
  have hstops : Stops (goesOn .atom) (w ++ '.' :: (w' ++ (i ++ rest))) :=
    .cons hw (by decide) fun _ ↦ hdigit
  obtain ⟨m, hm, hchain⟩ := h _ n hstops (by
    simp only [List.length_append, List.length_cons]
    omega)
  obtain ⟨m, rfl, -⟩ := exists_rounds hm
  simp only [List.length_append, List.length_cons] at hm
  have heat : eat ['.'] (w ++ '.' :: (w' ++ (i ++ rest))) = (true, w' ++ (i ++ rest)) :=
    @eat_append [] _ w '.' hw (by decide)
  refine ⟨m, by omega, ?_⟩
  rw [hchain, postfixLoop, eat_skip, heat]
  dsimp only
  rw [parseIdent_append hw' hi hrest, Reply.done_bind, postfixLoop_skip]

/-- An atom that is read by itself may have a chain of fields after it. -/
theorem Recognizes.primary (hlen : 0 < cs.length)
    (h : ∀ rest n, Stops (goesOn .atom) rest → 8 * (cs ++ rest).length + 2 ≤ n →
      ∃ rest', skip rest' = skip rest ∧ parsePrimary env n (cs ++ rest) = .done e rest') :
    Recognizes env .atom cs e := by
  intro rest n hrest hn
  obtain ⟨n, rfl, hle⟩ := exists_rounds hn
  obtain ⟨rest', hskip, hprimary⟩ := h rest n hrest hle
  simp only [List.length_append] at hn
  refine ⟨n, by omega, ?_⟩
  rw [parsePostfix, hprimary, Reply.done_bind, ← hskip, postfixLoop_skip]

theorem Recognizes.paren {w' : List Char} (h : Recognizes env .expr cs e) (hw : Blank w)
    (hw' : Blank w') : Recognizes env .atom (w ++ '(' :: (cs ++ (w' ++ [')']))) e := by
  refine .primary (by simp) fun rest n _ hn ↦ ⟨rest, rfl, ?_⟩
  obtain ⟨n, rfl, hle⟩ := exists_rounds hn
  simp only [List.append_assoc, List.cons_append, List.nil_append, List.length_append,
    List.length_cons] at hn ⊢
  have hstops : Stops (goesOn .expr) (w' ++ ')' :: rest) :=
    .cons hw' (by decide) fun h ↦ absurd h (by decide)
  have hcmp : parseCmp env n (cs ++ (w' ++ ')' :: rest)) = .done e _ :=
    h _ n hstops (by simp only [List.length_append, List.length_cons]; omega)
  have heat : eat [')'] (w' ++ ')' :: rest) = (true, rest) :=
    @eat_append [] _ w' ')' hw' (by decide)
  rw [parsePrimary, skip_append_cons hw (by decide)]
  change (parseCmp env n (cs ++ (w' ++ ')' :: rest))).bind _ = _
  rw [hcmp, Reply.done_bind, eat_skip, heat]

/-- The atoms that begin with an opening brace. -/
theorem Recognizes.struct_of {body : List Char} (hw : Blank w)
    (h : ∀ rest n, 8 * (body ++ rest).length + 9 ≤ n →
      parseStruct env n (body ++ rest) = .done e rest) :
    Recognizes env .atom (w ++ '\x7b' :: body) e := by
  refine .primary (by simp) fun rest n _ hn ↦ ⟨rest, rfl, ?_⟩
  obtain ⟨n, rfl, hle⟩ := exists_rounds hn
  simp only [List.append_assoc, List.cons_append, List.length_append, List.length_cons] at hn ⊢
  rw [parsePrimary, skip_append_cons hw (by decide)]
  exact h rest n (by simp only [List.length_append]; omega)

theorem Recognizes.empty {w' : List Char} (hw : Blank w) (hw' : Blank w') :
    Recognizes env .atom (w ++ '\x7b' :: (w' ++ ['\x7d'])) (.struct []) := by
  refine .struct_of hw fun rest n hn ↦ ?_
  obtain ⟨n, rfl, -⟩ := exists_rounds hn
  rw [List.append_assoc, List.singleton_append]
  have heat : eat ['\x7d'] (w' ++ '\x7d' :: rest) = (true, rest) :=
    @eat_append [] _ w' '\x7d' hw' (by decide)
  rw [parseStruct, heat]

theorem Recognizes.struct {tail : List Char} {xs : List (String × Expr)}
    (h : Recognizes env .fields cs (.struct xs)) (hw : Blank w) (htail : Closing tail)
    (hcs : ∀ rest t, skip (cs ++ rest) ≠ '\x7d' :: t) :
    Recognizes env .atom (w ++ '\x7b' :: (cs ++ tail)) (.struct xs) := by
  refine .struct_of hw fun rest n hn ↦ ?_
  obtain ⟨n, rfl, hle⟩ := exists_rounds hn
  rw [List.append_assoc] at hle ⊢
  rw [parseStruct, eat_ne (hcs _)]
  dsimp only
  rw [structLoop_skip]
  exact h xs [] tail rest n rfl htail hle

/-- The atoms that begin with a quote, a digit or a letter. -/
theorem Recognizes.token {c : Char} (hw : Blank w) (hc : AtomStart c)
    (h : ∀ rest n, Stops (goesOn .atom) rest → ∃ rest', skip rest' = skip rest ∧
      ∀ cs', skip cs' = c :: (cs ++ rest) → parsePrimary env (n + 1) cs' = .done e rest') :
    Recognizes env .atom (w ++ c :: cs) e := by
  refine .primary (by simp) fun rest n hrest hn ↦ ?_
  obtain ⟨n, rfl, -⟩ := exists_rounds hn
  obtain ⟨rest', hskip, hprimary⟩ := h rest n hrest
  refine ⟨rest', hskip, hprimary _ ?_⟩
  rw [List.append_assoc, List.cons_append, skip_append_cons hw hc.isWhitespace]

theorem Recognizes.string {s : List Char} (hw : Blank w) (hs : '"' ∉ s) :
    Recognizes env .atom (w ++ '"' :: (s ++ ['"'])) (.lit (.string (String.ofList s))) := by
  refine .token hw (Or.inr (Or.inr (Or.inl rfl))) fun rest n _ ↦ ⟨rest, rfl, fun cs' hcs ↦ ?_⟩
  rw [List.append_assoc, List.singleton_append] at hcs
  rw [parsePrimary, hcs]
  exact parseString_append hs

theorem parsePrimary_digit {c : Char} (hc : c.isDigit = true) (hcs : skip cs = c :: xs) :
    parsePrimary env (n + 1) cs = parseNumber (c :: xs) := by
  have hstart : AtomStart c := Or.inr (Or.inr (Or.inr (Or.inl hc)))
  rw [parsePrimary, hcs]
  split
  case h_1 heq => exact absurd (List.cons.inj heq).1 (by rintro rfl; cases hc)
  case h_2 heq => exact absurd (List.cons.inj heq).1 (by rintro rfl; cases hc)
  case h_3 heq => exact absurd (List.cons.inj heq).1 (by rintro rfl; cases hc)
  case h_4 heq =>
    cases heq
    exact if_pos hc
  case h_5 heq => cases heq

theorem parsePrimary_letter {c : Char} (hc : identStart c = true) (hcs : skip cs = c :: xs) :
    parsePrimary env (n + 1) cs = parseNameOrEnum env (c :: xs) := by
  have hdigit : ¬ c.isDigit = true := fun h ↦ by
    rw [identStart_of_isDigit h] at hc
    cases hc
  rw [parsePrimary, hcs]
  split
  case h_1 heq => exact absurd (List.cons.inj heq).1 (by rintro rfl; cases hc)
  case h_2 heq => exact absurd (List.cons.inj heq).1 (by rintro rfl; cases hc)
  case h_3 heq => exact absurd (List.cons.inj heq).1 (by rintro rfl; cases hc)
  case h_4 heq =>
    cases heq
    exact (if_neg hdigit).trans (if_pos hc)
  case h_5 heq => cases heq

theorem Recognizes.int {ds : List Char} (hw : Blank w) (hds : Digits ds)
    (hrange : Nat.ofDigitChars 10 ds 0 < 2 ^ 63) :
    Recognizes env .atom (w ++ ds) (.lit (.int (Nat.ofDigitChars 10 ds 0))) := by
  obtain ⟨c, r, rfl, hc⟩ := hds.opens
  refine .token hw (Or.inr (Or.inr (Or.inr (Or.inl hc)))) fun rest n hrest ↦
    ⟨rest, rfl, fun cs' hcs ↦ ?_⟩
  rw [parsePrimary_digit hc hcs]
  exact parseNumber_int hds hrange hrest

theorem Recognizes.float {ds fs : List Char} (hw : Blank w) (hds : Digits ds) (hfs : Digits fs) :
    Recognizes env .atom (w ++ (ds ++ '.' :: fs)) (.lit (.float (parseF64 ds fs))) := by
  obtain ⟨c, r, rfl, hc⟩ := hds.opens
  refine .token hw (Or.inr (Or.inr (Or.inr (Or.inl hc)))) fun rest n hrest ↦
    ⟨rest, rfl, fun cs' hcs ↦ ?_⟩
  change skip cs' = c :: ((r ++ '.' :: fs) ++ rest) at hcs
  rw [List.append_assoc, List.cons_append] at hcs
  rw [parsePrimary_digit hc hcs]
  exact parseNumber_float hds hfs hrest

/-- A name is read as what it stands for. -/
theorem Recognizes.nameText {name : String} (hw : Blank w) (hn : NameText cs name)
    (hclass : ∀ rest, classify env name rest = .done e rest) :
    Recognizes env .atom (w ++ cs) e := by
  obtain ⟨c, r, rfl, hc⟩ := hn.opens
  refine .token hw (Or.inr (Or.inr (Or.inr (Or.inr hc)))) fun rest n hrest ↦ ?_
  obtain ⟨rest', hskip, hname⟩ := parseNameOrEnum_append env hn hrest List.mem_cons_self
  refine ⟨rest', hskip, fun cs' hcs ↦ ?_⟩
  rw [parsePrimary_letter hc hcs]
  exact hname.trans (hclass rest')

theorem Recognizes.name {name : String} (hw : Blank w) (hn : NameText cs name)
    (hget : (env.get name).isSome = true) : Recognizes env .atom (w ++ cs) (.name name) :=
  .nameText hw hn fun _ ↦ if_pos hget

theorem Recognizes.bool {b : Bool} (hw : Blank w) (hfree : env.get (toString b) = none) :
    Recognizes env .atom (w ++ (toString b).toList) (.lit (.bool b)) := by
  have hident : Ident (toString b).toList := by
    cases b with
    | false => exact ⟨rfl, List.all_eq_true.mp rfl⟩
    | true => exact ⟨rfl, List.all_eq_true.mp rfl⟩
  refine .nameText hw (.short hident) fun rest ↦ ?_
  rw [String.ofList_toList, classify, if_neg (by rw [hfree]; exact Bool.false_ne_true)]
  cases b with
  | false => rfl
  | true => rfl

theorem Recognizes.enum {name : String} (hw : Blank w) (hn : NameText cs name)
    (hget : env.get name = none) (htrue : name ≠ "true") (hfalse : name ≠ "false")
    (hv : name ∈ env.enumVariants) : Recognizes env .atom (w ++ cs) (.lit (.enum name)) := by
  refine .nameText hw hn fun rest ↦ ?_
  rw [classify, if_neg (by rw [hget]; exact Bool.false_ne_true), if_neg htrue, if_neg hfalse,
    if_pos (List.contains_iff_mem.mpr hv)]

/-- Reading one field of a struct literal up to what follows its expression. -/
theorem structLoop_field {k w' : List Char} {acc : List (String × Expr)} (hw : Blank w)
    (hk : Ident k) (hw' : Blank w') (h : Recognizes env .expr cs e)
    (hrest : Stops (goesOn .expr) rest) (hn : 8 * (cs ++ rest).length + 7 ≤ n) :
    structLoop env (n + 1) acc (w ++ (k ++ (w' ++ ':' :: (cs ++ rest)))) =
      match eat [','] rest with
      | (true, cs) =>
          match skip cs with
          | '\x7d' :: cs => .done (.struct (acc ++ [(String.ofList k, e)])) cs
          | cs => structLoop env n (acc ++ [(String.ofList k, e)]) cs
      | (false, cs) =>
          match eat ['\x7d'] cs with
          | (true, cs) => .done (.struct (acc ++ [(String.ofList k, e)])) cs
          | (false, _) => .fail ⟨"expected ',' or '\x7d' in struct literal"⟩ := by
  have hstops : Stops [] (w' ++ ':' :: (cs ++ rest)) :=
    .cons hw' (by decide) fun h ↦ absurd h (by decide)
  have heat : eat [':'] (w' ++ ':' :: (cs ++ rest)) = (true, cs ++ rest) :=
    @eat_append [] _ w' ':' hw' (by decide)
  rw [structLoop, parseIdent_append hw hk hstops, Reply.done_bind, heat]
  dsimp only
  rw [h rest n hrest hn, Reply.done_bind, eat_skip] <;> rfl

theorem eat_other {c d : Char} (hw : Blank w) (hd : isWhitespace d = false) (hne : d ≠ c) :
    eat [c] (w ++ d :: rest) = (false, d :: rest) := by
  rw [eat_ne fun r h ↦ ?_, skip_append_cons hw hd]
  rw [skip_append_cons hw hd] at h
  exact hne (List.cons.inj h).1

theorem Recognizes.one {k w' : List Char} (hw : Blank w) (hk : Ident k) (hw' : Blank w')
    (h : Recognizes env .expr cs e) :
    Recognizes env .fields (w ++ (k ++ (w' ++ ':' :: cs))) (.struct [(String.ofList k, e)]) := by
  intro xs acc tail rest n hxs htail hn
  cases hxs
  obtain ⟨n, rfl, hle⟩ := exists_rounds hn
  simp only [List.append_assoc, List.cons_append, List.length_append, List.length_cons] at hle ⊢
  rcases htail with ⟨v, hv, rfl⟩ | ⟨v, v', hv, hv', rfl⟩
  · have hstops : Stops (goesOn .expr) (v ++ '\x7d' :: rest) :=
      .cons hv (by decide) fun h ↦ absurd h (by decide)
    simp only [List.append_assoc, List.cons_append, List.nil_append, List.length_append,
      List.length_cons] at hle ⊢
    rw [structLoop_field hw hk hw' h hstops
      (by simp only [List.length_append, List.length_cons]; omega), eat_other hv (by decide)
        (by decide)]
    dsimp only
    rw [show eat ['\x7d'] ('\x7d' :: rest) = (true, rest) from
      @eat_append [] _ [] '\x7d' blank_nil (by decide)]
  · have hstops : Stops (goesOn .expr) (v ++ ',' :: (v' ++ '\x7d' :: rest)) :=
      .cons hv (by decide) fun h ↦ absurd h (by decide)
    simp only [List.append_assoc, List.cons_append, List.nil_append, List.length_append,
      List.length_cons] at hle ⊢
    rw [structLoop_field hw hk hw' h hstops
      (by simp only [List.length_append, List.length_cons]; omega),
      show eat [','] (v ++ ',' :: (v' ++ '\x7d' :: rest)) = (true, v' ++ '\x7d' :: rest) from
        @eat_append [] _ v ',' hv (by decide)]
    dsimp only
    rw [skip_append_cons hv' (by decide)]
    rfl

theorem Recognizes.more {k w' w'' ds : List Char} {xs : List (String × Expr)} (hw : Blank w)
    (hk : Ident k) (hw' : Blank w') (h : Recognizes env .expr cs e) (hw'' : Blank w'')
    (hfields : Recognizes env .fields ds (.struct xs))
    (hds : ∀ rest t, skip (ds ++ rest) ≠ '\x7d' :: t) :
    Recognizes env .fields (w ++ (k ++ (w' ++ ':' :: (cs ++ (w'' ++ ',' :: ds)))))
      (.struct ((String.ofList k, e) :: xs)) := by
  intro ys acc tail rest n hys htail hn
  cases hys
  obtain ⟨n, rfl, hle⟩ := exists_rounds hn
  simp only [List.append_assoc, List.cons_append, List.length_append, List.length_cons] at hle ⊢
  have hstops : Stops (goesOn .expr) (w'' ++ ',' :: (ds ++ (tail ++ rest))) :=
    .cons hw'' (by decide) fun h ↦ absurd h (by decide)
  rw [structLoop_field hw hk hw' h hstops
    (by simp only [List.length_append, List.length_cons]; omega),
    show eat [','] (w'' ++ ',' :: (ds ++ (tail ++ rest))) = (true, ds ++ (tail ++ rest)) from
      @eat_append [] _ w'' ',' hw'' (by decide)]
  dsimp only
  split
  case h_1 t heq => exact absurd heq (hds _ t)
  case h_2 =>
    rw [structLoop_skip, hfields xs (acc ++ [(String.ofList k, e)]) tail rest n rfl htail
      (by simp only [List.length_append]; omega), List.append_assoc, List.singleton_append]

end Recognizes

section Recognition

variable {env : NameEnv} {s : Symbol} {cs : List Char} {e : Expr}

theorem Derives.length_pos {g : Dialect} (h : Derives g env s cs e) : 0 < cs.length := by
  obtain ⟨w, c, r, rfl, -, -⟩ := h.opens
  rw [List.length_append, List.length_cons]
  omega

theorem Opens.ne_brace {s : Symbol} {c : Char} (h : Opens s c) (hs : s = .fields) :
    c ≠ '\x7d' := by
  subst hs
  rintro rfl
  cases h

/-- An operand does not begin with an equals sign. -/
theorem Derives.append_ne (h : Derives .implemented env .add cs e) (rest t : List Char) :
    cs ++ rest ≠ '=' :: t := by
  intro heq
  refine h.skip_ne (d := '=') ?_ rest t ?_
  · rintro c (rfl | hc)
    · decide
    · exact hc.ne (by decide)
  · rw [heq]
    exact skip_cons (by decide)

/-- The parser reads every derived text. -/
theorem Derives.recognizes (h : Derives .implemented env s cs e) : Recognizes env s cs e := by
  induction h with
  | sum h ih => exact ih.sum
  | cmp hl hw hop hr ihl ihr => exact ihl.cmp hw hop ihr hr.append_ne
  | product h ih => exact ih.product h.length_pos
  | addOp hl hw hop hr ihl ihr => exact ihl.addOp hw hop ihr hr.length_pos
  | factor h ih => exact ih.factor h.length_pos
  | mulOp hl hw hop hr ihl ihr => exact ihl.mulOp hw hop ihr hr.length_pos
  | plain h ih => exact ih.plain (h.skip_ne fun c hc ↦ AtomStart.ne hc (by decide))
  | neg hw h ih =>
      exact (ih.plain (h.skip_ne fun c hc ↦ AtomStart.ne hc (by decide))).negs hw
  | negs hg hw h ih => exact ih.negs hw
  | field h hw hw' hi ih => exact ih.field hw hw' hi
  | paren hw h hw' ih => exact ih.paren hw hw'
  | empty hw hw' => exact .empty hw hw'
  | struct hw h hw' ih =>
      exact ih.struct hw (Or.inl ⟨_, hw', rfl⟩) (h.skip_ne fun c hc ↦ hc.ne_brace rfl)
  | trailing hg hw h hw' hw'' ih =>
      exact ih.struct hw (Or.inr ⟨_, _, hw', hw'', rfl⟩) (h.skip_ne fun c hc ↦ hc.ne_brace rfl)
  | one hw hk hw' h ih => exact .one hw hk hw' ih
  | more hw hk hw' h hw'' hrest ih ih' =>
      exact .more hw hk hw' ih hw'' ih' (hrest.skip_ne fun c hc ↦ hc.ne_brace rfl)
  | string hw hs => exact .string hw hs
  | int hw hds hrange => exact .int hw hds (hrange rfl)
  | float hw hds hfs => exact .float hw hds hfs
  | name hw hn hget => exact .name hw hn hget
  | bool hw hfree => exact .bool hw (hfree rfl)
  | enum hw hn hget hv => exact .enum hw hn.1 hget hn.2.1 hn.2.2 hv

theorem parse_of_parses {input : String} (h : Parses .implemented env input e) :
    parse env input = some (.ok e) := by
  obtain ⟨cs, w, hinput, hw, hd⟩ := h
  have hcmp := hd.recognizes w (8 * input.toList.length + 8) (Stops.blank hw)
    (by rw [← hinput]; exact Nat.le_succ _)
  rw [← hinput, skip_eq_nil hw] at hcmp
  rw [parse, hcmp]
  rfl

/-- The parser answers, and what it accepts is what the grammar derives, as the tree that
the grammar derives. -/
theorem parse_exact (env : NameEnv) (input : String) :
    parse env input ≠ none ∧
      ∀ e, parse env input = some (.ok e) ↔ Parses .implemented env input e :=
  ⟨parse_ne_none env input, fun _ ↦ ⟨parses_of_parse, parse_of_parses⟩⟩

/-- In the documented grammar an atom comes after a minus. -/
theorem Derives.documented_opens (h : Derives .documented env s cs e)
    (hs : s ≠ .fields ∧ s ≠ .atom) :
    ∃ w c r, cs = w ++ c :: r ∧ Blank w ∧ (AtomStart c ∨
      c = '-' ∧ ∃ w' d t, r = w' ++ d :: t ∧ Blank w' ∧ AtomStart d) := by
  have left : ∀ {xs ys : List Char}, (∃ w c r, xs = w ++ c :: r ∧ Blank w ∧ (AtomStart c ∨
      c = '-' ∧ ∃ w' d t, r = w' ++ d :: t ∧ Blank w' ∧ AtomStart d)) →
      ∃ w c r, xs ++ ys = w ++ c :: r ∧ Blank w ∧ (AtomStart c ∨
        c = '-' ∧ ∃ w' d t, r = w' ++ d :: t ∧ Blank w' ∧ AtomStart d) := by
    rintro xs ys ⟨w, c, r, rfl, hw, hc⟩
    refine ⟨w, c, r ++ ys, List.append_assoc _ _ _, hw, hc.imp_right ?_⟩
    rintro ⟨rfl, w', d, t, rfl, hw', hd⟩
    exact ⟨rfl, w', d, t ++ ys, List.append_assoc _ _ _, hw', hd⟩
  induction h with
  | sum h ih | product h ih | factor h ih => exact ih ⟨Symbol.noConfusion, Symbol.noConfusion⟩
  | cmp hl hw hop hr ihl ihr | addOp hl hw hop hr ihl ihr | mulOp hl hw hop hr ihl ihr =>
      exact left (ihl ⟨Symbol.noConfusion, Symbol.noConfusion⟩)
  | plain h ih =>
      obtain ⟨w, c, r, hcs, hw, hc⟩ := h.opens
      exact ⟨w, c, r, hcs, hw, Or.inl hc⟩
  | neg hw h ih => exact ⟨_, '-', _, rfl, hw, Or.inr ⟨rfl, h.opens⟩⟩
  | negs hg hw h ih => cases hg
  | one | more => exact absurd rfl hs.1
  | field | paren | empty | struct | trailing | string | int | float | name | bool | enum =>
      exact absurd rfl hs.2

/-- Two minus signs in a row are an expression, though not by the documented grammar. -/
theorem not_parse_documented : ¬ ∀ (env : NameEnv) (input : String), parse env input ≠ none ∧
    ∀ e, parse env input = some (.ok e) ↔ Parses .documented env input e := by
  intro h
  have hparse : parse ⟨[], List.nodup_nil⟩ "--1" =
      some (.ok (.unaryNeg (.unaryNeg (.lit (.int 1))))) := rfl
  obtain ⟨cs, w, hinput, hw, hd⟩ := ((h _ _).2 _).mp hparse
  obtain ⟨v, c, r, rfl, hv, hc⟩ := hd.documented_opens ⟨Symbol.noConfusion, Symbol.noConfusion⟩
  rw [List.append_assoc] at hinput
  change ['-', '-', '1'] = _ at hinput
  cases v with
  | cons a v =>
      obtain rfl : '-' = a := (List.cons.inj hinput).1
      cases hv _ List.mem_cons_self
  | nil =>
      obtain ⟨rfl, htail⟩ := List.cons.inj hinput
      rcases hc with hc | ⟨-, w', d, t, rfl, hw', hd'⟩
      · exact hc.ne (d := '-') (by decide) rfl
      · replace htail : ['-', '1'] = w' ++ (d :: t ++ w) := htail.trans (List.append_assoc _ _ _)
        cases w' with
        | cons a w' =>
            obtain rfl : '-' = a := (List.cons.inj htail).1
            cases hw' _ List.mem_cons_self
        | nil =>
            obtain rfl : '-' = d := (List.cons.inj htail).1
            exact hd'.ne (d := '-') (by decide) rfl

end Recognition

end Expr

end ConcIR
