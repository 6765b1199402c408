import ConcIR.Expr.Rounds

/-!
# The parser finds every derivation

Before what can follow it, a derived text is read to its end. What can follow an operand
depends on how far its loop has to go: a field access binds tighter than a product, and a
product tighter than a sum. The loops are left open, so that a longer chain of operators
goes on where a shorter one has stopped.
-/

namespace ConcIR

@[simp] theorem Reply.done_bind {α β : Type} (a : α) (rest : List Char)
    (f : α → List Char → Reply β) : (Reply.done a rest).bind f = f a rest := rfl

namespace Expr

section Characters

variable {c : Char}

theorem isWhitespace_of_identChar (h : identChar c = true) : isWhitespace c = false := by
  have hn : (48 ≤ c.toNat ∧ c.toNat ≤ 57) ∨ (65 ≤ c.toNat ∧ c.toNat ≤ 90) ∨ c.toNat = 95 ∨
      (97 ≤ c.toNat ∧ c.toNat ≤ 122) := by
    have hval : c.val.toNat = c.toNat := rfl
    simp only [identChar, Char.isAlphanum, Char.isAlpha, Char.isUpper, Char.isLower,
      Char.isDigit, Bool.or_eq_true, Bool.and_eq_true, decide_eq_true_eq,
      UInt32.le_iff_toNat_le, ge_iff_le, hval] at h
    rcases h with ((h | h) | h) | rfl
    · exact Or.inr (Or.inl h)
    · exact Or.inr (Or.inr (Or.inr h))
    · exact Or.inl h
    · exact Or.inr (Or.inr (Or.inl rfl))
  simp only [isWhitespace, Bool.or_eq_false_iff, Bool.and_eq_false_iff, decide_eq_false_iff_not]
  omega

theorem identChar_of_identStart (h : identStart c = true) : identChar c = true := by
  simp only [identStart, identChar, Char.isAlphanum, Bool.or_eq_true] at h ⊢
  rcases h with h | h
  · exact Or.inl (Or.inl h)
  · exact Or.inr h

theorem identChar_of_isDigit (h : c.isDigit = true) : identChar c = true := by
  simp only [identChar, Char.isAlphanum, Bool.or_eq_true]
  exact Or.inl (Or.inr h)

theorem identStart_of_isDigit (h : c.isDigit = true) : identStart c = false := by
  have hval : c.val.toNat = c.toNat := rfl
  by_contra hc
  simp only [identStart, Char.isAlpha, Char.isUpper, Char.isLower, Bool.not_eq_false,
    Bool.or_eq_true, Bool.and_eq_true, decide_eq_true_eq, UInt32.le_iff_toNat_le, ge_iff_le,
    hval] at hc
  simp only [Char.isDigit, Bool.and_eq_true, decide_eq_true_eq, UInt32.le_iff_toNat_le,
    ge_iff_le, hval] at h
  rcases hc with hc | rfl
  · change (65 ≤ c.toNat ∧ c.toNat ≤ 90) ∨ 97 ≤ c.toNat ∧ c.toNat ≤ 122 at hc
    change 48 ≤ c.toNat ∧ c.toNat ≤ 57 at h
    omega
  · exact absurd h (by decide)

/-- The characters that an atom begins with. -/
def AtomStart (c : Char) : Prop :=
  c = '(' ∨ c = '\x7b' ∨ c = '"' ∨ c.isDigit = true ∨ identStart c = true

theorem AtomStart.isWhitespace (h : AtomStart c) : isWhitespace c = false := by
  rcases h with rfl | rfl | rfl | h | h
  · decide
  · decide
  · decide
  · exact isWhitespace_of_identChar (identChar_of_isDigit h)
  · exact isWhitespace_of_identChar (identChar_of_identStart h)

theorem AtomStart.ne {d : Char} (h : AtomStart c)
    (hd : d ≠ '(' ∧ d ≠ '\x7b' ∧ d ≠ '"' ∧ identChar d = false) : c ≠ d := by
  rintro rfl
  obtain ⟨h1, h2, h3, h4⟩ := hd
  rcases h with h | h | h | h | h
  · exact h1 h
  · exact h2 h
  · exact h3 h
  · exact absurd (identChar_of_isDigit h) (by simp [h4])
  · exact absurd (identChar_of_identStart h) (by simp [h4])

end Characters

section Beginnings

variable {g : Dialect} {env : NameEnv} {s : Symbol} {cs : List Char} {e : Expr}

/-- The characters that a derived text begins with, after the blanks. -/
def Opens : Symbol → Char → Prop
  | .fields, c => identStart c = true
  | .atom, c => AtomStart c
  | _, c => c = '-' ∨ AtomStart c

theorem Ident.opens {i : List Char} (h : Ident i) : ∃ c r, i = c :: r ∧ identStart c = true := by
  cases i with
  | nil => exact h.elim
  | cons c r => exact ⟨c, r, rfl, h.1⟩

theorem NameText.opens {n : String} (h : NameText cs n) :
    ∃ c r, cs = c :: r ∧ identStart c = true := by
  cases h with
  | short hi => exact hi.opens
  | qualified hi hw hw' hj =>
      obtain ⟨c, r, rfl, hc⟩ := hi.opens
      exact ⟨c, _, rfl, hc⟩

theorem VariantText.opens {n : String} (h : VariantText g cs n) :
    ∃ c r, cs = c :: r ∧ identStart c = true := by
  cases g with
  | documented => exact Ident.opens h.1
  | implemented => exact NameText.opens h.1

theorem Digits.opens {ds : List Char} (h : Digits ds) :
    ∃ c r, ds = c :: r ∧ c.isDigit = true := by
  cases ds with
  | nil => exact (h.1 rfl).elim
  | cons c r => exact ⟨c, r, rfl, h.2 c List.mem_cons_self⟩

theorem Derives.opens (h : Derives g env s cs e) :
    ∃ w c r, cs = w ++ c :: r ∧ Blank w ∧ Opens s c := by
  induction h with
  | sum h ih => exact ih
  | cmp hl hw hop hr ihl ihr =>
      obtain ⟨w, c, r, rfl, hw, hc⟩ := ihl
      exact ⟨w, c, _, List.append_assoc _ _ _, hw, hc⟩
  | product h ih => exact ih
  | addOp hl hw hop hr ihl ihr =>
      obtain ⟨w, c, r, rfl, hw, hc⟩ := ihl
      exact ⟨w, c, _, List.append_assoc _ _ _, hw, hc⟩
  | factor h ih => exact ih
  | mulOp hl hw hop hr ihl ihr =>
      obtain ⟨w, c, r, rfl, hw, hc⟩ := ihl
      exact ⟨w, c, _, List.append_assoc _ _ _, hw, hc⟩
  | plain h ih =>
      obtain ⟨w, c, r, hcs, hw, hc⟩ := ih
      exact ⟨w, c, r, hcs, hw, Or.inr hc⟩
  | neg hw h ih => exact ⟨_, '-', _, rfl, hw, Or.inl rfl⟩
  | negs hg hw h ih => exact ⟨_, '-', _, rfl, hw, Or.inl rfl⟩
  | field h hw hw' hi ih =>
      obtain ⟨w, c, r, rfl, hw, hc⟩ := ih
      exact ⟨w, c, _, List.append_assoc _ _ _, hw, hc⟩
  | paren hw h hw' ih => exact ⟨_, '(', _, rfl, hw, Or.inl rfl⟩
  | empty hw hw' => exact ⟨_, '\x7b', _, rfl, hw, Or.inr (Or.inl rfl)⟩
  | struct hw h hw' ih => exact ⟨_, '\x7b', _, rfl, hw, Or.inr (Or.inl rfl)⟩
  | trailing hg hw h hw' hw'' ih => exact ⟨_, '\x7b', _, rfl, hw, Or.inr (Or.inl rfl)⟩
  | one hw hk hw' h ih =>
      obtain ⟨c, r, rfl, hc⟩ := hk.opens
      exact ⟨_, c, _, rfl, hw, hc⟩
  | more hw hk hw' h hw'' hrest ih ih' =>
      obtain ⟨c, r, rfl, hc⟩ := hk.opens
      exact ⟨_, c, _, rfl, hw, hc⟩
  | string hw hs => exact ⟨_, '"', _, rfl, hw, Or.inr (Or.inr (Or.inl rfl))⟩
  | int hw hds hrange =>
      obtain ⟨c, r, rfl, hc⟩ := hds.opens
      exact ⟨_, c, _, rfl, hw, Or.inr (Or.inr (Or.inr (Or.inl hc)))⟩
  | float hw hds hfs =>
      obtain ⟨c, r, rfl, hc⟩ := hds.opens
      exact ⟨_, c, _, rfl, hw, Or.inr (Or.inr (Or.inr (Or.inl hc)))⟩
  | name hw hn hget =>
      obtain ⟨c, r, rfl, hc⟩ := hn.opens
      exact ⟨_, c, _, rfl, hw, Or.inr (Or.inr (Or.inr (Or.inr hc)))⟩
  | @bool w b hw hfree =>
      cases b with
      | false =>
          exact ⟨w, 'f', ['a', 'l', 's', 'e'], rfl, hw, Or.inr (Or.inr (Or.inr (Or.inr rfl)))⟩
      | true => exact ⟨w, 't', ['r', 'u', 'e'], rfl, hw, Or.inr (Or.inr (Or.inr (Or.inr rfl)))⟩
  | enum hw hn hget hv =>
      obtain ⟨c, r, rfl, hc⟩ := hn.opens
      exact ⟨_, c, _, rfl, hw, Or.inr (Or.inr (Or.inr (Or.inr hc)))⟩

theorem Opens.isWhitespace {c : Char} (h : Opens s c) : isWhitespace c = false := by
  cases s with
  | fields => exact isWhitespace_of_identChar (identChar_of_identStart h)
  | atom => exact AtomStart.isWhitespace h
  | expr | add | mul | unary =>
      rcases h with rfl | h
      · decide
      · exact h.isWhitespace

/-- What a derived text does not begin with. -/
theorem Derives.skip_ne (h : Derives g env s cs e) {d : Char} (hd : ∀ c, Opens s c → c ≠ d)
    (rest r : List Char) : skip (cs ++ rest) ≠ d :: r := by
  obtain ⟨w, c, tail, rfl, hw, hc⟩ := h.opens
  rw [List.append_assoc, List.cons_append, skip_append_cons hw hc.isWhitespace]
  intro heq
  exact hd c hc (List.cons.inj heq).1

end Beginnings

section Follows

variable {bad bad' cs rest w : List Char} {c : Char}

/-- Nothing of what is left goes on with the last token, and its first token begins with none
of these characters. -/
structure Stops (bad rest : List Char) : Prop where
  sep : ∀ c r, rest = c :: r → identChar c = false
  point : ∀ d r, rest = '.' :: d :: r → d.isDigit = false
  next : ∀ c r, skip rest = c :: r → c ∉ bad

theorem Stops.mono (h : Stops bad rest) (hbad : bad' ⊆ bad) : Stops bad' rest :=
  ⟨h.sep, h.point, fun c r hrest hc ↦ h.next c r hrest (hbad hc)⟩

theorem Stops.skip_ne (h : Stops bad rest) (hc : c ∈ bad) (r : List Char) :
    skip rest ≠ c :: r := fun hrest ↦ h.next c r hrest hc

theorem Stops.blank (hw : Blank w) : Stops bad w where
  sep c r hrest := by
    by_contra hc
    have := isWhitespace_of_identChar (Bool.not_eq_false _ ▸ hc)
    rw [hw c (hrest ▸ List.mem_cons_self)] at this
    cases this
  point d r hrest := by
    have := hw '.' (hrest ▸ List.mem_cons_self)
    cases this
  next c r hrest := by
    rw [skip_eq_nil hw] at hrest
    cases hrest

/-- A character that may follow an operand. -/
def Follows (bad : List Char) (c : Char) : Prop :=
  isWhitespace c = false ∧ identChar c = false ∧ c ∉ bad

instance : Decidable (Follows bad c) := inferInstanceAs (Decidable (_ ∧ _ ∧ _))

theorem Stops.cons (hw : Blank w) (hc : Follows bad c)
    (hpoint : c = '.' → ∀ d r, rest = d :: r → d.isDigit = false) :
    Stops bad (w ++ c :: rest) where
  sep d r hrest := by
    by_contra hd
    cases w with
    | nil =>
        obtain rfl : c = d := (List.cons.inj hrest).1
        exact hd hc.2.1
    | cons v w =>
        obtain rfl : v = d := (List.cons.inj hrest).1
        have := isWhitespace_of_identChar (Bool.not_eq_false _ ▸ hd)
        rw [hw v List.mem_cons_self] at this
        cases this
  point d r hrest := by
    cases w with
    | nil =>
        obtain ⟨rfl, htail⟩ := List.cons.inj hrest
        exact hpoint rfl d r htail
    | cons v w =>
        obtain rfl : v = '.' := (List.cons.inj hrest).1
        have := hw '.' List.mem_cons_self
        cases this
  next d r hrest := by
    rw [skip_append_cons hw hc.1] at hrest
    obtain rfl : c = d := (List.cons.inj hrest).1
    exact hc.2.2

end Follows

section Tokens

variable {bad tok cs rest w : List Char} {c : Char}

theorem eat_append (hw : Blank w) (hc : isWhitespace c = false) :
    eat (c :: tok) (w ++ c :: (tok ++ rest)) = (true, rest) := by
  have hpre : (c :: tok).isPrefixOf (c :: (tok ++ rest)) = true :=
    List.isPrefixOf_iff_prefix.mpr ⟨rest, rfl⟩
  rw [eat, skip_append_cons hw hc, if_pos hpre]
  have hdrop : ((c :: tok) ++ rest).drop (c :: tok).length = rest := List.drop_left
  exact congrArg (Prod.mk true) hdrop

theorem eat_ne (h : ∀ r, skip cs ≠ c :: r) : eat (c :: tok) cs = (false, skip cs) := by
  refine if_neg fun hpre ↦ ?_
  obtain ⟨tail, htail⟩ := List.isPrefixOf_iff_prefix.mp hpre
  exact h _ htail.symm

theorem eatOp_ne {α : Type} {ops : List (List Char × α)} (heads : List Char)
    (hops : ∀ p ∈ ops, p.1.headD ' ' ∈ heads) (hheads : ' ' ∉ heads)
    (hne : ∀ c ∈ heads, ∀ r, skip cs ≠ c :: r) : eatOp ops cs = (none, skip cs) := by
  induction ops generalizing cs with
  | nil => rfl
  | cons p ops ih =>
      obtain ⟨tok, op⟩ := p
      have hhead := hops _ List.mem_cons_self
      cases tok with
      | nil => exact absurd hhead hheads
      | cons c tok =>
          have hne' : ∀ c ∈ heads, ∀ r, skip (skip cs) ≠ c :: r := by
            rw [skip_skip]
            exact hne
          rw [eatOp, eat_ne (hne c hhead)]
          dsimp only
          rw [ih (fun p hp ↦ hops p (List.mem_cons_of_mem _ hp)) hne', skip_skip]

theorem eatOp_blank_append {α : Type} {ops : List (List Char × α)} (hw : Blank w) :
    eatOp ops (w ++ cs) = eatOp ops cs := by
  cases ops with
  | nil => exact congrArg (Prod.mk none) (skip_blank_append hw)
  | cons p ops => rw [eatOp, eatOp, eat, eat, skip_blank_append hw]

theorem eatOp_skip {α : Type} (ops : List (List Char × α)) (cs : List Char) :
    eatOp ops (skip cs) = eatOp ops cs := by
  cases ops with
  | nil => exact congrArg (Prod.mk none) (skip_skip cs)
  | cons p ops => rw [eatOp, eatOp, eat_skip]

/-- An operator is read as such, unless an equals sign makes another of it. -/
theorem eatOp_cmp {op : CmpOp} (hmem : (tok, op) ∈ cmpOps) (hw : Blank w)
    (hrest : ∀ r, rest ≠ '=' :: r) : eatOp cmpOps (w ++ (tok ++ rest)) = (some op, rest) := by
  have heq : ('=' == rest.headD ' ') = false := by
    cases rest with
    | nil => rfl
    | cons c r => exact beq_false_of_ne fun h ↦ hrest r (congrArg (· :: r) h.symm)
  rw [eatOp_blank_append hw]
  have hEq : isWhitespace '=' = false := by decide
  have hNe : isWhitespace '!' = false := by decide
  have hLt : isWhitespace '<' = false := by decide
  have hGt : isWhitespace '>' = false := by decide
  simp only [cmpOps, List.mem_cons, Prod.mk.injEq, List.not_mem_nil, or_false] at hmem
  rcases hmem with ⟨rfl, rfl⟩ | ⟨rfl, rfl⟩ | ⟨rfl, rfl⟩ | ⟨rfl, rfl⟩ | ⟨rfl, rfl⟩ | ⟨rfl, rfl⟩
  · simp [eatOp, cmpOps, eat, skip_cons, hEq]
  · simp [eatOp, cmpOps, eat, skip_cons, hNe]
  · simp [eatOp, cmpOps, eat, skip_cons, hLt]
  · simp [eatOp, cmpOps, eat, skip_cons, hGt]
  · cases rest <;> simp_all [eatOp, cmpOps, eat, skip_cons]
  · cases rest <;> simp_all [eatOp, cmpOps, eat, skip_cons]

theorem eatOp_add {op : BinOp} (hmem : (tok, op) ∈ addOps) (hw : Blank w) :
    eatOp addOps (w ++ (tok ++ rest)) = (some op, rest) := by
  rw [eatOp_blank_append hw]
  have hPlus : isWhitespace '+' = false := by decide
  have hMinus : isWhitespace '-' = false := by decide
  simp only [addOps, List.mem_cons, Prod.mk.injEq, List.not_mem_nil, or_false] at hmem
  rcases hmem with ⟨rfl, rfl⟩ | ⟨rfl, rfl⟩
  · simp [eatOp, addOps, eat, skip_cons, hPlus]
  · simp [eatOp, addOps, eat, skip_cons, hMinus]

theorem eatOp_mul {op : BinOp} (hmem : (tok, op) ∈ mulOps) (hw : Blank w) :
    eatOp mulOps (w ++ (tok ++ rest)) = (some op, rest) := by
  rw [eatOp_blank_append hw]
  have hTimes : isWhitespace '*' = false := by decide
  have hOver : isWhitespace '/' = false := by decide
  have hPercent : isWhitespace '%' = false := by decide
  simp only [mulOps, List.mem_cons, Prod.mk.injEq, List.not_mem_nil, or_false] at hmem
  rcases hmem with ⟨rfl, rfl⟩ | ⟨rfl, rfl⟩ | ⟨rfl, rfl⟩
  · simp [eatOp, mulOps, eat, skip_cons, hTimes]
  · simp [eatOp, mulOps, eat, skip_cons, hOver]
  · simp [eatOp, mulOps, eat, skip_cons, hPercent]

theorem takeWhile_append_stop {p : Char → Bool} (hcs : ∀ c ∈ cs, p c = true)
    (hrest : ∀ c r, rest = c :: r → p c = false) :
    (cs ++ rest).takeWhile p = cs ∧ (cs ++ rest).dropWhile p = rest := by
  rw [List.takeWhile_append_of_pos hcs, List.dropWhile_append_of_pos hcs]
  cases rest with
  | nil => exact ⟨List.append_nil cs, rfl⟩
  | cons c r =>
      have hc : ¬ p c = true := by rw [hrest c r rfl]; exact Bool.false_ne_true
      rw [List.takeWhile_cons_of_neg hc, List.dropWhile_cons_of_neg hc]
      exact ⟨List.append_nil cs, rfl⟩

theorem parseIdent_append {i : List Char} (hw : Blank w) (hi : Ident i) (h : Stops bad rest) :
    parseIdent (w ++ (i ++ rest)) = .done (String.ofList i) rest := by
  cases i with
  | nil => exact hi.elim
  | cons c i =>
      obtain ⟨hc, hi⟩ := hi
      have hskip : skip (w ++ (c :: i ++ rest)) = c :: (i ++ rest) :=
        skip_append_cons hw (isWhitespace_of_identChar (identChar_of_identStart hc))
      obtain ⟨htake, hdrop⟩ := takeWhile_append_stop hi h.sep
      unfold parseIdent
      rw [hskip]
      dsimp only
      rw [if_pos hc, htake, hdrop]

theorem parseString_append {s : List Char} (hs : '"' ∉ s) :
    parseString (s ++ '"' :: rest) = .done (.lit (.string (String.ofList s))) rest := by
  have hpos : ∀ c ∈ s, (decide (c ≠ '"')) = true := fun c hc ↦
    decide_eq_true fun h ↦ hs (h ▸ hc)
  obtain ⟨htake, hdrop⟩ := @takeWhile_append_stop s ('"' :: rest) (fun c ↦ decide (c ≠ '"')) hpos
    (by rintro c r h; cases h; decide)
  unfold parseString
  rw [htake, hdrop]

theorem not_isDigit_of_not_identChar (h : identChar c = false) : c.isDigit = false := by
  by_contra hc
  rw [identChar_of_isDigit (Bool.not_eq_false _ ▸ hc)] at h
  cases h

theorem parseNumber_int {ds : List Char} (hds : Digits ds)
    (hrange : Nat.ofDigitChars 10 ds 0 < 2 ^ 63) (h : Stops bad rest) :
    parseNumber (ds ++ rest) = .done (.lit (.int (Nat.ofDigitChars 10 ds 0))) rest := by
  obtain ⟨htake, hdrop⟩ := takeWhile_append_stop (p := Char.isDigit) hds.2
    fun c r hrest ↦ not_isDigit_of_not_identChar (h.sep c r hrest)
  unfold parseNumber
  dsimp only
  rw [htake, hdrop]
  split
  case h_1 d r =>
    have hd : ¬ d.isDigit = true := by
      rw [h.point d r rfl]
      exact Bool.false_ne_true
    rw [if_neg hd, if_pos hrange]
  case h_2 => exact if_pos hrange

theorem parseNumber_float {ds fs : List Char} (hds : Digits ds) (hfs : Digits fs)
    (h : Stops bad rest) :
    parseNumber (ds ++ '.' :: (fs ++ rest)) = .done (.lit (.float (parseF64 ds fs))) rest := by
  obtain ⟨htake, hdrop⟩ := @takeWhile_append_stop ds ('.' :: (fs ++ rest)) Char.isDigit hds.2
    (by rintro c r h; cases h; decide)
  obtain ⟨htake', hdrop'⟩ := takeWhile_append_stop (p := Char.isDigit) hfs.2
    fun c r hrest ↦ not_isDigit_of_not_identChar (h.sep c r hrest)
  obtain ⟨d, fs', rfl, hd⟩ := hfs.opens
  unfold parseNumber
  dsimp only
  rw [htake, hdrop]
  dsimp only [List.cons_append] at htake' hdrop' ⊢
  refine (if_pos hd).trans ?_
  rw [htake', hdrop']

/-- What a name leaves may still begin with blanks. -/
theorem parseNameOrEnum_append (env : NameEnv) {xs : List Char} {n : String}
    (hn : NameText xs n) (h : Stops bad rest) (hbad : ':' ∈ bad) :
    ∃ rest', skip rest' = skip rest ∧ parseNameOrEnum env (xs ++ rest) = classify env n rest' := by
  cases hn with
  | short hi =>
      refine ⟨skip rest, skip_skip rest, ?_⟩
      have hident := parseIdent_append blank_nil hi h
      rw [List.nil_append] at hident
      rw [parseNameOrEnum, hident, Reply.done_bind, eat_ne (h.skip_ne hbad)]
  | @qualified i w w' j hi hw hw' hj =>
      refine ⟨rest, rfl, ?_⟩
      have hcolon : Stops [] (w ++ ':' :: (':' :: (w' ++ (j ++ rest)))) :=
        .cons hw (by decide) fun h ↦ absurd h (by decide)
      have hident := parseIdent_append blank_nil hi hcolon
      rw [List.nil_append] at hident
      have htext : i ++ (w ++ ':' :: ':' :: (w' ++ j)) ++ rest =
          i ++ (w ++ ':' :: (':' :: (w' ++ (j ++ rest)))) := by
        simp only [List.append_assoc, List.cons_append]
      have heat : eat [':', ':'] (w ++ ':' :: (':' :: (w' ++ (j ++ rest)))) =
          (true, w' ++ (j ++ rest)) := @eat_append [':'] _ w ':' hw (by decide)
      rw [parseNameOrEnum, htext, hident, Reply.done_bind, heat]
      dsimp only
      rw [parseIdent_append hw' hj h, Reply.done_bind]

end Tokens

end Expr

end ConcIR
