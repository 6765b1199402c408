import ConcIR.Expr.Recognize

/-!
# Expressions as text

The text of an expression, with parentheses only around operands that bind weaker than
their place asks for. An operand on the right of an operator must bind stronger than the
operator, and what a minus or a field access stands at must be an atom. The text is derived
by either grammar, so the parser finds the expression in it.
-/

namespace ConcIR

namespace Expr

section Printing

def opText : BinOp → List Char
  | .add => ['+']
  | .sub => ['-']
  | .mul => ['*']
  | .div => ['/']
  | .mod => ['%']

def cmpText : CmpOp → List Char
  | .eq => ['=', '=']
  | .ne => ['!', '=']
  | .lt => ['<']
  | .le => ['<', '=']
  | .gt => ['>']
  | .ge => ['>', '=']

/-- What the operator makes of its operands. -/
def opSymbol : BinOp → Symbol
  | .add | .sub => .add
  | .mul | .div | .mod => .mul

/-- What may stand on the right of the operator. -/
def rightSymbol : BinOp → Symbol
  | .add | .sub => .mul
  | .mul | .div | .mod => .unary

/-- The production that an expression has without parentheses. -/
def symbol : Expr → Symbol
  | .cmp _ _ _ => .expr
  | .binOp op _ _ => opSymbol op
  | .unaryNeg _ => .unary
  | _ => .atom

/-- How strongly the operators of a production bind. -/
def Symbol.strength : Symbol → ℕ
  | .expr => 0
  | .add => 1
  | .mul => 2
  | .unary => 3
  | .atom => 4
  | .fields => 5

/-- The text in parentheses unless the expression may stand as such. -/
def wrap (s : Symbol) (e : Expr) (text : List Char) : List Char :=
  if s.strength ≤ e.symbol.strength then text else '(' :: (text ++ [')'])

mutual

/-- Float literals have no text here. -/
def print : Expr → List Char
  | .lit (.bool b) => (toString b).toList
  | .lit (.int i) => (toString i).toList
  | .lit (.float _) => []
  | .lit (.string s) => '"' :: (s.toList ++ ['"'])
  | .lit (.enum v) => v.toList
  | .name n => n.toList
  | .field base f => wrap .atom base (print base) ++ '.' :: f.toList
  | .unaryNeg e => '-' :: wrap .atom e (print e)
  | .binOp op l r =>
      wrap (opSymbol op) l (print l) ++
        (' ' :: (opText op ++ ' ' :: wrap (rightSymbol op) r (print r)))
  | .cmp op l r =>
      wrap .add l (print l) ++ (' ' :: (cmpText op ++ ' ' :: wrap .add r (print r)))
  | .struct fs => '\x7b' :: (printFields fs ++ ['\x7d'])

def printFields : List (String × Expr) → List Char
  | [] => []
  | (k, e) :: fs => k.toList ++ ':' :: ' ' :: (print e ++ printMore fs)

/-- The fields after the first one. -/
def printMore : List (String × Expr) → List Char
  | [] => []
  | (k, e) :: fs => ',' :: ' ' :: (k.toList ++ ':' :: ' ' :: (print e ++ printMore fs))

end

/-- A short name or `module::entity`. -/
def ShortOrQualified (n : String) : Prop :=
  Ident n.toList ∨ ∃ m k : String, Ident m.toList ∧ Ident k.toList ∧ n = m ++ "::" ++ k

mutual

/-- An expression over the names of the environment whose literals have a text. -/
def Printable (env : NameEnv) : Expr → Prop
  | .lit (.bool b) => env.get (toString b) = none
  | .lit (.int i) => 0 ≤ i ∧ i < 2 ^ 63
  | .lit (.float _) => False
  | .lit (.string s) => '"' ∉ s.toList
  | .lit (.enum v) => Ident v.toList ∧ v ∈ env.enumVariants ∧ env.get v = none
  | .name n => ShortOrQualified n ∧ (env.get n).isSome = true
  | .field base f => Printable env base ∧ Ident f.toList
  | .unaryNeg e => Printable env e
  | .binOp _ l r => Printable env l ∧ Printable env r
  | .cmp _ l r => Printable env l ∧ Printable env r
  | .struct fs => PrintableFields env fs

def PrintableFields (env : NameEnv) : List (String × Expr) → Prop
  | [] => True
  | (k, e) :: fs => Ident k.toList ∧ Printable env e ∧ PrintableFields env fs

end

end Printing

section Derivations

variable {g : Dialect} {env : NameEnv} {s t : Symbol} {cs text : List Char} {e : Expr}

theorem symbol_ne_fields (e : Expr) : e.symbol ≠ .fields := by
  cases e with
  | binOp op l r => cases op <;> exact Symbol.noConfusion
  | _ => exact Symbol.noConfusion

theorem Derives.unary_of_strength (h : Derives g env s cs e) (hs : s ≠ .fields)
    (hst : Symbol.unary.strength ≤ s.strength) : Derives g env .unary cs e := by
  cases s with
  | unary => exact h
  | atom => exact .plain h
  | fields => exact absurd rfl hs
  | expr | add | mul => exact absurd hst (by decide)

theorem Derives.mul_of_strength (h : Derives g env s cs e) (hs : s ≠ .fields)
    (hst : Symbol.mul.strength ≤ s.strength) : Derives g env .mul cs e := by
  cases s with
  | mul => exact h
  | unary | atom => exact .factor (h.unary_of_strength hs (by decide))
  | fields => exact absurd rfl hs
  | expr | add => exact absurd hst (by decide)

theorem Derives.add_of_strength (h : Derives g env s cs e) (hs : s ≠ .fields)
    (hst : Symbol.add.strength ≤ s.strength) : Derives g env .add cs e := by
  cases s with
  | add => exact h
  | mul | unary | atom => exact .product (h.mul_of_strength hs (by decide))
  | fields => exact absurd rfl hs
  | expr => exact absurd hst (by decide)

/-- What binds stronger may stand where something weaker is asked for. -/
theorem Derives.of_strength (h : Derives g env s cs e) (hs : s ≠ .fields) (ht : t ≠ .fields)
    (hst : t.strength ≤ s.strength) : Derives g env t cs e := by
  cases t with
  | expr =>
      cases s with
      | expr => exact h
      | add | mul | unary | atom => exact .sum (h.add_of_strength hs (by decide))
      | fields => exact absurd rfl hs
  | add => exact h.add_of_strength hs hst
  | mul => exact h.mul_of_strength hs hst
  | unary => exact h.unary_of_strength hs hst
  | atom =>
      cases s with
      | atom => exact h
      | fields => exact absurd rfl hs
      | expr | add | mul | unary => exact absurd hst (by decide)
  | fields => exact absurd rfl ht

/-- The text of an operand stands where it has been put. -/
theorem derives_wrap (h : ∀ w, Blank w → Derives g env e.symbol (w ++ text) e)
    (ht : t ≠ .fields) {w : List Char} (hw : Blank w) :
    Derives g env t (w ++ wrap t e text) e := by
  unfold wrap
  split
  case isTrue hst => exact (h w hw).of_strength (symbol_ne_fields e) ht hst
  case isFalse =>
    have hexpr : Derives g env .expr text e :=
      (h [] blank_nil).of_strength (symbol_ne_fields e) Symbol.noConfusion (Nat.zero_le _)
    refine (Derives.paren hw hexpr blank_nil).of_strength Symbol.noConfusion ht ?_
    cases t with
    | fields => exact absurd rfl ht
    | _ => decide

theorem blank_space : Blank [' '] := by
  rintro c hc
  obtain rfl := List.mem_singleton.mp hc
  decide

theorem opText_mem (op : BinOp) :
    opSymbol op = .add ∧ rightSymbol op = .mul ∧ (opText op, op) ∈ addOps ∨
      opSymbol op = .mul ∧ rightSymbol op = .unary ∧ (opText op, op) ∈ mulOps := by
  cases op with
  | add | sub => exact Or.inl ⟨rfl, rfl, by simp [opText, addOps]⟩
  | mul | div | mod => exact Or.inr ⟨rfl, rfl, by simp [opText, mulOps]⟩

theorem cmpText_mem (op : CmpOp) : (cmpText op, op) ∈ cmpOps := by
  cases op <;> simp [cmpText, cmpOps]

theorem ShortOrQualified.nameText {n : String} (h : ShortOrQualified n) : NameText n.toList n := by
  rcases h with h | ⟨m, k, hm, hk, rfl⟩
  · have := NameText.short h
    rwa [String.ofList_toList] at this
  · have := NameText.qualified hm blank_nil blank_nil hk
    rw [String.ofList_toList, String.ofList_toList] at this
    rw [String.toList_append, String.toList_append, List.append_assoc]
    exact this

theorem derives_int {i : ℤ} (hi : 0 ≤ i ∧ i < 2 ^ 63) {w : List Char} (hw : Blank w) :
    Derives g env .atom (w ++ (toString i).toList) (.lit (.int i)) := by
  obtain ⟨n, rfl⟩ := Int.eq_ofNat_of_zero_le hi.1
  have htext : (toString (n : ℤ)).toList = Nat.toDigits 10 n := by
    change (Nat.repr n).toList = _
    rw [Nat.repr_eq_ofList_toDigits, String.toList_ofList]
  have hdigits : Digits (Nat.toDigits 10 n) :=
    ⟨Nat.toDigits_ne_nil, fun d hd ↦ Nat.isDigit_of_mem_toDigits (by decide) (by decide) hd⟩
  have hvalue : Nat.ofDigitChars 10 (Nat.toDigits 10 n) 0 = n := Nat.ofDigitChars_ten_toDigits
  have h : Derives g env .atom (w ++ Nat.toDigits 10 n)
      (.lit (.int (Nat.ofDigitChars 10 (Nat.toDigits 10 n) 0))) := .int hw hdigits fun _ ↦ by
    rw [hvalue]
    exact_mod_cast hi.2
  rwa [hvalue, ← htext] at h

mutual

/-- The text of an expression is derived, with blanks before it. -/
theorem derives_print (henv : ∀ b : Bool, toString b ∉ env.enumVariants) :
    ∀ (e : Expr), Printable env e → ∀ w, Blank w → Derives g env e.symbol (w ++ print e) e
  | .lit (.bool b), h, w, hw => .bool hw fun _ ↦ h
  | .lit (.int i), h, w, hw => derives_int h hw
  | .lit (.float b), h, w, hw => h.elim
  | .lit (.string s), h, w, hw => by
      have hd : Derives g env .atom _ _ := .string hw h
      rwa [String.ofList_toList] at hd
  | .lit (.enum v), ⟨hv, hmem, hget⟩, w, hw => by
      refine .enum hw ?_ hget hmem
      cases g with
      | documented => exact ⟨hv, String.ofList_toList.symm⟩
      | implemented =>
          refine ⟨ShortOrQualified.nameText (Or.inl hv), ?_, ?_⟩
          · rintro rfl
            exact henv true hmem
          · rintro rfl
            exact henv false hmem
  | .name n, ⟨hn, hget⟩, w, hw => .name hw hn.nameText hget
  | .field base f, ⟨hbase, hf⟩, w, hw => by
      have hd := derives_wrap (t := .atom) (derives_print henv base hbase) Symbol.noConfusion hw
      have hfield := hd.field blank_nil blank_nil hf
      rw [String.ofList_toList, List.append_assoc] at hfield
      exact hfield
  | .unaryNeg e, h, w, hw =>
      .neg hw (derives_wrap (derives_print henv e h) Symbol.noConfusion blank_nil)
  | .binOp op l r, ⟨hl, hr⟩, w, hw => by
      rw [print]
      rcases opText_mem op with ⟨hs, ht, hop⟩ | ⟨hs, ht, hop⟩
      · have hleft := derives_wrap (t := .add) (derives_print henv l hl) Symbol.noConfusion hw
        have hright := derives_wrap (t := .mul) (derives_print henv r hr) Symbol.noConfusion
          blank_space
        have hsum := hleft.addOp blank_space hop hright
        rw [List.append_assoc] at hsum
        rw [symbol, hs, ht]
        exact hsum
      · have hleft := derives_wrap (t := .mul) (derives_print henv l hl) Symbol.noConfusion hw
        have hright := derives_wrap (t := .unary) (derives_print henv r hr) Symbol.noConfusion
          blank_space
        have hproduct := hleft.mulOp blank_space hop hright
        rw [List.append_assoc] at hproduct
        rw [symbol, hs, ht]
        exact hproduct
  | .cmp op l r, ⟨hl, hr⟩, w, hw => by
      have hleft := derives_wrap (t := .add) (derives_print henv l hl) Symbol.noConfusion hw
      have hright := derives_wrap (t := .add) (derives_print henv r hr) Symbol.noConfusion
        blank_space
      have hcmp := hleft.cmp blank_space (cmpText_mem op) hright
      rw [List.append_assoc] at hcmp
      rw [print]
      exact hcmp
  | .struct [], h, w, hw => .empty hw blank_nil
  | .struct ((k, e) :: fs), h, w, hw =>
      .struct hw (derives_fields henv ((k, e) :: fs) h (List.cons_ne_nil _ _) [] blank_nil)
        blank_nil

/-- The text of the fields of a struct literal is derived, with blanks before it. -/
theorem derives_fields (henv : ∀ b : Bool, toString b ∉ env.enumVariants) :
    ∀ (fs : List (String × Expr)), PrintableFields env fs → fs ≠ [] → ∀ w, Blank w →
      Derives g env .fields (w ++ printFields fs) (.struct fs)
  | [], h, hne, w, hw => absurd rfl hne
  | [(k, e)], ⟨hk, he, _⟩, hne, w, hw => by
      have hexpr := (derives_print henv e he [' '] blank_space).of_strength (g := g) (t := .expr)
        (symbol_ne_fields e) Symbol.noConfusion (Nat.zero_le _)
      have hone := Derives.one hw hk blank_nil hexpr
      rw [String.ofList_toList] at hone
      rw [printFields, printMore, List.append_nil]
      exact hone
  | (k, e) :: f :: fs, ⟨hk, he, hfs⟩, hne, w, hw => by
      have hexpr := (derives_print henv e he [' '] blank_space).of_strength (g := g) (t := .expr)
        (symbol_ne_fields e) Symbol.noConfusion (Nat.zero_le _)
      have hrest := derives_fields henv (f :: fs) hfs (List.cons_ne_nil _ _) [' '] blank_space
      have hmore := Derives.more hw hk blank_nil hexpr blank_nil hrest
      rw [String.ofList_toList] at hmore
      rw [printFields]
      exact hmore

end

end Derivations

section RoundTrip

/-- Parsing the text of an expression returns it. -/
theorem parse_print (env : NameEnv) (henv : ∀ b : Bool, toString b ∉ env.enumVariants) (e : Expr)
    (h : Printable env e) : parse env (String.ofList (print e)) = some (.ok e) := by
  refine parse_of_parses ⟨print e, [], ?_, blank_nil, ?_⟩
  · rw [String.toList_ofList, List.append_nil]
  · exact (derives_print henv e h [] blank_nil).of_strength (symbol_ne_fields e)
      Symbol.noConfusion (Nat.zero_le _)

/-- `-(lib::level + 1) * 2 <= {on: Idle, at: "x"}.at`. -/
def idleEnv : NameEnv where
  slots := [("lib::level", ⟨.var, some (.primitive "Int"), true⟩),
    ("mode", ⟨.local, some (.enum ["Idle", "Busy"]), true⟩)]
  nodup := by decide

def idleExpr : Expr :=
  .cmp .le
    (.binOp .mul (.unaryNeg (.binOp .add (.name "lib::level") (.lit (.int 1)))) (.lit (.int 2)))
    (.field (.struct [("on", .lit (.enum "Idle")), ("at", .lit (.string "x"))]) "at")

theorem printable_idleExpr : Printable idleEnv idleExpr := by
  have ident : ∀ {n : String} {c : Char} {cs : List Char}, n.toList = c :: cs →
      identStart c = true → cs.all identChar = true → Ident n.toList := by
    intro n c cs hn hc hcs
    rw [hn]
    exact ⟨hc, List.all_eq_true.mp hcs⟩
  refine ⟨⟨⟨⟨Or.inr ⟨"lib", "level", ident rfl rfl rfl, ident rfl rfl rfl, rfl⟩, rfl⟩,
    by decide, by decide⟩, by decide, by decide⟩, ?_, ident rfl rfl rfl⟩
  exact ⟨ident rfl rfl rfl, ⟨ident rfl rfl rfl, by decide, by decide⟩, ident rfl rfl rfl,
    (by decide : '"' ∉ "x".toList), trivial⟩

theorem parse_print_idle : parse idleEnv (String.ofList (print idleExpr)) = some (.ok idleExpr) :=
  parse_print idleEnv (by decide) idleExpr printable_idleExpr

/-- The enum of an environment may have a variant that is spelled as a truth value. -/
theorem not_parse_print : ¬ ∀ (env : NameEnv) (e : Expr), Printable env e →
    parse env (String.ofList (print e)) = some (.ok e) := by
  intro h
  have hprint : Printable ⟨[("v", ⟨.var, some (.enum ["true"]), true⟩)], by decide⟩
      (.lit (.enum "true")) := ⟨⟨rfl, List.all_eq_true.mp rfl⟩, by decide, by decide⟩
  have hparse := h _ _ hprint
  cases hparse

end RoundTrip

end Expr

end ConcIR
