import ConcIR.Expr.Parser
import Mathlib

/-!
# The expression grammar

What text an expression has, with blanks before every token. The documented grammar has at
most one minus before an atom, no comma after the last field, integers of any size, and the
constants and variants whatever the names in sight are. The parser reads a variant of it:
any number of minus signs, a comma after the last field, integers of 64 bits, a name in sight
before a constant and a constant before a variant, which may have a qualified name.
-/

namespace ConcIR

namespace Expr

inductive Dialect
  | documented
  | implemented
deriving DecidableEq

/-- What a piece of text is read as. The fields of a struct literal are read as the literal. -/
inductive Symbol
  | expr
  | add
  | mul
  | unary
  | atom
  | fields
deriving DecidableEq

section Definitions

def Blank (w : List Char) : Prop := ∀ c ∈ w, isWhitespace c = true

def Ident : List Char → Prop
  | [] => False
  | c :: cs => identStart c = true ∧ ∀ d ∈ cs, identChar d = true

def Digits (ds : List Char) : Prop := ds ≠ [] ∧ ∀ d ∈ ds, d.isDigit = true

/-- `module::entity` or a short name. -/
inductive NameText : List Char → String → Prop
  | short {i : List Char} (hi : Ident i) : NameText i (String.ofList i)
  | qualified {i w w' j : List Char} (hi : Ident i) (hw : Blank w) (hw' : Blank w')
      (hj : Ident j) :
      NameText (i ++ (w ++ ':' :: ':' :: (w' ++ j))) (String.ofList i ++ "::" ++ String.ofList j)

/-- What may be written as a variant. -/
def VariantText (g : Dialect) (cs : List Char) (n : String) : Prop :=
  match g with
  | .documented => Ident cs ∧ n = String.ofList cs
  | .implemented => NameText cs n ∧ n ≠ "true" ∧ n ≠ "false"

inductive Derives (g : Dialect) (env : NameEnv) : Symbol → List Char → Expr → Prop
  | sum {cs : List Char} {e : Expr} (h : Derives g env .add cs e) : Derives g env .expr cs e
  | cmp {xs w tok ys : List Char} {op : CmpOp} {l r : Expr} (hl : Derives g env .add xs l)
      (hw : Blank w) (hop : (tok, op) ∈ cmpOps) (hr : Derives g env .add ys r) :
      Derives g env .expr (xs ++ (w ++ (tok ++ ys))) (.cmp op l r)
  | product {cs : List Char} {e : Expr} (h : Derives g env .mul cs e) : Derives g env .add cs e
  | addOp {xs w tok ys : List Char} {op : BinOp} {l r : Expr} (hl : Derives g env .add xs l)
      (hw : Blank w) (hop : (tok, op) ∈ addOps) (hr : Derives g env .mul ys r) :
      Derives g env .add (xs ++ (w ++ (tok ++ ys))) (.binOp op l r)
  | factor {cs : List Char} {e : Expr} (h : Derives g env .unary cs e) : Derives g env .mul cs e
  | mulOp {xs w tok ys : List Char} {op : BinOp} {l r : Expr} (hl : Derives g env .mul xs l)
      (hw : Blank w) (hop : (tok, op) ∈ mulOps) (hr : Derives g env .unary ys r) :
      Derives g env .mul (xs ++ (w ++ (tok ++ ys))) (.binOp op l r)
  | plain {cs : List Char} {e : Expr} (h : Derives g env .atom cs e) : Derives g env .unary cs e
  | neg {w cs : List Char} {e : Expr} (hw : Blank w) (h : Derives g env .atom cs e) :
      Derives g env .unary (w ++ '-' :: cs) (.unaryNeg e)
  | negs {w cs : List Char} {e : Expr} (hg : g = .implemented) (hw : Blank w)
      (h : Derives g env .unary cs e) : Derives g env .unary (w ++ '-' :: cs) (.unaryNeg e)
  | field {xs w w' i : List Char} {e : Expr} (h : Derives g env .atom xs e) (hw : Blank w)
      (hw' : Blank w') (hi : Ident i) :
      Derives g env .atom (xs ++ (w ++ '.' :: (w' ++ i))) (.field e (String.ofList i))
  | paren {w cs w' : List Char} {e : Expr} (hw : Blank w) (h : Derives g env .expr cs e)
      (hw' : Blank w') : Derives g env .atom (w ++ '(' :: (cs ++ (w' ++ [')']))) e
  | empty {w w' : List Char} (hw : Blank w) (hw' : Blank w') :
      Derives g env .atom (w ++ '\x7b' :: (w' ++ ['\x7d'])) (.struct [])
  | struct {w cs w' : List Char} {xs : List (String × Expr)} (hw : Blank w)
      (h : Derives g env .fields cs (.struct xs)) (hw' : Blank w') :
      Derives g env .atom (w ++ '\x7b' :: (cs ++ (w' ++ ['\x7d']))) (.struct xs)
  | trailing {w cs w' w'' : List Char} {xs : List (String × Expr)} (hg : g = .implemented)
      (hw : Blank w) (h : Derives g env .fields cs (.struct xs)) (hw' : Blank w')
      (hw'' : Blank w'') :
      Derives g env .atom (w ++ '\x7b' :: (cs ++ (w' ++ ',' :: (w'' ++ ['\x7d'])))) (.struct xs)
  | one {w k w' cs : List Char} {e : Expr} (hw : Blank w) (hk : Ident k) (hw' : Blank w')
      (h : Derives g env .expr cs e) :
      Derives g env .fields (w ++ (k ++ (w' ++ ':' :: cs))) (.struct [(String.ofList k, e)])
  | more {w k w' cs w'' ds : List Char} {e : Expr} {xs : List (String × Expr)} (hw : Blank w)
      (hk : Ident k) (hw' : Blank w') (h : Derives g env .expr cs e) (hw'' : Blank w'')
      (hrest : Derives g env .fields ds (.struct xs)) :
      Derives g env .fields (w ++ (k ++ (w' ++ ':' :: (cs ++ (w'' ++ ',' :: ds)))))
        (.struct ((String.ofList k, e) :: xs))
  | string {w s : List Char} (hw : Blank w) (hs : '"' ∉ s) :
      Derives g env .atom (w ++ '"' :: (s ++ ['"'])) (.lit (.string (String.ofList s)))
  | int {w ds : List Char} (hw : Blank w) (hds : Digits ds)
      (hrange : g = .implemented → Nat.ofDigitChars 10 ds 0 < 2 ^ 63) :
      Derives g env .atom (w ++ ds) (.lit (.int (Nat.ofDigitChars 10 ds 0)))
  | float {w ds fs : List Char} (hw : Blank w) (hds : Digits ds) (hfs : Digits fs) :
      Derives g env .atom (w ++ (ds ++ '.' :: fs)) (.lit (.float (parseF64 ds fs)))
  | name {w cs : List Char} {n : String} (hw : Blank w) (hn : NameText cs n)
      (hget : (env.get n).isSome = true) : Derives g env .atom (w ++ cs) (.name n)
  | bool {w : List Char} {b : Bool} (hw : Blank w)
      (hfree : g = .implemented → env.get (toString b) = none) :
      Derives g env .atom (w ++ (toString b).toList) (.lit (.bool b))
  | enum {w cs : List Char} {n : String} (hw : Blank w) (hn : VariantText g cs n)
      (hget : env.get n = none) (hv : n ∈ env.enumVariants) :
      Derives g env .atom (w ++ cs) (.lit (.enum n))

/-- The text is an expression, with blanks at the end. -/
def Parses (g : Dialect) (env : NameEnv) (input : String) (e : Expr) : Prop :=
  ∃ cs w, input.toList = cs ++ w ∧ Blank w ∧ Derives g env .expr cs e

end Definitions

section Blanks

variable {w w' cs r : List Char} {c : Char}

theorem blank_nil : Blank [] := fun _ hc ↦ absurd hc List.not_mem_nil

theorem Blank.append (h : Blank w) (h' : Blank w') : Blank (w ++ w') := fun c hc ↦
  (List.mem_append.mp hc).elim (h c) (h' c)

theorem skip_blank_append (h : Blank w) : skip (w ++ cs) = skip cs := by
  induction w with
  | nil => rfl
  | cons c w ih =>
      rw [List.cons_append, skip, List.dropWhile_cons_of_pos (h c List.mem_cons_self)]
      exact ih fun d hd ↦ h d (List.mem_cons_of_mem c hd)

theorem skip_cons (h : isWhitespace c = false) : skip (c :: r) = c :: r := by
  rw [skip, List.dropWhile_cons_of_neg (by simp [h])]

theorem skip_append_cons (hw : Blank w) (h : isWhitespace c = false) :
    skip (w ++ c :: r) = c :: r := by
  rw [skip_blank_append hw, skip_cons h]

theorem skip_eq_nil (hw : Blank w) : skip w = [] := by
  have h := @skip_blank_append w [] hw
  rwa [List.append_nil] at h

theorem exists_skip (cs : List Char) : ∃ w, Blank w ∧ cs = w ++ skip cs :=
  ⟨cs.takeWhile isWhitespace, fun _ hc ↦ List.mem_takeWhile_imp hc,
    (List.takeWhile_append_dropWhile).symm⟩

theorem skip_skip (cs : List Char) : skip (skip cs) = skip cs := by
  obtain ⟨w, hw, hcs⟩ := exists_skip cs
  have h := @skip_blank_append w (skip cs) hw
  rw [← hcs] at h
  exact h.symm

theorem length_skip_le (cs : List Char) : (skip cs).length ≤ cs.length :=
  (List.dropWhile_sublist _).length_le

theorem eat_skip (tok cs : List Char) : eat tok (skip cs) = eat tok cs := by
  rw [eat, eat, skip_skip]

end Blanks

end Expr

end ConcIR
