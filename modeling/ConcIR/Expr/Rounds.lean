import ConcIR.Expr.Reading

/-!
# The rounds of the parser

Every operand takes at least one character, and between two characters there are at most
eight calls. With eight rounds for a character the rounds do not run out.
-/

namespace ConcIR

/-- The reply is there, and it leaves fewer characters than this. -/
def Reply.Within {α : Type} (k : ℕ) : Reply α → Prop
  | .done _ rest => rest.length < k
  | .fail _ => True
  | .more => False

section Within

variable {α β : Type} {r : Reply α} {k k' : ℕ}

theorem Reply.Within.mono (h : r.Within k) (hk : k ≤ k') : r.Within k' := by
  cases r with
  | done a rest => exact Nat.lt_of_lt_of_le h hk
  | fail e => trivial
  | more => cases h

theorem Reply.Within.bind {f : α → List Char → Reply β} (h : r.Within k)
    (hf : ∀ a rest, rest.length < k → (f a rest).Within k') : (r.bind f).Within k' := by
  cases r with
  | done a rest => exact hf a rest h
  | fail e => trivial
  | more => cases h

theorem Reply.Within.ne_more (h : r.Within k) : r ≠ .more := by
  rintro rfl
  exact h

end Within

namespace Expr

section Tokens

variable {tok cs rest : List Char}

theorem length_eat_true (h : eat tok cs = (true, rest)) :
    rest.length + tok.length ≤ cs.length := by
  obtain ⟨w, hw, rfl⟩ := eat_true h
  simp only [List.length_append]
  omega

theorem length_eat_false (h : eat tok cs = (false, rest)) : rest.length ≤ cs.length := by
  rw [eat_false h]
  exact length_skip_le cs

theorem length_eatOp_some {α : Type} {op : α} {ops : List (List Char × α)}
    (hops : ∀ p ∈ ops, 0 < p.1.length) (h : eatOp ops cs = (some op, rest)) :
    rest.length < cs.length := by
  obtain ⟨w, tok, hw, hmem, rfl⟩ := eatOp_some h
  have : 0 < tok.length := hops _ hmem
  simp only [List.length_append]
  omega

theorem length_eatOp_none {α : Type} {ops : List (List Char × α)}
    (h : eatOp ops cs = (none, rest)) : rest.length ≤ cs.length := by
  rw [eatOp_none h]
  exact length_skip_le cs

theorem parseIdent_within (cs : List Char) : (parseIdent cs).Within cs.length := by
  cases h : parseIdent cs with
  | done name rest =>
      obtain ⟨w, i, hw, hi, hname, rfl⟩ := parseIdent_done h
      cases i with
      | nil => exact hi.elim
      | cons c i =>
          simp only [Reply.Within, List.length_append, List.length_cons]
          omega
  | fail e => trivial
  | more =>
      unfold parseIdent at h
      split at h
      · split at h <;> cases h
      · cases h

theorem parseString_within (cs : List Char) : (parseString cs).Within cs.length := by
  cases h : parseString cs with
  | done e rest =>
      obtain ⟨s, hs, he, rfl⟩ := parseString_done h
      simp only [Reply.Within, List.length_append, List.length_cons]
      omega
  | fail e => trivial
  | more =>
      unfold parseString at h
      split at h <;> cases h

theorem length_dropWhile_cons {p : Char → Bool} {c : Char} (hc : p c = true) :
    ((c :: cs).dropWhile p).length < (c :: cs).length := by
  rw [List.dropWhile_cons_of_pos hc]
  exact Nat.lt_succ_of_le (List.dropWhile_sublist p).length_le

theorem parseNumber_within {c : Char} (hc : c.isDigit = true) :
    (parseNumber (c :: cs)).Within (c :: cs).length := by
  have hdrop := @length_dropWhile_cons cs Char.isDigit c hc
  unfold parseNumber
  dsimp only
  split
  case h_1 d tail htail =>
    rw [htail] at hdrop
    split_ifs with hd
    · have := (List.dropWhile_sublist (l := d :: tail) Char.isDigit).length_le
      simp only [Reply.Within, List.length_cons] at hdrop this ⊢
      omega
    · exact hdrop
    · trivial
  case h_2 =>
    split_ifs
    · exact hdrop
    · trivial

theorem classify_within {env : NameEnv} {name : String} {k : ℕ} (h : cs.length < k) :
    (classify env name cs).Within k := by
  unfold classify
  split_ifs
  · exact h
  · exact h
  · exact h
  · exact h
  · trivial

theorem parseNameOrEnum_within (env : NameEnv) (cs : List Char) :
    (parseNameOrEnum env cs).Within cs.length := by
  unfold parseNameOrEnum
  refine (parseIdent_within cs).bind fun name mid hmid ↦ ?_
  rcases heat : eat [':', ':'] mid with ⟨_ | _, mid'⟩
  · have := length_eat_false heat
    exact classify_within (by omega)
  · have := length_eat_true heat
    refine (parseIdent_within mid').bind fun ent rest hrest ↦ classify_within ?_
    omega

end Tokens

section Totality

variable (env : NameEnv)

/-- With this many rounds for what is left of the text, the rounds do not run out. -/
structure TotalAt (n : ℕ) : Prop where
  cmp : ∀ {cs}, 8 * cs.length + 7 ≤ n → (parseCmp env n cs).Within cs.length
  add : ∀ {cs}, 8 * cs.length + 6 ≤ n → (parseAdd env n cs).Within cs.length
  addRest : ∀ {l cs}, 8 * cs.length + 6 ≤ n → (addLoop env n l cs).Within (cs.length + 1)
  mul : ∀ {cs}, 8 * cs.length + 5 ≤ n → (parseMul env n cs).Within cs.length
  mulRest : ∀ {l cs}, 8 * cs.length + 5 ≤ n → (mulLoop env n l cs).Within (cs.length + 1)
  unary : ∀ {cs}, 8 * cs.length + 4 ≤ n → (parseUnary env n cs).Within cs.length
  chain : ∀ {cs}, 8 * cs.length + 3 ≤ n → (parsePostfix env n cs).Within cs.length
  chainRest : ∀ {l cs}, 8 * cs.length + 3 ≤ n →
    (postfixLoop env n l cs).Within (cs.length + 1)
  primary : ∀ {cs}, 8 * cs.length + 2 ≤ n → (parsePrimary env n cs).Within cs.length
  struct : ∀ {cs}, 8 * cs.length + 9 ≤ n → (parseStruct env n cs).Within cs.length
  fields : ∀ {acc cs}, 8 * cs.length + 8 ≤ n → (structLoop env n acc cs).Within cs.length

variable {env} {n : ℕ} {cs : List Char} {l : Expr} (ih : TotalAt env n)

include ih

theorem TotalAt.cmp_succ (hn : 8 * cs.length + 7 ≤ n + 1) :
    (parseCmp env (n + 1) cs).Within cs.length := by
  unfold parseCmp
  refine (ih.add (by omega)).bind fun lhs mid hmid ↦ ?_
  rcases hop : eatOp cmpOps mid with ⟨_ | op, mid'⟩
  · have := length_eatOp_none hop
    exact Nat.lt_of_le_of_lt this hmid
  · have := length_eatOp_some (by decide) hop
    refine (ih.add (by omega)).bind fun rhs rest hrest ↦ ?_
    exact hrest.trans (this.trans hmid)

theorem TotalAt.addRest_succ (hn : 8 * cs.length + 6 ≤ n + 1) :
    (addLoop env (n + 1) l cs).Within (cs.length + 1) := by
  unfold addLoop
  rcases hop : eatOp addOps cs with ⟨_ | op, mid⟩
  · exact Nat.lt_succ_of_le (length_eatOp_none hop)
  · have := length_eatOp_some (by decide) hop
    refine (ih.mul (by omega)).bind fun rhs rest hrest ↦ ?_
    exact (ih.addRest (by omega)).mono (by omega)

theorem TotalAt.mulRest_succ (hn : 8 * cs.length + 5 ≤ n + 1) :
    (mulLoop env (n + 1) l cs).Within (cs.length + 1) := by
  unfold mulLoop
  rcases hop : eatOp mulOps cs with ⟨_ | op, mid⟩
  · exact Nat.lt_succ_of_le (length_eatOp_none hop)
  · have := length_eatOp_some (by decide) hop
    refine (ih.unary (by omega)).bind fun rhs rest hrest ↦ ?_
    exact (ih.mulRest (by omega)).mono (by omega)

theorem TotalAt.unary_succ (hn : 8 * cs.length + 4 ≤ n + 1) :
    (parseUnary env (n + 1) cs).Within cs.length := by
  unfold parseUnary
  rcases heat : eat ['-'] cs with ⟨_ | _, mid⟩
  · have := length_eat_false heat
    exact (ih.chain (by omega)).mono this
  · have := length_eat_true heat
    rw [List.length_singleton] at this
    refine (ih.unary (by omega)).bind fun inner rest hrest ↦ ?_
    exact Nat.lt_of_lt_of_le hrest (by omega)

theorem TotalAt.chainRest_succ (hn : 8 * cs.length + 3 ≤ n + 1) :
    (postfixLoop env (n + 1) l cs).Within (cs.length + 1) := by
  unfold postfixLoop
  rcases heat : eat ['.'] cs with ⟨_ | _, mid⟩
  · exact Nat.lt_succ_of_le (length_eat_false heat)
  · have := length_eat_true heat
    rw [List.length_singleton] at this
    refine (parseIdent_within mid).bind fun f rest hrest ↦ ?_
    exact (ih.chainRest (by omega)).mono (by omega)

theorem TotalAt.primary_succ (hn : 8 * cs.length + 2 ≤ n + 1) :
    (parsePrimary env (n + 1) cs).Within cs.length := by
  have hlen := length_skip_le cs
  unfold parsePrimary
  split
  case h_1 tail hskip =>
    rw [hskip, List.length_cons] at hlen
    refine (ih.cmp (by omega)).bind fun inner mid hmid ↦ ?_
    rcases heat : eat [')'] mid with ⟨_ | _, rest⟩
    · trivial
    · have := length_eat_true heat
      exact Nat.lt_of_lt_of_le (Nat.lt_of_le_of_lt (by omega) hmid) (Nat.le_of_succ_le hlen)
  case h_2 tail hskip =>
    rw [hskip, List.length_cons] at hlen
    exact (ih.struct (by omega)).mono (by omega)
  case h_3 tail hskip =>
    rw [hskip, List.length_cons] at hlen
    exact (parseString_within tail).mono (by omega)
  case h_4 c tail _ _ _ hskip =>
    rw [hskip] at hlen
    split_ifs with hdigit hstart
    · exact (parseNumber_within hdigit).mono hlen
    · exact (parseNameOrEnum_within env (c :: tail)).mono hlen
    · trivial
  case h_5 => trivial

theorem TotalAt.struct_succ (hn : 8 * cs.length + 9 ≤ n + 1) :
    (parseStruct env (n + 1) cs).Within cs.length := by
  unfold parseStruct
  rcases heat : eat ['\x7d'] cs with ⟨_ | _, mid⟩
  · have := length_eat_false heat
    exact (ih.fields (by omega)).mono this
  · have := length_eat_true heat
    rw [List.length_singleton] at this
    exact this

theorem TotalAt.fields_succ {acc : List (String × Expr)} (hn : 8 * cs.length + 8 ≤ n + 1) :
    (structLoop env (n + 1) acc cs).Within cs.length := by
  unfold structLoop
  refine (parseIdent_within cs).bind fun name mid hmid ↦ ?_
  rcases hcolon : eat [':'] mid with ⟨_ | _, mid'⟩
  · trivial
  have hcolon' := length_eat_true hcolon
  refine (ih.cmp (by omega)).bind fun val mid'' hmid'' ↦ ?_
  rcases hcomma : eat [','] mid'' with ⟨_ | _, after⟩
  · have hafter := length_eat_false hcomma
    dsimp only
    rcases hclose : eat ['\x7d'] after with ⟨_ | _, rest⟩
    · trivial
    · have := length_eat_true hclose
      exact Nat.lt_of_le_of_lt (m := mid''.length) (by omega) (by omega)
  · have hafter := length_eat_true hcomma
    dsimp only
    split
    case h_1 rest hskip =>
      have := length_skip_le after
      rw [hskip, List.length_cons] at this
      exact Nat.lt_of_le_of_lt (m := mid''.length) (by omega) (by omega)
    case h_2 =>
      rw [structLoop_skip]
      exact (ih.fields (by omega)).mono (by omega)

omit ih in
theorem totalAt_zero : TotalAt env 0 := by
  constructor <;> (intros; omega)

theorem TotalAt.succ : TotalAt env (n + 1) where
  cmp := ih.cmp_succ
  add {cs} hn := by
    unfold parseAdd
    refine (ih.mul (by omega)).bind fun lhs mid hmid ↦ ?_
    exact (ih.addRest (by omega)).mono (by omega)
  addRest := ih.addRest_succ
  mul {cs} hn := by
    unfold parseMul
    refine (ih.unary (by omega)).bind fun lhs mid hmid ↦ ?_
    exact (ih.mulRest (by omega)).mono (by omega)
  mulRest := ih.mulRest_succ
  unary := ih.unary_succ
  chain {cs} hn := by
    unfold parsePostfix
    refine (ih.primary (by omega)).bind fun lhs mid hmid ↦ ?_
    exact (ih.chainRest (by omega)).mono (by omega)
  chainRest := ih.chainRest_succ
  primary := ih.primary_succ
  struct := ih.struct_succ
  fields := ih.fields_succ

omit ih in
theorem totalAt (env : NameEnv) (n : ℕ) : TotalAt env n := by
  induction n with
  | zero => exact totalAt_zero
  | succ n ih => exact ih.succ

omit ih in
theorem parse_ne_none (env : NameEnv) (input : String) : parse env input ≠ none := by
  have h : (parseCmp env (8 * input.toList.length + 8) input.toList).Within _ :=
    (totalAt env _).cmp (Nat.le_succ _)
  unfold parse
  split
  case h_1 e rest hcmp =>
    split
    · exact Option.some_ne_none _
    · exact Option.some_ne_none _
  case h_2 => exact Option.some_ne_none _
  case h_3 hcmp => exact absurd hcmp h.ne_more

end Totality

end Expr

end ConcIR
