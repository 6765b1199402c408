import Mathlib

/-!
# Where edits are made

The parser tells where a piece of syntax stands by its line and the number of characters
before it on the line. Edits are made at byte offsets: the instrumenter and the source
mutator add the column to the offset at which the line begins. A column is a number of bytes
only on a line whose characters take one byte each.
-/

namespace ConcIR

namespace Instrument

/-- A position of the parser: lines count from one, columns are characters from zero. -/
structure LineColumn where
  line : ℕ
  column : ℕ

/-- The bytes of a text. -/
def bytes (src : List Char) : List UInt8 := src.flatMap String.utf8EncodeChar

/-- The number of bytes of a text: the offset of the boundary behind it. -/
def byteLen (src : List Char) : ℕ := (bytes src).length

/-- The offsets behind the newlines among bytes that begin at an offset. -/
def startsFrom (offset : ℕ) (bs : List UInt8) : List ℕ :=
  ((bs.zipIdx offset).filter fun b ↦ b.1 = 10).map fun b ↦ b.2 + 1

def lineStarts (src : List Char) : List ℕ := 0 :: startsFrom 0 (bytes src)

def lcOffset (starts : List ℕ) (lc : LineColumn) : ℕ :=
  starts.getD (min (lc.line - 1) (starts.length - 1)) 0 + lc.column

/-- The part of a text behind its last newline. -/
def lastLine (pre : List Char) : List Char := pre.rtakeWhile (· ≠ '\n')

/-- The part of a text up to its last newline. -/
def fullLines (pre : List Char) : List Char := pre.rdropWhile (· ≠ '\n')

/-- The position of the boundary behind a text. -/
def position (pre : List Char) : LineColumn := ⟨pre.count '\n' + 1, (lastLine pre).length⟩

section Bytes

variable {src as bs : List Char} {c : Char} {n : ℕ}

@[simp] theorem byteLen_nil : byteLen [] = 0 := rfl

theorem byteLen_append : byteLen (as ++ bs) = byteLen as + byteLen bs := by
  rw [byteLen, bytes, List.flatMap_append, List.length_append]
  rfl

theorem byteLen_cons : byteLen (c :: as) = c.utf8Size + byteLen as := by
  rw [byteLen, bytes, List.flatMap_cons, List.length_append, String.length_utf8EncodeChar]
  rfl

theorem length_le_byteLen : src.length ≤ byteLen src := by
  induction src with
  | nil => exact le_rfl
  | cons c src ih =>
      have hpos := c.utf8Size_pos
      rw [byteLen_cons, List.length_cons]
      omega

/-- A text takes one byte a character exactly when each of them does. -/
theorem byteLen_eq_length_iff : byteLen src = src.length ↔ ∀ c ∈ src, c.utf8Size = 1 := by
  induction src with
  | nil => simp
  | cons c src ih =>
      have hpos := c.utf8Size_pos
      have hle : src.length ≤ byteLen src := length_le_byteLen
      rw [byteLen_cons, List.length_cons, List.forall_mem_cons, ← ih]
      omega

theorem mod_of_ofNat (h : (10 : UInt8) = UInt8.ofNat n) : n % 256 = 10 := by
  have hnat := congrArg UInt8.toNat h
  simpa using hnat.symm

/-- Only a newline has the byte of a newline: the bytes of longer characters are large. -/
theorem newline_mem_utf8EncodeChar (h : (10 : UInt8) ∈ String.utf8EncodeChar c) : c = '\n' := by
  rw [String.utf8EncodeChar] at h
  split_ifs at h with h₁ h₂ h₃ <;> simp only [List.mem_cons, List.not_mem_nil, or_false] at h
  · refine Char.ext (UInt32.toNat_inj.mp ?_)
    change c.val.toNat = 10
    have hv := mod_of_ofNat h
    omega
  · rcases h with h | h <;> exact absurd (mod_of_ofNat h) (by omega)
  · rcases h with h | h | h <;> exact absurd (mod_of_ofNat h) (by omega)
  · rcases h with h | h | h | h <;> exact absurd (mod_of_ofNat h) (by omega)

theorem startsFrom_append {xs ys : List UInt8} :
    startsFrom n (xs ++ ys) = startsFrom n xs ++ startsFrom (n + xs.length) ys := by
  rw [startsFrom, List.zipIdx_append, List.filter_append, List.map_append]
  rfl

theorem startsFrom_newline : startsFrom n (String.utf8EncodeChar '\n') = [n + 1] := rfl

theorem startsFrom_of_ne (h : c ≠ '\n') : startsFrom n (String.utf8EncodeChar c) = [] := by
  rw [startsFrom, List.map_eq_nil_iff, List.filter_eq_nil_iff]
  intro b hb h10
  rw [decide_eq_true_eq] at h10
  refine h (newline_mem_utf8EncodeChar ?_)
  rw [← h10]
  exact List.fst_mem_of_mem_zipIdx hb

theorem length_startsFrom : (startsFrom n (bytes src)).length = src.count '\n' := by
  induction src generalizing n with
  | nil => rfl
  | cons c src ih =>
      rw [bytes, List.flatMap_cons, startsFrom_append, List.length_append, ← bytes, ih]
      by_cases hc : c = '\n'
      · rw [hc, startsFrom_newline, List.count_cons_self, List.length_singleton, Nat.add_comm]
      · rw [startsFrom_of_ne hc, List.count_cons_of_ne hc, List.length_nil, Nat.zero_add]

/-- The line behind some text and a newline begins where they end. -/
theorem lineStarts_getD : (lineStarts (as ++ '\n' :: bs)).getD (as.count '\n' + 1) 0 =
    byteLen (as ++ ['\n']) := by
  have hbytes : bytes (as ++ '\n' :: bs) =
      bytes as ++ (String.utf8EncodeChar '\n' ++ bytes bs) := by
    rw [bytes, List.flatMap_append, List.flatMap_cons]
    rfl
  rw [lineStarts, hbytes, startsFrom_append, startsFrom_append, startsFrom_newline,
    List.getD_cons_succ, ← length_startsFrom (n := 0),
    List.getD_append_right _ _ _ _ le_rfl, Nat.sub_self, byteLen_append, Nat.zero_add]
  rfl

end Bytes

section Positions

variable {pre post : List Char}

theorem fullLines_append_lastLine (pre : List Char) : fullLines pre ++ lastLine pre = pre :=
  List.rdropWhile_append_rtakeWhile

theorem count_lastLine : (lastLine pre).count '\n' = 0 := by
  rw [List.count_eq_zero]
  intro hmem
  have hne := List.mem_rtakeWhile_imp hmem
  simp at hne

theorem count_fullLines : (fullLines pre).count '\n' = pre.count '\n' := by
  conv_rhs => rw [← fullLines_append_lastLine pre, List.count_append, count_lastLine]
  rfl

/-- The last line begins behind the full lines. -/
theorem lineStarts_fullLines :
    (lineStarts (pre ++ post)).getD (pre.count '\n') 0 = byteLen (fullLines pre) := by
  rw [← count_fullLines]
  have hpre := fullLines_append_lastLine pre
  rcases List.eq_nil_or_concat (fullLines pre) with hnil | ⟨as, c, has⟩
  · rw [hnil]
    rfl
  · rw [List.concat_eq_append] at has
    have hc : c = '\n' := by
      have hself : fullLines (fullLines pre) = fullLines pre := List.rdropWhile_idempotent _ _
      rw [has, fullLines] at hself
      by_contra hne
      have hlen := congrArg List.length hself
      rw [List.rdropWhile_concat_pos _ _ _ (by simpa using hne), List.length_append] at hlen
      have hle := (List.rdropWhile_prefix (· ≠ '\n') (l := as)).length_le
      simp only [List.length_singleton] at hlen
      omega
    rw [hc] at has
    have hsrc : pre ++ post = as ++ '\n' :: (lastLine pre ++ post) := by
      conv_lhs => rw [← hpre, has]
      simp only [List.append_assoc, List.cons_append, List.nil_append]
    rw [has, hsrc, List.count_append, List.count_singleton_self]
    exact lineStarts_getD

/-- The offset that is computed takes a byte for each character of the line. -/
theorem lcOffset_position : lcOffset (lineStarts (pre ++ post)) (position pre) =
    byteLen (fullLines pre) + (lastLine pre).length := by
  have hmin : min (pre.count '\n') ((lineStarts (pre ++ post)).length - 1) = pre.count '\n' := by
    rw [lineStarts, List.length_cons, length_startsFrom, List.count_append]
    omega
  rw [lcOffset, position, Nat.add_sub_cancel, hmin, lineStarts_fullLines]

end Positions

/-- Every character before the boundary on its line takes one byte. -/
def NarrowLine (pre : List Char) : Prop := ∀ c ∈ lastLine pre, c.toNat < 128

section Offsets

variable {pre post : List Char}

theorem utf8Size_eq_one {c : Char} : c.utf8Size = 1 ↔ c.toNat < 128 := by
  rw [Char.utf8Size_eq_one_iff, UInt32.le_iff_toNat_le]
  change c.toNat ≤ 127 ↔ c.toNat < 128
  omega

theorem lcOffset_eq_byteLen_iff (pre post : List Char) :
    lcOffset (lineStarts (pre ++ post)) (position pre) = byteLen pre ↔ NarrowLine pre := by
  have hsplit : byteLen pre = byteLen (fullLines pre) + byteLen (lastLine pre) := by
    rw [← byteLen_append, fullLines_append_lastLine]
  have hnarrow : NarrowLine pre ↔ byteLen (lastLine pre) = (lastLine pre).length := by
    rw [byteLen_eq_length_iff, NarrowLine]
    exact forall₂_congr fun c _ ↦ utf8Size_eq_one.symm
  rw [lcOffset_position, hsplit, hnarrow]
  omega

/-- An offset behind an opening bracket is computed as one more than that of the bracket. -/
theorem lcOffset_add_one {c : Char} (hc : c ≠ '\n') :
    lcOffset (lineStarts (pre ++ c :: post)) (position pre) + 1 =
      lcOffset (lineStarts (pre ++ c :: post)) (position (pre ++ [c])) := by
  have hline : lastLine (pre ++ [c]) = lastLine pre ++ [c] :=
    List.rtakeWhile_concat_pos _ _ _ (by simpa using hc)
  have hfull : fullLines (pre ++ [c]) = fullLines pre :=
    List.rdropWhile_concat_pos _ _ _ (by simpa using hc)
  rw [lcOffset_position, List.append_cons, lcOffset_position, hline, hfull, List.length_append,
    List.length_singleton, Nat.add_assoc]

end Offsets

/-- The two parts of a text at a byte offset that is a boundary. -/
def cutAt : List Char → ℕ → Option (List Char × List Char)
  | cs, 0 => some ([], cs)
  | [], _ + 1 => none
  | c :: cs, n + 1 =>
      if c.utf8Size ≤ n + 1 then (cutAt cs (n + 1 - c.utf8Size)).map (Prod.map (c :: ·) id)
      else none

/-- Replace the text between two byte offsets; it fails where one is no boundary. -/
def replaceRange (src : List Char) (start stop : ℕ) (text : List Char) : Option (List Char) :=
  if start ≤ stop then
    match cutAt src start, cutAt src stop with
    | some (before, _), some (_, behind) => some (before ++ text ++ behind)
    | _, _ => none
  else none

structure Edit where
  start : ℕ
  stop : ℕ
  text : List Char

/-- The order of the edits: the last one comes first, the longer one at one place. -/
def Edit.before (a b : Edit) : Bool :=
  b.start < a.start || (a.start = b.start && b.stop ≤ a.stop)

/-- The edits of `wrap`, made from the end of the text to its beginning. -/
def applyEdits (src : List Char) (edits : List Edit) : Option (List Char) :=
  (edits.mergeSort Edit.before).foldlM (fun s e ↦ replaceRange s e.start e.stop e.text) src

/-- The range of the source mutator. -/
def spanRange (src : List Char) (a b : LineColumn) : Option (ℕ × ℕ) :=
  let a := lcOffset (lineStarts src) a
  let b := lcOffset (lineStarts src) b
  if a < b && b ≤ byteLen src then some (a, b) else none

/-- A planned edit with the text that is kept before it: the span and what replaces it. -/
structure Piece where
  gap : List Char
  span : List Char
  text : List Char

/-- The text that edits are planned for. -/
def source : List Piece → List Char → List Char
  | [], rest => rest
  | p :: ps, rest => p.gap ++ (p.span ++ source ps rest)

/-- The text as it is planned. -/
def target : List Piece → List Char → List Char
  | [], rest => rest
  | p :: ps, rest => p.gap ++ (p.text ++ target ps rest)

/-- The texts up to the beginning and the end of each span. -/
def ends (pre : List Char) : List Piece → List (List Char)
  | [] => []
  | p :: ps => (pre ++ p.gap) :: (pre ++ p.gap ++ p.span) :: ends (pre ++ p.gap ++ p.span) ps

/-- The edits of a plan, for a way to find the offset of a boundary. -/
def planned (offset : List Char → ℕ) (pre : List Char) : List Piece → List Edit
  | [] => []
  | p :: ps => ⟨offset (pre ++ p.gap), offset (pre ++ p.gap ++ p.span), p.text⟩ ::
      planned offset (pre ++ p.gap ++ p.span) ps

section Cutting

variable {as bs cs src : List Char} {n : ℕ}

theorem cutAt_append : cutAt (as ++ bs) (byteLen as) = some (as, bs) := by
  induction as with
  | nil => cases bs <;> rfl
  | cons c as ih =>
      obtain ⟨k, hk⟩ := Nat.exists_eq_succ_of_ne_zero c.utf8Size_pos.ne'
      have hlen : byteLen (c :: as) = (k + byteLen as) + 1 := by
        rw [byteLen_cons, hk]
        omega
      have hrest : k + byteLen as + 1 - c.utf8Size = byteLen as := by
        rw [hk]
        omega
      rw [hlen, List.cons_append, cutAt, if_pos (by omega), hrest, ih]
      rfl

/-- A replacement at the offsets of two boundaries is made between them. -/
theorem replaceRange_byteLen (text : List Char) :
    replaceRange (as ++ (bs ++ cs)) (byteLen as) (byteLen (as ++ bs)) text =
      some (as ++ (text ++ cs)) := by
  have hle : byteLen as ≤ byteLen (as ++ bs) := by
    rw [byteLen_append]
    omega
  have hstop : cutAt (as ++ (bs ++ cs)) (byteLen (as ++ bs)) = some (as ++ bs, cs) := by
    rw [← List.append_assoc, cutAt_append]
  rw [replaceRange, if_pos hle, cutAt_append, hstop]
  simp only [List.append_assoc]

end Cutting

section Plans

variable {ps : List Piece} {pre rest : List Char} {es : List Edit} {e : Edit}

/-- The edits of a plan lie behind the text before it, each from its beginning to its end. -/
theorem le_of_mem_planned (h : e ∈ planned byteLen pre ps) :
    byteLen pre ≤ e.start ∧ e.start ≤ e.stop := by
  induction ps generalizing pre with
  | nil => cases h
  | cons p ps ih =>
      rcases List.mem_cons.mp h with rfl | h
      · simp only [byteLen_append]
        omega
      · have hle := ih h
        simp only [byteLen_append] at hle
        omega

theorem planned_pairwise :
    (planned byteLen pre ps).Pairwise fun a b ↦ Edit.before b a = true := by
  induction ps generalizing pre with
  | nil => exact .nil
  | cons p ps ih =>
      refine .cons (fun e he ↦ ?_) ih
      have hle := le_of_mem_planned he
      simp only [byteLen_append] at hle
      simp only [Edit.before, byteLen_append, Bool.or_eq_true, Bool.and_eq_true,
        decide_eq_true_eq]
      omega

theorem before_trans (a b c : Edit) (hab : a.before b = true) (hbc : b.before c = true) :
    a.before c = true := by
  simp only [Edit.before, Bool.or_eq_true, Bool.and_eq_true, decide_eq_true_eq] at hab hbc ⊢
  omega

theorem before_total (a b : Edit) : (a.before b || b.before a) = true := by
  simp only [Edit.before, Bool.or_eq_true, Bool.and_eq_true, decide_eq_true_eq]
  omega

/-- Edits with different ranges are sorted from the end of the plan to its beginning. -/
theorem mergeSort_planned (hperm : es.Perm (planned byteLen pre ps))
    (hne : (es.map fun e ↦ (e.start, e.stop)).Nodup) :
    es.mergeSort Edit.before = (planned byteLen pre ps).reverse := by
  have hsorted := List.pairwise_mergeSort before_trans before_total es
  have hmem : ∀ e, e ∈ es.mergeSort Edit.before ↔ e ∈ es := fun e ↦ List.mem_mergeSort
  refine List.Perm.eq_of_pairwise ?_ hsorted (List.pairwise_reverse.mpr planned_pairwise) ?_
  · intro a b ha hb hab hba
    rw [List.mem_reverse, ← hperm.mem_iff] at hb
    refine List.inj_on_of_nodup_map hne ((hmem a).mp ha) hb ?_
    simp only [Edit.before, Bool.or_eq_true, Bool.and_eq_true, decide_eq_true_eq] at hab hba
    rw [Prod.mk.injEq]
    omega
  · exact ((List.mergeSort_perm es _).trans hperm).trans (List.reverse_perm _).symm

/-- Edits that are made from the end find the text before them as it was. -/
theorem foldlM_planned :
    (planned byteLen pre ps).reverse.foldlM (fun s e ↦ replaceRange s e.start e.stop e.text)
      (pre ++ source ps rest) = some (pre ++ target ps rest) := by
  induction ps generalizing pre with
  | nil => rfl
  | cons p ps ih =>
      have hsource : pre ++ source (p :: ps) rest =
          (pre ++ p.gap ++ p.span) ++ source ps rest := by
        simp only [source, List.append_assoc]
      have htarget : pre ++ target (p :: ps) rest =
          (pre ++ p.gap) ++ (p.text ++ target ps rest) := by
        simp only [target, List.append_assoc]
      rw [planned, List.reverse_cons, List.foldlM_append, hsource, ih, Option.bind_eq_bind,
        Option.bind_some, List.append_assoc (pre ++ p.gap), htarget]
      simp only [List.foldlM_cons, List.foldlM_nil]
      rw [replaceRange_byteLen]
      rfl

/-- The edits are made at the spans they were planned for: the offset of each end of a span is
its own, and the edits, in whatever order they were collected, make the text of the plan. -/
structure EditedAsPlanned (ps : List Piece) (rest : List Char) : Prop where
  offsets : ∀ pre ∈ ends [] ps,
    lcOffset (lineStarts (source ps rest)) (position pre) = byteLen pre
  made : ∀ es : List Edit,
    es.Perm (planned (fun pre ↦ lcOffset (lineStarts (source ps rest)) (position pre)) [] ps) →
      (es.map fun e ↦ (e.start, e.stop)).Nodup →
        applyEdits (source ps rest) es = some (target ps rest)

/-- The ends of the spans are boundaries of the text. -/
theorem exists_append_of_mem_ends (rest : List Char) {post : List Char} (h : post ∈ ends pre ps) :
    ∃ behind, pre ++ source ps rest = post ++ behind := by
  induction ps generalizing pre with
  | nil => cases h
  | cons p ps ih =>
      rw [ends, List.mem_cons, List.mem_cons] at h
      rcases h with rfl | rfl | h
      · exact ⟨p.span ++ source ps rest, (List.append_assoc _ _ _).symm⟩
      · exact ⟨source ps rest, by simp only [source, List.append_assoc]⟩
      · obtain ⟨behind, hbehind⟩ := ih h
        exact ⟨behind, by rw [← hbehind]; simp only [source, List.append_assoc]⟩

theorem planned_congr {off off' : List Char → ℕ} (h : ∀ post ∈ ends pre ps, off post = off' post) :
    planned off pre ps = planned off' pre ps := by
  induction ps generalizing pre with
  | nil => rfl
  | cons p ps ih =>
      rw [ends, List.forall_mem_cons, List.forall_mem_cons] at h
      rw [planned, planned, h.1, h.2.1, ih h.2.2]

theorem editedAsPlanned_iff :
    EditedAsPlanned ps rest ↔ ∀ pre ∈ ends [] ps, NarrowLine pre := by
  have hiff : ∀ pre ∈ ends [] ps,
      (lcOffset (lineStarts (source ps rest)) (position pre) = byteLen pre ↔ NarrowLine pre) := by
    intro pre hpre
    obtain ⟨behind, hbehind⟩ := exists_append_of_mem_ends rest hpre
    rw [List.nil_append] at hbehind
    rw [hbehind]
    exact lcOffset_eq_byteLen_iff pre behind
  constructor
  · intro h pre hpre
    exact (hiff pre hpre).mp (h.offsets pre hpre)
  · intro h
    have hoff := fun pre hpre ↦ (hiff pre hpre).mpr (h pre hpre)
    refine ⟨hoff, fun es hperm hne ↦ ?_⟩
    rw [planned_congr hoff] at hperm
    rw [applyEdits, mergeSort_planned hperm hne]
    exact @foldlM_planned ps [] rest

end Plans

section Exact

variable {pre post : List Char}

/-- A span that is not empty has its own range exactly when both ends have their offsets. -/
theorem spanRange_iff {c : Char} {cs : List Char} :
    spanRange (pre ++ (c :: cs ++ post)) (position pre) (position (pre ++ c :: cs)) =
        some (byteLen pre, byteLen (pre ++ c :: cs)) ↔
      NarrowLine pre ∧ NarrowLine (pre ++ c :: cs) := by
  have hstart := lcOffset_eq_byteLen_iff pre (c :: cs ++ post)
  have hstop := lcOffset_eq_byteLen_iff (pre ++ c :: cs) post
  rw [List.append_assoc] at hstop
  rw [← hstart, ← hstop, spanRange]
  constructor
  · intro h
    split_ifs at h
    simpa using h
  · rintro ⟨ha, hb⟩
    have hpos := c.utf8Size_pos
    have hlt : byteLen pre < byteLen (pre ++ c :: cs) := by
      rw [byteLen_append, byteLen_cons]
      omega
    have hle : byteLen (pre ++ c :: cs) ≤ byteLen (pre ++ (c :: cs ++ post)) := by
      simp only [byteLen_append]
      omega
    simp only [ha, hb]
    rw [if_pos (by simpa using ⟨hlt, hle⟩)]

/-- The offset of a boundary is its own, and edits are made where they were planned, exactly
where every character before the boundary on its line takes one byte. -/
theorem edits_exact_iff (pre post : List Char) (c : Char) (cs : List Char) (ps : List Piece)
    (rest : List Char) :
    (lcOffset (lineStarts (pre ++ post)) (position pre) = byteLen pre ↔ NarrowLine pre) ∧
    (spanRange (pre ++ (c :: cs ++ post)) (position pre) (position (pre ++ c :: cs)) =
        some (byteLen pre, byteLen (pre ++ c :: cs)) ↔
      NarrowLine pre ∧ NarrowLine (pre ++ c :: cs)) ∧
    (EditedAsPlanned ps rest ↔ ∀ pre ∈ ends [] ps, NarrowLine pre) :=
  ⟨lcOffset_eq_byteLen_iff pre post, spanRange_iff, editedAsPlanned_iff⟩

/-- Behind an accented letter the offset is inside the letter, and an edit there fails. -/
theorem not_edits_exact :
    lcOffset (lineStarts ("é".toList ++ " = 1;".toList)) (position "é".toList) ≠
      byteLen "é".toList ∧
    applyEdits "é = 1;".toList
      [⟨lcOffset (lineStarts "é = 1;".toList) (position "é".toList),
        lcOffset (lineStarts "é = 1;".toList) (position "é".toList), "x".toList⟩] = none := by
  decide +kernel

end Exact

end Instrument

end ConcIR
