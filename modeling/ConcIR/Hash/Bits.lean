import Mathlib

/-!
# Numbers as bit strings

A number written with a fixed number of bits, the most significant one first, and the
number that a bit string stands for.
-/

namespace ConcIR

namespace Hash

section Bits

/-- The last `w` bits of a number. -/
def natBits : ℕ → ℕ → List Bool
  | 0, _ => []
  | w + 1, n => n.testBit w :: natBits w n

/-- The number that a bit string stands for. -/
def ofBits (bs : List Bool) : ℕ := bs.foldl (fun n b ↦ 2 * n + b.toNat) 0

variable (w v n : ℕ) (as bs : List Bool)

@[simp] theorem length_natBits : (natBits w n).length = w := by
  induction w with
  | zero => rfl
  | succ w ih => rw [natBits, List.length_cons, ih]

theorem foldl_bits (m : ℕ) :
    bs.foldl (fun n b ↦ 2 * n + b.toNat) m = m * 2 ^ bs.length + ofBits bs := by
  induction bs generalizing m with
  | nil => simp [ofBits]
  | cons b bs ih =>
      rw [ofBits, List.foldl_cons, List.foldl_cons, ih, ih (2 * 0 + b.toNat), List.length_cons,
        pow_succ]
      ring

@[simp] theorem ofBits_nil : ofBits [] = 0 := rfl

theorem ofBits_cons (b : Bool) : ofBits (b :: bs) = b.toNat * 2 ^ bs.length + ofBits bs := by
  rw [ofBits, List.foldl_cons, foldl_bits, Nat.mul_zero, Nat.zero_add]

theorem ofBits_append : ofBits (as ++ bs) = ofBits as * 2 ^ bs.length + ofBits bs := by
  rw [ofBits, List.foldl_append, foldl_bits]
  rfl

theorem ofBits_natBits : ofBits (natBits w n) = n % 2 ^ w := by
  induction w with
  | zero => rw [natBits, ofBits_nil, pow_zero, Nat.mod_one]
  | succ w ih =>
      rw [natBits, ofBits_cons, length_natBits, ih, Nat.toNat_testBit, Nat.mod_pow_succ]
      ring

theorem natBits_mod (h : w ≤ v) : natBits w (n % 2 ^ v) = natBits w n := by
  induction w with
  | zero => rfl
  | succ w ih =>
      have hbit : (n % 2 ^ v).testBit w = n.testBit w := by
        rw [Nat.testBit_mod_two_pow, decide_eq_true (by omega), Bool.true_and]
      rw [natBits, natBits, hbit, ih (by omega)]

/-- The first bits are those of the number without its last ones. -/
theorem natBits_add : natBits (v + w) n = natBits v (n / 2 ^ w) ++ natBits w n := by
  induction v with
  | zero => rw [Nat.zero_add, natBits, List.nil_append]
  | succ v ih =>
      have hbit : (n / 2 ^ w).testBit v = n.testBit (v + w) := by
        rw [Nat.testBit_div_two_pow]
      rw [Nat.succ_add, natBits, natBits, List.cons_append, ih, hbit]

theorem natBits_zero : natBits w 0 = List.replicate w false := by
  induction w with
  | zero => rfl
  | succ w ih => rw [natBits, Nat.zero_testBit, ih, List.replicate_succ]

end Bits

end Hash

end ConcIR
