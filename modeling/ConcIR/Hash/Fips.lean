import ConcIR.Hash.Bits
import Mathlib

/-!
# The secure hash standard

SHA-256 as FIPS 180-4 defines it, on messages of bits. The constants are computed from the
primes whose roots they are taken from.
-/

namespace ConcIR

namespace Hash

namespace Fips

abbrev Word := BitVec 32

/-- The eight words of a hash value and the eight working variables. -/
@[ext]
structure Words where
  a : Word
  b : Word
  c : Word
  d : Word
  e : Word
  f : Word
  g : Word
  h : Word
deriving DecidableEq

section Functions

def rotr (n : ℕ) (x : Word) : Word := (x >>> n) ||| (x <<< (32 - n))

def ch (x y z : Word) : Word := (x &&& y) ^^^ (~~~x &&& z)

def maj (x y z : Word) : Word := (x &&& y) ^^^ (x &&& z) ^^^ (y &&& z)

def upperSigma0 (x : Word) : Word := rotr 2 x ^^^ rotr 13 x ^^^ rotr 22 x

def upperSigma1 (x : Word) : Word := rotr 6 x ^^^ rotr 11 x ^^^ rotr 25 x

def lowerSigma0 (x : Word) : Word := rotr 7 x ^^^ rotr 18 x ^^^ (x >>> 3)

def lowerSigma1 (x : Word) : Word := rotr 17 x ^^^ rotr 19 x ^^^ (x >>> 10)

end Functions

section Constants

/-- The first sixty-four primes. -/
def primes : List ℕ := (List.range 312).filter fun n ↦ decide n.Prime

/-- The first 32 bits of the fractional part of the `k`-th root of a number. -/
def rootBits (k p : ℕ) : Word := BitVec.ofNat 32 (Nat.nthRoot k (p * 2 ^ (32 * k)))

def constant (t : ℕ) : Word := rootBits 3 (primes.getD t 0)

def initial : Words where
  a := rootBits 2 (primes.getD 0 0)
  b := rootBits 2 (primes.getD 1 0)
  c := rootBits 2 (primes.getD 2 0)
  d := rootBits 2 (primes.getD 3 0)
  e := rootBits 2 (primes.getD 4 0)
  f := rootBits 2 (primes.getD 5 0)
  g := rootBits 2 (primes.getD 6 0)
  h := rootBits 2 (primes.getD 7 0)

theorem length_primes : primes.length = 64 := by decide +kernel

end Constants

section Padding

/-- The zero bits after the bit that ends the message. -/
def zeros (l : ℕ) : ℕ := (959 - l % 512) % 512

/-- The least number of zero bits that leaves 64 bits of the last block. -/
theorem zeros_least (l k : ℕ) : (l + 1 + zeros l) % 512 = 448 ∧
    ((l + 1 + k) % 512 = 448 → zeros l ≤ k) := by
  unfold zeros
  constructor <;> omega

def pad (m : List Bool) : List Bool :=
  m ++ (true :: (List.replicate (zeros m.length) false ++ natBits 64 m.length))

theorem length_pad (m : List Bool) : (pad m).length % 512 = 0 := by
  simp only [pad, List.length_append, List.length_cons, List.length_replicate, length_natBits,
    zeros]
  omega

/-- The words of a block. -/
def blockWord (block : List Bool) (j : ℕ) : Word :=
  BitVec.ofNat 32 (ofBits ((block.drop (32 * j)).take 32))

end Padding

section Computation

/-- The message schedule of a block. -/
def schedule (m : ℕ → Word) (t : ℕ) : Word :=
  if t < 16 then m t
  else lowerSigma1 (schedule m (t - 2)) + schedule m (t - 7) + lowerSigma0 (schedule m (t - 15)) +
    schedule m (t - 16)
termination_by t

def round (w : ℕ → Word) (s : Words) (t : ℕ) : Words :=
  let t1 := s.h + upperSigma1 s.e + ch s.e s.f s.g + constant t + w t
  let t2 := upperSigma0 s.a + maj s.a s.b s.c
  { a := t1 + t2, b := s.a, c := s.b, d := s.c, e := s.d + t1, f := s.e, g := s.f, h := s.g }

def addWords (x y : Words) : Words where
  a := x.a + y.a
  b := x.b + y.b
  c := x.c + y.c
  d := x.d + y.d
  e := x.e + y.e
  f := x.f + y.f
  g := x.g + y.g
  h := x.h + y.h

/-- The next hash value. -/
def nextHash (x : Words) (block : List Bool) : Words :=
  addWords ((List.range 64).foldl (round (schedule (blockWord block))) x) x

def hash (m : List Bool) : Words :=
  (List.range ((pad m).length / 512)).foldl
    (fun x i ↦ nextHash x (((pad m).drop (512 * i)).take 512)) initial

def digest (m : List Bool) : List Bool :=
  [(hash m).a, (hash m).b, (hash m).c, (hash m).d, (hash m).e, (hash m).f, (hash m).g,
    (hash m).h].flatMap fun x ↦ natBits 32 x.toNat

end Computation

end Fips

end Hash

end ConcIR
