import Mathlib.Data.List.Induction
import Mathlib.Data.Nat.Notation
import Mathlib.Tactic.Common
import Mathlib.Tactic.Ring

/-!
Unsigned integers as octets in network byte order, and the
`NonNegativeInteger` encoding, which uses the shortest of the widths 1, 2, 4
and 8 that holds the number.
-/

namespace ValProofs.Lib

open List

/-- The `k` low octets of `n`, the most significant first. -/
def bigEndian : ℕ → ℕ → List UInt8
  | 0, _ => []
  | k + 1, n => UInt8.ofNat (n / 256 ^ k) :: bigEndian k n

def ofBigEndian (octets : List UInt8) : ℕ :=
  octets.foldl (fun n octet => n * 256 + octet.toNat) 0

@[simp] theorem length_bigEndian (k n : ℕ) : (bigEndian k n).length = k := by
  induction k with
  | zero => rfl
  | succ k ih => simp [bigEndian, ih]

/-- Decoding goes on from the number read so far. -/
theorem foldl_bigEndian (k n m : ℕ) :
    (bigEndian k n).foldl (fun n octet => n * 256 + octet.toNat) m =
      m * 256 ^ k + n % 256 ^ k := by
  induction k generalizing m with
  | zero => simp [bigEndian, Nat.mod_one]
  | succ k ih =>
    have hoctet : (UInt8.ofNat (n / 256 ^ k)).toNat = n / 256 ^ k % 256 := by
      simp [UInt8.toNat_ofNat']
    rw [bigEndian, foldl_cons, ih, hoctet, Nat.pow_succ, Nat.mod_mul]
    ring

theorem ofBigEndian_bigEndian {k n : ℕ} (h : n < 256 ^ k) : ofBigEndian (bigEndian k n) = n := by
  rw [ofBigEndian, foldl_bigEndian, Nat.zero_mul, Nat.zero_add, Nat.mod_eq_of_lt h]

theorem ofBigEndian_lt (octets : List UInt8) : ofBigEndian octets < 256 ^ octets.length := by
  induction octets using reverseRecOn with
  | nil => simp [ofBigEndian]
  | append_singleton octets octet ih =>
    rw [ofBigEndian, foldl_append, foldl_cons, foldl_nil, ← ofBigEndian,
      length_append, length_singleton, Nat.pow_succ]
    have := octet.toNat_lt
    omega

/-- Decoding goes on from a number that has been read. -/
theorem foldl_octets (octets : List UInt8) (m : ℕ) :
    octets.foldl (fun n octet => n * 256 + octet.toNat) m =
      m * 256 ^ octets.length + ofBigEndian octets := by
  induction octets using reverseRecOn with
  | nil => simp [ofBigEndian]
  | append_singleton octets octet ih =>
    rw [ofBigEndian, foldl_append, foldl_append, ih, ← ofBigEndian,
      length_append, length_singleton, Nat.pow_succ]
    simp only [foldl_cons, foldl_nil]
    ring

theorem ofBigEndian_cons (octet : UInt8) (octets : List UInt8) :
    ofBigEndian (octet :: octets) = octet.toNat * 256 ^ octets.length + ofBigEndian octets := by
  rw [ofBigEndian, foldl_cons, foldl_octets, Nat.zero_mul, Nat.zero_add]

theorem bigEndian_add (k m n : ℕ) : bigEndian k (m * 256 ^ k + n) = bigEndian k n := by
  induction k generalizing m with
  | zero => rfl
  | succ k ih =>
    have hsplit : m * 256 ^ (k + 1) + n = m * 256 * 256 ^ k + n := by
      rw [Nat.pow_succ]
      ring
    have hdiv : (m * 256 * 256 ^ k + n) / 256 ^ k = n / 256 ^ k + m * 256 := by
      rw [Nat.add_comm, Nat.add_mul_div_right _ _ (Nat.pow_pos (by decide))]
    have hoctet : UInt8.ofNat (n / 256 ^ k + m * 256) = UInt8.ofNat (n / 256 ^ k) := by
      refine UInt8.toNat_inj.mp ?_
      rw [UInt8.toNat_ofNat', UInt8.toNat_ofNat']
      omega
    rw [bigEndian, bigEndian, hsplit, ih, hdiv, hoctet]

/-- The octets of the number that was read are the octets. -/
theorem bigEndian_ofBigEndian (octets : List UInt8) :
    bigEndian octets.length (ofBigEndian octets) = octets := by
  induction octets with
  | nil => rfl
  | cons octet octets ih =>
    have hdiv : (octet.toNat * 256 ^ octets.length + ofBigEndian octets) /
        256 ^ octets.length = octet.toNat := by
      rw [Nat.add_comm, Nat.add_mul_div_right _ _ (Nat.pow_pos (by decide)),
        Nat.div_eq_of_lt (ofBigEndian_lt octets), Nat.zero_add]
    rw [ofBigEndian_cons, length_cons, bigEndian, hdiv, bigEndian_add, ih, UInt8.ofNat_toNat]

/-- The octets of a `NonNegativeInteger`. -/
def nonNegativeInteger (n : ℕ) : List UInt8 :=
  if n < 2 ^ 8 then bigEndian 1 n
  else if n < 2 ^ 16 then bigEndian 2 n
  else if n < 2 ^ 32 then bigEndian 4 n
  else bigEndian 8 n

theorem length_nonNegativeInteger (n : ℕ) :
    (nonNegativeInteger n).length = 1 ∨ (nonNegativeInteger n).length = 2 ∨
      (nonNegativeInteger n).length = 4 ∨ (nonNegativeInteger n).length = 8 := by
  unfold nonNegativeInteger
  split_ifs <;> simp

theorem ofBigEndian_nonNegativeInteger {n : ℕ} (h : n < 2 ^ 64) :
    ofBigEndian (nonNegativeInteger n) = n := by
  unfold nonNegativeInteger
  split
  · rename_i h8
    exact ofBigEndian_bigEndian h8
  · split
    · rename_i h16
      exact ofBigEndian_bigEndian h16
    · split
      · rename_i h32
        exact ofBigEndian_bigEndian h32
      · exact ofBigEndian_bigEndian h

end ValProofs.Lib
