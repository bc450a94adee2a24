import Mathlib.Data.List.Induction
import Mathlib.Algebra.Group.Nat.Defs
import Mathlib.Tactic.Common

/-!
Fixed-width big-endian numbers as byte lists.
-/

namespace Ouroboros.BigEndian

/-- The low `8 * width` bits of a number, most significant byte first. -/
def bytes : ℕ → ℕ → List UInt8
  | 0, _ => []
  | width + 1, n => bytes width (n / 256) ++ [UInt8.ofNat n]

/-- The number that a byte list spells. -/
def value (bs : List UInt8) : ℕ := bs.foldl (fun acc b => 256 * acc + b.toNat) 0

@[simp] theorem bytes_length (width n : ℕ) : (bytes width n).length = width := by
  induction width generalizing n with
  | zero => rfl
  | succ width ih => simp [bytes, ih]

theorem value_bytes (width n : ℕ) : value (bytes width n) = n % 256 ^ width := by
  induction width generalizing n with
  | zero => simp [bytes, value, Nat.mod_one]
  | succ width ih =>
      have hlow : (UInt8.ofNat n).toNat = n % 256 := by simp
      have hstep : value (bytes (width + 1) n) = 256 * value (bytes width (n / 256)) + n % 256 := by
        simp only [value, bytes, List.foldl_append, List.foldl_cons, List.foldl_nil, hlow]
      rw [hstep, ih, Nat.pow_succ, Nat.mul_comm (256 ^ width) 256, Nat.mod_mul]
      omega

theorem value_lt (bs : List UInt8) : value bs < 256 ^ bs.length := by
  induction bs using List.reverseRecOn with
  | nil => simp [value]
  | append_singleton bs b ih =>
      have hb := b.toNat_lt
      have hstep : value (bs ++ [b]) = 256 * value bs + b.toNat := by
        simp only [value, List.foldl_append, List.foldl_cons, List.foldl_nil]
      rw [hstep, List.length_append, List.length_singleton, Nat.pow_succ]
      omega

theorem value_bytes_of_lt {width n : ℕ} (h : n < 256 ^ width) : value (bytes width n) = n := by
  rw [value_bytes, Nat.mod_eq_of_lt h]

end Ouroboros.BigEndian
