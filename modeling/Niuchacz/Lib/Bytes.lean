import Mathlib.Data.List.Basic
import Mathlib.Tactic.Ring

namespace Lib.Bytes

/-!
# Little-endian byte strings

`leBytes k n` is the `k`-byte little-endian image of `n`, the way a machine word of `8 * k`
bits lies in memory, and `leNat` reads such an image back.
-/

/-- The little-endian image of `n` in `k` bytes (the higher digits of `n` are cut off). -/
def leBytes : ℕ → ℕ → List UInt8
  | 0, _ => []
  | k + 1, n => UInt8.ofNat (n % 256) :: leBytes k (n / 256)

/-- The number a little-endian byte string stands for. -/
def leNat : List UInt8 → ℕ
  | [] => 0
  | b :: bs => b.toNat + 256 * leNat bs

/-- A number takes as many bytes as are asked for. -/
@[simp] theorem length_leBytes (k n : ℕ) : (leBytes k n).length = k := by
  induction k generalizing n with
  | zero => rfl
  | succ k ih => simp [leBytes, ih]

/-- **Round trip.**  A number that fits `k` bytes is read back from its image. -/
theorem leNat_leBytes (k n : ℕ) (hn : n < 256 ^ k) : leNat (leBytes k n) = n := by
  induction k generalizing n with
  | zero =>
    have h0 : n = 0 := by simpa using hn
    rw [h0]; rfl
  | succ k ih =>
    have hdiv : n / 256 < 256 ^ k := by
      rw [Nat.div_lt_iff_lt_mul (by omega)]
      rwa [pow_succ] at hn
    have hbyte : (UInt8.ofNat (n % 256)).toNat = n % 256 := by
      rw [UInt8.toNat_ofNat']
      exact Nat.mod_eq_of_lt (Nat.mod_lt _ (by omega))
    simp only [leBytes, leNat, ih (n / 256) hdiv, hbyte]
    omega

/-- **Round trip.**  A byte string is the image of the number that it stands for. -/
theorem leBytes_leNat (bs : List UInt8) : leBytes bs.length (leNat bs) = bs := by
  induction bs with
  | nil => rfl
  | cons b bs ih =>
    have hb := b.toNat_lt
    have hmod : (b.toNat + 256 * leNat bs) % 256 = b.toNat := by omega
    have hdiv : (b.toNat + 256 * leNat bs) / 256 = leNat bs := by omega
    rw [List.length_cons, leBytes, leNat, hmod, hdiv, ih, UInt8.ofNat_toNat]

end Lib.Bytes
