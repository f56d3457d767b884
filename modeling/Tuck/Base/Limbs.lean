/-
  Numbers held as words of 64 bits, the least significant one first.
-/
import Mathlib

namespace Tuck.Base.Limbs

/-- The number that the words hold. -/
def val : List UInt64 → Nat
  | [] => 0
  | w :: ws => w.toNat + 2 ^ 64 * val ws

/-- The lowest `k` words of a number. -/
def ofNat : Nat → Nat → List UInt64
  | 0, _ => []
  | k + 1, n => .ofNat n :: ofNat k (n / 2 ^ 64)

@[simp] theorem length_ofNat (k n : Nat) : (ofNat k n).length = k := by
  induction k generalizing n with
  | zero => rfl
  | succ k ih => rw [ofNat, List.length_cons, ih]

theorem val_ofNat (k n : Nat) : val (ofNat k n) = n % 2 ^ (64 * k) := by
  induction k generalizing n with
  | zero => simp [ofNat, val, Nat.mod_one]
  | succ k ih =>
    rw [ofNat, val, ih, UInt64.toNat_ofNat', show 64 * (k + 1) = 64 + 64 * k by omega, Nat.pow_add,
      Nat.mod_mul]

theorem ofNat_val (ws : List UInt64) : ofNat ws.length (val ws) = ws := by
  induction ws with
  | nil => rfl
  | cons w ws ih =>
    have hlt := w.toNat_lt
    have hdiv : (w.toNat + 2 ^ 64 * val ws) / 2 ^ 64 = val ws := by omega
    have hlow : UInt64.ofNat (w.toNat + 2 ^ 64 * val ws) = w := by
      refine UInt64.toNat_inj.1 ?_
      rw [UInt64.toNat_ofNat']
      omega
    rw [List.length_cons, ofNat, val, hdiv, ih, hlow]

/-- Only the rest modulo the range counts. -/
theorem ofNat_mod (k n : Nat) : ofNat k (n % 2 ^ (64 * k)) = ofNat k n := by
  have h := ofNat_val (ofNat k n)
  rwa [length_ofNat, val_ofNat] at h

end Tuck.Base.Limbs
