/-
  Words of 64 bits and their eight bytes, the most significant one first.
-/
import Tuck.Base.Bytes

namespace Tuck.Base

/-- `byte(w >> (56 - 8*i))`. -/
def byteAt (w : UInt64) (i : Nat) : UInt8 := (w >>> UInt64.ofNat (56 - 8 * i)).toUInt8

/-- `binary.BigEndian.Uint64` of the bytes at `0` to `7`. -/
def be64 (f : Nat → UInt8) : UInt64 :=
  .ofNat ((List.range 8).foldl (fun n i => 256 * n + (f i).toNat) 0)

theorem toNat_byteAt (w : UInt64) {i : Nat} (hi : i < 8) :
    (byteAt w i).toNat = w.toNat / 2 ^ (56 - 8 * i) % 256 := by
  unfold byteAt
  have hshift : (UInt64.ofNat (56 - 8 * i)).toNat % 64 = 56 - 8 * i := by
    rw [UInt64.toNat_ofNat']
    omega
  rw [UInt64.toNat_toUInt8, UInt64.toNat_shiftRight, hshift, Nat.shiftRight_eq_div_pow]

theorem toNat_eight_lt (f : Nat → UInt8) :
    ((f 0).toNat < 256 ∧ (f 1).toNat < 256 ∧ (f 2).toNat < 256 ∧ (f 3).toNat < 256) ∧
      (f 4).toNat < 256 ∧ (f 5).toNat < 256 ∧ (f 6).toNat < 256 ∧ (f 7).toNat < 256 := by
  have hlt (i : Nat) : (f i).toNat < 256 := (f i).toNat_lt
  simp only [hlt, and_self]

theorem toNat_be64 (f : Nat → UInt8) : (be64 f).toNat =
    (f 0).toNat * 2 ^ 56 + (f 1).toNat * 2 ^ 48 + (f 2).toNat * 2 ^ 40 + (f 3).toNat * 2 ^ 32 +
      (f 4).toNat * 2 ^ 24 + (f 5).toNat * 2 ^ 16 + (f 6).toNat * 2 ^ 8 + (f 7).toNat := by
  have hlt := toNat_eight_lt f
  unfold be64
  rw [UInt64.toNat_ofNat']
  simp only [List.range, List.range.loop, List.foldl_cons, List.foldl_nil]
  omega

theorem byteAt_be64 (f : Nat → UInt8) {i : Nat} (hi : i < 8) : byteAt (be64 f) i = f i := by
  have hlt := toNat_eight_lt f
  refine UInt8.toNat_inj.1 ?_
  rw [toNat_byteAt _ hi, toNat_be64]
  interval_cases i <;> omega

theorem byteAt_xor (v w : UInt64) (i : Nat) : byteAt (v ^^^ w) i = byteAt v i ^^^ byteAt w i := by
  unfold byteAt
  rw [UInt64.shiftRight_xor, UInt64.toUInt8_xor]

end Tuck.Base
