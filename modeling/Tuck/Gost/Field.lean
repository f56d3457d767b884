/-
  The multiplication of the `mgm` package is that of GF(2)[x] modulo x^128 + x^7 + x^2 + x + 1.

  A turn of `gfMul` on the two halves is a turn of the loop on numbers (`val_gfTurn`), and the
  polynomial is irreducible, so there are no zero divisors (`gfMul_field`).
-/
import Tuck.Base.BinaryPoly
import Tuck.Gost.MGM

namespace Tuck.MGM

open Tuck.Base BinaryPoly Polynomial

/-! ## The halves as one number -/

namespace U128

variable (a b : U128)

def val : Nat := 2 ^ 64 * a.hi.toNat + a.lo.toNat

theorem val_lt : a.val < 2 ^ 128 := by
  have hhi := a.hi.toNat_lt
  have hlo := a.lo.toNat_lt
  unfold val
  omega

theorem testBit_val (i : Nat) :
    a.val.testBit i = if i < 64 then a.lo.toNat.testBit i else a.hi.toNat.testBit (i - 64) :=
  Nat.testBit_two_pow_mul_add _ a.lo.toNat_lt i

theorem val_injective : Function.Injective val := by
  intro a b h
  have ha := a.lo.toNat_lt
  have hb := b.lo.toNat_lt
  unfold val at h
  have hhi : a.hi = b.hi := UInt64.toNat_inj.1 (by omega)
  have hlo : a.lo = b.lo := UInt64.toNat_inj.1 (by omega)
  cases a
  cases b
  simp_all

theorem val_xor : (a.xor b).val = a.val ^^^ b.val := by
  refine Nat.eq_of_testBit_eq fun i => ?_
  rw [Nat.testBit_xor, testBit_val, testBit_val, testBit_val, xor, UInt64.toNat_xor,
    UInt64.toNat_xor, Nat.testBit_xor, Nat.testBit_xor]
  split_ifs <;> rfl

end U128

theorem bitAt_eq (b : U128) {i : Nat} (hi : i < 128) :
    bitAt b i = if b.val.testBit i then 1 else 0 := by
  have hbit : ∀ (w : UInt64) (j : Nat), j < 64 →
      (w >>> UInt64.ofNat j) &&& 1 = if w.toNat.testBit j then 1 else 0 := by
    intro w j hj
    refine UInt64.toNat_inj.1 ?_
    have hmod : j % 2 ^ 64 % 64 = j := by omega
    rw [UInt64.toNat_and, UInt64.toNat_shiftRight, UInt64.toNat_ofNat', hmod,
      Nat.testBit_eq_decide_div_mod_eq, Nat.shiftRight_eq_div_pow]
    change _ &&& 1 = _
    rw [Nat.and_one_is_mod]
    obtain h | h := Nat.mod_two_eq_zero_or_one (w.toNat / 2 ^ j) <;> rw [h] <;> rfl
  rw [U128.testBit_val]
  by_cases h : i < 64
  · rw [bitAt, if_pos h, if_pos h, hbit _ _ h]
  · rw [bitAt, if_neg h, if_neg h, hbit _ _ (by omega)]

/-- The shift of the two halves, with the bit that falls out. -/
theorem val_shift (a : U128) :
    U128.val ⟨(a.hi <<< 1) ||| (a.lo >>> 63), (a.lo <<< 1) ^^^ ((a.hi >>> 63) * 0x87)⟩ =
      double 128 0x87 a.val := by
  have hhi := a.hi.toNat_lt
  have hlo := a.lo.toNat_lt
  -- the bits of the upper half and the one from the lower half do not meet
  have hor : ((a.hi <<< 1) ||| (a.lo >>> 63)).toNat =
      2 * (a.hi.toNat % 2 ^ 63) + a.lo.toNat / 2 ^ 63 := by
    have h := Nat.two_pow_add_eq_or_of_lt (i := 1) (b := a.lo.toNat / 2 ^ 63) (by omega)
      (a.hi.toNat % 2 ^ 63)
    have hdouble : 2 ^ 1 * (a.hi.toNat % 2 ^ 63) = a.hi.toNat * 2 ^ 1 % 2 ^ 64 := by omega
    rw [UInt64.toNat_or, UInt64.toNat_shiftLeft, UInt64.toNat_shiftRight, Nat.shiftLeft_eq,
      Nat.shiftRight_eq_div_pow]
    change a.hi.toNat * 2 ^ 1 % 2 ^ 64 ||| a.lo.toNat / 2 ^ 63 = _
    rw [← hdouble, ← h, pow_one]
  have hcarry : ((a.hi >>> 63) * 0x87).toNat = if (2 * a.val).testBit 128 then 0x87 else 0 := by
    have htop : (2 * a.val).testBit 128 = decide (a.hi.toNat / 2 ^ 63 = 1) := by
      rw [Nat.testBit_succ, Nat.mul_div_cancel_left _ two_pos, U128.testBit_val,
        if_neg (by decide), Nat.testBit_eq_decide_div_mod_eq]
      exact decide_eq_decide.2 (by omega)
    rw [UInt64.toNat_mul, UInt64.toNat_shiftRight, Nat.shiftRight_eq_div_pow, htop]
    change a.hi.toNat / 2 ^ 63 * 0x87 % 2 ^ 64 = _
    simp only [decide_eq_true_eq]
    split_ifs <;> omega
  have hxor : (⟨(a.hi <<< 1) ||| (a.lo >>> 63), (a.lo <<< 1) ^^^ ((a.hi >>> 63) * 0x87)⟩ : U128) =
      U128.xor ⟨(a.hi <<< 1) ||| (a.lo >>> 63), a.lo <<< 1⟩ ⟨0, (a.hi >>> 63) * 0x87⟩ := by
    rw [U128.xor, UInt64.xor_zero]
  have hlow : (a.lo <<< 1).toNat = 2 * a.lo.toNat % 2 ^ 64 := by
    rw [UInt64.toNat_shiftLeft, Nat.shiftLeft_eq, mul_comm]
    rfl
  rw [hxor, U128.val_xor, double, ← hcarry]
  congr 1
  · simp only [U128.val, hor, hlow]
    omega
  · exact Nat.zero_add _

theorem val_gfTurn (b : U128) {p : U128 × U128} {i : Nat} (hi : i < 128) :
    ((gfTurn b p i).1.val, (gfTurn b p i).2.val) = turn 128 0x87 b.val (p.1.val, p.2.val) i := by
  refine Prod.ext ?_ (val_shift p.2)
  unfold gfTurn turn
  rw [bitAt_eq b hi]
  split_ifs
  · exact U128.val_xor p.1 p.2 ▸ by simp [U128.xor]
  · simp

theorem val_gfMul (a b : U128) : (gfMul a b).val = mulMod 128 0x87 a.val b.val := by
  have hloop : ∀ k ≤ 128, let p := (List.range k).foldl (gfTurn b) (⟨0, 0⟩, a)
      (p.1.val, p.2.val) = (List.range k).foldl (turn 128 0x87 b.val) (0, a.val) := by
    intro k hk
    induction k with
    | zero => rfl
    | succ k ih =>
      rw [List.range_succ, List.foldl_append, List.foldl_append, ← ih (by omega)]
      exact val_gfTurn b hk
  exact congrArg Prod.fst (hloop 128 le_rfl)

/-! ## The field -/

/-- The element of the quotient. -/
noncomputable def U128.elem (a : U128) : AdjoinRoot (modulus 128 0x87) := cls 128 0x87 a.val

theorem U128.elem_inj {a b : U128} : a.elem = b.elem ↔ a = b :=
  (cls_inj (by decide) a.val_lt b.val_lt).trans U128.val_injective.eq_iff

theorem elem_gfMul (a b : U128) : (gfMul a b).elem = a.elem * b.elem := by
  rw [U128.elem, val_gfMul, cls_mulMod (by decide) a.val_lt b.val_lt]
  rfl

theorem elem_xor (a b : U128) : (a.xor b).elem = a.elem + b.elem := by
  rw [U128.elem, U128.val_xor, cls_xor]
  rfl

theorem elem_zero : (⟨0, 0⟩ : U128).elem = 0 := map_zero (AdjoinRoot.mk (modulus 128 0x87))

theorem irreducible_field : Irreducible (modulus 128 0x87) := by
  have hdiv : ∀ d ∈ Nat.divisors 128, d ≠ 128 → d ∣ 64 := by decide +kernel
  have hcert : (square 128 0x87)^[128] 2 = 2 ∧ mulMod 128 0x87 ((square 128 0x87)^[64] 2 ^^^ 2)
      0x9e4af928ddbc838a41a8cafd2c95b018 = 1 := by decide +kernel
  exact irreducible_modulus (by decide) (by decide)
    (fun d hd => hdiv d (Nat.mem_divisors.2 ⟨hd, by decide⟩)) (by decide) hcert.1 hcert.2

/-- `gfMul` multiplies polynomials modulo x^128 + x^7 + x^2 + x + 1; it is commutative,
    associative, distributes over the exclusive or and has no zero divisors. -/
theorem gfMul_field :
    (∀ a b : U128, poly (gfMul a b).val =
      poly a.val * poly b.val %ₘ (X ^ 128 + X ^ 7 + X ^ 2 + X + 1)) ∧
    (∀ a b, gfMul a b = gfMul b a) ∧ (∀ a b c, gfMul (gfMul a b) c = gfMul a (gfMul b c)) ∧
    (∀ a b c, gfMul a (b.xor c) = (gfMul a b).xor (gfMul a c)) ∧
    ∀ a b, gfMul a b = ⟨0, 0⟩ → a = ⟨0, 0⟩ ∨ b = ⟨0, 0⟩ := by
  refine ⟨fun a b => ?_, fun a b => ?_, fun a b c => ?_, fun a b c => ?_, fun a b h => ?_⟩
  · have hpoly : poly 0x87 = X ^ 7 + X ^ 2 + X + 1 := by
      rw [show 0x87 = 2 ^ 7 ^^^ 2 ^ 2 ^^^ 2 ^^^ 1 from rfl, poly_xor, poly_xor, poly_xor,
        poly_two_pow, poly_two_pow, poly_two, poly_one]
    rw [val_gfMul, poly_mulMod (by decide) a.val_lt b.val_lt, modulus, hpoly]
    simp only [add_assoc]
  · rw [← U128.elem_inj, elem_gfMul, elem_gfMul, mul_comm]
  · simp only [← U128.elem_inj, elem_gfMul, mul_assoc]
  · simp only [← U128.elem_inj, elem_gfMul, elem_xor, mul_add]
  · have : Fact (Irreducible (modulus 128 0x87)) := ⟨irreducible_field⟩
    rw [← U128.elem_inj, elem_gfMul, elem_zero, mul_eq_zero] at h
    rwa [← U128.elem_inj, ← U128.elem_inj, elem_zero]

end Tuck.MGM
