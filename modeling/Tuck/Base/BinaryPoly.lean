/-
  Numbers as polynomials over GF(2), bit `i` the coefficient of `X ^ i`, and multiplication
  modulo `X ^ n + poly c` by doubling and adding.

  The loop computes the product in the quotient (`cls_mulMod`). The quotient is a field if two
  computations with the loop itself come out right (`irreducible_modulus`): `X` is its own power
  of 2 ^ n, and its power of 2 ^ k differs from it by something invertible, where `k` is a
  multiple of every proper divisor of `n`.
-/
import Mathlib

namespace Tuck.Base.BinaryPoly

open Polynomial AdjoinRoot

noncomputable def poly (a : Nat) : (ZMod 2)[X] :=
  ∑ i ∈ Finset.range a with a.testBit i = true, X ^ i

theorem coeff_poly (a i : Nat) : (poly a).coeff i = if a.testBit i then 1 else 0 := by
  have hlt : a.testBit i = true → i < a := fun h =>
    Nat.lt_two_pow_self.trans_le (Nat.ge_two_pow_of_testBit h)
  simp only [poly, finsetSum_coeff, coeff_X_pow, Finset.sum_ite_eq, Finset.mem_filter,
    Finset.mem_range, and_iff_right_of_imp hlt]

theorem poly_injective : Function.Injective poly := by
  intro a b h
  refine Nat.eq_of_testBit_eq fun i => ?_
  have hi := congrArg (fun p => p.coeff i) h
  simp only [coeff_poly] at hi
  cases ha : a.testBit i <;> cases hb : b.testBit i <;> simp_all

theorem poly_xor (a b : Nat) : poly (a ^^^ b) = poly a + poly b := by
  ext i
  rw [coeff_add, coeff_poly, coeff_poly, coeff_poly, Nat.testBit_xor]
  cases a.testBit i <;> cases b.testBit i <;> decide

theorem poly_two_mul (a : Nat) : poly (2 * a) = X * poly a := by
  ext i
  cases i with
  | zero => simp [coeff_poly]
  | succ i =>
    rw [coeff_X_mul, coeff_poly, coeff_poly, Nat.testBit_succ, Nat.mul_div_cancel_left a two_pos]

theorem poly_two_pow (i : Nat) : poly (2 ^ i) = X ^ i := by
  ext j
  rw [coeff_poly, coeff_X_pow, Nat.testBit_two_pow]
  simp [eq_comm]

theorem poly_zero : poly 0 = 0 := rfl

theorem poly_one : poly 1 = 1 := by rw [← pow_zero X, ← poly_two_pow]; rfl

theorem poly_two : poly 2 = X := by rw [← pow_one X, ← poly_two_pow]; rfl

theorem degree_poly_lt {a n : Nat} (h : a < 2 ^ n) : (poly a).degree < n := by
  refine (degree_lt_iff_coeff_zero _ _).2 fun i hi => ?_
  rw [coeff_poly, Nat.testBit_lt_two_pow (h.trans_le (Nat.pow_le_pow_right two_pos hi))]
  rfl

/-- The first `k + 1` bits. -/
theorem poly_mod_succ (b k : Nat) :
    poly (b % 2 ^ (k + 1)) = poly (b % 2 ^ k) + if b.testBit k then X ^ k else 0 := by
  have h : b % 2 ^ (k + 1) = b % 2 ^ k ^^^ if b.testBit k then 2 ^ k else 0 := by
    refine Nat.eq_of_testBit_eq fun i => ?_
    rw [Nat.testBit_xor, Nat.testBit_mod_two_pow, Nat.testBit_mod_two_pow,
      apply_ite (fun c : Nat => c.testBit i), Nat.testBit_two_pow, Nat.zero_testBit]
    grind
  rw [h, poly_xor, apply_ite poly, poly_two_pow, poly_zero]

/-! ## Multiplication -/

noncomputable def modulus (n c : Nat) : (ZMod 2)[X] := X ^ n + poly c

/-- Multiplication by `X`. -/
def double (n c a : Nat) : Nat := (2 * a) % 2 ^ n ^^^ if (2 * a).testBit n then c else 0

def turn (n c b : Nat) (p : Nat × Nat) (i : Nat) : Nat × Nat :=
  (if b.testBit i then p.1 ^^^ p.2 else p.1, double n c p.2)

def mulMod (n c a b : Nat) : Nat := ((List.range n).foldl (turn n c b) (0, a)).1

def square (n c a : Nat) : Nat := mulMod n c a a

/-- The element of the quotient. -/
noncomputable def cls (n c a : Nat) : AdjoinRoot (modulus n c) := AdjoinRoot.mk _ (poly a)

section

variable {n c a b : Nat}

theorem cls_xor : cls n c (a ^^^ b) = cls n c a + cls n c b := by
  rw [cls, poly_xor, map_add]
  rfl

theorem cls_double (ha : a < 2 ^ n) :
    cls n c (double n c a) = AdjoinRoot.root (modulus n c) * cls n c a := by
  have htwo : poly (2 * a) = poly (2 * a % 2 ^ n) + if (2 * a).testBit n then X ^ n else 0 := by
    rw [← poly_mod_succ, Nat.mod_eq_of_lt (by rw [pow_succ]; omega)]
  have hself : AdjoinRoot.mk (modulus n c) (poly c) = AdjoinRoot.mk (modulus n c) (X ^ n) := by
    rw [mk_eq_mk, CharTwo.sub_eq_add, add_comm]
    exact dvd_rfl
  rw [cls, cls, ← mk_X, ← map_mul, ← poly_two_mul, htwo, double, poly_xor, map_add, map_add]
  split_ifs
  · rw [hself]
  · rw [poly_zero]

variable (hc : c < 2 ^ n)

include hc

/-- After `k` turns. -/
theorem loop (ha : a < 2 ^ n) (k : Nat) :
    let p := (List.range k).foldl (turn n c b) (0, a)
    (p.1 < 2 ^ n ∧ cls n c p.1 = cls n c a * cls n c (b % 2 ^ k)) ∧
      p.2 < 2 ^ n ∧ cls n c p.2 = AdjoinRoot.root (modulus n c) ^ k * cls n c a := by
  induction k with
  | zero =>
    have hzero : cls n c 0 = 0 := by rw [cls, poly_zero, map_zero]
    rw [pow_zero, pow_zero, Nat.mod_one, hzero, mul_zero, one_mul]
    exact ⟨⟨Nat.two_pow_pos n, hzero⟩, ha, rfl⟩
  | succ k ih =>
    obtain ⟨⟨hlt, hr⟩, hlt', ha'⟩ := ih
    rw [List.range_succ, List.foldl_append]
    refine ⟨?_, ?_, ?_⟩
    · rw [show cls n c (b % 2 ^ (k + 1)) = _ from congrArg (AdjoinRoot.mk _) (poly_mod_succ b k),
        map_add, mul_add, ← cls, ← hr]
      dsimp only [List.foldl_cons, List.foldl_nil, turn]
      split_ifs
      · rw [cls_xor, ha', map_pow, mk_X, mul_comm (cls n c a)]
        exact ⟨Nat.xor_lt_two_pow hlt hlt', rfl⟩
      · rw [map_zero, mul_zero, add_zero]
        exact ⟨hlt, rfl⟩
    · refine Nat.xor_lt_two_pow (Nat.mod_lt _ (Nat.two_pow_pos n)) ?_
      split_ifs
      · exact hc
      · exact Nat.two_pow_pos n
    · exact (cls_double hlt').trans (by rw [ha', pow_succ', mul_assoc])

theorem mulMod_lt (ha : a < 2 ^ n) : mulMod n c a b < 2 ^ n := (loop hc ha n).1.1

theorem cls_mulMod (ha : a < 2 ^ n) (hb : b < 2 ^ n) :
    cls n c (mulMod n c a b) = cls n c a * cls n c b := by
  have h := (loop (b := b) hc ha n).1.2
  rwa [Nat.mod_eq_of_lt hb] at h

theorem monic_modulus : (modulus n c).Monic := monic_X_pow_add (degree_poly_lt hc)

theorem degree_modulus : (modulus n c).degree = n := by
  rw [modulus, degree_add_eq_left_of_degree_lt, degree_X_pow]
  rw [degree_X_pow]
  exact degree_poly_lt hc

theorem modByMonic_self (ha : a < 2 ^ n) : poly a %ₘ modulus n c = poly a := by
  rw [modByMonic_eq_self_iff (monic_modulus hc), degree_modulus hc]
  exact degree_poly_lt ha

theorem poly_mulMod (ha : a < 2 ^ n) (hb : b < 2 ^ n) :
    poly (mulMod n c a b) = poly a * poly b %ₘ modulus n c := by
  have hcls := cls_mulMod hc ha hb
  rw [cls, cls, cls, ← map_mul, mk_eq_mk] at hcls
  rw [← modByMonic_eq_of_dvd_sub (monic_modulus hc) hcls,
    modByMonic_self hc (mulMod_lt hc ha)]

theorem cls_inj (ha : a < 2 ^ n) (hb : b < 2 ^ n) : cls n c a = cls n c b ↔ a = b := by
  refine ⟨fun h => poly_injective ?_, fun h => h ▸ rfl⟩
  rw [cls, cls, mk_eq_mk] at h
  rw [← modByMonic_self hc ha, ← modByMonic_self hc hb]
  exact modByMonic_eq_of_dvd_sub (monic_modulus hc) h

theorem cls_square (hn : 2 ≤ n) (j : Nat) : (square n c)^[j] 2 < 2 ^ n ∧
    cls n c ((square n c)^[j] 2) = AdjoinRoot.mk _ (X ^ 2 ^ j) := by
  have htwo : 2 ^ 1 < 2 ^ n := Nat.pow_lt_pow_right one_lt_two hn
  induction j with
  | zero =>
    refine ⟨htwo, ?_⟩
    rw [pow_zero, pow_one, ← poly_two]
    rfl
  | succ j ih =>
    rw [Function.iterate_succ_apply']
    refine ⟨mulMod_lt hc ih.1, ?_⟩
    rw [square, cls_mulMod hc ih.1 ih.1, ih.2, ← map_mul, ← pow_add, pow_succ, mul_two]

/-- Rabin's test. -/
theorem irreducible_modulus {k u : Nat} (hn : 2 ≤ n) (hk : ∀ d, d ∣ n → d ≠ n → d ∣ k)
    (hu : u < 2 ^ n) (hsq : (square n c)^[n] 2 = 2)
    (hone : mulMod n c ((square n c)^[k] 2 ^^^ 2) u = 1) : Irreducible (modulus n c) := by
  have hpow := fun j => (cls_square hc hn j).2
  have htwo : 2 < 2 ^ n := (cls_square hc hn 0).1
  have hdeg := natDegree_eq_of_degree_eq_some (degree_modulus hc)
  obtain ⟨g, hg, hgf⟩ := exists_irreducible_of_natDegree_ne_zero (f := modulus n c) (by omega)
  have hdvd : g.natDegree ∣ n := by
    refine hg.natDegree_dvd_of_dvd_X_pow_card_pow_sub_X (hgf.trans ?_)
    rw [Nat.card_zmod, ← mk_eq_mk, ← hpow, hsq, cls, poly_two]
  have hfull : g.natDegree = n := by
    by_contra hne
    have hsub := hg.natDegree_dvd_iff_dvd_X_pow_card_pow_sub_X.1 (hk _ hdvd hne)
    have hcls := cls_mulMod hc (Nat.xor_lt_two_pow (cls_square hc hn k).1 htwo) hu
    rw [hone, cls_xor, hpow, cls, cls, cls, poly_two, poly_one, ← map_add, ← map_mul,
      mk_eq_mk, ← CharTwo.sub_eq_add] at hcls
    rw [Nat.card_zmod] at hsub
    exact hg.not_dvd_one ((dvd_sub_left (hsub.mul_right (poly u))).1 (hgf.trans hcls))
  exact (associated_of_dvd_of_natDegree_le hgf (monic_modulus hc).ne_zero
    (hdeg.trans hfull.symm).le).irreducible hg

end

end Tuck.Base.BinaryPoly
