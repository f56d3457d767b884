/-
  Fields from a discrete logarithm, and interpolation at zero over any field.

  A finite field is often implemented by two tables: the powers of a generator and the
  logarithms to that base. `LogTable` is what such tables have to satisfy over the additive
  group: multiplication by the generator is additive, its powers come round, and every
  non-zero element is one of them. That is enough for a field (`LogTable.toField`).
-/
import Mathlib

namespace Tuck.Base

/-- A map whose orbit of one point is as long as there are non-zero elements reaches them all. -/
theorem exists_iterate_eq {V : Type*} [Fintype V] [DecidableEq V] [Zero V] {f : V → V} {x : V}
    {n : ℕ} (hf : f 0 = 0) (hx : x ≠ 0) (hn : Function.minimalPeriod f x = n)
    (hcard : Fintype.card V = n + 1) {a : V} (ha : a ≠ 0) : ∃ i < n, f^[i] x = a := by
  have hinj : Set.InjOn (fun i => f^[i] x) (Finset.range n) := by
    rw [Finset.coe_range, ← hn]
    exact Function.iterate_injOn_Iio_minimalPeriod
  have hne : ∀ i ∈ Finset.range n, f^[i] x ≠ 0 := by
    -- an orbit that meets zero stays there, but this one comes back to `x`
    intro i hi h
    have hi' : i ≤ n := (Finset.mem_range.mp hi).le
    have hback : f^[n - i + i] x = x := by
      rw [Nat.sub_add_cancel hi', ← hn]
      exact Function.iterate_minimalPeriod
    rw [Function.iterate_add_apply, h, Function.iterate_fixed hf] at hback
    exact hx hback.symm
  have hsub : (Finset.range n).image (fun i => f^[i] x) ⊆ Finset.univ.erase 0 := by
    intro y hy
    obtain ⟨i, hi, rfl⟩ := Finset.mem_image.mp hy
    exact Finset.mem_erase.mpr ⟨hne i hi, Finset.mem_univ _⟩
  have heq := Finset.eq_of_subset_of_card_le hsub (by
    rw [Finset.card_image_of_injOn hinj, Finset.card_range, Finset.card_erase_of_mem
      (Finset.mem_univ _), Finset.card_univ, hcard, Nat.add_sub_cancel])
  have hmem : a ∈ (Finset.range n).image (fun i => f^[i] x) := by
    rw [heq]
    exact Finset.mem_erase.mpr ⟨ha, Finset.mem_univ _⟩
  obtain ⟨i, hi, h⟩ := Finset.mem_image.mp hmem
  exact ⟨i, Finset.mem_range.mp hi, h⟩

/-- Powers of a generator and logarithms to its base, over an additive group. -/
structure LogTable (V : Type*) [AddCommGroup V] where
  /-- Multiplication by the generator. -/
  step : V →+ V
  one : V
  log : V → ℕ
  order : ℕ
  one_ne_zero : one ≠ 0
  order_pos : 0 < order
  step_order : step^[order] one = one
  step_log : ∀ a, a ≠ 0 → step^[log a] one = a

namespace LogTable

variable {V : Type*} [AddCommGroup V] (T : LogTable V)

/-- The powers of the generator. -/
def exp (i : ℕ) : V := T.step^[i] T.one

theorem exp_log {a : V} (ha : a ≠ 0) : T.exp (T.log a) = a := T.step_log a ha

theorem step_exp (i j : ℕ) : T.step^[i] (T.exp j) = T.exp (i + j) := by
  rw [exp, exp, Function.iterate_add_apply]

theorem exp_mul_order (n : ℕ) : T.exp (T.order * n) = T.one := by
  induction n with
  | zero => rfl
  | succ n ih => rw [Nat.mul_succ, ← step_exp, exp, T.step_order]; exact ih

theorem exp_add_order (i n : ℕ) : T.exp (i + T.order * n) = T.exp i := by
  rw [← step_exp, exp_mul_order, exp]

theorem exp_mod_order (i : ℕ) : T.exp (i % T.order) = T.exp i := by
  rw [← T.exp_add_order (i % T.order) (i / T.order), Nat.mod_add_div]

theorem step_iterate_zero (i : ℕ) : T.step^[i] 0 = 0 := Function.iterate_fixed (map_zero T.step) i

theorem exp_ne_zero (i : ℕ) : T.exp i ≠ 0 := by
  -- a power that is zero would stay zero until it comes round to one
  intro h
  refine T.one_ne_zero ?_
  have hle : i ≤ T.order * i := Nat.le_mul_of_pos_left i T.order_pos
  calc T.one = T.exp (T.order * i - i + i) := by rw [Nat.sub_add_cancel hle, exp_mul_order]
    _ = T.step^[T.order * i - i] (T.exp i) := (T.step_exp _ _).symm
    _ = 0 := by rw [h, step_iterate_zero]

/-- Steps that agree on one agree everywhere. -/
theorem step_congr {i j : ℕ} (h : T.exp i = T.exp j) (b : V) : T.step^[i] b = T.step^[j] b := by
  by_cases hb : b = 0
  · rw [hb, step_iterate_zero, step_iterate_zero]
  · rw [← T.exp_log hb, step_exp, step_exp, Nat.add_comm i, Nat.add_comm j, ← step_exp, h, step_exp]

theorem log_exp_step (i : ℕ) (b : V) : T.step^[T.log (T.exp i)] b = T.step^[i] b :=
  T.step_congr (T.exp_log (T.exp_ne_zero i)) b

variable [DecidableEq V]

/-- Multiplication through the logarithm of the first factor. -/
def mul (a b : V) : V := if a = 0 then 0 else T.step^[T.log a] b

/-- The inverse, with `0⁻¹ = 0`. -/
def inv (a : V) : V := if a = 0 then 0 else T.exp ((T.order - 1) * T.log a)

theorem zero_mul (b : V) : T.mul 0 b = 0 := if_pos rfl

theorem mul_of_ne {a : V} (ha : a ≠ 0) (b : V) : T.mul a b = T.step^[T.log a] b := if_neg ha

theorem mul_zero (a : V) : T.mul a 0 = 0 := by
  rw [mul, step_iterate_zero, ite_self]

theorem mul_exp {a b : V} (ha : a ≠ 0) (hb : b ≠ 0) : T.mul a b = T.exp (T.log a + T.log b) := by
  rw [T.mul_of_ne ha, ← step_exp, T.exp_log hb]

theorem exp_mul (i : ℕ) (b : V) : T.mul (T.exp i) b = T.step^[i] b := by
  rw [T.mul_of_ne (T.exp_ne_zero i), log_exp_step]

theorem mul_comm (a b : V) : T.mul a b = T.mul b a := by
  by_cases ha : a = 0
  · rw [ha, zero_mul, mul_zero]
  · by_cases hb : b = 0
    · rw [hb, zero_mul, mul_zero]
    · rw [T.mul_exp ha hb, T.mul_exp hb ha, Nat.add_comm]

theorem mul_assoc (a b c : V) : T.mul (T.mul a b) c = T.mul a (T.mul b c) := by
  by_cases ha : a = 0
  · rw [ha, zero_mul, zero_mul, zero_mul]
  · by_cases hb : b = 0
    · rw [hb, zero_mul, mul_zero, zero_mul]
    · rw [T.mul_exp ha hb, exp_mul, T.mul_of_ne ha, T.mul_of_ne hb, Function.iterate_add_apply]

theorem one_mul (b : V) : T.mul T.one b = b := T.exp_mul 0 b

theorem left_distrib (a b c : V) : T.mul a (b + c) = T.mul a b + T.mul a c := by
  by_cases ha : a = 0
  · rw [ha, zero_mul, zero_mul, zero_mul, add_zero]
  · rw [T.mul_of_ne ha, T.mul_of_ne ha, T.mul_of_ne ha, iterate_map_add]

theorem mul_inv_cancel {a : V} (ha : a ≠ 0) : T.mul a (T.inv a) = T.one := by
  have hsum : T.log a + (T.order - 1) * T.log a = T.order * T.log a := by
    obtain ⟨n, hn⟩ := Nat.exists_eq_succ_of_ne_zero T.order_pos.ne'
    rw [hn, Nat.succ_sub_one, Nat.succ_mul, Nat.add_comm]
  rw [inv, if_neg ha, T.mul_of_ne ha, step_exp, hsum, exp_mul_order]

/-- The field of a table of logarithms. -/
abbrev toField : Field V where
  __ := (inferInstance : AddCommGroup V)
  mul := T.mul
  one := T.one
  inv := T.inv
  mul_assoc := T.mul_assoc
  one_mul := T.one_mul
  mul_one a := (T.mul_comm a T.one).trans (T.one_mul a)
  mul_comm := T.mul_comm
  left_distrib := T.left_distrib
  right_distrib a b c := by
    change T.mul (a + b) c = T.mul a c + T.mul b c
    rw [T.mul_comm, T.left_distrib, T.mul_comm c a, T.mul_comm c b]
  zero_mul := T.zero_mul
  mul_zero := T.mul_zero
  exists_pair_ne := ⟨T.one, 0, T.one_ne_zero⟩
  mul_inv_cancel _ ha := T.mul_inv_cancel ha
  inv_zero := if_pos rfl
  nnqsmul := _
  nnqsmul_def _ _ := rfl
  qsmul := _
  qsmul_def _ _ := rfl

end LogTable

/-! ## Polynomials given by their coefficients -/

section

open Polynomial Finset

variable {F : Type*} [Field F]

/-- The polynomial with these coefficients, the constant term first. -/
noncomputable def polyOf : List F → F[X]
  | [] => 0
  | c :: cs => C c + X * polyOf cs

theorem degree_polyOf_lt (cs : List F) : (polyOf cs).degree < cs.length := by
  rw [degree_lt_iff_coeff_zero]
  induction cs with
  | nil => intro i _; exact coeff_zero i
  | cons c cs ih =>
    intro i hi
    obtain ⟨i, rfl⟩ : ∃ j, i = j + 1 := Nat.exists_eq_succ_of_ne_zero (by
      rintro rfl; simp at hi)
    rw [polyOf, coeff_add, coeff_C_succ, coeff_X_mul, zero_add]
    exact ih i (by simpa using hi)

theorem eval_polyOf_cons (x c : F) (cs : List F) :
    (polyOf (c :: cs)).eval x = c + x * (polyOf cs).eval x := by
  rw [polyOf, eval_add, eval_C, eval_mul, eval_X]

/-- The weight of node `i` in the interpolation at zero. -/
def weightAtZero {n : ℕ} (x : Fin n → F) (i : Fin n) : F :=
  (∏ m ∈ Finset.univ.erase i, x m) / ∏ m ∈ Finset.univ.erase i, (x m - x i)

theorem eval_zero_basis {n : ℕ} (x : Fin n → F) (i : Fin n) :
    (Lagrange.basis Finset.univ x i).eval 0 = weightAtZero x i := by
  rw [Lagrange.basis, eval_prod, weightAtZero, ← prod_div_distrib]
  refine prod_congr rfl fun m _ => ?_
  rw [Lagrange.basisDivisor, eval_mul, eval_C, eval_sub, eval_X, eval_C, zero_sub,
    ← neg_sub (x m) (x i), inv_neg, neg_mul_neg, mul_comm, div_eq_mul_inv]

/-- As many distinct points as coefficients give the constant term. -/
theorem sum_weightAtZero {n : ℕ} {x : Fin n → F} (hx : Function.Injective x) {p : F[X]}
    (hp : p.degree < n) : ∑ i, p.eval (x i) * weightAtZero x i = p.eval 0 := by
  have hcard : p.degree < (Finset.univ : Finset (Fin n)).card := by
    rw [card_univ, Fintype.card_fin]; exact hp
  have h := congrArg (eval 0) (Lagrange.eq_interpolate (s := Finset.univ) hx.injOn hcard)
  rw [Lagrange.interpolate_apply, eval_finsetSum] at h
  rw [h]
  refine sum_congr rfl fun i _ => ?_
  rw [eval_mul, eval_C, eval_zero_basis]

/-! ## Masks

Adding a mask to a polynomial changes its constant term and none of its values on `S`. -/

theorem coeff_polyOf (cs : List F) (i : ℕ) : (polyOf cs).coeff i = cs.getD i 0 := by
  induction cs generalizing i with
  | nil => exact coeff_zero i
  | cons c cs ih =>
    cases i with
    | zero => rw [polyOf, coeff_add, coeff_C_zero, coeff_X_mul_zero, add_zero, List.getD_cons_zero]
    | succ i => rw [polyOf, coeff_add, coeff_C_succ, coeff_X_mul, zero_add, List.getD_cons_succ, ih]

/-- The polynomial of least degree that is zero on `S` and `d` at zero. -/
noncomputable def mask (S : Finset F) (d : F) : F[X] :=
  C (d / (Lagrange.nodal S id).eval 0) * Lagrange.nodal S id

section

variable {S : Finset F} {d : F}

theorem eval_mask {x : F} (hx : x ∈ S) : (mask S d).eval x = 0 := by
  have hnode : (Lagrange.nodal S id).eval (id x) = 0 := Lagrange.eval_nodal_at_node hx
  rw [mask, eval_mul, ← id_eq x, hnode, mul_zero]

theorem nodal_zero_ne (h0 : (0 : F) ∉ S) : (Lagrange.nodal S id).eval 0 ≠ 0 :=
  Lagrange.eval_nodal_not_at_node fun _ hi h => h0 (h ▸ hi)

theorem eval_zero_mask (h0 : (0 : F) ∉ S) : (mask S d).eval 0 = d := by
  rw [mask, eval_mul, eval_C, div_mul_cancel₀ _ (nodal_zero_ne h0)]

theorem natDegree_mask_le : (mask S d).natDegree ≤ S.card := by
  calc (mask S d).natDegree ≤ (Lagrange.nodal S id).natDegree := natDegree_C_mul_le _ _
    _ = S.card := Lagrange.natDegree_nodal

theorem coeff_card_mask (h0 : (0 : F) ∉ S) (hd : d ≠ 0) : (mask S d).coeff S.card ≠ 0 := by
  have hmonic : (Lagrange.nodal S id).coeff S.card = 1 := by
    have h := (Lagrange.nodal_monic (s := S) (v := (id : F → F))).coeff_natDegree
    rwa [Lagrange.natDegree_nodal] at h
  rw [mask, coeff_C_mul, hmonic, mul_one]
  exact div_ne_zero hd (nodal_zero_ne h0)

/-- Two polynomials with the same values on `S` differ by a mask, if `S` and zero determine
    them. -/
theorem eq_add_mask {f g : F[X]} (h0 : (0 : F) ∉ S) (hf : f.degree < (S.card + 1 : ℕ))
    (hg : g.degree < (S.card + 1 : ℕ)) (heq : ∀ x ∈ S, f.eval x = g.eval x) :
    g = f + mask S (g.eval 0 - f.eval 0) := by
  classical
  have hcard : (insert 0 S).card = S.card + 1 := card_insert_of_notMem h0
  have hmask : (mask S (g.eval 0 - f.eval 0)).degree < (S.card + 1 : ℕ) :=
    degree_le_natDegree.trans_lt (Nat.cast_lt.mpr (Nat.lt_succ_of_le natDegree_mask_le))
  refine eq_of_degrees_lt_of_eval_finset_eq (insert 0 S) (hcard ▸ hg)
    (hcard ▸ (degree_add_le _ _).trans_lt (max_lt hf hmask)) fun x hx => ?_
  rw [eval_add]
  rcases mem_insert.mp hx with rfl | hx
  · rw [eval_zero_mask h0, add_sub_cancel]
  · rw [eval_mask hx, add_zero, heq x hx]

end

end

end Tuck.Base
