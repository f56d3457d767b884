/-
  GF(256) as the `shamir` package computes it: the tables of powers and logarithms to the
  base 3, modulo x^8 + x^4 + x^3 + x + 1, and multiplication and division through them.

  The loop that fills the tables leaves the powers of 3 in them (`filled_tables`), and 3 has
  order 255, so the tables are those of a field (`gfTable`).
-/
import Tuck.Base.LogField
import Tuck.Base.Bytes

namespace Tuck.Shamir

open Tuck.Base

/-! ## Tables -/

/-- One turn of the table loop: multiplication by 3. -/
def mul3 (x : UInt8) : UInt8 :=
  ((if x &&& 0x80 ≠ 0 then (x <<< 1) ^^^ 0x1b else x <<< 1)) ^^^ x

structure Tables where
  exp : List UInt8
  log : List UInt8

/-- The loop of `init`, for the `n` turns from `i` on. -/
def fillTables : (n i : Nat) → UInt8 → Tables → Tables
  | 0, _, _, t => t
  | n + 1, i, x, t =>
      fillTables n (i + 1) (mul3 x)
        ⟨(t.exp.set i x).set (i + 255) x, t.log.set x.toNat (UInt8.ofNat i)⟩

@[irreducible] def tables : Tables :=
  fillTables 255 0 1 ⟨List.replicate 512 0, List.replicate 256 0⟩

def expTable (i : Nat) : UInt8 := tables.exp.getD i 0

def logTable (a : UInt8) : Nat := (tables.log.getD a.toNat 0).toNat

def gfMul (a b : UInt8) : UInt8 :=
  if a = 0 ∨ b = 0 then 0 else expTable (logTable a + logTable b)

/-- `gfDiv`; the source panics on `b = 0`, which `combine` excludes (`den_ne_zero`). -/
def gfDiv (a b : UInt8) : UInt8 :=
  if a = 0 then 0 else expTable ((logTable a + 255 - logTable b) % 255)

/-! ## The field -/

/-- A byte as an element of GF(256). -/
@[ext] structure GF where
  byte : UInt8
  deriving DecidableEq

instance : Add GF := ⟨fun a b => ⟨a.byte ^^^ b.byte⟩⟩

instance : Zero GF := ⟨⟨0⟩⟩

instance : Neg GF := ⟨fun a => a⟩

instance : AddCommGroup GF where
  add_assoc a b c := GF.ext (UInt8.xor_assoc a.byte b.byte c.byte)
  zero_add a := GF.ext UInt8.zero_xor
  add_zero a := GF.ext UInt8.xor_zero
  add_comm a b := GF.ext (UInt8.xor_comm a.byte b.byte)
  neg_add_cancel a := GF.ext UInt8.xor_self
  nsmul := nsmulRec
  zsmul := zsmulRec

/-- The bit that `x <<< 1` loses, reduced by the field polynomial. -/
def carry (x : UInt8) : UInt8 := if x &&& 0x80 = 0 then 0 else 0x1b

theorem mul3_eq (x : UInt8) : mul3 x = ((x <<< 1) ^^^ carry x) ^^^ x := by
  unfold mul3 carry
  by_cases h : x &&& 0x80 = 0
  · rw [if_neg (not_not.mpr h), if_pos h, UInt8.xor_zero]
  · rw [if_pos h, if_neg h]

theorem topBit (x : UInt8) : x &&& 0x80 = 0 ∨ x &&& 0x80 = 0x80 := by
  have h : ∀ n < 256, UInt8.ofNat n &&& 0x80 = 0 ∨ UInt8.ofNat n &&& 0x80 = 0x80 := by
    decide +kernel
  simpa using h x.toNat x.toNat_lt

theorem carry_xor (a b : UInt8) : carry (a ^^^ b) = carry a ^^^ carry b := by
  have hand : (a ^^^ b) &&& 0x80 = (a &&& 0x80) ^^^ (b &&& 0x80) := by
    apply UInt8.eq_of_toBitVec_eq
    ext i hi
    simp [Bool.and_xor_distrib_right]
  unfold carry
  rw [hand]
  rcases topBit a with ha | ha <;> rcases topBit b with hb | hb <;> rw [ha, hb] <;> decide

theorem mul3_xor (a b : UInt8) : mul3 (a ^^^ b) = mul3 a ^^^ mul3 b := by
  rw [mul3_eq, mul3_eq, mul3_eq, carry_xor, UInt8.shiftLeft_xor]
  ac_rfl

/-- The powers of 3. -/
def pow3 (i : Nat) : UInt8 := mul3^[i] 1

theorem pow3_succ (i : Nat) : pow3 (i + 1) = mul3 (pow3 i) := Function.iterate_succ_apply' mul3 i 1

/-- 3 has order 255: no proper divisor of 255 is a period. -/
theorem minimalPeriod_mul3 : Function.minimalPeriod mul3 1 = 255 := by
  have h255 : Function.IsPeriodicPt mul3 255 1 := by
    change pow3 255 = 1
    decide +kernel
  have hdiv : ∀ d ∈ Nat.divisors 255, d = 255 ∨ d ∣ 85 ∨ d ∣ 51 ∨ d ∣ 15 := by decide +kernel
  have hnot : pow3 85 ≠ 1 ∧ pow3 51 ≠ 1 ∧ pow3 15 ≠ 1 := by decide +kernel
  have hper : ∀ n, Function.minimalPeriod mul3 1 ∣ n → pow3 n = 1 := fun n hn =>
    Function.isPeriodicPt_iff_minimalPeriod_dvd.mpr hn
  rcases hdiv _ (Nat.mem_divisors.mpr ⟨h255.minimalPeriod_dvd, by decide⟩) with h | h | h | h
  · exact h
  · exact absurd (hper 85 h) hnot.1
  · exact absurd (hper 51 h) hnot.2.1
  · exact absurd (hper 15 h) hnot.2.2

theorem exists_pow3 {a : UInt8} (ha : a ≠ 0) : ∃ i < 255, pow3 i = a := by
  have hcard : Fintype.card UInt8 = 255 + 1 := by decide +kernel
  have hone : (1 : UInt8) ≠ 0 := by decide
  exact exists_iterate_eq (by decide) hone minimalPeriod_mul3 hcard ha

/-! ## What the tables hold -/

/-- The tables after `i` turns of the loop. -/
structure Filled (i : Nat) (t : Tables) : Prop where
  exp_length : t.exp.length = 512
  log_length : t.log.length = 256
  exp_low : ∀ j < i, t.exp.getD j 0 = pow3 j
  exp_high : ∀ j < i, t.exp.getD (j + 255) 0 = pow3 j
  pow3_log : ∀ j < i, pow3 (t.log.getD (pow3 j).toNat 0).toNat = pow3 j
  log_lt : ∀ n, (t.log.getD n 0).toNat < 255

theorem getD_set {α : Type} (l : List α) (i j : Nat) (a d : α) (hi : i < l.length) :
    (l.set i a).getD j d = if i = j then a else l.getD j d := by
  rw [List.getD_eq_getElem?_getD, List.getElem?_set]
  split_ifs with h
  · rfl
  · rfl

theorem Filled.step {i : Nat} {t : Tables} (h : Filled i t) (hi : i < 255) :
    Filled (i + 1) ⟨(t.exp.set i (pow3 i)).set (i + 255) (pow3 i),
      t.log.set (pow3 i).toNat (UInt8.ofNat i)⟩ := by
  have he : i < t.exp.length := by have := h.exp_length; omega
  have he' : i + 255 < (t.exp.set i (pow3 i)).length := by
    have := h.exp_length; rw [List.length_set]; omega
  have hl : (pow3 i).toNat < t.log.length := by rw [h.log_length]; exact (pow3 i).toNat_lt
  have hof : (UInt8.ofNat i).toNat = i := by rw [UInt8.toNat_ofNat']; omega
  refine ⟨by simpa using h.exp_length, by simpa using h.log_length, fun j hj => ?_, fun j hj => ?_,
    fun j hj => ?_, fun n => ?_⟩
  · rw [getD_set _ _ _ _ _ he', getD_set _ _ _ _ _ he, if_neg (by omega)]
    split_ifs with hij
    · rw [hij]
    · exact h.exp_low j (by omega)
  · rw [getD_set _ _ _ _ _ he', getD_set _ _ _ _ _ he]
    split_ifs with hij hij'
    · rw [show i = j by omega]
    · omega
    · exact h.exp_high j (by omega)
  · rw [getD_set _ _ _ _ _ hl]
    split_ifs with hij
    · rw [hof, UInt8.toNat_inj.mp hij]
    · refine h.pow3_log j (Nat.lt_of_le_of_ne (by omega) ?_)
      rintro rfl
      exact hij rfl
  · rw [getD_set _ _ _ _ _ hl]
    split_ifs
    · omega
    · exact h.log_lt n

theorem filled_fillTables {n i : Nat} {t : Tables} (h : Filled i t) (hn : i + n ≤ 255) :
    Filled (i + n) (fillTables n i (pow3 i) t) := by
  induction n generalizing i t with
  | zero => exact h
  | succ n ih =>
    rw [fillTables, ← pow3_succ, Nat.add_comm n, ← Nat.add_assoc]
    exact ih (h.step (by omega)) (by omega)

theorem filled_zero : Filled 0 ⟨List.replicate 512 0, List.replicate 256 0⟩ := by
  have hnone : ∀ {P : Nat → Prop}, ∀ j < 0, P j := fun j hj => absurd hj (Nat.not_lt_zero j)
  refine ⟨List.length_replicate, List.length_replicate, hnone, hnone, hnone, fun n => ?_⟩
  rw [List.getD_eq_getElem?_getD, List.getElem?_replicate]
  split_ifs <;> decide

theorem filled_tables : Filled 255 tables := by
  have h : ∀ n ≤ 255,
      Filled n (fillTables n 0 1 ⟨List.replicate 512 0, List.replicate 256 0⟩) := by
    intro n hn
    have h := filled_fillTables (n := n) filled_zero (by omega)
    rwa [Nat.zero_add] at h
  unfold tables
  exact h 255 le_rfl

theorem pow3_add_order (i : Nat) : pow3 (i + 255) = pow3 i := by
  rw [← minimalPeriod_mul3]
  exact Function.iterate_add_minimalPeriod_eq

theorem expTable_eq {i : Nat} (hi : i < 510) : expTable i = pow3 i := by
  by_cases h : i < 255
  · exact filled_tables.exp_low i h
  · obtain ⟨j, rfl⟩ := Nat.exists_eq_add_of_le (Nat.not_lt.mp h)
    rw [Nat.add_comm, pow3_add_order]
    exact filled_tables.exp_high j (by omega)

theorem pow3_logTable {a : UInt8} (ha : a ≠ 0) : pow3 (logTable a) = a := by
  obtain ⟨j, hj, rfl⟩ := exists_pow3 ha
  exact filled_tables.pow3_log j hj

theorem logTable_lt (a : UInt8) : logTable a < 255 := filled_tables.log_lt a.toNat

/-! ## The field of the tables -/

def GF.mul3 : GF →+ GF where
  toFun a := ⟨Shamir.mul3 a.byte⟩
  map_zero' := by decide
  map_add' a b := GF.ext (mul3_xor a.byte b.byte)

theorem GF.iterate_mul3 (i : Nat) (x : UInt8) : GF.mul3^[i] ⟨x⟩ = ⟨Shamir.mul3^[i] x⟩ := by
  induction i generalizing x with
  | zero => rfl
  | succ i ih => exact ih (Shamir.mul3 x)

def gfTable : LogTable GF where
  step := GF.mul3
  one := ⟨1⟩
  log a := logTable a.byte
  order := 255
  one_ne_zero := by decide
  order_pos := by decide
  step_order := by
    rw [GF.iterate_mul3]
    exact congrArg GF.mk (pow3_add_order 0)
  step_log a ha := by
    have hbyte : a.byte ≠ 0 := fun h => ha (GF.ext h)
    rw [GF.iterate_mul3, ← pow3, pow3_logTable hbyte]

instance : Field GF := gfTable.toField

theorem GF.mul_def (a b : GF) : a * b = gfTable.mul a b := rfl

theorem gfTable_log (a : UInt8) : gfTable.log ⟨a⟩ = logTable a := rfl

theorem gfTable_exp (i : Nat) : gfTable.exp i = ⟨pow3 i⟩ := GF.iterate_mul3 i 1

theorem GF.mk_ne_zero {a : UInt8} (ha : a ≠ 0) : (⟨a⟩ : GF) ≠ 0 := fun h => ha (congrArg GF.byte h)

theorem mk_gfMul (a b : UInt8) : (⟨gfMul a b⟩ : GF) = ⟨a⟩ * ⟨b⟩ := by
  unfold gfMul
  split_ifs with h
  · rcases h with rfl | rfl
    · exact (zero_mul (⟨b⟩ : GF)).symm
    · exact (mul_zero (⟨a⟩ : GF)).symm
  · obtain ⟨ha, hb⟩ := not_or.mp h
    have hla := logTable_lt a
    have hlb := logTable_lt b
    rw [expTable_eq (by omega), ← gfTable_exp, GF.mul_def,
      gfTable.mul_exp (GF.mk_ne_zero ha) (GF.mk_ne_zero hb), gfTable_log, gfTable_log]

theorem mk_gfDiv (a : UInt8) {b : UInt8} (hb : b ≠ 0) : (⟨gfDiv a b⟩ : GF) = ⟨a⟩ / ⟨b⟩ := by
  have hb' := GF.mk_ne_zero hb
  rw [eq_div_iff hb']
  unfold gfDiv
  split_ifs with ha
  · rw [ha]; exact zero_mul (⟨b⟩ : GF)
  · have hla := logTable_lt a
    have hlb := logTable_lt b
    have hlt := Nat.mod_lt (logTable a + 255 - logTable b) (show 0 < 255 by decide)
    have hmod := gfTable.exp_mod_order (logTable a + 255 - logTable b)
    have hstep := gfTable.exp_mul (logTable a + 255 - logTable b) ⟨b⟩
    have hround := gfTable.exp_add_order (logTable a) 1
    have horder : gfTable.order = 255 := rfl
    rw [horder] at hmod hround
    rw [expTable_eq (by omega), ← gfTable_exp, hmod, GF.mul_def, hstep]
    nth_rewrite 1 [← gfTable.exp_log hb']
    rw [gfTable_log, gfTable.step_exp, Nat.sub_add_cancel (by omega), hround, ← gfTable_log,
      gfTable.exp_log (GF.mk_ne_zero ha)]

end Tuck.Shamir
