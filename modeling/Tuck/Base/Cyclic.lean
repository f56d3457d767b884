/-
  Cells that are written round and round: the `k`-th value goes to cell `k % c`.

  Of all values written so far the last `c` are still there (`Cyclic.Holds`), and the two ways
  to count backwards from the next cell find them (`oldest_mod`, `newest_mod`).
-/
import Mathlib.Data.Nat.ModEq
import Mathlib.Data.List.Basic

namespace Tuck.Base.Cyclic

open List

variable {α : Type} {cells xs : List α} {next n : Nat}

/-- The cells, the index of the next one and the number of valid ones, after the values `xs`. -/
structure Holds (cells : List α) (next n : Nat) (xs : List α) : Prop where
  next_eq : next = xs.length % cells.length
  n_eq : n = min cells.length xs.length
  cell : ∀ k, xs.length ≤ k + n → k < xs.length → cells[k % cells.length]? = xs[k]?

theorem Holds.nil (cells : List α) : Holds cells 0 0 [] where
  next_eq := (Nat.zero_mod _).symm
  n_eq := (Nat.min_zero _).symm
  cell := fun _ _ h => absurd h (Nat.not_lt_zero _)

/-- Two values share a cell only if a whole round lies between them. -/
theorem mod_ne_of_lt_round {k m c : Nat} (hlt : k < m) (hround : m < k + c) : k % c ≠ m % c := by
  intro h
  have hdvd : c ∣ m - k := (Nat.modEq_iff_dvd' hlt.le).1 h
  have hle := Nat.le_of_dvd (by omega) hdvd
  omega

theorem Holds.push (h : Holds cells next n xs) (hpos : 0 < cells.length) (x : α) :
    Holds (cells.set next x) ((next + 1) % cells.length) (if n < cells.length then n + 1 else n)
      (xs ++ [x]) := by
  have hn : (if n < cells.length then n + 1 else n) = min cells.length (xs.length + 1) := by
    have := h.n_eq
    split_ifs <;> omega
  refine ⟨?_, ?_, ?_⟩
  · rw [h.next_eq, length_set, length_append, length_singleton, Nat.mod_add_mod]
  · rw [hn, length_set, length_append, length_singleton]
  · intro k hk hlt
    rw [hn, length_append, length_singleton] at hk
    rw [length_append, length_singleton] at hlt
    rw [length_set]
    by_cases hlast : k = xs.length
    · subst hlast
      rw [← h.next_eq, List.getElem?_set_self (h.next_eq ▸ Nat.mod_lt _ hpos)]
      exact (List.getElem?_concat_length ..).symm
    · -- a cell of the last round is not the one that is written
      have hne : next ≠ k % cells.length := by
        rw [h.next_eq]
        exact (mod_ne_of_lt_round (by omega) (by omega)).symm
      have hn' := h.n_eq
      rw [List.getElem?_set_ne hne, List.getElem?_append_left (by omega)]
      exact h.cell k (by omega) (by omega)

/-- Forwards from the oldest valid cell. -/
theorem oldest_mod {m c n i : Nat} (hn : n ≤ c) (hm : n ≤ m) :
    ((m % c + c - n) % c + i) % c = (m - n + i) % c := by
  have hstart : m % c + c - n ≡ m - n [MOD c] := by
    refine Nat.ModEq.add_right_cancel' n ?_
    rw [Nat.sub_add_cancel (by omega), Nat.sub_add_cancel hm]
    exact (Nat.add_mod_right ..).trans (Nat.mod_mod ..)
  rw [Nat.mod_add_mod]
  exact hstart.add_right i

/-- Backwards from the newest one. -/
theorem newest_mod {m c n i : Nat} (hn : n ≤ c) (hm : n ≤ m) (hi : i < n) :
    (m % c + 2 * c - 1 - i) % c = (m - 1 - i) % c := by
  refine Nat.ModEq.add_right_cancel' (1 + i) ?_
  rw [show m % c + 2 * c - 1 - i + (1 + i) = m % c + c * 2 by omega,
    show m - 1 - i + (1 + i) = m by omega]
  exact (Nat.add_mul_mod_self_left ..).trans (Nat.mod_mod ..)

/-- The valid cells, from the oldest one on. -/
theorem Holds.oldest (h : Holds cells next n xs) {i : Nat} (hi : i < n) :
    cells[((next + cells.length - n) % cells.length + i) % cells.length]? =
      (xs.drop (xs.length - cells.length))[i]? := by
  have hn := h.n_eq
  rw [h.next_eq, oldest_mod (by omega) (by omega), h.cell _ (by omega) (by omega),
    List.getElem?_drop]
  congr 1
  omega

/-- The valid cells, from the newest one back. -/
theorem Holds.newest (h : Holds cells next n xs) {i : Nat} (hi : i < n) :
    cells[(next + 2 * cells.length - 1 - i) % cells.length]? =
      (xs.drop (xs.length - cells.length)).reverse[i]? := by
  have hn := h.n_eq
  have hlen : (xs.drop (xs.length - cells.length)).length = n := by
    rw [length_drop]
    omega
  rw [h.next_eq, newest_mod (by omega) (by omega) hi, h.cell _ (by omega) (by omega),
    List.getElem?_reverse (by omega), hlen, List.getElem?_drop]
  congr 1
  omega

end Tuck.Base.Cyclic
