/-
  Shamir's secret sharing: `Split` and `Combine`.

  A share is the x-coordinate and, for each byte of the secret, the value there of a
  polynomial whose constant term is that byte. `combine` on as many points as the
  polynomials have coefficients gives the secret back (`Sharing.combine_points`), whatever
  their x-coordinates, also those `split` never hands out.
-/
import Tuck.Seal.GF256
import Tuck.Env

namespace Tuck.Shamir

open Tuck.Base Host Prog List

/-- The errors of `Split` and `Combine`. -/
inductive Err where
  | emptySecret
  | badN
  | badK
  | kExceedsN (k n : Nat)
  | rand
  | noShares
  | tooShort
  | inconsistentLength (i got want : Nat)
  | duplicateX (x : UInt8) (i : Nat)
  deriving DecidableEq

/-- `evalPoly`: Horner's rule, the constant term first in the list. -/
def evalPoly : Bytes → UInt8 → UInt8
  | [], _ => 0
  | [c], _ => c
  | c :: d :: cs, x => c ^^^ gfMul (evalPoly (d :: cs) x) x

/-! ## Split -/

/-- The random coefficients for one byte of the secret; the leading one is not zero. -/
def drawRow (k : Nat) : Code (Except Err Bytes) :=
  if 1 < k then
    (randBytes .rand (k - 1)).andThen fun row =>
      if row.getLast? = some 0 then
        (randNonzero .rand).andThen fun b => ret (.ok (row.dropLast ++ [b]))
      else ret (.ok row)
  else ret (.ok [])

/-- One row of coefficients for each byte of the secret. -/
def drawRows (k : Nat) : Bytes → Code (Except Err (List Bytes))
  | [] => ret (.ok [])
  | _ :: secret =>
      (drawRow k).andThen fun row =>
        (drawRows k secret).andThen fun rows => ret (.ok (row :: rows))

/-- The share at `x`: the x-coordinate, then the value of each byte's polynomial. -/
def point (secret : Bytes) (rows : List Bytes) (x : UInt8) : Bytes :=
  x :: List.zipWith (fun s row => evalPoly (s :: row) x) secret rows

/-- `Split`: the shares are the points at 1, …, n. -/
def split (secret : Bytes) (n k : Nat) : Code (Except Err (List Bytes)) :=
  if secret = [] then ret (.error .emptySecret)
  else if n < 1 ∨ 255 < n then ret (.error .badN)
  else if k < 1 then ret (.error .badK)
  else if n < k then ret (.error (.kExceedsN k n))
  else (drawRows k secret).andThen fun rows =>
    ret (.ok ((List.range n).map fun i => point secret rows (UInt8.ofNat (i + 1))))

/-! ## Combine -/

/-- `share[0]`. -/
def xCoord (share : Bytes) : UInt8 := share.headD 0

/-- Numerator and denominator of the basis polynomial of node `j` at zero. -/
def basisAtZero {n : Nat} (x : Fin n → UInt8) (j : Fin n) : UInt8 × UInt8 :=
  (List.finRange n).foldl
    (fun nd m => if m = j then nd else (gfMul nd.1 (x m), gfMul nd.2 (x j ^^^ x m))) (1, 1)

/-- Lagrange interpolation at zero. -/
def interpolate {n : Nat} (x y : Fin n → UInt8) : UInt8 :=
  (List.finRange n).foldl
    (fun value j => value ^^^ gfMul (y j) (gfDiv (basisAtZero x j).1 (basisAtZero x j).2)) 0

/-- The first share whose length differs from `want`. -/
def inconsistent (want : Nat) : Nat → List Bytes → Option Err
  | _, [] => none
  | i, sh :: shares =>
      if sh.length ≠ want then some (.inconsistentLength i sh.length want)
      else inconsistent want (i + 1) shares

/-- The first x-coordinate that was seen before. -/
def duplicateX : List UInt8 → Nat → List UInt8 → Option Err
  | _, _, [] => none
  | seen, i, x :: xs =>
      if x ∈ seen then some (.duplicateX x i) else duplicateX (x :: seen) (i + 1) xs

/-- The byte of the secret at `b`. -/
def combineByte (shares : List Bytes) (b : Nat) : UInt8 :=
  interpolate (fun j : Fin shares.length => xCoord (shares.get j))
    (fun j => (shares.get j).getD (1 + b) 0)

def combine (shares : List Bytes) : Except Err Bytes :=
  match shares with
  | [] => .error .noShares
  | first :: rest =>
      if first.length < 2 then .error .tooShort
      else match inconsistent first.length 0 (first :: rest) with
        | some e => .error e
        | none =>
            match duplicateX [] 0 ((first :: rest).map xCoord) with
            | some e => .error e
            | none => .ok ((List.range (first.length - 1)).map (combineByte (first :: rest)))

/-! ## The loops as polynomials, products and sums over the field -/

theorem mk_evalPoly (cs : Bytes) (x : UInt8) :
    (⟨evalPoly cs x⟩ : GF) = (polyOf (cs.map GF.mk)).eval ⟨x⟩ := by
  fun_induction evalPoly cs x with
  | case1 => exact Polynomial.eval_zero.symm
  | case2 x c =>
    rw [map_cons, eval_polyOf_cons, map_nil, polyOf, Polynomial.eval_zero, mul_zero,
      add_zero]
  | case3 x c d cs ih =>
    rw [map_cons, eval_polyOf_cons, ← ih, mul_comm, ← mk_gfMul]
    rfl

theorem mk_sub (a b : UInt8) : (⟨a⟩ : GF) - ⟨b⟩ = ⟨a ^^^ b⟩ := rfl

section

variable {n : Nat} (x : Fin n → UInt8)

theorem foldl_basis (j : Fin n) (l : List (Fin n)) (a b : UInt8) :
    let r := l.foldl
      (fun nd m => if m = j then nd else (gfMul nd.1 (x m), gfMul nd.2 (x j ^^^ x m))) (a, b)
    (⟨r.1⟩ : GF) = ⟨a⟩ * (l.map fun m => if m = j then 1 else (⟨x m⟩ : GF)).prod ∧
      (⟨r.2⟩ : GF) = ⟨b⟩ * (l.map fun m => if m = j then 1 else (⟨x m⟩ - ⟨x j⟩ : GF)).prod := by
  induction l generalizing a b with
  | nil => exact ⟨(mul_one _).symm, (mul_one _).symm⟩
  | cons m l ih =>
    simp only [foldl_cons, map_cons, prod_cons]
    by_cases hm : m = j
    · simp only [if_pos hm, one_mul]
      exact ih a b
    · simp only [if_neg hm]
      obtain ⟨h1, h2⟩ := ih (gfMul a (x m)) (gfMul b (x j ^^^ x m))
      rw [h1, h2, mk_gfMul, mk_gfMul, mk_sub, UInt8.xor_comm (x j), mul_assoc, mul_assoc]
      exact ⟨rfl, rfl⟩

theorem prod_erase_eq (j : Fin n) (f : Fin n → GF) :
    ((List.finRange n).map fun m => if m = j then 1 else f m).prod =
      ∏ m ∈ Finset.univ.erase j, f m := by
  have h := Finset.prod_erase Finset.univ (f := fun m => if m = j then 1 else f m) (if_pos rfl)
  rw [← Fin.prod_univ_def, ← h]
  exact Finset.prod_congr rfl fun m hm => if_neg (Finset.ne_of_mem_erase hm)

/-- The two loops of the basis polynomial, as products. -/
theorem mk_basisAtZero (j : Fin n) :
    (⟨(basisAtZero x j).1⟩ : GF) = ∏ m ∈ Finset.univ.erase j, (⟨x m⟩ : GF) ∧
      (⟨(basisAtZero x j).2⟩ : GF) = ∏ m ∈ Finset.univ.erase j, (⟨x m⟩ - ⟨x j⟩ : GF) := by
  obtain ⟨h1, h2⟩ := foldl_basis x j (List.finRange n) 1 1
  rw [prod_erase_eq] at h1 h2
  exact ⟨h1.trans (one_mul _), h2.trans (one_mul _)⟩

variable {x}

/-- The division of `combine` never meets the panic of `gfDiv`. -/
theorem den_ne_zero (hx : Function.Injective x) (j : Fin n) : (basisAtZero x j).2 ≠ 0 := by
  intro h
  have hzero := (mk_basisAtZero x j).2
  rw [h] at hzero
  obtain ⟨m, hm, hsub⟩ := Finset.prod_eq_zero_iff.mp hzero.symm
  refine Finset.ne_of_mem_erase hm (hx ?_)
  exact congrArg GF.byte (sub_eq_zero.mp hsub)

theorem mk_weight (hx : Function.Injective x) (j : Fin n) :
    (⟨gfDiv (basisAtZero x j).1 (basisAtZero x j).2⟩ : GF) =
      weightAtZero (fun m => (⟨x m⟩ : GF)) j := by
  rw [mk_gfDiv _ (den_ne_zero hx j), (mk_basisAtZero x j).1, (mk_basisAtZero x j).2, weightAtZero]

theorem mk_foldl_xor {α : Type} (f : α → UInt8) (l : List α) (a : UInt8) :
    (⟨l.foldl (fun value j => value ^^^ f j) a⟩ : GF) =
      ⟨a⟩ + (l.map fun j => (⟨f j⟩ : GF)).sum := by
  induction l generalizing a with
  | nil => exact (add_zero _).symm
  | cons j l ih =>
    rw [foldl_cons, ih, map_cons, sum_cons, ← add_assoc]
    rfl

theorem mk_interpolate (hx : Function.Injective x) (y : Fin n → UInt8) :
    (⟨interpolate x y⟩ : GF) = ∑ j, (⟨y j⟩ : GF) * weightAtZero (fun m => (⟨x m⟩ : GF)) j := by
  rw [interpolate, mk_foldl_xor, Fin.sum_univ_def]
  simp only [mk_gfMul, mk_weight hx]
  exact zero_add _

/-- Interpolation through the values of a polynomial gives its constant term. -/
theorem interpolate_evalPoly (hx : Function.Injective x) {c : UInt8} {cs : Bytes}
    (hn : cs.length + 1 ≤ n) : interpolate x (fun j => evalPoly (c :: cs) (x j)) = c := by
  have hinj : Function.Injective fun m => (⟨x m⟩ : GF) := fun a b h => hx (congrArg GF.byte h)
  have hdeg : (polyOf ((c :: cs).map GF.mk)).degree < n := by
    have h := degree_polyOf_lt ((c :: cs).map GF.mk)
    rw [length_map, length_cons] at h
    exact h.trans_le (Nat.cast_le.mpr hn)
  have hsum := sum_weightAtZero hinj hdeg
  have hmk := mk_interpolate hx fun j => evalPoly (c :: cs) (x j)
  simp only [mk_evalPoly] at hmk
  rw [hsum, map_cons, eval_polyOf_cons, zero_mul, add_zero] at hmk
  exact congrArg GF.byte hmk

end

/-! ## Sharings -/

/-- A secret shared k of n: the secret and the coefficients drawn for each of its bytes. -/
structure Sharing where
  secret : Bytes
  rows : List Bytes
  n : Nat
  k : Nat
  secret_ne : secret ≠ []
  k_pos : 1 ≤ k
  k_le : k ≤ n
  n_le : n ≤ 255
  rows_length : rows.length = secret.length
  row_length : ∀ row ∈ rows, row.length = k - 1

namespace Sharing

variable (S : Sharing)

/-- The point of the sharing's polynomials at `x`. -/
def pointAt (x : UInt8) : Bytes := point S.secret S.rows x

/-- The shares handed out. -/
def shares : List Bytes := (List.range S.n).map fun i => S.pointAt (UInt8.ofNat (i + 1))

/-- The raw share lies on the sharing's polynomials. -/
def Genuine (raw : Bytes) : Prop := raw = S.pointAt (xCoord raw)

variable {S}

theorem xCoord_pointAt (x : UInt8) : xCoord (S.pointAt x) = x := rfl

theorem genuine_pointAt (x : UInt8) : S.Genuine (S.pointAt x) := rfl

theorem pointAt_length (x : UInt8) : (S.pointAt x).length = S.secret.length + 1 := by
  rw [pointAt, point, length_cons, length_zipWith, S.rows_length, min_self]

theorem Genuine.length {raw : Bytes} (h : S.Genuine raw) : raw.length = S.secret.length + 1 := by
  rw [h, pointAt_length]

theorem genuine_of_mem_shares {raw : Bytes} (h : raw ∈ S.shares) : S.Genuine raw := by
  obtain ⟨i, -, rfl⟩ := mem_map.mp h
  exact genuine_pointAt _

theorem secret_length_pos : 1 ≤ S.secret.length := length_pos_iff.mpr S.secret_ne

theorem pointAt_getD (x : UInt8) {b : Nat} (hb : b < S.secret.length) :
    (S.pointAt x).getD (1 + b) 0 =
      evalPoly (S.secret[b] :: S.rows.get ⟨b, S.rows_length ▸ hb⟩) x := by
  have hb' : b < S.rows.length := S.rows_length ▸ hb
  rw [pointAt, point, Nat.add_comm, getD_cons_succ, getD_eq_getElem?_getD,
    List.getElem?_zipWith, List.getElem?_eq_getElem hb, List.getElem?_eq_getElem hb']
  rfl

end Sharing

/-! ## What Split returns -/

/-- A row that `drawRow` can return. -/
def IsRow (k : Nat) (row : Bytes) : Prop := row.length = k - 1 ∧ row.getLast? ≠ some 0

/-- Coefficients that `drawRows` can return for a secret of `len` bytes. -/
def Drawn (k len : Nat) (rows : List Bytes) : Prop :=
  rows.length = len ∧ ∀ row ∈ rows, IsRow k row

section

variable {E : Env} {k : Nat}

theorem nonzero_ne (r : Rng) : r.nonzero ≠ 0 := by
  unfold Rng.nonzero
  split_ifs with h
  · decide
  · exact h

theorem run_drawRow (hk : 1 ≤ k) (w : World) :
    ∃ row w', run (handle E) (drawRow k) w = (.ok row, w') ∧ IsRow k row := by
  have hlen := Rng.take_length w.rng (k - 1)
  unfold drawRow
  split_ifs with h1
  · rw [run_andThen, run_randBytes]
    dsimp only
    split_ifs with hlast
    · refine ⟨(w.rng.take (k - 1)).dropLast ++ [(w.rng.skip (k - 1)).nonzero], _, rfl, ?_, ?_⟩
      · rw [length_append, length_dropLast, hlen, length_singleton]
        omega
      · rw [List.getLast?_concat]
        exact fun h => nonzero_ne _ (Option.some.inj h)
    · exact ⟨_, _, rfl, hlen, hlast⟩
  · exact ⟨[], w, rfl, by rw [length_nil]; omega, by decide⟩

theorem run_drawRows (hk : 1 ≤ k) (secret : Bytes) (w : World) :
    ∃ rows w', run (handle E) (drawRows k secret) w = (.ok rows, w') ∧
      Drawn k secret.length rows := by
  induction secret generalizing w with
  | nil => exact ⟨[], w, rfl, rfl, fun _ h => absurd h not_mem_nil⟩
  | cons s secret ih =>
    obtain ⟨row, w1, hrow, hisRow⟩ := run_drawRow (E := E) hk w
    obtain ⟨rows, w2, hrows, hlen, hall⟩ := ih w1
    refine ⟨row :: rows, w2, ?_, congrArg (· + 1) hlen, forall_mem_cons.mpr ⟨hisRow, hall⟩⟩
    simp only [drawRows, run_andThen, hrow, hrows, run_ret]

/-- Whatever is drawn, the shares are those of a sharing of the secret. -/
theorem run_split {secret : Bytes} {n : Nat} (hsecret : secret ≠ []) (hk : 1 ≤ k)
    (hkn : k ≤ n) (hn : n ≤ 255) (w : World) :
    ∃ (S : Sharing) (w' : World), run (handle E) (split secret n k) w = (.ok S.shares, w') ∧
      S.secret = secret ∧ S.n = n ∧ S.k = k := by
  obtain ⟨rows, w', hrun, hlen, hrows⟩ := run_drawRows (E := E) hk secret w
  refine ⟨⟨secret, rows, n, k, hsecret, hk, hkn, hn, hlen, fun row hrow => (hrows row hrow).1⟩, w',
    ?_, rfl, rfl, rfl⟩
  unfold split
  rw [if_neg hsecret, if_neg (by omega), if_neg (by omega), if_neg (by omega), run_andThen, hrun]
  rfl

end

/-! ## What Combine returns -/

theorem inconsistent_eq_none {want i : Nat} {shares : List Bytes} :
    inconsistent want i shares = none ↔ ∀ sh ∈ shares, sh.length = want := by
  induction shares generalizing i with
  | nil => exact iff_of_true rfl nofun
  | cons sh shares ih =>
    rw [inconsistent, forall_mem_cons, ← ih]
    by_cases h : sh.length = want
    · rw [if_neg (not_not.mpr h), and_iff_right h]
    · exact iff_of_false (by rw [if_pos h]; nofun) fun hall => h hall.1

theorem duplicateX_eq_none {xs seen : List UInt8} {i : Nat} :
    duplicateX seen i xs = none ↔ xs.Nodup ∧ ∀ x ∈ xs, x ∉ seen := by
  induction xs generalizing seen i with
  | nil => exact iff_of_true rfl ⟨nodup_nil, nofun⟩
  | cons x xs ih =>
    rw [duplicateX, nodup_cons, forall_mem_cons]
    split_ifs with h
    · exact iff_of_false nofun fun hall => hall.2.1 h
    · rw [ih]
      simp only [mem_cons, not_or]
      grind

/-- Points with distinct x-coordinates, at least as many as the threshold, combine to the
    secret. -/
theorem Sharing.combine_points {S : Sharing} {shares : List Bytes} (hlen : S.k ≤ shares.length)
    (hgen : ∀ sh ∈ shares, S.Genuine sh) (hx : (shares.map xCoord).Nodup) :
    combine shares = .ok S.secret := by
  have hsize : ∀ sh ∈ shares, sh.length = S.secret.length + 1 := fun sh h => (hgen sh h).length
  have hinj : Function.Injective fun j : Fin shares.length => xCoord (shares.get j) := by
    intro a b h
    have hget := inj_on_of_nodup_map hx (get_mem shares a) (get_mem shares b) h
    exact (List.Nodup.of_map xCoord hx).injective_get hget
  have hbyte : ∀ b (hb : b < S.secret.length), combineByte shares b = S.secret[b] := by
    intro b hb
    have hrow : (S.rows.get ⟨b, S.rows_length ▸ hb⟩).length + 1 ≤ shares.length := by
      rw [S.row_length _ (get_mem _ _)]
      have := S.k_pos
      omega
    rw [combineByte, ← interpolate_evalPoly hinj (c := S.secret[b]) hrow]
    congr 1
    funext j
    rw [← Sharing.pointAt_getD _ hb, ← hgen _ (get_mem shares j)]
  cases shares with
  | nil => exact absurd (hlen.trans' S.k_pos) (by decide)
  | cons first rest =>
    have hfirst := hsize first mem_cons_self
    have hpos := S.secret_length_pos
    rw [combine, if_neg (by omega), inconsistent_eq_none.2 (by rwa [hfirst]),
      duplicateX_eq_none.2 ⟨hx, fun _ _ => not_mem_nil⟩]
    refine congrArg Except.ok ?_
    rw [hfirst, Nat.add_sub_cancel]
    refine ext_getElem (by simp) fun b h1 h2 => ?_
    rw [getElem_map, getElem_range]
    exact hbyte b h2

theorem Sharing.Genuine.eq {S : Sharing} {a b : Bytes} (ha : S.Genuine a) (hb : S.Genuine b)
    (hx : xCoord a = xCoord b) : a = b := by
  rw [ha, hb, hx]

/-- The result is `n` shares, any `k` or more of which combine to the secret in whatever
    order. -/
def Recovers (secret : Bytes) (n k : Nat) (r : Except Err (List Bytes)) : Prop :=
  ∃ shares, r = .ok shares ∧ shares.length = n ∧
    ∀ picked : List Bytes, picked.Nodup → picked ⊆ shares → k ≤ picked.length →
      combine picked = .ok secret

theorem Sharing.recovers (S : Sharing) : Recovers S.secret S.n S.k (.ok S.shares) := by
  refine ⟨S.shares, rfl, by rw [Sharing.shares, length_map, length_range], ?_⟩
  intro picked hnodup hsub hlen
  have hgen : ∀ sh ∈ picked, S.Genuine sh := fun sh h => Sharing.genuine_of_mem_shares (hsub h)
  -- a share is determined by its x-coordinate
  have hx : (picked.map xCoord).Nodup :=
    hnodup.map_on fun a ha b hb h => (hgen a ha).eq (hgen b hb) h
  exact Sharing.combine_points hlen hgen hx

/-- Whatever coefficients `split` draws, any k or more of its shares give the secret back. -/
theorem combine_split {E : Env} {w : World} {secret : Bytes} {n k : Nat} (hsecret : secret ≠ [])
    (hk : 1 ≤ k) (hkn : k ≤ n) (hn : n ≤ 255) :
    Recovers secret n k (Prog.run (handle E) (split secret n k) w).1 := by
  obtain ⟨S, w', hrun, rfl, rfl, rfl⟩ := run_split (E := E) hsecret hk hkn hn w
  rw [hrun]
  exact S.recovers

/-- Two of three shares of a two-byte secret, with coefficients from a counter. -/
theorem combine_split_two_of_three :
    Recovers [7, 0] 3 2
      (Prog.run (handle plainEnv) (split [7, 0] 3 2) ⟨∅, fun i => UInt8.ofNat i⟩).1 :=
  combine_split (by decide) (by decide) (by decide) (by decide)

/-! ## Panics -/

/-- `gfMul` with its reads of the tables; `none` is a panic. -/
def gfMul? (a b : UInt8) : Option UInt8 :=
  if a = 0 ∨ b = 0 then some 0
  else tables.log[a.toNat]?.bind fun i => tables.log[b.toNat]?.bind fun j =>
    tables.exp[i.toNat + j.toNat]?

def gfDiv? (a b : UInt8) : Option UInt8 :=
  if b = 0 then none
  else if a = 0 then some 0
  else tables.log[a.toNat]?.bind fun i => tables.log[b.toNat]?.bind fun j =>
    tables.exp[(i.toNat + 255 - j.toNat) % 255]?

def basisAtZero? {n : Nat} (x : Fin n → UInt8) (j : Fin n) : Option (UInt8 × UInt8) :=
  (List.finRange n).foldlM (fun nd m =>
    if m = j then some nd
    else (gfMul? nd.1 (x m)).bind fun num =>
      (gfMul? nd.2 (x j ^^^ x m)).map fun den => (num, den)) (1, 1)

/-- The value of a byte, for the x-coordinates. -/
def combineByte? {n : Nat} (shares : List Bytes) (x : Fin n → UInt8) (b : Nat) : Option UInt8 :=
  (List.finRange n).foldlM (fun value j =>
    shares[j.val]?.bind fun share => share[1 + b]?.bind fun yj =>
      (basisAtZero? x j).bind fun nd => (gfDiv? nd.1 nd.2).bind fun q =>
        (gfMul? yj q).map fun y => value ^^^ y) 0

/-- The check for duplicates, with its reads of `share[0]`. -/
def duplicateX? : List UInt8 → Nat → List Bytes → Option (Option Err)
  | _, _, [] => some none
  | seen, i, sh :: shares =>
      sh[0]?.bind fun x =>
        if x ∈ seen then some (some (.duplicateX x i)) else duplicateX? (x :: seen) (i + 1) shares

/-- `Combine` with every index and every division that can panic. -/
def combine? : List Bytes → Option (Except Err Bytes)
  | [] => some (.error .noShares)
  | first :: rest =>
      if first.length < 2 then some (.error .tooShort)
      else match inconsistent first.length 0 (first :: rest) with
        | some e => some (.error e)
        | none => (duplicateX? [] 0 (first :: rest)).bind fun
            | some e => some (.error e)
            | none => ((first :: rest).mapM fun sh => sh[0]?).bind fun xs =>
                ((List.range (first.length - 1)).mapM (combineByte? (first :: rest) xs.get)).map .ok

theorem getElem?_getD {l : Bytes} {i : Nat} (h : i < l.length) : l[i]? = some (l.getD i 0) := by
  rw [getD_eq_getElem?_getD, getElem?_eq_getElem h]
  rfl

theorem log_getElem? (a : UInt8) : tables.log[a.toNat]? = some (tables.log.getD a.toNat 0) :=
  getElem?_getD (filled_tables.log_length ▸ a.toNat_lt)

theorem exp_getElem? {i : Nat} (h : i < 512) : tables.exp[i]? = some (expTable i) :=
  getElem?_getD (filled_tables.exp_length ▸ h)

theorem gfMul?_eq (a b : UInt8) : gfMul? a b = some (gfMul a b) := by
  unfold gfMul? gfMul
  split_ifs
  · rfl
  · have ha := logTable_lt a
    have hb := logTable_lt b
    rw [log_getElem?, log_getElem?]
    exact exp_getElem? (show logTable a + logTable b < 512 by omega)

theorem gfDiv?_eq (a : UInt8) {b : UInt8} (hb : b ≠ 0) : gfDiv? a b = some (gfDiv a b) := by
  unfold gfDiv? gfDiv
  rw [if_neg hb]
  split_ifs
  · rfl
  · rw [log_getElem?, log_getElem?]
    exact exp_getElem? ((Nat.mod_lt _ (by decide)).trans (by decide))

theorem basisAtZero?_eq {n : Nat} (x : Fin n → UInt8) (j : Fin n) :
    basisAtZero? x j = some (basisAtZero x j) := by
  rw [basisAtZero, ← Option.pure_def, ← foldlM_pure]
  unfold basisAtZero?
  congr
  funext nd m
  rw [gfMul?_eq, gfMul?_eq, apply_ite pure]
  rfl

theorem combineByte?_eq {n : Nat} {shares : List Bytes} {x : Fin n → UInt8} {b : Nat}
    (hx : Function.Injective x) (hn : n = shares.length)
    (hshares : ∀ sh ∈ shares, 1 + b < sh.length)
    (hcoord : ∀ j, x j = xCoord (shares.get (j.cast hn))) :
    combineByte? shares x b = some (combineByte shares b) := by
  subst hn
  obtain rfl : x = fun j => xCoord (shares.get j) := funext hcoord
  rw [combineByte, interpolate, ← Option.pure_def, ← foldlM_pure]
  unfold combineByte?
  congr
  funext value j
  rw [getElem?_eq_getElem j.isLt, Option.bind_some, getElem?_getD (hshares _ (getElem_mem _)),
    basisAtZero?_eq, Option.bind_some, Option.bind_some, gfDiv?_eq _ (den_ne_zero hx j),
    Option.bind_some, gfMul?_eq]
  rfl

theorem duplicateX?_eq {shares : List Bytes} (h : ∀ sh ∈ shares, sh[0]? = some (xCoord sh))
    (seen : List UInt8) (i : Nat) :
    duplicateX? seen i shares = some (duplicateX seen i (shares.map xCoord)) := by
  induction shares generalizing seen i with
  | nil => rfl
  | cons sh shares ih =>
    rw [duplicateX?, h sh mem_cons_self, Option.bind_some, map_cons, duplicateX,
      ih fun s hs => h s (mem_cons_of_mem sh hs)]
    split_ifs <;> rfl

/-- `Combine` never panics: whatever the shares, it returns. -/
theorem combine_never_panics (shares : List Bytes) : combine? shares = some (combine shares) := by
  cases shares with
  | nil => rfl
  | cons first rest =>
    rw [combine?, combine]
    split_ifs with hshort
    · rfl
    · cases hlen : inconsistent first.length 0 (first :: rest) with
      | some e => rfl
      | none =>
        have hlen := inconsistent_eq_none.1 hlen
        have hfirst : ∀ sh ∈ first :: rest, sh[0]? = some (xCoord sh) := by
          intro sh hsh
          cases sh with
          | nil => exact absurd (hlen [] hsh) (by rw [length_nil]; omega)
          | cons x sh => rfl
        dsimp only
        rw [duplicateX?_eq hfirst, Option.bind_some]
        cases hdup : duplicateX [] 0 ((first :: rest).map xCoord) with
        | some e => rfl
        | none =>
          have hnodup := (duplicateX_eq_none.1 hdup).1
          dsimp only
          rw [mapM_eq_map hfirst, Option.bind_some, mapM_eq_map (g := combineByte (first :: rest))]
          · rfl
          · intro b hb
            have hb := mem_range.1 hb
            refine combineByte?_eq hnodup.injective_get (length_map _)
              (fun sh hsh => by rw [hlen sh hsh]; omega) fun j => ?_
            rw [get_eq_getElem, getElem_map]
            rfl

end Tuck.Shamir
