/-
  What fewer shares than the threshold tell.

  A set of positions hides the secret when the shares seen there are possible for one secret
  exactly if they are for another, and arise from equally many choices of coefficients.
  `drawRow` draws the leading coefficient again until it is not zero, so the polynomials of
  one secret are not all polynomials with its constant term. Masks of degree below the
  leading one move between the choices of two secrets, and with k - 2 positions or fewer
  there are such masks; with k - 1 positions the mask changes the leading coefficient, and
  each byte of the secret excludes one value.
-/
import Tuck.Seal.Shamir

namespace Tuck.Shamir

open Tuck.Base Host Prog Polynomial List

/-! ## The choices of split -/

/-- For some state of the random source, `split` draws the coefficients `rows` and returns
    `shares`. -/
def Splits (secret : Bytes) (n k : Nat) (rows shares : List Bytes) : Prop :=
  ∃ E w, (run (handle E) (drawRows k secret) w).1 = .ok rows ∧
    (run (handle E) (split secret n k) w).1 = .ok shares

/-- The choices of coefficients for which the shares at the positions `P` are those of `t`. -/
def Choices (secret : Bytes) (n k : Nat) (P : Finset Nat) (t : Nat → Bytes) : Set (List Bytes) :=
  {rows | ∃ shares, Splits secret n k rows shares ∧ ∀ i ∈ P, shares[i]? = some (t i)}

/-- The shares at the positions `P` tell nothing that separates the two secrets. -/
def Hides (n k : Nat) (P : Finset Nat) (secret secret' : Bytes) : Prop :=
  ∀ t, ((Choices secret n k P t).Nonempty ↔ (Choices secret' n k P t).Nonempty) ∧
    (Choices secret n k P t).ncard = (Choices secret' n k P t).ncard

section

variable {E : Env} {w : World} {k : Nat}

/-- A random source that starts with the bytes of `l`. -/
def tape (l : Bytes) : Rng := fun i => l.getD i 0

theorem take_tape (row rest : Bytes) : (tape (row ++ rest)).take row.length = row := by
  change (List.range row.length).map (tape (row ++ rest)) = row
  refine ext_getElem (by simp) fun i h1 h2 => ?_
  rw [getElem_map, getElem_range, tape, getD_append _ _ _ _ h2,
    getD_eq_getElem _ _ h2]

theorem skip_tape (row rest : Bytes) : (tape (row ++ rest)).skip row.length = tape rest := by
  funext i
  rw [Rng.skip, tape, tape, getD_append_right _ _ _ _ (Nat.le_add_right _ _),
    Nat.add_sub_cancel_left]

/-- Every row with a non-zero leading coefficient can be drawn. -/
theorem run_drawRow_tape (hk : 2 ≤ k) {row : Bytes} (hrow : IsRow k row) (rest : Bytes)
    (hw : w.rng = tape (row ++ rest)) :
    run (handle E) (drawRow k) w = (.ok row, { w with rng := tape rest }) := by
  have htake : w.rng.take (k - 1) = row := by rw [hw, ← hrow.1, take_tape]
  have hskip : w.rng.skip (k - 1) = tape rest := by rw [hw, ← hrow.1, skip_tape]
  unfold drawRow
  rw [if_pos (by omega), run_andThen, run_randBytes, htake, hskip]
  simp only [if_neg hrow.2]
  rfl

theorem run_drawRows_tape (hk : 2 ≤ k) {secret : Bytes} {rows : List Bytes}
    (hdrawn : Drawn k secret.length rows) (hw : w.rng = tape rows.flatten) :
    (run (handle E) (drawRows k secret) w).1 = .ok rows := by
  induction secret generalizing rows w with
  | nil =>
    rw [length_eq_zero_iff.mp hdrawn.1]
    rfl
  | cons s secret ih =>
    obtain ⟨row, rows, rfl⟩ := exists_cons_of_length_eq_add_one hdrawn.1
    obtain ⟨hrow, hall⟩ := forall_mem_cons.mp hdrawn.2
    have hrest := ih (w := { w with rng := tape rows.flatten })
      ⟨Nat.succ.inj hdrawn.1, hall⟩ rfl
    rw [drawRows, run_andThen, run_drawRow_tape hk hrow rows.flatten hw]
    simp only [run_andThen]
    generalize run (handle E) (drawRows k secret) { w with rng := tape rows.flatten } = o
      at hrest ⊢
    rw [hrest]
    rfl

/-- The choices, without the runs. -/
theorem mem_choices {secret : Bytes} {n : Nat} {P : Finset Nat} {t : Nat → Bytes}
    {rows : List Bytes} (hsecret : secret ≠ []) (hk : 2 ≤ k) (hkn : k ≤ n) (hn : n ≤ 255)
    (hP : ∀ i ∈ P, i < n) :
    rows ∈ Choices secret n k P t ↔ Drawn k secret.length rows ∧
      ∀ i ∈ P, point secret rows (UInt8.ofNat (i + 1)) = t i := by
  -- what `split` makes of the rows it draws
  have hsplit : ∀ E w, (run (handle E) (drawRows k secret) w).1 = .ok rows →
      (run (handle E) (split secret n k) w).1 =
        .ok ((List.range n).map fun i => point secret rows (UInt8.ofNat (i + 1))) := by
    intro E w hrows
    unfold split
    rw [if_neg hsecret, if_neg (by omega), if_neg (by omega), if_neg (by omega), run_andThen, hrows]
    rfl
  have hshare : ∀ i ∈ P, ((List.range n).map fun i => point secret rows (UInt8.ofNat (i + 1)))[i]? =
      some (point secret rows (UInt8.ofNat (i + 1))) := by
    intro i hi
    rw [List.getElem?_map, List.getElem?_range (hP i hi)]
    rfl
  constructor
  · rintro ⟨shares, ⟨E, w, hrows, hshares⟩, ht⟩
    obtain ⟨rows', r, hrun, hdrawn⟩ := run_drawRows (E := E) (Nat.le_of_lt hk) secret w
    rw [hsplit E w hrows] at hshares
    rw [hrun] at hrows
    cases hrows
    cases hshares
    exact ⟨hdrawn, fun i hi => Option.some.inj ((hshare i hi).symm.trans (ht i hi))⟩
  · rintro ⟨hdrawn, ht⟩
    have hrows := run_drawRows_tape (E := plainEnv) (w := ⟨∅, tape rows.flatten⟩) hk hdrawn rfl
    exact ⟨_, ⟨plainEnv, _, hrows, hsplit _ _ hrows⟩, fun i hi => by rw [hshare i hi, ht i hi]⟩

end

/-! ## Masking the coefficients -/

/-- The coefficients after the constant term, with those of `m` added. -/
noncomputable def shiftRow (m : GF[X]) (row : Bytes) : Bytes :=
  row.mapIdx fun i c => c ^^^ (m.coeff (i + 1)).byte

theorem shiftRow_shiftRow (m : GF[X]) (row : Bytes) : shiftRow m (shiftRow m row) = row := by
  unfold shiftRow
  rw [mapIdx_mapIdx]
  refine ext_getElem (by simp) fun i h1 h2 => ?_
  rw [getElem_mapIdx]
  simp only [Function.comp_apply, UInt8.xor_assoc, UInt8.xor_self, UInt8.xor_zero]

theorem getD_shiftRow (m : GF[X]) (row : Bytes) {i : Nat} (hi : i < row.length) :
    (⟨(shiftRow m row).getD i 0⟩ : GF) = ⟨row.getD i 0⟩ + m.coeff (i + 1) := by
  have hlen : i < (shiftRow m row).length := by rwa [shiftRow, length_mapIdx]
  rw [getD_eq_getElem _ _ hlen, getD_eq_getElem _ _ hi]
  simp only [shiftRow, getElem_mapIdx]
  rfl

theorem getD_map_mk (l : Bytes) (i : Nat) : (l.map GF.mk).getD i 0 = ⟨l.getD i 0⟩ :=
  getD_map ..

theorem polyOf_shiftRow {m : GF[X]} {row : Bytes} (hm : m.natDegree ≤ row.length) (c : UInt8) :
    polyOf (((c ^^^ (m.coeff 0).byte) :: shiftRow m row).map GF.mk) =
      polyOf ((c :: row).map GF.mk) + m := by
  refine Polynomial.ext fun i => ?_
  rw [coeff_add, coeff_polyOf, coeff_polyOf, getD_map_mk, getD_map_mk]
  cases i with
  | zero => rfl
  | succ i =>
    rw [getD_cons_succ, getD_cons_succ]
    by_cases hi : i < row.length
    · exact getD_shiftRow m row hi
    · have hlen : (shiftRow m row).length ≤ i := by
        rw [shiftRow, length_mapIdx]
        omega
      rw [getD_eq_default _ _ hlen, getD_eq_default _ _ (by omega),
        coeff_eq_zero_of_natDegree_lt (by omega), add_zero]

theorem isRow_shiftRow {k : Nat} (hk : 2 ≤ k) {m : GF[X]} {row : Bytes} (hm : m.coeff (k - 1) = 0)
    (h : IsRow k row) : IsRow k (shiftRow m row) := by
  have hlen : (shiftRow m row).length = k - 1 := by rw [shiftRow, length_mapIdx, h.1]
  have hindex : k - 1 - 1 + 1 = k - 1 := by omega
  refine ⟨hlen, ?_⟩
  have hlast : (shiftRow m row).getLast? = row.getLast? := by
    rw [List.getLast?_eq_getElem?, List.getLast?_eq_getElem?, hlen, h.1, shiftRow,
      List.getElem?_mapIdx, hindex, hm]
    change row[k - 1 - 1]?.map (fun c => c ^^^ 0) = _
    simp only [UInt8.xor_zero, Option.map_id']
  rw [hlast]
  exact h.2

/-- The masked coefficients for each byte, from those of one secret to those of another. -/
noncomputable def shiftRows (S : Finset GF) : Bytes → Bytes → List Bytes → List Bytes
  | s :: secret, s' :: secret', row :: rows =>
      shiftRow (mask S ⟨s ^^^ s'⟩) row :: shiftRows S secret secret' rows
  | _, _, _ => []

section

variable {S : Finset GF} {k : Nat}

theorem evalPoly_shiftRow (h0 : (0 : GF) ∉ S) {row : Bytes} (hS : S.card ≤ row.length) {x : UInt8}
    (hx : (⟨x⟩ : GF) ∈ S) (s s' : UInt8) :
    evalPoly (s' :: shiftRow (mask S ⟨s ^^^ s'⟩) row) x = evalPoly (s :: row) x := by
  have hconst : s' = s ^^^ ((mask S (⟨s ^^^ s'⟩ : GF)).coeff 0).byte := by
    rw [coeff_zero_eq_eval_zero, eval_zero_mask h0, ← UInt8.xor_assoc, UInt8.xor_self,
      UInt8.zero_xor]
  refine congrArg GF.byte ?_
  rw [mk_evalPoly, mk_evalPoly]
  nth_rewrite 1 [hconst]
  rw [polyOf_shiftRow (natDegree_mask_le.trans hS), eval_add, eval_mask hx, add_zero]

variable {secret secret' : Bytes} {rows : List Bytes}

/-- Induction over two secrets of one length and the coefficients drawn for them. -/
@[elab_as_elim]
theorem drawn_induction {motive : Bytes → Bytes → List Bytes → Prop} (nil : motive [] [] [])
    (cons : ∀ s s' row secret secret' rows, IsRow k row → motive secret secret' rows →
      motive (s :: secret) (s' :: secret') (row :: rows))
    (hlen : secret.length = secret'.length) (hdrawn : Drawn k secret.length rows) :
    motive secret secret' rows := by
  induction secret generalizing secret' rows with
  | nil =>
    rw [length_eq_zero_iff.mp hdrawn.1, length_eq_zero_iff.mp hlen.symm]
    exact nil
  | cons s secret ih =>
    obtain ⟨s', secret', rfl⟩ := exists_cons_of_length_eq_add_one hlen.symm
    obtain ⟨row, rows, rfl⟩ := exists_cons_of_length_eq_add_one hdrawn.1
    obtain ⟨hrow, hall⟩ := forall_mem_cons.mp hdrawn.2
    exact cons _ _ _ _ _ _ hrow (ih (Nat.succ.inj hlen) ⟨Nat.succ.inj hdrawn.1, hall⟩)

variable (hlen : secret.length = secret'.length) (hdrawn : Drawn k secret.length rows)

include hlen hdrawn

theorem point_shiftRows (h0 : (0 : GF) ∉ S) (hS : S.card + 1 ≤ k) {x : UInt8}
    (hx : (⟨x⟩ : GF) ∈ S) :
    point secret' (shiftRows S secret secret' rows) x = point secret rows x := by
  refine congrArg (x :: ·) (drawn_induction rfl ?_ hlen hdrawn)
  intro s s' row secret secret' rows hrow ih
  have hle : S.card ≤ row.length := by rw [hrow.1]; omega
  rw [shiftRows, zipWith_cons_cons, zipWith_cons_cons, evalPoly_shiftRow h0 hle hx, ih]

theorem drawn_shiftRows (hS : S.card + 2 ≤ k) :
    Drawn k secret'.length (shiftRows S secret secret' rows) := by
  refine drawn_induction ⟨rfl, fun _ h => absurd h not_mem_nil⟩ ?_ hlen hdrawn
  intro s s' row secret secret' rows hrow ih
  -- the mask does not reach the leading coefficient
  have hlead : (mask S (⟨s ^^^ s'⟩ : GF)).coeff (k - 1) = 0 :=
    coeff_eq_zero_of_natDegree_lt (natDegree_mask_le.trans_lt (by omega))
  rw [shiftRows]
  exact ⟨congrArg (· + 1) ih.1,
    forall_mem_cons.mpr ⟨isRow_shiftRow (by omega) hlead hrow, ih.2⟩⟩

theorem shiftRows_shiftRows :
    shiftRows S secret' secret (shiftRows S secret secret' rows) = rows := by
  refine drawn_induction rfl ?_ hlen hdrawn
  intro s s' row secret secret' rows _ ih
  rw [shiftRows, shiftRows, UInt8.xor_comm s' s, shiftRow_shiftRow, ih]

end

/-! ## The nodes of a set of positions -/

/-- The x-coordinates of the shares at the positions `P`. -/
def nodes (P : Finset Nat) : Finset GF := P.image fun i => ⟨UInt8.ofNat (i + 1)⟩

section

variable {P : Finset Nat} {n : Nat}

theorem toNat_node {i : Nat} (hi : i < n) (hn : n ≤ 255) : (UInt8.ofNat (i + 1)).toNat = i + 1 := by
  rw [UInt8.toNat_ofNat']
  omega

theorem zero_notMem_nodes (hP : ∀ i ∈ P, i < n) (hn : n ≤ 255) : (0 : GF) ∉ nodes P := by
  intro h
  obtain ⟨i, hi, heq⟩ := Finset.mem_image.mp h
  have hnat := congrArg (fun a : GF => a.byte.toNat) heq
  change (UInt8.ofNat (i + 1)).toNat = 0 at hnat
  rw [toNat_node (hP i hi) hn] at hnat
  omega

theorem card_nodes (hP : ∀ i ∈ P, i < n) (hn : n ≤ 255) : (nodes P).card = P.card := by
  refine Finset.card_image_of_injOn fun i hi j hj heq => ?_
  have hnat := congrArg (fun a : GF => a.byte.toNat) heq
  change (UInt8.ofNat (i + 1)).toNat = (UInt8.ofNat (j + 1)).toNat at hnat
  rw [toNat_node (hP i hi) hn, toNat_node (hP j hj) hn] at hnat
  omega

end

/-! ## One position short of the threshold -/

/-- The leading coefficient that the mask from `s` to `s'` takes away. -/
noncomputable def lead (S : Finset GF) (k : Nat) (s s' : UInt8) : UInt8 :=
  if s = s' then 1 else ((mask S (⟨s ^^^ s'⟩ : GF)).coeff (k - 1)).byte

/-- Coefficients that are zero up to the leading one. -/
def topRow (k : Nat) (c : UInt8) : Bytes := List.replicate (k - 2) 0 ++ [c]

section

variable {S : Finset GF} {k : Nat}

theorem lead_ne_zero (h0 : (0 : GF) ∉ S) (hS : S.card + 1 = k) (s s' : UInt8) :
    lead S k s s' ≠ 0 := by
  unfold lead
  split_ifs with h
  · decide
  · have hd : (⟨s ^^^ s'⟩ : GF) ≠ 0 := GF.mk_ne_zero (fun hx => h (UInt8.xor_eq_zero_iff.mp hx))
    have hcard : k - 1 = S.card := by omega
    rw [hcard]
    exact fun hb => coeff_card_mask h0 hd (GF.ext hb)

theorem isRow_topRow (hk : 2 ≤ k) {c : UInt8} (hc : c ≠ 0) : IsRow k (topRow k c) := by
  constructor
  · rw [topRow, length_append, length_replicate, length_singleton]
    omega
  · rw [topRow, List.getLast?_concat]
    exact fun h => hc (Option.some.inj h)

theorem getD_last {row : Bytes} (hk : 2 ≤ k) (h : IsRow k row) : row.getD (k - 2) 0 ≠ 0 := by
  have hlt : k - 2 < row.length := by rw [h.1]; omega
  intro hzero
  refine h.2 ?_
  have hindex : row.length - 1 = k - 2 := by rw [h.1]; omega
  rw [List.getLast?_eq_getElem?, hindex, List.getElem?_eq_getElem hlt, ← hzero,
    getD_eq_getElem _ _ hlt]

/-- No polynomial with the constant term `s'` and a leading coefficient has the values on `S`
    of the one with the constant term `s` whose leading coefficient the mask takes away. -/
theorem const_eq (h0 : (0 : GF) ∉ S) (hk : 2 ≤ k) (hS : S.card + 1 = k) {s s' : UInt8} {row : Bytes}
    (hrow : IsRow k row)
    (heval : ∀ x, (⟨x⟩ : GF) ∈ S →
      evalPoly (s :: topRow k (lead S k s s')) x = evalPoly (s' :: row) x) : s = s' := by
  by_contra hne
  have htop := isRow_topRow hk (lead_ne_zero h0 hS s s')
  have hdeg : ∀ (c : UInt8) {r : Bytes}, IsRow k r →
      (polyOf ((c :: r).map GF.mk)).degree < (S.card + 1 : ℕ) := by
    intro c r hr
    have h := degree_polyOf_lt ((c :: r).map GF.mk)
    have hlen : ((c :: r).map GF.mk).length = S.card + 1 := by
      rw [length_map, length_cons, hr.1]
      omega
    rwa [hlen] at h
  have hconst : ∀ (c : UInt8) (r : Bytes), (polyOf ((c :: r).map GF.mk)).eval 0 = ⟨c⟩ := by
    intro c r
    rw [map_cons, eval_polyOf_cons, zero_mul, add_zero]
  have hsame : ∀ x ∈ S, (polyOf ((s :: topRow k (lead S k s s')).map GF.mk)).eval x =
      (polyOf ((s' :: row).map GF.mk)).eval x := by
    intro x hx
    have h := congrArg GF.mk (heval x.byte hx)
    rwa [mk_evalPoly, mk_evalPoly] at h
  have hmask := eq_add_mask h0 (hdeg s htop) (hdeg s' hrow) hsame
  rw [hconst, hconst, mk_sub, UInt8.xor_comm s' s] at hmask
  -- compare the leading coefficients
  have hcoeff := congrArg (fun p : GF[X] => p.coeff (k - 1)) hmask
  have hindex : k - 1 = k - 2 + 1 := by omega
  have hlead : (topRow k (lead S k s s')).getD (k - 2) 0 =
      ((mask S (⟨s ^^^ s'⟩ : GF)).coeff (k - 1)).byte := by
    have hlen : (List.replicate (k - 2) (0 : UInt8)).length ≤ k - 2 := by rw [length_replicate]
    rw [topRow, getD_append_right _ _ _ _ hlen, length_replicate, Nat.sub_self,
      getD_cons_zero, lead, if_neg hne]
  simp only [coeff_add, coeff_polyOf, getD_map_mk] at hcoeff
  rw [hindex, getD_cons_succ, getD_cons_succ, hlead, ← hindex] at hcoeff
  have hcancel : (⟨row.getD (k - 2) 0⟩ : GF) = 0 := hcoeff.trans (GF.ext (UInt8.xor_self))
  exact getD_last hk hrow (congrArg GF.byte hcancel)

/-- The coefficients whose shares one secret can give and no other. -/
noncomputable def topRows (S : Finset GF) (k : Nat) (secret secret' : Bytes) : List Bytes :=
  List.zipWith (fun s s' => topRow k (lead S k s s')) secret secret'

theorem drawn_topRows (h0 : (0 : GF) ∉ S) (hk : 2 ≤ k) (hS : S.card + 1 = k)
    {secret secret' : Bytes} (hlen : secret.length = secret'.length) :
    Drawn k secret.length (topRows S k secret secret') := by
  refine ⟨by rw [topRows, length_zipWith, hlen, min_self], fun row hrow => ?_⟩
  obtain ⟨s, s', rfl⟩ : ∃ s s', row = topRow k (lead S k s s') := by
    obtain ⟨i, hi, rfl⟩ := getElem_of_mem hrow
    simp only [topRows, getElem_zipWith]
    exact ⟨_, _, rfl⟩
  exact isRow_topRow hk (lead_ne_zero h0 hS s s')

theorem secret_eq (h0 : (0 : GF) ∉ S) (hk : 2 ≤ k) (hS : S.card + 1 = k) {secret secret' : Bytes}
    {rows : List Bytes} (hlen : secret.length = secret'.length)
    (hdrawn : Drawn k secret'.length rows)
    (hpoint : ∀ x, (⟨x⟩ : GF) ∈ S →
      point secret (topRows S k secret secret') x = point secret' rows x) : secret = secret' := by
  revert hpoint
  have hdrawn : Drawn k secret.length rows := hlen ▸ hdrawn
  refine drawn_induction (fun _ => rfl) ?_ hlen hdrawn
  intro s s' row secret secret' rows hrow ih hpoint
  have hcons : ∀ x, (⟨x⟩ : GF) ∈ S →
      evalPoly (s :: topRow k (lead S k s s')) x = evalPoly (s' :: row) x ∧
        point secret (topRows S k secret secret') x = point secret' rows x := by
    intro x hx
    obtain ⟨hhead, htail⟩ := List.cons.inj (List.cons.inj (hpoint x hx)).2
    exact ⟨hhead, congrArg (x :: ·) htail⟩
  rw [const_eq h0 hk hS hrow fun x hx => (hcons x hx).1, ih fun x hx => (hcons x hx).2]

end

/-! ## Secrecy -/

section

variable {n k : Nat} {P : Finset Nat} {secret secret' : Bytes}

theorem ne_nil_of_length (hsecret : secret ≠ []) (hlen : secret.length = secret'.length) :
    secret' ≠ [] := by
  rw [← length_pos_iff, ← hlen, length_pos_iff]
  exact hsecret

variable (hsecret : secret ≠ []) (hlen : secret.length = secret'.length)
  (hk : 2 ≤ k) (hkn : k ≤ n) (hn : n ≤ 255) (hP : ∀ i ∈ P, i < n)

include hsecret hlen hk hkn hn hP

theorem shiftRows_mem_choices (hfew : P.card + 2 ≤ k)
    {t : Nat → Bytes} {rows : List Bytes} (h : rows ∈ Choices secret n k P t) :
    shiftRows (nodes P) secret secret' rows ∈ Choices secret' n k P t := by
  have hsecret' := ne_nil_of_length hsecret hlen
  have h0 := zero_notMem_nodes hP hn
  have hcard := card_nodes hP hn
  rw [mem_choices hsecret hk hkn hn hP] at h
  rw [mem_choices hsecret' hk hkn hn hP]
  refine ⟨drawn_shiftRows hlen h.1 (by omega), fun i hi => ?_⟩
  rw [point_shiftRows hlen h.1 h0 (by omega) (Finset.mem_image_of_mem _ hi), h.2 i hi]

/-- Two positions short of the threshold, the shares tell nothing. -/
theorem hides_of_few (hfew : P.card + 2 ≤ k) : Hides n k P secret secret' := by
  have hsecret' := ne_nil_of_length hsecret hlen
  intro t
  have hto : ∀ rows ∈ Choices secret n k P t,
      shiftRows (nodes P) secret secret' rows ∈ Choices secret' n k P t :=
    fun _ => shiftRows_mem_choices hsecret hlen hk hkn hn hP hfew
  have hback : ∀ rows ∈ Choices secret' n k P t,
      shiftRows (nodes P) secret' secret rows ∈ Choices secret n k P t :=
    fun _ => shiftRows_mem_choices hsecret' hlen.symm hk hkn hn hP hfew
  have hdrawn : ∀ rows ∈ Choices secret n k P t, Drawn k secret.length rows :=
    fun _ h => ((mem_choices hsecret hk hkn hn hP).mp h).1
  have hdrawn' : ∀ rows ∈ Choices secret' n k P t, Drawn k secret'.length rows :=
    fun _ h => ((mem_choices hsecret' hk hkn hn hP).mp h).1
  refine ⟨⟨fun ⟨rows, h⟩ => ⟨_, hto rows h⟩, fun ⟨rows, h⟩ => ⟨_, hback rows h⟩⟩, ?_⟩
  refine Set.ncard_congr (fun rows _ => shiftRows (nodes P) secret secret' rows) hto ?_ ?_
  · intro a b ha hb heq
    rw [← shiftRows_shiftRows (S := nodes P) hlen (hdrawn a ha), heq,
      shiftRows_shiftRows hlen (hdrawn b hb)]
  · intro rows h
    exact ⟨_, hback rows h, shiftRows_shiftRows hlen.symm (hdrawn' rows h)⟩

/-- One position short of the threshold, two secrets are told apart. -/
theorem eq_of_hides (hcard : P.card + 1 = k) (h : Hides n k P secret secret') :
    secret = secret' := by
  have hsecret' := ne_nil_of_length hsecret hlen
  have h0 := zero_notMem_nodes hP hn
  have hS : (nodes P).card + 1 = k := by rw [card_nodes hP hn, hcard]
  have htop := drawn_topRows h0 hk hS hlen
  let t := fun i => point secret (topRows (nodes P) k secret secret') (UInt8.ofNat (i + 1))
  have hmem : topRows (nodes P) k secret secret' ∈ Choices secret n k P t :=
    (mem_choices hsecret hk hkn hn hP).mpr ⟨htop, fun _ _ => rfl⟩
  obtain ⟨rows, hrows⟩ := (h t).1.mp ⟨_, hmem⟩
  obtain ⟨hdrawn, hpoint⟩ := (mem_choices hsecret' hk hkn hn hP).mp hrows
  refine secret_eq h0 hk hS hlen hdrawn fun x hx => ?_
  obtain ⟨i, hi, heq⟩ := Finset.mem_image.mp hx
  have hx' : UInt8.ofNat (i + 1) = x := congrArg GF.byte heq
  rw [← hx']
  exact (hpoint i hi).symm

/-- At most k - 1 shares hide the secret exactly if there are at most k - 2 of them, or there
    is nothing to hide. -/
theorem hides_iff (hcard : P.card ≤ k - 1) :
    Hides n k P secret secret' ↔ P.card ≤ k - 2 ∨ secret = secret' := by
  constructor
  · intro h
    by_cases hfew : P.card ≤ k - 2
    · exact Or.inl hfew
    · exact Or.inr (eq_of_hides hsecret hlen hk hkn hn hP (by omega) h)
  · rintro (hfew | rfl)
    · exact hides_of_few hsecret hlen hk hkn hn hP (by omega)
    · exact fun _ => ⟨Iff.rfl, rfl⟩

end

/-- One of three shares with threshold three tells nothing. -/
theorem hides_one_of_three : Hides 3 3 {1} [0, 7] [1, 200] :=
  (hides_iff (by decide) (by decide) (by decide) (by decide) (by decide) (by decide)
    (by decide)).mpr (Or.inl (by decide))

/-- One of two shares with threshold two: the share of a zero byte at x = 1 is never zero, that
    of a one can be. -/
theorem not_hides_one_of_two : ¬Hides 2 2 {0} [0] [1] := by
  intro h
  have heq := eq_of_hides (by decide) (by decide) (by decide) (by decide) (by decide) (by decide)
    (by decide) h
  exact absurd heq (by decide)

end Tuck.Shamir
