/-
  The `kuznyechik` package, GOST R 34.12-2015, and that it computes Kuznyechik as RFC 7801
  defines it.

  The package computes a round as a sum of sixteen entries of tables that hold the linear
  transformation of every byte at every place. The tables are functions here. The specification
  is a product of permutations of the 16-byte strings: S replaces every byte, R shifts in the sum
  of the bytes with fixed coefficients, L = R^16, and X adds a key. Sums are exclusive ors, and L
  keeps them. A string is the sum of its single bytes, so the sum of the table entries of a block
  is L of the whole block (`put_sumEntries`), and the rounds follow.
-/
import Tuck.Base.Words
import Tuck.Base.Text

namespace Tuck.Kuznyechik

open Tuck.Base

/-! ## Bytes -/

def linCoef : Vector UInt8 16 :=
  #v[148, 32, 133, 16, 194, 192, 1, 251, 1, 192, 194, 16, 133, 32, 148, 1]

def pi : Bytes := [
  252, 238, 221, 17, 207, 110, 49, 22, 251, 196, 250, 218, 35, 197, 4, 77, 233, 119, 240, 219, 147,
  46, 153, 186, 23, 54, 241, 187, 20, 205, 95, 193, 249, 24, 101, 90, 226, 92, 239, 33, 129, 28, 60,
  66, 139, 1, 142, 79, 5, 132, 2, 174, 227, 106, 143, 160, 6, 11, 237, 152, 127, 212, 211, 31, 235,
  52, 44, 81, 234, 200, 72, 171, 242, 42, 104, 162, 253, 58, 206, 204, 181, 112, 14, 86, 8, 12, 118,
  18, 191, 114, 19, 71, 156, 183, 93, 135, 21, 161, 150, 41, 16, 123, 154, 199, 243, 145, 120, 111,
  157, 158, 178, 177, 50, 117, 25, 61, 255, 53, 138, 126, 109, 84, 198, 128, 195, 189, 13, 87, 223,
  245, 36, 169, 62, 168, 67, 201, 215, 121, 214, 246, 124, 34, 185, 3, 224, 15, 236, 222, 122, 148,
  176, 188, 220, 232, 40, 80, 78, 51, 10, 74, 167, 151, 96, 115, 30, 0, 98, 68, 26, 184, 56, 130,
  100, 159, 38, 65, 173, 69, 70, 146, 39, 94, 85, 47, 140, 163, 165, 125, 105, 213, 149, 59, 7, 88,
  179, 64, 134, 172, 29, 247, 48, 55, 107, 228, 136, 217, 231, 137, 225, 27, 131, 73, 76, 63, 248,
  254, 141, 83, 170, 144, 202, 216, 133, 97, 32, 113, 103, 164, 45, 43, 9, 91, 203, 155, 37, 208,
  190, 229, 108, 82, 89, 166, 116, 210, 230, 244, 180, 192, 209, 102, 175, 194, 57, 75, 99, 182]

def piInv : Bytes := [
  165, 45, 50, 143, 14, 48, 56, 192, 84, 230, 158, 57, 85, 126, 82, 145, 100, 3, 87, 90, 28, 96, 7,
  24, 33, 114, 168, 209, 41, 198, 164, 63, 224, 39, 141, 12, 130, 234, 174, 180, 154, 99, 73, 229,
  66, 228, 21, 183, 200, 6, 112, 157, 65, 117, 25, 201, 170, 252, 77, 191, 42, 115, 132, 213, 195,
  175, 43, 134, 167, 177, 178, 91, 70, 211, 159, 253, 212, 15, 156, 47, 155, 67, 239, 217, 121, 182,
  83, 127, 193, 240, 35, 231, 37, 94, 181, 30, 162, 223, 166, 254, 172, 34, 249, 226, 74, 188, 53,
  202, 238, 120, 5, 107, 81, 225, 89, 163, 242, 113, 86, 17, 106, 137, 148, 101, 140, 187, 119, 60,
  123, 40, 171, 210, 49, 222, 196, 95, 204, 207, 118, 44, 184, 216, 46, 54, 219, 105, 179, 20, 149,
  190, 98, 161, 59, 22, 102, 233, 92, 108, 109, 173, 55, 97, 75, 185, 227, 186, 241, 160, 133, 131,
  218, 71, 197, 176, 51, 250, 150, 111, 110, 194, 246, 80, 255, 93, 169, 142, 23, 27, 151, 125, 236,
  88, 247, 31, 251, 124, 9, 13, 122, 103, 69, 135, 220, 232, 79, 29, 78, 4, 235, 248, 243, 62, 61,
  189, 138, 136, 221, 205, 11, 19, 152, 2, 147, 128, 144, 208, 36, 52, 203, 237, 244, 206, 153, 16,
  68, 64, 146, 58, 1, 38, 18, 26, 72, 104, 245, 129, 139, 199, 214, 32, 10, 8, 0, 76, 215, 116]

/-- The entry of a byte. -/
def entry (t : Bytes) (v : UInt8) : UInt8 := t.getD v.toNat 0

/-- The loop of `gfMul`, for the turns that are left. -/
def gfLoop : Nat → UInt8 → UInt8 → UInt8 → UInt8
  | 0, r, _, _ => r
  | n + 1, r, a, b =>
      gfLoop n (if b &&& 1 ≠ 0 then r ^^^ a else r)
        (if a &&& 0x80 ≠ 0 then (a <<< 1) ^^^ 0xC3 else a <<< 1) (b >>> 1)

/-- `gfMul`: multiplication modulo x^8 + x^7 + x^6 + x + 1. -/
def gfMul (a b : UInt8) : UInt8 := gfLoop 8 0 a b

/-! ## The linear transformation -/

/-- `[16]byte`. -/
abbrev Octets := Vector UInt8 16

def linear (b : Octets) : UInt8 :=
  (List.finRange 16).foldl (fun r k => r ^^^ gfMul linCoef[k] b[k]) 0

/-- One turn of `lTransform`. -/
def shiftIn (x : Octets) : Octets :=
  .ofFn fun i => if i.val = 0 then linear x else x[i.val - 1]

def lTransform (x : Octets) : Octets := shiftIn^[16] x

/-- The bytes one place to the left, the first one last. -/
def rotate (x : Octets) : Octets := .ofFn fun i => if h : i.val < 15 then x[i.val + 1] else x[0]

/-- One turn of `lInverse`. -/
def shiftOut (x : Octets) : Octets := (rotate x).set 15 (linear (rotate x))

def lInverse (x : Octets) : Octets := shiftOut^[16] x

/-- All zero but for one byte. -/
def single (i : Fin 16) (v : UInt8) : Octets := .ofFn fun j => if j = i then v else 0

/-! ## Blocks -/

@[ext] structure Block where
  w0 : UInt64
  w1 : UInt64
  deriving DecidableEq

def toBlock (b : Octets) : Block :=
  ⟨be64 fun i => b.toList.getD i 0, be64 fun i => b.toList.getD (8 + i) 0⟩

def Block.put (b : Block) : Octets :=
  .ofFn fun i => if i.val < 8 then byteAt b.w0 i else byteAt b.w1 (i - 8)

def Block.xor (b o : Block) : Block := ⟨b.w0 ^^^ o.w0, b.w1 ^^^ o.w1⟩

structure Tables where
  enc : Fin 16 → UInt8 → Block
  dec : Fin 16 → UInt8 → Block
  c : Nat → Block

def getTables : Tables where
  enc i v := toBlock (lTransform (single i (entry pi v)))
  dec i v := toBlock (lInverse (single i v))
  c i := toBlock (lTransform (single 15 (UInt8.ofNat (i + 1))))

/-- The two loops of `lsx` and `invRound`: the sum of the entries of all bytes. -/
def sumEntries (t : Fin 16 → UInt8 → Block) (x : Block) : Block :=
  (List.finRange 8).foldl (fun r (i : Fin 8) => r.xor (t (i.natAdd 8) (byteAt x.w1 i)))
    ((List.finRange 8).foldl (fun r (i : Fin 8) => r.xor (t (i.castAdd 8) (byteAt x.w0 i))) ⟨0, 0⟩)

def Tables.lsx (t : Tables) (x : Block) : Block := sumEntries t.enc x

def Tables.invRound (t : Tables) (x : Block) : Block :=
  toBlock ((sumEntries t.dec x).put.map (entry piInv))

/-! ## The cipher -/

structure Kuz where
  t : Tables
  rk : Vector Block 10

/-- `[16]byte(s[n:n+16])`. -/
def octets (s : Bytes) (n : Nat) : Octets := .ofFn fun i => s.getD (n + i) 0

/-- The pair `a1, a0` of `NewCipher` after the turns `1` to `i` of its outer loop. -/
def feistel (t : Tables) (a1 a0 : Block) : Nat → Block × Block
  | 0 => (a1, a0)
  | i + 1 => (List.range 8).foldl
      (fun p j => ((t.lsx (p.1.xor (t.c (8 * i + j)))).xor p.2, p.1)) (feistel t a1 a0 i)

def newCipher (key : Bytes) : Except Bytes Kuz :=
  if key.length ≠ 32 then
    .error (ascii "kuznyechik: invalid key size " ++ decimal key.length ++ ascii ", want 32")
  else
    let t := getTables
    let a := feistel t (toBlock (octets key 0)) (toBlock (octets key 16))
    .ok ⟨t, .ofFn fun r => if r.val % 2 = 0 then (a (r / 2)).1 else (a (r / 2)).2⟩

/-- The panic of `Encrypt` and `Decrypt`. -/
def notFull : Bytes := ascii "kuznyechik: input or output not full block"

/-- The frame of `Encrypt` and `Decrypt`: the first block of `src` goes, transformed, to that of
    `dst`. -/
def onBlock (f : Block → Block) (dst src : Bytes) : Except Bytes Bytes :=
  if src.length < 16 ∨ dst.length < 16 then .error notFull
  else .ok ((f (toBlock (octets src 0))).put.toList ++ dst.drop 16)

def Kuz.encryptBlock (k : Kuz) (x : Block) : Block :=
  ((List.finRange 9).foldl (fun x r => k.t.lsx (x.xor k.rk[r.castSucc])) x).xor k.rk[9]

def Kuz.decryptBlock (k : Kuz) (x : Block) : Block :=
  ((List.finRange 9).foldr (fun r x => k.t.invRound (x.xor k.rk[r.succ])) x).xor k.rk[0]

/-- `Encrypt`: what `dst` holds then. -/
def Kuz.encrypt (k : Kuz) : Bytes → Bytes → Except Bytes Bytes := onBlock k.encryptBlock

def Kuz.decrypt (k : Kuz) : Bytes → Bytes → Except Bytes Bytes := onBlock k.decryptBlock

/-! ## Sums -/

open List

/-- The sum of two strings. -/
def add (x y : Octets) : Octets := .zipWith (· ^^^ ·) x y

variable {i : Nat}

@[simp] theorem getElem_add (x y : Octets) (hi : i < 16) : (add x y)[i] = x[i] ^^^ y[i] := by
  unfold add
  rw [Vector.getElem_zipWith]

theorem add_add_cancel (x y : Octets) : add (add x y) y = x := by
  refine Vector.ext fun i hi => ?_
  rw [getElem_add, getElem_add, UInt8.xor_assoc, UInt8.xor_self, UInt8.xor_zero]

def Additive (f : Octets → Octets) : Prop := ∀ x y, f (add x y) = add (f x) (f y)

variable {f : Octets → Octets}

theorem Additive.iterate (h : Additive f) (n : Nat) : Additive f^[n] := by
  induction n with
  | zero => exact fun _ _ => rfl
  | succ n ih =>
    intro x y
    rw [Function.iterate_succ_apply, h, ih]
    rfl

/-- The sum of values at places is kept. -/
theorem Additive.foldl (h : Additive f) {α : Type} (g : α → Octets)
    (z : Octets) (l : List α) :
    f (l.foldl (fun r i => add r (g i)) z) = l.foldl (fun r i => add r (f (g i))) (f z) :=
  (foldl_hom f fun r i => (h r (g i)).symm).symm

theorem Additive.zero (h : Additive f) :
    f (.replicate 16 0) = .replicate 16 0 := by
  have hself (x : Octets) : add x x = .replicate 16 0 := by
    refine Vector.ext fun i hi => ?_
    simp
  have hsum := h (.replicate 16 0) (.replicate 16 0)
  rwa [hself, hself] at hsum

theorem gfLoop_xor (n : Nat) (r r' a b b' : UInt8) :
    gfLoop n (r ^^^ r') a (b ^^^ b') = gfLoop n r a b ^^^ gfLoop n r' a b' := by
  induction n generalizing r r' a b b' with
  | zero => rfl
  | succ n ih =>
    have hlow (c : UInt8) : c &&& 1 = 0 ∨ c &&& 1 = 1 := by
      have h : ∀ n < 256, UInt8.ofNat n &&& 1 = 0 ∨ UInt8.ofNat n &&& 1 = 1 := by decide +kernel
      simpa using h c.toNat c.toNat_lt
    have hand : (b ^^^ b') &&& 1 = (b &&& 1) ^^^ (b' &&& 1) := by
      apply UInt8.eq_of_toBitVec_eq
      ext i hi
      simp [Bool.and_xor_distrib_right]
    have hstep : (if (b ^^^ b') &&& 1 ≠ 0 then (r ^^^ r') ^^^ a else r ^^^ r') =
        (if b &&& 1 ≠ 0 then r ^^^ a else r) ^^^ (if b' &&& 1 ≠ 0 then r' ^^^ a else r') := by
      rw [hand]
      obtain hb | hb := hlow b <;> obtain hb' | hb' := hlow b' <;> rw [hb, hb']
      · rfl
      · exact UInt8.xor_assoc r r' a
      · exact (UInt8.xor_assoc r r' a).trans
          ((congrArg (r ^^^ ·) (UInt8.xor_comm r' a)).trans (UInt8.xor_assoc r a r').symm)
      · change r ^^^ r' = (r ^^^ a) ^^^ (r' ^^^ a)
        rw [UInt8.xor_assoc, ← UInt8.xor_assoc a, UInt8.xor_comm a r', UInt8.xor_assoc,
          UInt8.xor_self, UInt8.xor_zero]
    rw [gfLoop, hstep, UInt8.shiftRight_xor, ih]
    rfl

theorem gfMul_xor (a b b' : UInt8) : gfMul a (b ^^^ b') = gfMul a b ^^^ gfMul a b' :=
  gfLoop_xor 8 0 0 a b b'

theorem linear_add (x y : Octets) : linear (add x y) = linear x ^^^ linear y := by
  have hfold (l : List (Fin 16)) (r r' : UInt8) :
      l.foldl (fun r k => r ^^^ gfMul linCoef[k] (add x y)[k]) (r ^^^ r') =
        l.foldl (fun r k => r ^^^ gfMul linCoef[k] x[k]) r ^^^
          l.foldl (fun r k => r ^^^ gfMul linCoef[k] y[k]) r' := by
    induction l generalizing r r' with
    | nil => rfl
    | cons k l ih =>
      simp only [foldl_cons]
      rw [← ih]
      congr 1
      simp only [Fin.getElem_fin, getElem_add, gfMul_xor]
      ac_rfl
  exact hfold _ 0 0

theorem getElem_shiftIn (x : Octets) (hi : i < 16) :
    (shiftIn x)[i] = if i = 0 then linear x else x[i - 1] := by
  unfold shiftIn
  rw [Vector.getElem_ofFn]

theorem getElem_rotate (x : Octets) (hi : i < 16) :
    (rotate x)[i] = if h : i < 15 then x[i + 1] else x[0] := by
  unfold rotate
  rw [Vector.getElem_ofFn]

theorem additive_shiftIn : Additive shiftIn := by
  intro x y
  refine Vector.ext fun i hi => ?_
  simp only [getElem_shiftIn, getElem_add, linear_add]
  split_ifs <;> rfl

/-! ## The inverse of a shift -/

theorem finRange_sixteen :
    List.finRange 16 = [0, 1, 2, 3, 4, 5, 6, 7, 8, 9, 10, 11, 12, 13, 14, 15] := rfl

theorem linear_eq (x : Octets) : linear x = gfMul 148 x[0] ^^^ gfMul 32 x[1] ^^^ gfMul 133 x[2] ^^^
    gfMul 16 x[3] ^^^ gfMul 194 x[4] ^^^ gfMul 192 x[5] ^^^ gfMul 1 x[6] ^^^ gfMul 251 x[7] ^^^
    gfMul 1 x[8] ^^^ gfMul 192 x[9] ^^^ gfMul 194 x[10] ^^^ gfMul 16 x[11] ^^^ gfMul 133 x[12] ^^^
    gfMul 32 x[13] ^^^ gfMul 148 x[14] ^^^ gfMul 1 x[15] := by
  unfold linear
  rw [finRange_sixteen]
  simp only [foldl_cons, foldl_nil, UInt8.zero_xor]
  rfl

/-- The last coefficient is 1. -/
theorem linear_set (x : Octets) (v : UInt8) : linear (x.set 15 v) = linear x ^^^ (x[15] ^^^ v) := by
  have hone (b : UInt8) : gfMul 1 b = b := by
    have h : ∀ n < 256, gfMul 1 (UInt8.ofNat n) = UInt8.ofNat n := by decide +kernel
    simpa using h b.toNat b.toNat_lt
  have hcancel (a b : UInt8) : a ^^^ b ^^^ (b ^^^ v) = a ^^^ v := by
    rw [UInt8.xor_assoc, ← UInt8.xor_assoc b, UInt8.xor_self, UInt8.zero_xor]
  rw [linear_eq, linear_eq, hone x[15], hcancel, Vector.getElem_set_self, hone v]
  simp only [Vector.getElem_set, Nat.reduceEqDiff, if_false]

theorem shiftOut_shiftIn (x : Octets) : shiftOut (shiftIn x) = x := by
  have hrotate : rotate (shiftIn x) = x.set 15 (linear x) := by
    refine Vector.ext fun i hi => ?_
    rw [getElem_rotate, Vector.getElem_set]
    by_cases h : i < 15
    · rw [dif_pos h, getElem_shiftIn, if_neg (by omega), if_neg (by omega)]
      rfl
    · rw [dif_neg h, getElem_shiftIn, if_pos rfl, if_pos (by omega)]
  unfold shiftOut
  rw [hrotate, linear_set, ← UInt8.xor_assoc, UInt8.xor_comm _ (linear x), ← UInt8.xor_assoc,
    UInt8.xor_self, UInt8.zero_xor]
  simp

theorem shiftIn_shiftOut (x : Octets) : shiftIn (shiftOut x) = x := by
  have hlinear : linear (shiftOut x) = x[0] := by
    unfold shiftOut
    rw [linear_set, getElem_rotate, dif_neg (by decide), ← UInt8.xor_assoc, UInt8.xor_comm _ x[0],
      UInt8.xor_assoc, UInt8.xor_self, UInt8.xor_zero]
  refine Vector.ext fun i hi => ?_
  rw [getElem_shiftIn]
  split_ifs with h
  · simp only [hlinear, h]
  · unfold shiftOut
    rw [Vector.getElem_set_ne _ _ (by omega), getElem_rotate, dif_pos (by omega)]
    congr 1
    omega

theorem Additive.of_inverse {g : Octets → Octets} (hf : Additive f) (hfg : ∀ x, f (g x) = x)
    (hgf : ∀ x, g (f x) = x) : Additive g := by
  intro x y
  rw [← hgf (add (g x) (g y)), hf, hfg, hfg]

/-! ## Blocks as strings -/

theorem put_toBlock (b : Octets) : (toBlock b).put = b := by
  refine Vector.ext fun i hi => ?_
  have hget (k : Nat) (hk : k < 16) : b.toList.getD k 0 = b[k] := by
    simp [hk]
  simp only [Block.put, toBlock, Vector.getElem_ofFn]
  split_ifs with h
  · rw [byteAt_be64 _ h, hget i hi]
  · rw [byteAt_be64 _ (by omega), hget _ (by omega)]
    congr 1
    omega

theorem put_xor (x y : Block) : (x.xor y).put = add x.put y.put := by
  refine Vector.ext fun i hi => ?_
  simp only [Block.put, Block.xor, getElem_add, Vector.getElem_ofFn, byteAt_xor]
  split_ifs <;> rfl

/-- A string is the sum of its single bytes. -/
theorem foldl_single (v : Octets) :
    (List.finRange 16).foldl (fun r i => add r (single i v[i])) (.replicate 16 0) = v := by
  have hbyte (j : Nat) (hj : j < 16) (l : List (Fin 16)) (z : Octets) :
      (l.foldl (fun r i => add r (single i v[i])) z)[j] =
        l.foldl (fun r i => r ^^^ if j = i.val then v[i] else 0) z[j] := by
    induction l generalizing z with
    | nil => rfl
    | cons i l ih =>
      rw [foldl_cons, ih, foldl_cons, getElem_add]
      simp [single, Fin.ext_iff]
  refine Vector.ext fun j hj => ?_
  rw [hbyte j hj, finRange_sixteen]
  interval_cases j <;> simp

theorem put_foldl {α : Type} (g : α → Block) (z : Block) (l : List α) :
    (l.foldl (fun r i => r.xor (g i)) z).put = l.foldl (fun r i => add r (g i).put) z.put :=
  (foldl_hom Block.put fun r i => (put_xor r (g i)).symm).symm

/-- The sum of the entries of a block, each of them the image of one byte. -/
theorem put_sumEntries (hf : Additive f) (s : UInt8 → UInt8) (x : Block) :
    (sumEntries (fun i v => toBlock (f (single i (s v)))) x).put = f (x.put.map s) := by
  have hsplit : List.finRange 16 =
      (List.finRange 8).map (Fin.castAdd 8) ++ (List.finRange 8).map (Fin.natAdd 8) := rfl
  have hsum := hf.foldl (fun i : Fin 16 => single i (x.put.map s)[i]) (.replicate 16 0)
    (List.finRange 16)
  have hlow (i : Fin 8) : (x.put.map s)[i.castAdd 8] = s (byteAt x.w0 i) := by simp [Block.put]
  have hhigh (i : Fin 8) : (x.put.map s)[i.natAdd 8] = s (byteAt x.w1 i) := by simp [Block.put]
  have hzero : (⟨0, 0⟩ : Block).put = .replicate 16 0 := by decide
  rw [foldl_single, hf.zero, hsplit, foldl_append, foldl_map, foldl_map] at hsum
  simp only [hlow, hhigh] at hsum
  unfold sumEntries
  rw [hsum, put_foldl, put_foldl, hzero]
  simp only [put_toBlock]

/-! ## The specification -/

namespace Rfc

/-- The product of two polynomials over GF(2), coded by their coefficients. -/
def polyMul (a b : Nat) : Nat :=
  (List.range 8).foldl (fun r i => if b.testBit i then r ^^^ (a <<< i) else r) 0

/-- The rest modulo x^8 + x^7 + x^6 + x + 1. -/
def polyMod (p : Nat) : Nat :=
  (List.range 7).foldl (fun r i => if r.testBit (14 - i) then r ^^^ (0x1C3 <<< (6 - i)) else r) p

def mul (a b : UInt8) : UInt8 := .ofNat (polyMod (polyMul a.toNat b.toNat))

/-- The function l, of a15 to a0. -/
def l (x : Octets) : UInt8 := mul 148 x[0] ^^^ mul 32 x[1] ^^^ mul 133 x[2] ^^^ mul 16 x[3] ^^^
  mul 194 x[4] ^^^ mul 192 x[5] ^^^ mul 1 x[6] ^^^ mul 251 x[7] ^^^ mul 1 x[8] ^^^ mul 192 x[9] ^^^
  mul 194 x[10] ^^^ mul 16 x[11] ^^^ mul 133 x[12] ^^^ mul 32 x[13] ^^^ mul 148 x[14] ^^^
  mul 1 x[15]

theorem l_eq (x : Octets) : l x = linear x := by
  have hmul : ∀ c ∈ [148, 32, 133, 16, 194, 192, 1, 251], ∀ n < 256,
      mul c (.ofNat n) = gfMul c (.ofNat n) := by decide +kernel
  have hbyte (b : UInt8) : ∀ c ∈ [148, 32, 133, 16, 194, 192, 1, 251], mul c b = gfMul c b := by
    intro c hc
    simpa using hmul c hc b.toNat b.toNat_lt
  simp only [forall_mem_cons, not_mem_nil, false_imp_iff, implies_true, and_true] at hbyte
  rw [linear_eq]
  unfold l
  simp only [hbyte]

/-- The transformation R. -/
def shift (x : Octets) : Octets := .ofFn fun i => if i.val = 0 then l x else x[i.val - 1]

theorem shift_eq (x : Octets) : shift x = shiftIn x := by
  unfold shift shiftIn
  rw [l_eq]

def R : Equiv.Perm Octets where
  toFun := shift
  invFun := shiftOut
  left_inv x := by rw [shift_eq, shiftOut_shiftIn]
  right_inv x := by rw [shift_eq, shiftIn_shiftOut]

def L : Equiv.Perm Octets := R ^ 16

theorem entry_piInv_pi : Function.LeftInverse (entry piInv) (entry pi) := by
  intro v
  have hmap : pi.map (entry piInv) = (List.range 256).map UInt8.ofNat := by decide +kernel
  have hentry := congrArg (fun t : Bytes => t[v.toNat]?) hmap
  rw [List.getElem?_map, List.getElem?_map, List.getElem?_range v.toNat_lt] at hentry
  obtain ⟨b, hb, hbv⟩ := Option.map_eq_some_iff.1 hentry
  have hpi : entry pi v = b := by
    unfold entry
    rw [getD_eq_getElem?_getD, hb, Option.getD_some]
  rw [hpi, hbv, UInt8.ofNat_toNat]

theorem entry_pi_piInv : Function.RightInverse (entry piInv) (entry pi) :=
  entry_piInv_pi.rightInverse_of_surjective
    (Finite.surjective_of_injective entry_piInv_pi.injective)

/-- The transformation S. -/
def S : Equiv.Perm Octets where
  toFun x := x.map (entry pi)
  invFun x := x.map (entry piInv)
  left_inv x := by
    refine Vector.ext fun i hi => ?_
    simp [entry_piInv_pi _]
  right_inv x := by
    refine Vector.ext fun i hi => ?_
    simp [entry_pi_piInv _]

/-- The transformation X[k]. -/
def X (k : Octets) : Equiv.Perm Octets :=
  ⟨(add · k), (add · k), fun x => add_add_cancel x k, fun x => add_add_cancel x k⟩

/-- LSX[k]. -/
def LSX (k : Octets) : Equiv.Perm Octets := L * S * X k

/-- The constant C_i. -/
def C (i : Nat) : Octets := L (single 15 (UInt8.ofNat i))

/-- The transformation F[k]. -/
def F (k : Octets) (p : Octets × Octets) : Octets × Octets := (add (LSX k p.1) p.2, p.1)

/-- The keys K_(2i+1) and K_(2i+2). -/
def keyPair (key : Bytes) : Nat → Octets × Octets
  | 0 => (octets key 0, octets key 16)
  | i + 1 => (List.range 8).foldl (fun p j => F (C (8 * i + j + 1)) p) (keyPair key i)

/-- The key K_(r+1). -/
def roundKey (key : Bytes) (r : Nat) : Octets :=
  if r % 2 = 0 then (keyPair key (r / 2)).1 else (keyPair key (r / 2)).2

/-- The encryption E. -/
def E (key : Bytes) : Equiv.Perm Octets :=
  X (roundKey key 9) * LSX (roundKey key 8) * LSX (roundKey key 7) * LSX (roundKey key 6) *
    LSX (roundKey key 5) * LSX (roundKey key 4) * LSX (roundKey key 3) * LSX (roundKey key 2) *
    LSX (roundKey key 1) * LSX (roundKey key 0)

theorem L_apply (x : Octets) : L x = lTransform x := by
  have hR : ⇑R = shiftIn := funext shift_eq
  unfold L lTransform
  rw [← Equiv.Perm.iterate_eq_pow, hR]

theorem L_symm_apply (x : Octets) : L.symm x = lInverse x := by
  change (R ^ 16)⁻¹ x = _
  rw [← inv_pow, ← Equiv.Perm.iterate_eq_pow]
  rfl

end Rfc

/-! ## The package -/

theorem put_lsx (x : Block) : (getTables.lsx x).put = Rfc.L (Rfc.S x.put) :=
  (put_sumEntries (additive_shiftIn.iterate 16) (entry pi) x).trans (Rfc.L_apply _).symm

theorem put_invRound (x : Block) : (getTables.invRound x).put = Rfc.S.symm (Rfc.L.symm x.put) := by
  have hsum := put_sumEntries
    ((additive_shiftIn.of_inverse shiftIn_shiftOut shiftOut_shiftIn).iterate 16) id x
  rw [Vector.map_id] at hsum
  unfold Tables.invRound
  rw [put_toBlock, Rfc.L_symm_apply]
  exact congrArg (Vector.map (entry piInv)) hsum

/-- The pairs of the key schedule. -/
theorem put_feistel (key : Bytes) (i : Nat) :
    let a := feistel getTables (toBlock (octets key 0)) (toBlock (octets key 16)) i
    (a.1.put, a.2.put) = Rfc.keyPair key i := by
  induction i with
  | zero => exact Prod.ext (put_toBlock _) (put_toBlock _)
  | succ i ih =>
    dsimp only at ih ⊢
    unfold feistel Rfc.keyPair
    rw [← ih]
    refine (foldl_hom (fun p : Block × Block => (p.1.put, p.2.put)) fun p j => ?_).symm
    refine Prod.ext ?_ rfl
    have hc : (getTables.c (8 * i + j)).put = Rfc.C (8 * i + j + 1) :=
      (put_toBlock _).trans (Rfc.L_apply _).symm
    dsimp only [Rfc.F]
    rw [put_xor, put_lsx, put_xor, hc]
    rfl

section

variable {key : Bytes} {k : Kuz}

/-- What `NewCipher` returns for a key of 32 bytes. -/
structure Built (key : Bytes) (k : Kuz) : Prop where
  tables : k.t = getTables
  put_rk : ∀ r : Fin 10, k.rk[r].put = Rfc.roundKey key r

theorem built_newCipher (hkey : key.length = 32) : ∃ k, newCipher key = .ok k ∧ Built key k := by
  unfold newCipher
  rw [if_neg (not_not.2 hkey)]
  refine ⟨_, rfl, rfl, fun r => ?_⟩
  have hpair := put_feistel key (r / 2)
  unfold Rfc.roundKey
  rw [← hpair, Fin.getElem_fin, Vector.getElem_ofFn]
  split_ifs <;> rfl

theorem Built.put_encryptBlock (h : Built key k) (x : Block) :
    (k.encryptBlock x).put = Rfc.E key x.put := by
  have hround (x : Block) (r : Fin 10) : (k.t.lsx (x.xor k.rk[r])).put =
      Rfc.LSX (Rfc.roundKey key r) x.put := by
    rw [h.tables, put_lsx, put_xor, h.put_rk]
    rfl
  have hlast : k.rk[9].put = Rfc.roundKey key 9 := h.put_rk 9
  unfold Kuz.encryptBlock
  rw [show List.finRange 9 = [0, 1, 2, 3, 4, 5, 6, 7, 8] from rfl]
  simp only [foldl_cons, foldl_nil]
  rw [put_xor, hlast]
  simp only [hround]
  rfl

theorem Built.put_decryptBlock (h : Built key k) (x : Block) :
    (k.decryptBlock x).put = (Rfc.E key).symm x.put := by
  have hround (x : Block) (r : Fin 10) : (k.t.invRound (x.xor k.rk[r])).put =
      Rfc.S.symm (Rfc.L.symm (add x.put (Rfc.roundKey key r))) := by
    rw [h.tables, put_invRound, put_xor, h.put_rk]
  have hfirst : k.rk[0].put = Rfc.roundKey key 0 := h.put_rk 0
  unfold Kuz.decryptBlock
  rw [show List.finRange 9 = [0, 1, 2, 3, 4, 5, 6, 7, 8] from rfl]
  simp only [foldr_cons, foldr_nil]
  rw [put_xor, hfirst]
  simp only [hround]
  rfl

theorem onBlock_eq {f : Block → Block} {e : Octets → Octets} (hf : ∀ x : Block, (f x).put = e x.put)
    {dst src : Bytes} (hdst : 16 ≤ dst.length) (hsrc : 16 ≤ src.length) :
    onBlock f dst src = .ok ((e (octets src 0)).toList ++ dst.drop 16) := by
  unfold onBlock
  rw [if_neg (by omega), hf, put_toBlock]

theorem octets_toList_append (x : Octets) (s : Bytes) : octets (x.toList ++ s) 0 = x := by
  refine Vector.ext fun i hi => ?_
  have hget : (x.toList ++ s)[i]? = x.toList[i]? := List.getElem?_append_left (by simpa using hi)
  simp [octets, hget, hi]

theorem toList_octets {s : Bytes} (h : s.length = 16) : (octets s 0).toList = s := by
  refine ext_getElem (by simp [h]) fun i hi hi' => ?_
  simp [octets, hi']

/-- The package computes the cipher of RFC 7801: its round keys, and the encryption of every block,
    with rounds that are L(S(x)) and, for the decryption, the inverse of that. -/
theorem implements_rfc7801 (hkey : key.length = 32) : ∃ k, newCipher key = .ok k ∧
    (∀ r : Fin 10, k.rk[r].put = Rfc.roundKey key r) ∧
    (∀ dst src : Bytes, 16 ≤ dst.length → 16 ≤ src.length →
      k.encrypt dst src = .ok ((Rfc.E key (octets src 0)).toList ++ dst.drop 16)) ∧
    ∀ x : Block, (k.t.lsx x).put = Rfc.L (Rfc.S x.put) ∧
      (k.t.invRound x).put = Rfc.S.symm (Rfc.L.symm x.put) := by
  obtain ⟨k, hk, hbuilt⟩ := built_newCipher hkey
  refine ⟨k, hk, hbuilt.put_rk, fun dst src hdst hsrc => ?_, fun x => ?_⟩
  · exact onBlock_eq hbuilt.put_encryptBlock hdst hsrc
  · rw [hbuilt.tables]
    exact ⟨put_lsx x, put_invRound x⟩

theorem implements_rfc7801_zeroKey : ∃ k, newCipher (List.replicate 32 0) = .ok k ∧
    (∀ r : Fin 10, k.rk[r].put = Rfc.roundKey (List.replicate 32 0) r) ∧
    (∀ dst src : Bytes, 16 ≤ dst.length → 16 ≤ src.length → k.encrypt dst src =
      .ok ((Rfc.E (List.replicate 32 0) (octets src 0)).toList ++ dst.drop 16)) ∧
    ∀ x : Block, (k.t.lsx x).put = Rfc.L (Rfc.S x.put) ∧
      (k.t.invRound x).put = Rfc.S.symm (Rfc.L.symm x.put) :=
  implements_rfc7801 (by decide)

/-- Decryption and encryption of a block undo each other. -/
theorem decrypt_encrypt (hkey : key.length = 32) : ∃ k, newCipher key = .ok k ∧
    ∀ x dst dst' : Bytes, x.length = 16 → 16 ≤ dst.length → 16 ≤ dst'.length →
      (k.encrypt dst x).bind (k.decrypt dst') = .ok (x ++ dst'.drop 16) ∧
        (k.decrypt dst x).bind (k.encrypt dst') = .ok (x ++ dst'.drop 16) := by
  obtain ⟨k, hk, hbuilt⟩ := built_newCipher hkey
  refine ⟨k, hk, fun x dst dst' hx hdst hdst' => ?_⟩
  have hlen (y : Octets) : 16 ≤ (y.toList ++ dst.drop 16).length := by simp
  unfold Kuz.encrypt Kuz.decrypt
  rw [onBlock_eq hbuilt.put_encryptBlock hdst hx.ge, onBlock_eq hbuilt.put_decryptBlock hdst hx.ge]
  dsimp only [Except.bind]
  rw [onBlock_eq hbuilt.put_decryptBlock hdst' (hlen _),
    onBlock_eq hbuilt.put_encryptBlock hdst' (hlen _), octets_toList_append, octets_toList_append,
    Equiv.symm_apply_apply, Equiv.apply_symm_apply, toList_octets hx]
  exact ⟨rfl, rfl⟩

theorem decrypt_encrypt_zeroKey : ∃ k, newCipher (List.replicate 32 0) = .ok k ∧
    ∀ x dst dst' : Bytes, x.length = 16 → 16 ≤ dst.length → 16 ≤ dst'.length →
      (k.encrypt dst x).bind (k.decrypt dst') = .ok (x ++ dst'.drop 16) ∧
        (k.decrypt dst x).bind (k.encrypt dst') = .ok (x ++ dst'.drop 16) :=
  decrypt_encrypt (by decide)

end

end Tuck.Kuznyechik
