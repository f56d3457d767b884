/-
  The hash function of the `streebog` package, GOST R 34.11-2012, and that it does not depend on
  how a message is cut into writes.

  `Write` holds a full block back until more data comes. What it keeps after any writes is the
  message: the blocks hashed so far, with what is in the buffer behind them (`Holds`). `Sum`
  works on a copy, and computes the iteration of RFC 6986 over that message (`sum_of_holds`).
-/
import Tuck.Base.Limbs
import Tuck.Gost.Kuznyechik

namespace Tuck.Streebog

open Tuck.Base

/-! ## The compression function -/

/-- `pi`, the table of Kuznyechik. -/
def pi : Bytes := Kuznyechik.pi

def matA : List UInt64 := [
  0x8e20faa72ba0b470, 0x47107ddd9b505a38, 0xad08b0e0c3282d1c, 0xd8045870ef14980e,
  0x6c022c38f90a4c07, 0x3601161cf205268d, 0x1b8e0b0e798c13c8, 0x83478b07b2468764,
  0xa011d380818e8f40, 0x5086e740ce47c920, 0x2843fd2067adea10, 0x14aff010bdd87508,
  0x0ad97808d06cb404, 0x05e23c0468365a02, 0x8c711e02341b2d01, 0x46b60f011a83988e,
  0x90dab52a387ae76f, 0x486dd4151c3dfdb9, 0x24b86a840e90f0d2, 0x125c354207487869,
  0x092e94218d243cba, 0x8a174a9ec8121e5d, 0x4585254f64090fa0, 0xaccc9ca9328a8950,
  0x9d4df05d5f661451, 0xc0a878a0a1330aa6, 0x60543c50de970553, 0x302a1e286fc58ca7,
  0x18150f14b9ec46dd, 0x0c84890ad27623e0, 0x0642ca05693b9f70, 0x0321658cba93c138,
  0x86275df09ce8aaa8, 0x439da0784e745554, 0xafc0503c273aa42a, 0xd960281e9d1d5215,
  0xe230140fc0802984, 0x71180a8960409a42, 0xb60c05ca30204d21, 0x5b068c651810a89e,
  0x456c34887a3805b9, 0xac361a443d1c8cd2, 0x561b0d22900e4669, 0x2b838811480723ba,
  0x9bcf4486248d9f5d, 0xc3e9224312c8c1a0, 0xeffa11af0964ee50, 0xf97d86d98a327728,
  0xe4fa2054a80b329c, 0x727d102a548b194e, 0x39b008152acb8227, 0x9258048415eb419d,
  0x492c024284fbaec0, 0xaa16012142f35760, 0x550b8e9e21f7a530, 0xa48b474f9ef5dc18,
  0x70a6a56e2440598e, 0x3853dc371220a247, 0x1ca76e95091051ad, 0x0edd37c48a08a6d8,
  0x07e095624504536c, 0x8d70c431ac02a736, 0xc83862965601dd1b, 0x641c314b2b8ee083]

/-- `roundC`, each in hexadecimal. -/
def roundC : List String := [
  "0745a6f2596580dd234d74cc3674760515d360a4082a42a20169679291e07c4b" ++
    "fcc485758db84e7116d0452e43766a2f1f7c65c0812fcbebe9daca1eda5b08b1",
  "b79bb121700479e656cdcbd71ba2dd55caa70adbc261b55c5899d6126b17b59a" ++
    "3101b5160f5ed561982b230a72eafef3d7b5700f469de34f1a2f9da98ab5a36f",
  "b20aba0af5961e9931db7a8643f4b6c209db6260373ac9c1b19e3590e40fe2d3" ++
    "7b7b29b11475eaf28b1f9c525f5ef10635843d6a28fc390ac72fce2bacdc74f5",
  "2ed1e384bcbe0c22f137e893a1ea5334be0352933313b7d875d603ed822cd7a9" ++
    "3f355e68ad1c729d7d3c5c337e858e48dde4715da0e148f9d26615e8b3df1fef",
  "57fe6c7cfd581760f563eaa97ea2567a161a2723b700ffdfa3f53a254717cdbf" ++
    "bdff0f80d7359e354a1086161f1c157f6323a96c0c413f9a994747adac6bea4b",
  "6e7d64467a4068fa354f903672c571bfb6c6bec2661ff20ab4b79a1cb7a6facf" ++
    "c68ef09ab49a7f186ca44251f9c4662dc039307a3bc3a46fd9d33a1daeae4fae",
  "93d4143a4d568688f34a3ca24c45173504054a2883694706372c822dc5ab9209" ++
    "c9937a19333e47d3c987bfe6c7c69e39540924bffe86ac51ecc5aaee160ec7f4",
  "1ee702bfd40d7fa4d9a8515935c2ac362fc4a5d12b8dd16990069b92cb2b89f4" ++
    "9ac4db4d3b44b4891ede369c71f8b74e41416e0c02aae703a7c9934d425b1f9b",
  "db5a238351446172602a1fcb92dc380e549c07a69a8a2b7bb1ceb2db0b440a80" ++
    "84090de0b755d93c244289251b3a7d3ade5f16ecd89a4c949b223116545a8f37",
  "ed9c4598fbc7b474c3b63b15d1fa9836f452763b306c1e7a4b3369af0267e79f" ++
    "0361331b8ae1ff1fdb788aff1ce74189f3f3e4b248e52a38526f0580a6debeab",
  "1b2df381cda4ca6b5dd86fc04a59a2de986e477d1dcdbaefcab948eaef711d8a" ++
    "79668414218001206107abebbb6bfad894fe5a63cdc60230fb89c8efd09ecd7b",
  "20d71bf14a92bc48991bb2d9d517f4fa5228e188aaa41de786cc91189def805d" ++
    "9b9f2130d41220f8771ddfbc323ca4cd7ab14904b08013d2ba3116f167e78e37"]

/-- The bytes of a text in hexadecimal. -/
def unhex : List Char → Bytes
  | a :: b :: s => .ofNat (16 * digit a + digit b) :: unhex s
  | _ => []
where
  digit (c : Char) : Nat := if c.isDigit then c.toNat - 48 else c.toNat - 87

def linear (x : UInt64) : UInt64 :=
  (List.range 64).foldl
    (fun r i => if (x >>> UInt64.ofNat i) &&& 1 ≠ 0 then r ^^^ matA.getD (63 - i) 0 else r) 0

def lps (j : Nat) (v : UInt8) : UInt64 :=
  linear ((pi.getD v.toNat 0).toUInt64 <<< UInt64.ofNat (8 * j))

abbrev Vec := Vector UInt64 8

def Vec.xor (a b : Vec) : Vec := .zipWith (· ^^^ ·) a b

/-- `vec{w}`. -/
def Vec.low (w : UInt64) : Vec := .ofFn fun i => if i.val = 0 then w else 0

def loadVec (b : Bytes) : Vec := .ofFn fun i => be64 fun k => b.getD (8 * i + (7 - k)) 0

def Vec.put (a : Vec) : Bytes :=
  a.toList.flatMap fun w => (List.range 8).map fun k => byteAt w (7 - k)

def lpsTransform (a : Vec) : Vec :=
  .ofFn fun w => (List.finRange 8).foldl
    (fun x (j : Fin 8) => x ^^^ lps j (a[j] >>> UInt64.ofNat (8 * w)).toUInt8) 0

def encrypt (k m : Vec) : Vec :=
  let p := roundC.foldl (fun p c => (lpsTransform (p.1.xor p.2),
    lpsTransform (p.2.xor (loadVec (unhex c.toList))))) (m, k)
  p.1.xor p.2

def g (n h m : Vec) : Vec := ((encrypt (lpsTransform (h.xor n)) m).xor h).xor m

/-- The loop of `add512` over the words that are left. -/
def addLoop (carry : UInt64) : List UInt64 → List UInt64 → List UInt64
  | a :: as, b :: bs =>
      let s := a + b
      let s2 := s + carry
      s2 :: addLoop (if s2 < s then 1 else if s < a then 1 else 0) as bs
  | _, _ => []

theorem length_addLoop (carry : UInt64) (as bs : List UInt64) :
    (addLoop carry as bs).length = min as.length bs.length := by
  induction as generalizing carry bs with
  | nil => simp [addLoop]
  | cons a as ih =>
    cases bs with
    | nil => simp [addLoop]
    | cons b bs => simp [addLoop, ih]

def add512 (a b : Vec) : Vec := ⟨(addLoop 0 a.toList b.toList).toArray, by simp [length_addLoop]⟩

/-! ## The digest -/

/-- `digest`; of the array `buf` the first `nbuf` bytes. -/
structure Digest where
  size : Nat
  h : Vec
  n : Vec
  sigma : Vec
  buf : Bytes
  buf_le : buf.length ≤ 64

/-- `newDigest`, with `Reset`. -/
def newDigest (size : Nat) : Digest where
  size := size
  h := .replicate 8 (if size = 32 then 0x0101010101010101 else 0)
  n := .low 0
  sigma := .low 0
  buf := []
  buf_le := Nat.zero_le _

namespace Digest

def block (d : Digest) (b : Bytes) : Digest :=
  { d with
    h := g d.n d.h (loadVec b)
    n := add512 d.n (.low 512)
    sigma := add512 d.sigma (loadVec b) }

/-- The bytes `copy(d.buf[d.nbuf:], p)` takes in. -/
def fill (d : Digest) (p : Bytes) : Digest :=
  { d with
    buf := d.buf ++ p.take (64 - d.buf.length)
    buf_le := by
      have := d.buf_le
      rw [List.length_append, List.length_take]
      omega }

/-- `d.block(d.buf[:])` with an empty buffer after it. -/
def flush (d : Digest) : Digest := { d.block d.buf with buf := [], buf_le := Nat.zero_le _ }

/-- The loop of `Write` over the blocks of `p` that more data follows. -/
def blocks (d : Digest) (p : Bytes) : Digest × Bytes :=
  if 64 < p.length then blocks (d.block (p.take 64)) (p.drop 64) else (d, p)
termination_by p.length
decreasing_by rw [List.length_drop]; omega

def write (d : Digest) (p : Bytes) : Digest × Nat :=
  let q := p.drop (64 - d.buf.length)
  let r :=
    if d.buf.length = 0 then d.blocks p
    else if (d.fill p).buf.length = 64 ∧ q ≠ [] then (d.fill p).flush.blocks q
    else (d.fill p).blocks q
  (r.1.fill r.2, p.length)

/-- `Sum`; the digest stays as it is. -/
def sum (d : Digest) (input : Bytes) : Bytes × Digest :=
  let c := if d.buf.length = 64 then d.flush else d
  let m := loadVec (c.buf ++ 1 :: List.replicate (63 - c.buf.length) 0)
  let h := g c.n c.h m
  let n := add512 c.n (.low (.ofNat c.buf.length * 8))
  let sigma := add512 c.sigma m
  let h := g (.low 0) (g (.low 0) h n) sigma
  (input ++ if c.size = 32 then h.put.drop 32 else h.put, d)

end Digest

/-! ## Vectors as numbers -/

/-- The number that a vector holds. -/
def Vec.val (a : Vec) : Nat := Limbs.val a.toList

/-- The vector of a number modulo 2^512. -/
def vecOf (n : Nat) : Vec := ⟨(Limbs.ofNat 8 n).toArray, by simp⟩

theorem toList_vecOf (n : Nat) : (vecOf n).toList = Limbs.ofNat 8 n := rfl

theorem vecOf_val (a : Vec) : vecOf a.val = a := by
  refine Vector.toList_inj.1 ?_
  have h := Limbs.ofNat_val a.toList
  rwa [Vector.length_toList] at h

theorem val_vecOf (n : Nat) : (vecOf n).val = n % 2 ^ (64 * 8) := Limbs.val_ofNat 8 n

theorem vecOf_mod (n : Nat) : vecOf (n % 2 ^ (64 * 8)) = vecOf n :=
  Vector.toList_inj.1 (Limbs.ofNat_mod 8 n)

theorem low_eq (w : UInt64) : Vec.low w = vecOf w.toNat := by
  have hlt := w.toNat_lt
  refine Vector.toList_inj.1 ?_
  rw [toList_vecOf]
  simp only [Limbs.ofNat, Nat.div_eq_of_lt hlt, UInt64.ofNat_toNat, Nat.zero_div]
  rfl

/-- A word of the sum, with the carry it leaves. -/
theorem toNat_carry (a b : UInt64) {carry : UInt64} (hc : carry.toNat ≤ 1) :
    let c' : UInt64 := if a + b + carry < a + b then 1 else if a + b < a then 1 else 0
    (a + b + carry).toNat + 2 ^ 64 * c'.toNat = a.toNat + b.toNat + carry.toNat ∧ c'.toNat ≤ 1 := by
  have ha := a.toNat_lt
  have hb := b.toNat_lt
  dsimp only
  simp only [UInt64.lt_iff_toNat_lt, UInt64.toNat_add]
  split_ifs with h1 h2
  · refine ⟨?_, le_rfl⟩
    change _ + 2 ^ 64 * 1 = _
    omega
  · refine ⟨?_, le_rfl⟩
    change _ + 2 ^ 64 * 1 = _
    omega
  · refine ⟨?_, Nat.zero_le _⟩
    change _ + 2 ^ 64 * 0 = _
    omega

theorem val_addLoop {carry : UInt64} (hc : carry.toNat ≤ 1) (as bs : List UInt64)
    (hlen : as.length = bs.length) : Limbs.val (addLoop carry as bs) =
      (Limbs.val as + Limbs.val bs + carry.toNat) % 2 ^ (64 * as.length) := by
  induction as generalizing carry bs with
  | nil =>
    rw [List.length_eq_zero_iff.1 hlen.symm]
    simp [addLoop, Limbs.val, Nat.mod_one]
  | cons a as ih =>
    cases bs with
    | nil => cases hlen
    | cons b bs =>
      obtain ⟨hword, hc'⟩ := toNat_carry a b hc
      rw [addLoop, Limbs.val, ih hc' bs (by simpa using hlen), Limbs.val, Limbs.val,
        List.length_cons, show 64 * (as.length + 1) = 64 + 64 * as.length by omega, Nat.pow_add,
        Nat.mod_mul]
      have hlt := (a + b + carry).toNat_lt
      congr 1
      · omega
      · congr 2
        omega

theorem val_add512 (a b : Vec) : (add512 a b).val = (a.val + b.val) % 2 ^ (64 * 8) := by
  have h := @val_addLoop 0 (Nat.zero_le _) a.toList b.toList (by simp)
  rwa [Vector.length_toList] at h

theorem add512_vecOf (n : Nat) (b : Vec) : add512 (vecOf n) b = vecOf (n + b.val) := by
  rw [← vecOf_val (add512 _ _), val_add512, vecOf_mod, val_vecOf, ← vecOf_mod, Nat.mod_add_mod,
    vecOf_mod]

/-- The words are those of the sum modulo 2^512, whichever of them carry. -/
theorem add512_exact (a b : Vec) :
    (add512 a b).val = (a.val + b.val) % 2 ^ (64 * 8) ∧ add512 a b = vecOf (a.val + b.val) := by
  refine ⟨val_add512 a b, ?_⟩
  rw [← add512_vecOf, vecOf_val]

/-! ## RFC 6986 -/

namespace Rfc

/-- The full blocks of a message, and what is left. -/
def cut (msg : Bytes) : List Bytes × Bytes :=
  if 64 ≤ msg.length then (msg.take 64 :: (cut (msg.drop 64)).1, (cut (msg.drop 64)).2)
  else ([], msg)
termination_by msg.length
decreasing_by all_goals rw [List.length_drop]; omega

def pad (rest : Bytes) : Bytes := rest ++ 1 :: List.replicate (63 - rest.length) 0

def iv (size : Nat) : Vec := .replicate 8 (if size = 32 then 0x0101010101010101 else 0)

/-- The iteration over full blocks; N counts the bits so far. -/
def stage2 (h : Vec) (bs : List Bytes) : Vec :=
  bs.zipIdx.foldl (fun h b => g (vecOf (512 * b.2)) h (loadVec b.1)) h

/-- The sum of blocks. -/
def total (bs : List Bytes) : Nat := (bs.map fun b => (loadVec b).val).sum

/-- The hash of a message. -/
def hash (size : Nat) (msg : Bytes) : Bytes :=
  let c := cut msg
  let m := pad c.2
  let h := g (vecOf (512 * c.1.length)) (stage2 (iv size) c.1) (loadVec m)
  let h := g (vecOf 0) h (vecOf (8 * msg.length))
  let h := g (vecOf 0) h (vecOf (total (c.1 ++ [m])))
  if size = 32 then h.put.drop 32 else h.put

theorem cut_flatten {bs : List Bytes} (hbs : ∀ b ∈ bs, b.length = 64) {rest : Bytes}
    (hrest : rest.length < 64) : cut (bs.flatten ++ rest) = (bs, rest) := by
  induction bs with
  | nil => rw [List.flatten_nil, List.nil_append, cut, if_neg (by omega)]
  | cons b bs ih =>
    obtain ⟨hb, hbs⟩ := List.forall_mem_cons.1 hbs
    rw [List.flatten_cons, List.append_assoc, cut, if_pos (by rw [List.length_append]; omega),
      List.take_left' hb, List.drop_left' hb, ih hbs]

end Rfc

/-! ## The message that a digest holds -/

/-- The blocks are hashed, whatever is in the buffer. -/
structure Hashed (size : Nat) (bs : List Bytes) (d : Digest) : Prop where
  size_eq : d.size = size
  h_eq : d.h = Rfc.stage2 (Rfc.iv size) bs
  n_eq : d.n = vecOf (512 * bs.length)
  sigma_eq : d.sigma = vecOf (Rfc.total bs)
  full : ∀ b ∈ bs, b.length = 64

/-- The digest holds the message. -/
def Holds (size : Nat) (msg : Bytes) (d : Digest) : Prop :=
  ∃ bs, Hashed size bs d ∧ msg = bs.flatten ++ d.buf

section

variable {size : Nat} {bs : List Bytes} {d : Digest} {msg : Bytes}

theorem Hashed.block (h : Hashed size bs d) {b : Bytes} (hb : b.length = 64) :
    Hashed size (bs ++ [b]) (d.block b) where
  size_eq := h.size_eq
  h_eq := by
    unfold Digest.block Rfc.stage2
    rw [List.zipIdx_append, List.foldl_append]
    dsimp only
    rw [h.h_eq, h.n_eq, Nat.zero_add]
    rfl
  n_eq := by
    have hval : (Vec.low 512).val = 512 := by decide
    unfold Digest.block
    dsimp only
    rw [h.n_eq, add512_vecOf, hval, List.length_append, List.length_singleton, Nat.mul_succ]
  sigma_eq := by
    unfold Digest.block Rfc.total
    dsimp only
    rw [h.sigma_eq, add512_vecOf, List.map_append, List.sum_append, List.map_singleton,
      List.sum_singleton]
    rfl
  full := by
    intro b' hb'
    obtain hb' | hb' := List.mem_append.1 hb'
    · exact h.full b' hb'
    · rwa [List.mem_singleton.1 hb']

/-- A full buffer is hashed. -/
theorem Holds.flush (h : Holds size msg d) (hfull : d.buf.length = 64) :
    Holds size msg d.flush := by
  obtain ⟨bs, hbs, rfl⟩ := h
  obtain ⟨hsize, hh, hn, hsigma, hall⟩ := hbs.block hfull
  exact ⟨bs ++ [d.buf], ⟨hsize, hh, hn, hsigma, hall⟩, by simp [Digest.flush]⟩

/-- What fits into the buffer. -/
theorem Holds.fill (h : Holds size msg d) (p : Bytes) :
    Holds size (msg ++ p.take (64 - d.buf.length)) (d.fill p) := by
  obtain ⟨bs, ⟨hsize, hh, hn, hsigma, hall⟩, rfl⟩ := h
  exact ⟨bs, ⟨hsize, hh, hn, hsigma, hall⟩, List.append_assoc ..⟩

/-- The loop over blocks, from an empty buffer, and the rest that goes into it. -/
theorem Hashed.blocks (h : Hashed size bs d) (hbuf : d.buf = []) (p : Bytes) :
    Holds size (bs.flatten ++ p) ((d.blocks p).1.fill (d.blocks p).2) := by
  fun_induction Digest.blocks d p generalizing bs with
  | case1 d p hlong ih =>
    have hb : (p.take 64).length = 64 := by
      rw [List.length_take]
      omega
    have hrest := ih (h.block hb) hbuf
    rwa [List.flatten_append, List.flatten_singleton, List.append_assoc,
      List.take_append_drop] at hrest
  | case2 d p hshort =>
    have hd : Holds size bs.flatten d := ⟨bs, h, by rw [hbuf, List.append_nil]⟩
    have hfill := hd.fill p
    rwa [hbuf, List.length_nil, List.take_of_length_le (by omega)] at hfill

theorem Holds.blocks (h : Holds size msg d) (hbuf : d.buf = []) (p : Bytes) :
    Holds size (msg ++ p) ((d.blocks p).1.fill (d.blocks p).2) := by
  obtain ⟨bs, hbs, rfl⟩ := h
  rw [hbuf, List.append_nil]
  exact hbs.blocks hbuf p

theorem Holds.write (h : Holds size msg d) (p : Bytes) : Holds size (msg ++ p) (d.write p).1 := by
  have hsplit := List.take_append_drop (64 - d.buf.length) p
  unfold Digest.write
  dsimp only
  split_ifs with hempty hfull
  · exact h.blocks (List.length_eq_zero_iff.1 hempty) p
  · have hq := ((h.fill p).flush hfull.1).blocks rfl (p.drop (64 - d.buf.length))
    rwa [List.append_assoc, hsplit] at hq
  · -- all of `p` went into the buffer
    have hnil : p.drop (64 - d.buf.length) = [] := by
      by_contra hne
      refine hfull ⟨?_, hne⟩
      have hlong := List.length_pos_iff.2 hne
      have hle := d.buf_le
      rw [List.length_drop] at hlong
      unfold Digest.fill
      rw [List.length_append, List.length_take]
      omega
    have hblocks : (d.fill p).blocks [] = (d.fill p, []) := by
      rw [Digest.blocks, if_neg (by decide)]
    have hfill := (h.fill p).fill []
    rw [hnil, List.append_nil] at hsplit
    rw [hsplit, List.take_nil, List.append_nil] at hfill
    rwa [hnil, hblocks]

/-- `Sum` of the digest of a message. -/
theorem sum_of_holds (h : Holds size msg d) (input : Bytes) :
    d.sum input = (input ++ Rfc.hash size msg, d) := by
  obtain ⟨c, hc, hheld, hshort⟩ : ∃ c, (if d.buf.length = 64 then d.flush else d) = c ∧
      Holds size msg c ∧ c.buf.length < 64 := by
    split_ifs with hfull
    · exact ⟨_, rfl, h.flush hfull, Nat.succ_pos 63⟩
    · exact ⟨_, rfl, h, lt_of_le_of_ne d.buf_le hfull⟩
  obtain ⟨bs, hbs, rfl⟩ := hheld
  have hlen : (UInt64.ofNat c.buf.length * 8).toNat = 8 * c.buf.length := by
    rw [UInt64.toNat_mul, UInt64.toNat_ofNat']
    change _ * 8 % _ = _
    omega
  have hlow : (Vec.low (.ofNat c.buf.length * 8)).val = 8 * c.buf.length := by
    rw [low_eq, val_vecOf, hlen, Nat.mod_eq_of_lt (by omega)]
  have hbits : 512 * bs.length + 8 * c.buf.length = 8 * (bs.flatten ++ c.buf).length := by
    have hflat : bs.flatten.length = 64 * bs.length := by
      rw [List.length_flatten, List.map_congr_left hbs.full]
      simp [Nat.mul_comm]
    rw [List.length_append, hflat]
    omega
  have hzero : Vec.low 0 = vecOf 0 := low_eq 0
  unfold Digest.sum Rfc.hash
  rw [hc, Rfc.cut_flatten hbs.full hshort]
  dsimp only
  rw [hbs.n_eq, hbs.h_eq, hbs.sigma_eq, hbs.size_eq, add512_vecOf, add512_vecOf, hlow, hbits, hzero]
  unfold Rfc.total Rfc.pad
  rw [List.map_append, List.sum_append, List.map_singleton, List.sum_singleton]

end

/-! ## Sequences of calls -/

inductive Op
  | write (p : Bytes)
  | sum (input : Bytes)

/-- The digest after a call. -/
def exec (d : Digest) : Op → Digest
  | .write p => (d.write p).1
  | .sum input => (d.sum input).2

/-- Everything written. -/
def written (ops : List Op) : Bytes := ops.flatMap fun
  | .write p => p
  | .sum _ => []

theorem holds_foldl {size : Nat} {msg : Bytes} {d : Digest} (h : Holds size msg d) (ops : List Op) :
    Holds size (msg ++ written ops) (ops.foldl exec d) := by
  induction ops generalizing msg d with
  | nil => rwa [written, List.flatMap_nil, List.append_nil]
  | cons op ops ih =>
    rw [written, List.flatMap_cons, ← List.append_assoc, List.foldl_cons]
    refine ih ?_
    cases op with
    | write p => exact h.write p
    | sum input => rwa [List.append_nil]

/-- After any calls, `Sum` returns the hash of everything written behind its input, and changes
    nothing. -/
theorem sum_eq_hash (size : Nat) (ops : List Op) (input : Bytes) :
    (ops.foldl exec (newDigest size)).sum input =
      (input ++ Rfc.hash size (written ops), ops.foldl exec (newDigest size)) := by
  have hnew : Holds size [] (newDigest size) :=
    ⟨[], ⟨rfl, rfl, low_eq 0, low_eq 0, nofun⟩, rfl⟩
  exact sum_of_holds (holds_foldl hnew ops) input

end Tuck.Streebog
