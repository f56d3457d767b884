/-
  The AEAD of the `mgm` package, RFC 9058, over any function for the encryption of a block, and
  the barrier's suite that puts it over Kuznyechik.

  Encryption adds a key stream that depends on the nonce alone, so adding it again takes it away
  (`ctr_ctr`), and the tag is computed from the ciphertext on both sides. The package panics on
  a nonce whose top bit is set; the barrier clears that bit before it seals a value or a path
  segment (`mgm_opens`).
-/
import Tuck.Gost.Kuznyechik
import Tuck.Barrier.Paths

namespace Tuck.MGM

open Tuck.Base Host Tuck.Barrier List
open Tuck.Kuznyechik (Octets octets)

/-! ## The package -/

structure U128 where
  hi : UInt64
  lo : UInt64
  deriving DecidableEq

def load (b : Octets) : U128 :=
  ⟨be64 fun i => b.toList.getD i 0, be64 fun i => b.toList.getD (8 + i) 0⟩

def U128.put (x : U128) : Octets :=
  .ofFn fun i => if i.val < 8 then byteAt x.hi i else byteAt x.lo (i - 8)

def U128.xor (x y : U128) : U128 := ⟨x.hi ^^^ y.hi, x.lo ^^^ y.lo⟩

/-- The bit of `b` that a turn of `gfMul` looks at. -/
def bitAt (b : U128) (i : Nat) : UInt64 :=
  if i < 64 then (b.lo >>> UInt64.ofNat i) &&& 1 else (b.hi >>> UInt64.ofNat (i - 64)) &&& 1

/-- One turn of `gfMul` on `r` and `a`. -/
def gfTurn (b : U128) (p : U128 × U128) (i : Nat) : U128 × U128 :=
  let mask := 0 - bitAt b i
  let a := p.2
  (⟨p.1.hi ^^^ (a.hi &&& mask), p.1.lo ^^^ (a.lo &&& mask)⟩,
    ⟨(a.hi <<< 1) ||| (a.lo >>> 63), (a.lo <<< 1) ^^^ ((a.hi >>> 63) * 0x87)⟩)

def gfMul (a b : U128) : U128 := ((List.range 128).foldl (gfTurn b) (⟨0, 0⟩, a)).1

/-- `checkNonce`; the error is a panic. -/
def checkNonce (nonce : Bytes) : Except Bytes Unit :=
  if nonce.length ≠ 16 then .error (ascii "mgm: incorrect nonce length given to MGM")
  else if nonce.getD 0 0 &&& 0x80 ≠ 0 then
    .error (ascii "mgm: the most significant bit of the nonce must be zero")
  else .ok ()

theorem zero_lt_sixteen : 0 < 16 := by decide

section

variable (enc : Octets → Octets)

/-- The sum with the next product, and the next counter. -/
def mulAdd (z sum : U128) (blk : Octets) : U128 × U128 :=
  (⟨z.hi + 1, z.lo⟩, sum.xor (gfMul (load (enc z.put)) (load blk)))

/-- The loop of `absorb`. -/
def absorb (z sum : U128) : Bytes → U128 × U128
  | [] => (z, sum)
  | b :: bs =>
      let p := mulAdd enc z sum (octets ((b :: bs).take 16) 0)
      absorb p.1 p.2 ((b :: bs).drop 16)
termination_by data => data.length
decreasing_by simp only [length_drop, length_cons]; omega

/-- The block with the two lengths in bits. -/
def lens (ad ct : Bytes) : U128 := ⟨.ofNat ad.length * 8, .ofNat ct.length * 8⟩

def tag (nonce ad ct : Bytes) : Octets :=
  let zb := octets nonce 0
  let z := load (enc (zb.set 0 (zb.get ⟨0, zero_lt_sixteen⟩ ||| 0x80) zero_lt_sixteen))
  let p := absorb enc z ⟨0, 0⟩ ad
  let p := absorb enc p.1 p.2 ct
  enc (mulAdd enc p.1 p.2 (lens ad ct).put).2.put

/-- The loop of `ctr`. -/
def ctrLoop (y : U128) : Bytes → Bytes
  | [] => []
  | b :: bs =>
      List.zipWith (· ^^^ ·) ((b :: bs).take 16) (enc y.put).toList ++
        ctrLoop ⟨y.hi, y.lo + 1⟩ ((b :: bs).drop 16)
termination_by src => src.length
decreasing_by simp only [length_drop, length_cons]; omega

def ctr (nonce src : Bytes) : Bytes :=
  let yb := octets nonce 0
  ctrLoop enc (load (enc (yb.set 0 (yb.get ⟨0, zero_lt_sixteen⟩ &&& 0x7f) zero_lt_sixteen))) src

/-- `Seal`. -/
def mgmSeal (dst nonce plaintext ad : Bytes) : Except Bytes Bytes :=
  (checkNonce nonce).bind fun _ =>
    let ct := ctr enc nonce plaintext
    .ok (dst ++ ct ++ (tag enc nonce ad ct).toList)

def errOpen : Bytes := ascii "mgm: message authentication failed"

/-- `Open`. -/
def mgmOpen (dst nonce ciphertext ad : Bytes) : Except Bytes Bytes :=
  if nonce.length ≠ 16 ∨ nonce.getD 0 0 &&& 0x80 ≠ 0 then .error (ascii "mgm: invalid nonce")
  else if ciphertext.length < 16 then .error errOpen
  else
    let ct := ciphertext.take (ciphertext.length - 16)
    if (tag enc nonce ad ct).toList ≠ ciphertext.drop (ciphertext.length - 16) then .error errOpen
    else .ok (dst ++ ctr enc nonce ct)

end

/-! ## The key stream -/

section

variable {enc : Octets → Octets}

theorem length_ctrLoop (y : U128) (src : Bytes) : (ctrLoop enc y src).length = src.length := by
  fun_induction ctrLoop enc y src with
  | case1 => rfl
  | case2 y b bs ih =>
    rw [length_append, ih, length_zipWith, length_take, length_drop,
      Vector.length_toList]
    omega

theorem ctrLoop_ne_nil (y : U128) {src : Bytes} (h : src ≠ []) : ctrLoop enc y src =
    List.zipWith (· ^^^ ·) (src.take 16) (enc y.put).toList ++
      ctrLoop enc ⟨y.hi, y.lo + 1⟩ (src.drop 16) := by
  cases src with
  | nil => exact absurd rfl h
  | cons b bs => rw [ctrLoop]

theorem zipWith_xor_xor (s ks : Bytes) (h : s.length ≤ ks.length) :
    List.zipWith (· ^^^ ·) (List.zipWith (· ^^^ ·) s ks) ks = s := by
  induction s generalizing ks with
  | nil => rfl
  | cons b s ih =>
    cases ks with
    | nil => exact absurd h (by simp)
    | cons k ks =>
      simp only [zipWith_cons_cons, List.cons.injEq]
      refine ⟨?_, ih ks (by simpa using h)⟩
      rw [UInt8.xor_assoc, UInt8.xor_self, UInt8.xor_zero]

theorem ctrLoop_ctrLoop (y : U128) (src : Bytes) : ctrLoop enc y (ctrLoop enc y src) = src := by
  fun_induction ctrLoop enc y src with
  | case1 y => rw [ctrLoop]
  | case2 y b bs ih =>
    obtain ⟨ks, hks, hlen⟩ : ∃ ks, (enc y.put).toList = ks ∧ ks.length = 16 := ⟨_, rfl, by simp⟩
    rw [hks]
    have hback := zipWith_xor_xor ((b :: bs).take 16) ks (by rw [hlen]; exact length_take_le _ _)
    obtain ⟨x, hx⟩ : ∃ x, x = List.zipWith (· ^^^ ·) ((b :: bs).take 16) ks := ⟨_, rfl⟩
    obtain ⟨rest, hrest⟩ : ∃ rest, rest = ctrLoop enc ⟨y.hi, y.lo + 1⟩ ((b :: bs).drop 16) :=
      ⟨_, rfl⟩
    have hxlen : x.length = min 16 (bs.length + 1) := by
      rw [hx, length_zipWith, length_take, hlen, length_cons]
      omega
    -- a block shorter than 16 bytes is the last one
    have hcut : (x ++ rest).take 16 = x ∧ (x ++ rest).drop 16 = rest := by
      by_cases h : 16 ≤ bs.length + 1
      · exact ⟨take_left' (by omega), drop_left' (by omega)⟩
      · have hnil : rest = [] := by
          rw [hrest, drop_of_length_le (by simp only [length_cons]; omega), ctrLoop]
        rw [hnil, append_nil]
        exact ⟨take_of_length_le (by omega), drop_of_length_le (by omega)⟩
    have hne : x ++ rest ≠ [] := by
      rw [ne_eq, append_eq_nil_iff, ← length_eq_zero_iff]
      omega
    rw [← hx, ← hrest, ctrLoop_ne_nil y hne, hcut.1, hcut.2, hks, hx, hback, hrest, ih,
      take_append_drop]

theorem ctr_ctr (nonce src : Bytes) : ctr enc nonce (ctr enc nonce src) = src := ctrLoop_ctrLoop _ _

theorem length_ctr (nonce src : Bytes) : (ctr enc nonce src).length = src.length :=
  length_ctrLoop _ _

/-! ## Sealing and opening -/

/-- The nonces that the package takes. -/
def Good (nonce : Bytes) : Prop := nonce.length = 16 ∧ nonce.getD 0 0 &&& 0x80 = 0

variable {nonce : Bytes}

theorem not_good_iff : ¬Good nonce ↔ nonce.length ≠ 16 ∨ nonce.getD 0 0 &&& 0x80 ≠ 0 := not_and_or

theorem checkNonce_of_good (h : Good nonce) : checkNonce nonce = .ok () := by
  unfold checkNonce
  rw [if_neg (not_not.2 h.1), if_neg (not_not.2 h.2)]

theorem mgmSeal_of_good (h : Good nonce) (dst p ad : Bytes) : mgmSeal enc dst nonce p ad =
    .ok (dst ++ ctr enc nonce p ++ (tag enc nonce ad (ctr enc nonce p)).toList) := by
  unfold mgmSeal
  rw [checkNonce_of_good h]
  rfl

/-- What is opened is a ciphertext with its tag behind it. -/
theorem mgmOpen_of_good (h : Good nonce) (dst ct t ad : Bytes) (ht : t.length = 16) :
    mgmOpen enc dst nonce (ct ++ t) ad =
      if (tag enc nonce ad ct).toList ≠ t then .error errOpen
      else .ok (dst ++ ctr enc nonce ct) := by
  have hlen : (ct ++ t).length - 16 = ct.length := by
    rw [length_append, ht, Nat.add_sub_cancel]
  unfold mgmOpen
  rw [if_neg fun hbad => not_good_iff.2 hbad h, if_neg (by rw [length_append]; omega), hlen,
    take_left, drop_left]

theorem mgmOpen_mgmSeal (h : Good nonce) (dst p ad : Bytes) :
    mgmOpen enc dst nonce (ctr enc nonce p ++ (tag enc nonce ad (ctr enc nonce p)).toList) ad =
      .ok (dst ++ p) := by
  rw [mgmOpen_of_good h _ _ _ _ (by simp), if_neg (not_not.2 rfl), ctr_ctr]

/-- What is accepted was sealed. -/
theorem sealed_of_mgmOpen {dst c ad out : Bytes} (hopen : mgmOpen enc dst nonce c ad = .ok out) :
    ∃ p, out = dst ++ p ∧ ∀ dst', mgmSeal enc dst' nonce p ad = .ok (dst' ++ c) := by
  have hgood : Good nonce := by
    by_contra h
    unfold mgmOpen at hopen
    rw [if_pos (not_good_iff.1 h)] at hopen
    cases hopen
  by_cases hlen : c.length < 16
  · unfold mgmOpen at hopen
    rw [if_neg fun hbad => not_good_iff.2 hbad hgood, if_pos hlen] at hopen
    cases hopen
  · obtain ⟨ct, t, rfl, ht⟩ : ∃ ct t, c = ct ++ t ∧ t.length = 16 :=
      ⟨_, _, (take_append_drop (c.length - 16) c).symm, by rw [length_drop]; omega⟩
    rw [mgmOpen_of_good hgood _ _ _ _ ht] at hopen
    split_ifs at hopen with htag
    refine ⟨ctr enc nonce ct, (Except.ok.inj hopen).symm, fun dst' => ?_⟩
    rw [mgmSeal_of_good hgood, ctr_ctr, not_not.1 htag, append_assoc]

end

/-! ## The suite of the barrier -/

/-- `Encrypt` on an array of 16 bytes. -/
def kuznyechikBlock (k : Kuznyechik.Kuz) (x : Octets) : Octets :=
  (k.encryptBlock (Kuznyechik.toBlock x)).put

theorem good_of_clearTop {n : Bytes} (hn : n.length = 16) (h : clearTop n = n) : Good n := by
  refine ⟨hn, ?_⟩
  cases n with
  | nil => rfl
  | cons b s =>
    have htop : b &&& 0x7F &&& 0x80 = 0 := by
      rw [UInt8.and_assoc]
      exact UInt8.and_zero
    rwa [(List.cons.inj h).1] at htop

/-- The suite `gost-kuznyechik-mgm`. Its promises are those of the two packages. -/
def suiteKuznyechikMGM : Suite where
  name := ascii "gost-kuznyechik-mgm"
  newOK k := (Kuznyechik.newCipher k).isOk
  nonceSize := 16
  clearNonceTopBit := true
  aeadSeal key n p a := (do
    let k ← Kuznyechik.newCipher key
    mgmSeal (kuznyechikBlock k) [] n p a).toOption.getD []
  aeadOpen key n c a := (do
    let k ← Kuznyechik.newCipher key
    mgmOpen (kuznyechikBlock k) [] n c a).toOption
  name_ne_nil := by decide
  name_valid := by decide
  newOK_of_length k h := by
    obtain ⟨kuz, hkuz, -⟩ := Kuznyechik.built_newCipher h
    rw [hkuz]
    rfl
  length_of_newOK k h := by
    unfold Kuznyechik.newCipher at h
    split_ifs at h with hlen
    · cases h
    · exact (not_not.1 hlen).le
  nonceSize_pos := zero_lt_sixteen
  nonceSize_le := by decide
  open_seal key n p a hkey hn hclear := by
    have hgood := good_of_clearTop hn (hclear rfl)
    cases hnew : Kuznyechik.newCipher key with
    | error e =>
      rw [hnew] at hkey
      cases hkey
    | ok k =>
      dsimp only [bind, Except.bind]
      rw [mgmSeal_of_good hgood]
      exact congrArg Except.toOption (mgmOpen_mgmSeal hgood [] p a)

end Tuck.MGM
