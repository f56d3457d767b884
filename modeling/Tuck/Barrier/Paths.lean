/-
  Path encryption. Each segment of a logical key is replaced by the base64 of its nonce and
  its ciphertext; the nonce is a keyed hash of the stored parent and the segment, and the
  stored parent is the associated data. Keys under `barrier/` stay in the clear.

  Decoding undoes encoding (`decode_encode`), an encoded key never lands under `barrier/`,
  and the encoding of a directory is a prefix of the encoding of every key in it.
-/
import Tuck.Base.Base64
import Tuck.Env

namespace Tuck.Barrier

open Tuck.Base Host List

def reservedPrefix : Bytes := ascii "barrier/"

/-- A key of the barrier itself. -/
def Reserved (k : Bytes) : Prop := reservedPrefix <+: k

instance : DecidablePred Reserved := fun k => inferInstanceAs (Decidable (reservedPrefix <+: k))

/-- `strings.Split(key, "/")`. -/
def split (key : Bytes) : List Bytes := key.splitOn 0x2F

/-- `strings.Join(parts, "/")`. -/
def join (parts : List Bytes) : Bytes := joinWith 0x2F parts

/-- `pathCodec`: the AEAD is the suite under the key `enc`. -/
structure PathCodec where
  suite : Suite
  enc : Bytes
  mac : Bytes

section

variable (E : Env)

def newPathCodec (s : Suite) (pathKey : Bytes) : Option PathCodec :=
  let enc := E.hmac pathKey (ascii "tuck/path/enc")
  if s.newOK enc then some ⟨s, enc, E.hmac pathKey (ascii "tuck/path/mac")⟩ else none

namespace PathCodec

variable (c : PathCodec)

def nonce (parent seg : Bytes) : Bytes :=
  c.suite.prepNonce ((E.hmac c.mac (parent ++ 0 :: seg)).take c.suite.nonceSize)

/-- One segment under its stored parent. -/
def encodeSeg (parent seg : Bytes) : Bytes :=
  if seg = [] then []
  else
    let n := nonce E c parent seg
    rawURLEncode (n ++ c.suite.aeadSeal c.enc n seg parent)

/-- The loop of `encode` over the segments, after the parts `done`. -/
def encodeParts (done : List Bytes) : List Bytes → List Bytes
  | [] => []
  | seg :: segs =>
      let p := encodeSeg E c (join done) seg
      p :: encodeParts (done ++ [p]) segs

def encode (key : Bytes) : Bytes :=
  if Reserved key then key else join (encodeParts E c [] (split key))

/-- One stored part under its parent. -/
def decodeSeg (parent p : Bytes) : Option Bytes :=
  if p = [] then some []
  else
    match rawURLDecode p with
    | none => none
    | some raw =>
        if raw.length < c.suite.nonceSize then none
        else c.suite.aeadOpen c.enc (raw.take c.suite.nonceSize) (raw.drop c.suite.nonceSize) parent

/-- The loop of `decode` over the parts, after the parts `done`. -/
def decodeParts (done : List Bytes) : List Bytes → Option (List Bytes)
  | [] => some []
  | p :: ps => do
      let seg ← decodeSeg c (join done) p
      let segs ← decodeParts (done ++ [p]) ps
      return seg :: segs

def decode (stored : Bytes) : Option Bytes :=
  if Reserved stored then some stored else (decodeParts c [] (split stored)).map join

end PathCodec

end

/-! ## Decoding undoes encoding -/

theorem split_ne_nil (key : Bytes) : split key ≠ [] := splitOnP_ne_nil _ _

theorem join_split (key : Bytes) : join (split key) = key := joinWith_splitOn key

namespace PathCodec

variable {E : Env} {c : PathCodec}

theorem nonce_length (parent seg : Bytes) : (nonce E c parent seg).length = c.suite.nonceSize := by
  have := c.suite.nonceSize_le
  unfold nonce
  rw [c.suite.prepNonce_length, length_take, E.hmac_length]
  omega

theorem aeadOpen_nonce (hc : c.suite.newOK c.enc = true) (parent seg p a : Bytes) :
    c.suite.aeadOpen c.enc (nonce E c parent seg)
      (c.suite.aeadSeal c.enc (nonce E c parent seg) p a) a = some p := by
  refine c.suite.aeadOpen_prepNonce hc ?_ p a
  have := c.suite.nonceSize_le
  rw [length_take, E.hmac_length]
  omega

theorem decodeSeg_encodeSeg (hc : c.suite.newOK c.enc = true) (parent seg : Bytes) :
    decodeSeg c parent (encodeSeg E c parent seg) = some seg := by
  unfold encodeSeg
  split_ifs with hs
  · rw [hs]; rfl
  · have hn := @nonce_length E c parent seg
    have hpos := c.suite.nonceSize_pos
    have hne : nonce E c parent seg ++
        c.suite.aeadSeal c.enc (nonce E c parent seg) seg parent ≠ [] := by
      intro h
      have := congrArg List.length h
      rw [length_append, hn] at this
      simp only [length_nil] at this
      omega
    simp only [decodeSeg, if_neg (rawURLEncode_ne_nil hne), rawURLDecode_encode]
    rw [if_neg (by rw [length_append, hn]; omega), ← hn, take_left, drop_left]
    exact aeadOpen_nonce hc parent seg seg parent

theorem decodeParts_encodeParts (hc : c.suite.newOK c.enc = true) (segs done : List Bytes) :
    decodeParts c done (encodeParts E c done segs) = some segs := by
  induction segs generalizing done with
  | nil => rfl
  | cons seg segs ih =>
    simp only [encodeParts, decodeParts, decodeSeg_encodeSeg hc, ih]
    rfl

theorem encodeParts_ne_nil {segs done : List Bytes} (h : segs ≠ []) :
    encodeParts E c done segs ≠ [] := by
  cases segs with
  | nil => exact absurd rfl h
  | cons seg segs => simp [encodeParts]

/-- A stored part is empty or base64, so it has no slash and is not the word `barrier`. -/
theorem encodeSeg_plain (parent seg : Bytes) :
    (0x2F : UInt8) ∉ encodeSeg E c parent seg ∧ encodeSeg E c parent seg ≠ ascii "barrier" := by
  unfold encodeSeg
  split_ifs
  · exact ⟨by simp, by decide⟩
  · exact ⟨slash_not_mem_rawURLEncode _, rawURLEncode_ne (by decide) _⟩

theorem encodeParts_plain (segs done : List Bytes) :
    ∀ p ∈ encodeParts E c done segs, (0x2F : UInt8) ∉ p ∧ p ≠ ascii "barrier" := by
  induction segs generalizing done with
  | nil => simp [encodeParts]
  | cons seg segs ih =>
    simp only [encodeParts, forall_mem_cons]
    exact ⟨encodeSeg_plain _ _, ih _⟩

theorem split_join_encodeParts {segs : List Bytes} (h : segs ≠ []) :
    split (join (encodeParts E c [] segs)) = encodeParts E c [] segs :=
  splitOn_joinWith (encodeParts_ne_nil h) fun p hp => (encodeParts_plain segs [] p hp).1

/-- The first part of a reserved key is the word `barrier`. -/
theorem split_of_reserved {k : Bytes} (h : Reserved k) :
    ∃ rest, split k = ascii "barrier" :: rest := by
  obtain ⟨t, rfl⟩ := h
  refine ⟨split t, ?_⟩
  have hb : reservedPrefix ++ t = ascii "barrier" ++ 0x2F :: t := by
    rw [append_cons]
    rfl
  have hslash : (ascii "barrier").all (fun b => !(b == 0x2F)) = true := by decide
  rw [hb]
  refine splitOnP_append_cons_of_forall_mem (fun b hb => ?_) _ (by decide) t
  simpa using all_eq_true.mp hslash b hb

theorem not_reserved_join_encodeParts {segs : List Bytes} (h : segs ≠ []) :
    ¬ Reserved (join (encodeParts E c [] segs)) := by
  intro hr
  obtain ⟨rest, hsp⟩ := split_of_reserved hr
  rw [split_join_encodeParts h] at hsp
  exact (encodeParts_plain segs [] _ (by rw [hsp]; simp)).2 rfl

/-- A key outside `barrier/` is stored outside `barrier/`. -/
theorem not_reserved_encode {key : Bytes} (h : ¬ Reserved key) : ¬ Reserved (encode E c key) := by
  unfold encode
  rw [if_neg h]
  exact not_reserved_join_encodeParts (split_ne_nil key)

theorem decode_encode (hc : c.suite.newOK c.enc = true) (key : Bytes) :
    decode c (encode E c key) = some key := by
  by_cases h : Reserved key
  · rw [encode, if_pos h, decode, if_pos h]
  · rw [encode, if_neg h, decode, if_neg (not_reserved_join_encodeParts (split_ne_nil key)),
      split_join_encodeParts (split_ne_nil key), decodeParts_encodeParts hc, Option.map_some,
      join_split]

theorem encode_injective (hc : c.suite.newOK c.enc = true) : Function.Injective (encode E c) := by
  intro a b h
  have ha := @decode_encode E c hc a
  rw [h, decode_encode hc b] at ha
  exact (Option.some.inj ha).symm

/-! ## Directories -/

theorem encodeParts_append (segs segs' done : List Bytes) :
    encodeParts E c done (segs ++ segs') =
      encodeParts E c done segs ++ encodeParts E c (done ++ encodeParts E c done segs) segs' := by
  induction segs generalizing done with
  | nil => simp [encodeParts]
  | cons seg segs ih => simp [encodeParts, ih]

/-- The stored form of a directory is a prefix of the stored form of every key in it. -/
theorem encode_prefix {dir rest : Bytes} (h : ¬ Reserved (dir ++ 0x2F :: rest)) :
    encode E c (dir ++ [0x2F]) <+: encode E c (dir ++ 0x2F :: rest) := by
  have hdir : ¬ Reserved (dir ++ [0x2F]) := by
    rintro ⟨t, ht⟩
    refine h ⟨t ++ rest, ?_⟩
    rw [← append_assoc, ht]
    simp
  have hs : ∀ r, split (dir ++ 0x2F :: r) = split dir ++ split r := fun r =>
    splitOnP_append_cons dir r (by decide)
  have hne := @encodeParts_ne_nil E c _ [] (split_ne_nil dir)
  have hjoin : ∀ r, encode E c (dir ++ 0x2F :: r) =
      if Reserved (dir ++ 0x2F :: r) then dir ++ 0x2F :: r
      else join (encodeParts E c [] (split dir)) ++
        0x2F :: join (encodeParts E c (encodeParts E c [] (split dir)) (split r)) := by
    intro r
    unfold encode
    rw [hs, encodeParts_append, nil_append]
    split_ifs
    · rfl
    · exact joinWith_append hne (encodeParts_ne_nil (split_ne_nil r))
  rw [hjoin rest, hjoin [], if_neg h, if_neg hdir]
  -- the directory ends in an empty segment, stored as the empty part
  have hlast : join (encodeParts E c (encodeParts E c [] (split dir)) (split [])) = [] := rfl
  rw [hlast]
  exact ⟨join (encodeParts E c (encodeParts E c [] (split dir)) (split rest)), by simp⟩

end PathCodec

theorem newPathCodec_isSome {E : Env} (s : Suite) (pathKey : Bytes) :
    newPathCodec E s pathKey =
      some ⟨s, E.hmac pathKey (ascii "tuck/path/enc"), E.hmac pathKey (ascii "tuck/path/mac")⟩ := by
  unfold newPathCodec
  simp only [s.newOK_of_length _ (E.hmac_length _ _), if_true]

theorem newPathCodec_newOK {E : Env} {s : Suite} {pathKey : Bytes} {c : PathCodec}
    (h : newPathCodec E s pathKey = some c) : c.suite.newOK c.enc = true := by
  rw [newPathCodec_isSome] at h
  cases h
  exact s.newOK_of_length _ (E.hmac_length _ _)

end Tuck.Barrier
