/-
  Cipher suites. The AEAD behind a suite is not modelled: it is given by its two functions
  and by what the barrier relies on (opening inverts sealing). A suite is registered under
  its name and takes 256-bit keys.
-/
import Tuck.Base.Utf8

namespace Tuck.Barrier

open Tuck.Base List

def keySize : Nat := 32

/-- The most significant bit of the first byte cleared. -/
def clearTop : Bytes → Bytes
  | [] => []
  | b :: s => (b &&& 0x7F) :: s

/-- An AEAD protecting barrier data, with what it promises. -/
structure Suite where
  name : Bytes
  /-- `New` accepts the key. -/
  newOK : Bytes → Bool
  nonceSize : Nat
  clearNonceTopBit : Bool
  /-- Key, nonce, plaintext, associated data. -/
  aeadSeal : Bytes → Bytes → Bytes → Bytes → Bytes
  /-- Key, nonce, ciphertext, associated data. -/
  aeadOpen : Bytes → Bytes → Bytes → Bytes → Option Bytes
  name_ne_nil : name ≠ []
  name_valid : Utf8Valid name
  newOK_of_length : ∀ k : Bytes, k.length = keySize → newOK k = true
  length_of_newOK : ∀ k : Bytes, newOK k = true → k.length ≤ keySize
  nonceSize_pos : 0 < nonceSize
  nonceSize_le : nonceSize ≤ 32
  open_seal : ∀ k n p a : Bytes, newOK k = true → n.length = nonceSize →
    (clearNonceTopBit = true → clearTop n = n) → aeadOpen k n (aeadSeal k n p a) a = some p

namespace Suite

variable (s : Suite)

/-- A nonce as the suite takes it. -/
def prepNonce (n : Bytes) : Bytes := if s.clearNonceTopBit then clearTop n else n

/-- `Suite.seal` once its nonce is drawn: nonce, ciphertext and tag. -/
def sealWith (key nonce plain aad : Bytes) : Bytes :=
  s.prepNonce nonce ++ s.aeadSeal key (s.prepNonce nonce) plain aad

/-- `Suite.open`. -/
def openData (key data aad : Bytes) : Option Bytes :=
  if s.newOK key = true ∧ s.nonceSize ≤ data.length then
    s.aeadOpen key (data.take s.nonceSize) (data.drop s.nonceSize) aad
  else none

end Suite

theorem clearTop_length (n : Bytes) : (clearTop n).length = n.length := by
  cases n <;> rfl

theorem clearTop_clearTop (n : Bytes) : clearTop (clearTop n) = clearTop n := by
  cases n with
  | nil => rfl
  | cons b s =>
    have h : b &&& 0x7F &&& 0x7F = b &&& 0x7F := by
      rw [UInt8.and_assoc]
      rfl
    simp only [clearTop, h]

namespace Suite

theorem prepNonce_length (s : Suite) (n : Bytes) : (s.prepNonce n).length = n.length := by
  unfold prepNonce
  split_ifs
  · exact clearTop_length n
  · rfl

theorem clearTop_prepNonce (s : Suite) (n : Bytes) (h : s.clearNonceTopBit = true) :
    clearTop (s.prepNonce n) = s.prepNonce n := by
  unfold prepNonce
  rw [if_pos h]
  exact clearTop_clearTop n

/-- The AEAD opens what it sealed under a prepared nonce. -/
theorem aeadOpen_prepNonce (s : Suite) {k n : Bytes} (hk : s.newOK k = true)
    (hn : n.length = s.nonceSize) (p a : Bytes) :
    s.aeadOpen k (s.prepNonce n) (s.aeadSeal k (s.prepNonce n) p a) a = some p :=
  s.open_seal k _ p a hk (by rw [s.prepNonce_length, hn]) (s.clearTop_prepNonce n)

/-- `open` inverts `seal`. -/
theorem openData_sealWith (s : Suite) {k n : Bytes} (hk : s.newOK k = true)
    (hn : n.length = s.nonceSize) (p a : Bytes) : s.openData k (s.sealWith k n p a) a = some p := by
  have hl : (s.prepNonce n).length = s.nonceSize := by rw [s.prepNonce_length, hn]
  unfold openData sealWith
  rw [if_pos ⟨hk, by rw [length_append, hl]; omega⟩, ← hl, take_left, drop_left]
  exact s.aeadOpen_prepNonce hk hn p a

theorem newOK_of_openData {s : Suite} {k d a p : Bytes} (h : s.openData k d a = some p) :
    s.newOK k = true := by
  unfold openData at h
  split_ifs at h with hc
  exact hc.1

end Suite

/-- `SuiteAES256GCM`, the default. -/
def suiteAES256GCM : Bytes := ascii "aes-256-gcm"

/-- `LookupSuite` in a registry; the empty name is the default suite. -/
def lookupSuite (suites : List Suite) (name : Bytes) : Option Suite :=
  suites.find? fun s => s.name == if name = [] then suiteAES256GCM else name

/-- A suite that was found is found again under its own name. -/
theorem lookupSuite_name {suites : List Suite} {name : Bytes} {s : Suite}
    (h : lookupSuite suites name = some s) : lookupSuite suites s.name = some s := by
  have hname := List.find?_some h
  unfold lookupSuite at h ⊢
  rw [if_neg s.name_ne_nil]
  rw [beq_iff_eq.mp hname]
  exact h

/-- Associated data is authenticated: nothing opens under other data. -/
def Suite.BindsData (s : Suite) : Prop :=
  ∀ k n p a a' : Bytes, a ≠ a' → s.aeadOpen k n (s.aeadSeal k n p a) a' = none

/-- Nothing opens under another key. -/
def Suite.BindsKey (s : Suite) : Prop :=
  ∀ k k' n p a a' : Bytes, s.newOK k = true → s.newOK k' = true → k ≠ k' →
    s.aeadOpen k' n (s.aeadSeal k n p a) a' = none

theorem Suite.openData_other_key {s : Suite} (h : s.BindsKey) {k k' n p a a' : Bytes}
    (hn : n.length = s.nonceSize) (hk : s.newOK k = true) (hne : k ≠ k') :
    s.openData k' (s.sealWith k n p a) a' = none := by
  have hl : (s.prepNonce n).length = s.nonceSize := by rw [s.prepNonce_length, hn]
  unfold Suite.openData Suite.sealWith
  rw [← hl, take_left, drop_left]
  split_ifs with hc
  · exact h _ _ _ _ _ _ hk hc.1 hne
  · rfl

theorem Suite.openData_other_aad {s : Suite} (h : s.BindsData) {k n p a a' : Bytes}
    (hn : n.length = s.nonceSize) (ha : a ≠ a') : s.openData k (s.sealWith k n p a) a' = none := by
  have hl : (s.prepNonce n).length = s.nonceSize := by rw [s.prepNonce_length, hn]
  unfold Suite.openData Suite.sealWith
  rw [← hl, take_left, drop_left, h _ _ _ _ _ ha]
  split_ifs <;> rfl

/-! ## A suite in the clear -/

/-- The header of the clear suite: the key, then the associated data behind its length. -/
def plainHeader (key aad : Bytes) : Bytes := key ++ (List.replicate aad.length 1 ++ 0 :: aad)

/-- A suite that meets every promise without hiding anything; runs of the model on concrete
    inputs use it. -/
def plainSuite : Suite where
  name := suiteAES256GCM
  newOK k := k.length == keySize
  nonceSize := 1
  clearNonceTopBit := false
  aeadSeal k _ p a := plainHeader k a ++ p
  aeadOpen k _ c a := if plainHeader k a <+: c then some (c.drop (plainHeader k a).length) else none
  name_ne_nil := by decide
  name_valid := by decide
  newOK_of_length k h := by simp [h]
  length_of_newOK k h := (beq_iff_eq.mp h).le
  nonceSize_pos := by decide
  nonceSize_le := by decide
  open_seal k _ p a _ _ _ := by rw [if_pos (prefix_append _ _), drop_left]

/-- The header determines the associated data. -/
theorem plainHeader_inj {k a a' p : Bytes} (h : plainHeader k a' <+: plainHeader k a ++ p) :
    a' = a := by
  unfold plainHeader at h
  rw [append_assoc, prefix_append_right_inj, append_assoc, cons_append] at h
  have hlen : ∀ (i j : Nat) (x y : Bytes),
      List.replicate i (1 : UInt8) ++ 0 :: x <+: List.replicate j 1 ++ 0 :: y →
        i = j ∧ x <+: y := by
    intro i
    induction i with
    | zero =>
      intro j x y hp
      cases j with
      | zero => exact ⟨rfl, (cons_prefix_cons.mp hp).2⟩
      | succ j => exact absurd (cons_prefix_cons.mp hp).1 (by decide)
    | succ i ih =>
      intro j x y hp
      cases j with
      | zero => exact absurd (cons_prefix_cons.mp hp).1 (by decide)
      | succ j =>
        obtain ⟨hij, hxy⟩ := ih j x y (cons_prefix_cons.mp hp).2
        exact ⟨congrArg Nat.succ hij, hxy⟩
  obtain ⟨hl, hp⟩ := hlen _ _ _ _ h
  exact (prefix_of_prefix_length_le hp (prefix_append a p) hl.le).eq_of_length hl

theorem plainSuite_bindsKey : plainSuite.BindsKey := by
  intro k k' n p a a' hk hk' hne
  refine if_neg fun h => hne ?_
  have hlen : k'.length = k.length := (beq_iff_eq.mp hk').trans (beq_iff_eq.mp hk).symm
  have h1 : k' <+: plainHeader k a ++ p := (prefix_append _ _).trans h
  have h2 : k <+: plainHeader k a ++ p := by
    rw [plainHeader, append_assoc]
    exact prefix_append _ _
  exact ((prefix_of_prefix_length_le h1 h2 hlen.le).eq_of_length hlen).symm

theorem plainSuite_bindsData : plainSuite.BindsData := by
  intro k n p a a' ha
  exact if_neg fun h => ha (plainHeader_inj h).symm

end Tuck.Barrier
