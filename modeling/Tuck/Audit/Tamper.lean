/-
  Tamper evidence: two verified ranges with the same head agree record by record, back to
  where the shorter one starts. Nothing before a trusted head can be changed, removed,
  inserted or reordered without the verifier noticing.
-/
import Tuck.Audit.RoundTrip

namespace Tuck.Audit

open Tuck.Base List

/-- The text a record is hashed over. -/
def Entry.hashed (e : Entry) : Bytes := { e with hash := [] }.marshal

/-- A record that was read from a line of JSON. -/
def Entry.Decoded (e : Entry) : Prop := ∃ line, unmarshal line = some e

/-- A record links to the one before it. -/
def LinksTo (p e : Entry) : Prop := e.prevHash = p.hash

section

variable {sha : Bytes → Bytes}

theorem checkRecord_none {anchor : Bytes} {prev : Option Entry} {e : Entry}
    (h : checkRecord sha anchor prev e = none) :
    computeHash sha e = e.hash ∧ ∀ p, prev = some p → LinksTo p e := by
  unfold checkRecord at h
  by_cases h1 : computeHash sha e = [] ∨ computeHash sha e ≠ e.hash
  · rw [if_pos h1] at h
    cases h
  · rw [if_neg h1] at h
    refine ⟨not_not.mp fun hne => h1 (Or.inr hne), ?_⟩
    rintro p rfl
    by_contra hne
    have hne' : e.prevHash ≠ p.hash := hne
    simp only [if_pos hne'] at h
    cases h

/-- What a passing check of a range says: every record carries its own hash, each links to
    the one before it, and the head is the hash of the last one. -/
theorem verifyFrom_ok (es : List Entry) (anchor : Bytes) (prev : Option Entry) (i : Nat)
    (res : VerifyResult) (hok : (verifyFrom sha anchor prev i res es).ok = true) :
    (∀ e ∈ es, computeHash sha e = e.hash) ∧ (prev.toList ++ es).IsChain LinksTo ∧
      (verifyFrom sha anchor prev i res es).headHash =
        (es.getLast?.map Entry.hash).getD res.headHash := by
  induction es generalizing prev i res with
  | nil => cases prev <;> simp [verifyFrom]
  | cons e es ih =>
    simp only [verifyFrom] at hok ⊢
    cases hc : checkRecord sha anchor prev e with
    | some r => rw [hc] at hok; cases hok
    | none =>
      rw [hc] at hok
      obtain ⟨hself, hchain, hhead⟩ := ih (some e) (i + 1) _ hok
      obtain ⟨hhash, hlink⟩ := checkRecord_none hc
      refine ⟨forall_mem_cons.mpr ⟨hhash, hself⟩, ?_, ?_⟩
      · cases prev with
        | none => exact hchain
        | some p => exact isChain_cons_cons.mpr ⟨hlink p rfl, hchain⟩
      · simp only at hhead ⊢
        rw [hhead]
        cases es with
        | nil => rfl
        | cons f es =>
          rw [List.getLast?_cons_cons, List.getLast?_eq_some_getLast (cons_ne_nil f es)]
          rfl

theorem verifyFrom_fromGenesis (es : List Entry) (anchor : Bytes) (prev : Option Entry) (i : Nat)
    (res : VerifyResult) (hi : 0 < i) (hok : (verifyFrom sha anchor prev i res es).ok = true) :
    (verifyFrom sha anchor prev i res es).fromGenesis = res.fromGenesis := by
  induction es generalizing prev i res with
  | nil => rfl
  | cons e es ih =>
    simp only [verifyFrom] at hok ⊢
    cases hc : checkRecord sha anchor prev e with
    | some r => rw [hc] at hok; cases hok
    | none =>
      rw [hc] at hok
      simp only [if_neg (by omega : ¬ i = 0)] at hok ⊢
      rw [ih (some e) (i + 1) _ (by omega) hok]
      split_ifs <;> rfl

/-- `FromGenesis` says that the first record links to the genesis hash. -/
theorem verifyEntries_fromGenesis {e : Entry} {es : List Entry} {anchor : Bytes}
    (hok : (verifyEntries sha (e :: es) anchor).ok = true)
    (hg : (verifyEntries sha (e :: es) anchor).fromGenesis = true) : e.prevHash = genesisHash := by
  simp only [verifyEntries, verifyFrom] at hok hg
  cases hc : checkRecord sha anchor none e with
  | some r => rw [hc] at hok; cases hok
  | none =>
    rw [hc] at hok hg
    simp only [if_true] at hok hg
    rw [verifyFrom_fromGenesis _ _ _ _ _ (by omega) hok] at hg
    exact beq_iff_eq.mp hg

/-- Two decoded records with the same valid hash are the same record. -/
theorem eq_of_hash_eq {e f : Entry} (he : e.Decoded) (hf : f.Decoded)
    (hinj : sha e.hashed = sha f.hashed → e.hashed = f.hashed) (hse : computeHash sha e = e.hash)
    (hsf : computeHash sha f = f.hash) (h : e.hash = f.hash) : e = f := by
  obtain ⟨_, hle⟩ := he
  obtain ⟨_, hlf⟩ := hf
  have hve := unmarshal_valid hle
  have hvf := unmarshal_valid hlf
  have hsha : sha e.hashed = sha f.hashed := hexEncode_injective (hse.trans (h.trans hsf.symm))
  have hrec := marshal_injective (a := { e with hash := [] }) (b := { f with hash := [] })
    ⟨hve.1, hve.2.1, utf8Valid_nil⟩ ⟨hvf.1, hvf.2.1, utf8Valid_nil⟩ (hinj hsha)
  cases e
  cases f
  simp only [Entry.mk.injEq] at hrec h ⊢
  simp only [hrec, h, and_self]

/-- Two chains read backwards from the same head: one is the beginning of the other. -/
theorem prefix_of_same_head {us vs : List Entry} (hu : us.IsChain fun e p => LinksTo p e)
    (hv : vs.IsChain fun e p => LinksTo p e)
    (heq : ∀ e ∈ us, ∀ f ∈ vs, e.hash = f.hash → e = f)
    (hhead : us.head?.map Entry.hash = vs.head?.map Entry.hash) : us <+: vs ∨ vs <+: us := by
  induction us generalizing vs with
  | nil => exact Or.inl nil_prefix
  | cons e us ih =>
    cases vs with
    | nil => exact Or.inr nil_prefix
    | cons f vs =>
      obtain rfl : e = f := heq e (by simp) f (by simp) (Option.some.inj hhead)
      cases us with
      | nil => exact Or.inl (by simp)
      | cons e' us =>
        cases vs with
        | nil => exact Or.inr (by simp)
        | cons f' vs =>
          obtain ⟨hle, hu⟩ := isChain_cons_cons.mp hu
          obtain ⟨hlf, hv⟩ := isChain_cons_cons.mp hv
          have hnext : e'.hash = f'.hash := hle.symm.trans hlf
          rcases ih hu hv (fun x hx y hy => heq x (by simp [hx]) y (by simp [hy]))
            (congrArg some hnext) with h | h
          · exact Or.inl ((prefix_cons_inj e).mpr h)
          · exact Or.inr ((prefix_cons_inj e).mpr h)

theorem suffix_of_verified {xs ys : List Entry} {a b : Bytes} (hx : ∀ e ∈ xs, e.Decoded)
    (hy : ∀ e ∈ ys, e.Decoded)
    (hinj : ∀ e ∈ xs, ∀ f ∈ ys, sha e.hashed = sha f.hashed → e.hashed = f.hashed)
    (hokx : (verifyEntries sha xs a).ok = true) (hoky : (verifyEntries sha ys b).ok = true)
    (hhead : (verifyEntries sha xs a).headHash = (verifyEntries sha ys b).headHash)
    (hne : (verifyEntries sha xs a).headHash ≠ []) : xs <:+ ys ∨ ys <:+ xs := by
  obtain ⟨hsx, hcx, hhx⟩ := verifyFrom_ok xs a none 0 VerifyResult.init hokx
  obtain ⟨hsy, hcy, hhy⟩ := verifyFrom_ok ys b none 0 VerifyResult.init hoky
  have hlast : xs.getLast?.map Entry.hash = ys.getLast?.map Entry.hash := by
    have h : (xs.getLast?.map Entry.hash).getD [] = (ys.getLast?.map Entry.hash).getD [] :=
      hhx.symm.trans (hhead.trans hhy)
    have hnex : (xs.getLast?.map Entry.hash).getD [] ≠ [] := hhx ▸ hne
    -- the head is not empty, so both lists have a last record
    cases hxl : xs.getLast?.map Entry.hash with
    | none => rw [hxl] at hnex; exact absurd rfl hnex
    | some h1 =>
      cases hyl : ys.getLast?.map Entry.hash with
      | none => rw [h, hyl] at hnex; exact absurd rfl hnex
      | some h2 =>
        rw [hxl, hyl] at h
        exact congrArg some h
  have hrx : xs.reverse.IsChain fun e p => LinksTo p e := isChain_reverse.mpr hcx
  have hry : ys.reverse.IsChain fun e p => LinksTo p e := isChain_reverse.mpr hcy
  have hback := prefix_of_same_head hrx hry
    (fun e he f hf hef => by
      rw [mem_reverse] at he hf
      exact eq_of_hash_eq (hx e he) (hy f hf) (hinj e he f hf) (hsx e he) (hsy f hf) hef)
    (by rw [List.head?_reverse, List.head?_reverse]; exact hlast)
  exact hback.imp reverse_prefix.mp reverse_prefix.mp

/-- A range that starts at genesis is not a proper end of one that links there only once. -/
theorem eq_of_suffix_genesis {xs ys : List Entry} {a : Bytes} (hne : xs ≠ [])
    (hokx : (verifyEntries sha xs a).ok = true) (hgx : (verifyEntries sha xs a).fromGenesis = true)
    (htail : ∀ e ∈ ys.tail, e.prevHash ≠ genesisHash) (hsuf : xs <:+ ys) : xs = ys := by
  obtain ⟨pre, rfl⟩ := hsuf
  cases xs with
  | nil => exact absurd rfl hne
  | cons e xs =>
    cases pre with
    | nil => rfl
    | cons p pre =>
      have hg := verifyEntries_fromGenesis hokx hgx
      exact absurd hg (htail e (by simp))

end

/-- Two ranges of decoded records that verify to the same non-empty head: one is a suffix of
    the other, and they are equal when both start at genesis and link there only at their
    first record. -/
theorem verifyEntries_same_head (sha : Bytes → Bytes) (xs ys : List Entry) (a b : Bytes)
    (hx : ∀ e ∈ xs, e.Decoded) (hy : ∀ e ∈ ys, e.Decoded)
    (hinj : ∀ e ∈ xs, ∀ f ∈ ys, sha e.hashed = sha f.hashed → e.hashed = f.hashed)
    (hokx : (verifyEntries sha xs a).ok = true) (hoky : (verifyEntries sha ys b).ok = true)
    (hhead : (verifyEntries sha xs a).headHash = (verifyEntries sha ys b).headHash)
    (hne : (verifyEntries sha xs a).headHash ≠ []) :
    (xs <:+ ys ∨ ys <:+ xs) ∧
      ((verifyEntries sha xs a).fromGenesis = true → (verifyEntries sha ys b).fromGenesis = true →
        (∀ e ∈ xs.tail, e.prevHash ≠ genesisHash) → (∀ e ∈ ys.tail, e.prevHash ≠ genesisHash) →
        xs = ys) := by
  have hsuf := suffix_of_verified hx hy hinj hokx hoky hhead hne
  refine ⟨hsuf, fun hgx hgy htx hty => ?_⟩
  have hnx : xs ≠ [] := by
    rintro rfl
    exact hne rfl
  have hny : ys ≠ [] := by
    rintro rfl
    exact hne hhead
  rcases hsuf with h | h
  · exact eq_of_suffix_genesis hnx hokx hgx hty h
  · exact (eq_of_suffix_genesis hny hoky hgy htx h).symm

theorem verifyEntries_same_head_sample :
    (sampleChain.tail <:+ sampleChain ∨ sampleChain <:+ sampleChain.tail) :=
  (verifyEntries_same_head lengthSha sampleChain.tail sampleChain [] []
    (fun e he => ⟨e.marshal, unmarshal_of_valid (valid_sampleChain e (mem_of_mem_tail he))⟩)
    (fun e he => ⟨e.marshal, unmarshal_of_valid (valid_sampleChain e he)⟩)
    (by decide +kernel) (by decide +kernel) (by decide +kernel) (by decide +kernel)
    (by decide +kernel)).1

end Tuck.Audit
