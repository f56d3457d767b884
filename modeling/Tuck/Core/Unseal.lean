/-
  Unsealing by shards: `Core.UnsealShard` over the Shamir seal and the barrier.

  The endpoint takes strings from anyone. A string that is rejected before it is buffered
  changes nothing, and a point of the sharing is as good as a share; under those alone the
  seal keeps collecting and any k shares open the barrier (`recoverable_of_harmless`). A
  string that is neither is kept in the buffer, and when the threshold is reached with it the
  seal is done with a wrong key and stays so (`forged_shares_block`).
-/
import Tuck.Seal.Seal
import Tuck.Base.Machine
import Tuck.Barrier.Rotate

namespace Tuck.Core

open Tuck.Base Host Prog Barrier Seal Shamir List

inductive UnsealErr where
  | ofSeal (e : Seal.Err)
  | ofBarrier (e : Barrier.Err)

/-- A core with a Shamir seal. -/
structure ShamirCore where
  shamir : ShamirSeal
  mem : Memory
  world : World

namespace ShamirCore

def unsealShard (E : Env) (c : ShamirCore) (share : Bytes) : ShamirCore × Except UnsealErr Bool :=
  match c.shamir.acceptShard share with
  | (s, .error e) => ({ c with shamir := s }, .error (.ofSeal e))
  | (s, .ok none) => ({ c with shamir := s }, .ok false)
  | (s, .ok (some rootKey)) =>
      match run (handle E) (unsealWith E rootKey c.mem) c.world with
      -- the seal stays done although the barrier did not open
      | ((mem, .error e), w) => (⟨s, mem, w⟩, .error (.ofBarrier e))
      | ((mem, .ok _), w) => (⟨s, mem, w⟩, .ok true)

/-- `Core.Seal`; a core that waits for shards after its start is in this state too. -/
def sealCore (c : ShamirCore) : ShamirCore := { c with shamir := c.shamir.reset, mem := none }

/-- The core after one call. -/
def step (E : Env) (c : ShamirCore) (share : Bytes) : ShamirCore := (c.unsealShard E share).1

end ShamirCore

/-! ## What may be submitted -/

/-- The string is not buffered, or it is a point of the sharing. -/
def Harmless (S : Sharing) (c : ShamirCore) (share : Bytes) : Prop :=
  c.shamir.done = true ∨ ∀ raw, rawURLDecode share = some raw →
    raw.length < 2 ∨ xCoord raw ∈ c.shamir.received.map xCoord ∨ S.Genuine raw

/-- Some k distinct shares, submitted in rounds, open the barrier. -/
def Recoverable (E : Env) (S : Sharing) (c : ShamirCore) : Prop :=
  ∃ round, round.Nodup ∧ round.length = S.k ∧ round ⊆ S.shares.map rawURLEncode ∧
    ∃ rounds, (runs (ShamirCore.step E) c (List.replicate rounds round).flatten).mem ≠ none

/-! ## The seal while it collects -/

section

variable {E : Env} {S : Sharing} {c : ShamirCore} {share raw : Bytes}

/-- A sealed core that has buffered points of the sharing only. -/
structure Collecting (E : Env) (S : Sharing) (c : ShamirCore) : Prop where
  mem : c.mem = none
  done : c.shamir.done = false
  k : c.shamir.k = S.k
  lt : c.shamir.received.length < c.shamir.k
  genuine : ∀ raw ∈ c.shamir.received, S.Genuine raw
  nodup : (c.shamir.received.map xCoord).Nodup
  loads : ∃ m, loadStore E S.secret c.world.store = .ok m

/-- A core that the shards have opened. -/
structure Opened (c : ShamirCore) : Prop where
  mem : c.mem ≠ none
  done : c.shamir.done = true

theorem step_of_done (h : c.shamir.done = true) : c.step E share = c := by
  rw [ShamirCore.step, ShamirCore.unsealShard, ShamirSeal.acceptShard, if_pos h]

theorem step_of_undecoded (hdone : c.shamir.done = false) (h : rawURLDecode share = none) :
    c.step E share = c := by
  rw [ShamirCore.step, ShamirCore.unsealShard, ShamirSeal.acceptShard, hdone, h]
  rfl

theorem step_of_short (hdone : c.shamir.done = false) (h : rawURLDecode share = some raw)
    (hlen : raw.length < 2) : c.step E share = c := by
  rw [ShamirCore.step, ShamirCore.unsealShard, ShamirSeal.acceptShard, hdone, h]
  simp only [Bool.false_eq_true, if_false, if_pos hlen]

theorem step_of_duplicate (hdone : c.shamir.done = false) (h : rawURLDecode share = some raw)
    (hx : xCoord raw ∈ c.shamir.received.map xCoord) : c.step E share = c := by
  rw [ShamirCore.step, ShamirCore.unsealShard, ShamirSeal.acceptShard, hdone, h]
  by_cases hlen : raw.length < 2
  · simp only [Bool.false_eq_true, if_false, if_pos hlen]
  · simp only [Bool.false_eq_true, if_false, if_neg hlen, if_pos hx]

theorem acceptShard_collect {s : ShamirSeal} (hdone : s.done = false)
    (h : rawURLDecode share = some raw) (hlen : 2 ≤ raw.length)
    (hx : xCoord raw ∉ s.received.map xCoord) : s.acceptShard share = s.collect raw := by
  rw [ShamirSeal.acceptShard, hdone, h]
  simp only [Bool.false_eq_true, if_false, if_neg (Nat.not_lt.mpr hlen), if_neg hx]

/-- A new point is buffered, or it is the last one and the barrier opens. -/
theorem Collecting.step_genuine (hc : Collecting E S c) (h : rawURLDecode share = some raw)
    (hgen : S.Genuine raw) (hx : xCoord raw ∉ c.shamir.received.map xCoord) :
    Opened (c.step E share) ∨
      (Collecting E S (c.step E share) ∧
        (c.step E share).shamir.received = c.shamir.received ++ [raw]) := by
  have hlen : 2 ≤ raw.length := by
    have hpos := S.secret_length_pos
    rw [hgen.length]
    omega
  have hgen' : ∀ r ∈ c.shamir.received ++ [raw], S.Genuine r := by
    intro r hr
    rcases mem_append.mp hr with hr | hr
    · exact hc.genuine r hr
    · rw [mem_singleton.mp hr]; exact hgen
  have hnodup' : ((c.shamir.received ++ [raw]).map xCoord).Nodup := by
    rw [map_append, nodup_append]
    refine ⟨hc.nodup, nodup_singleton _, fun a ha b hb => ?_⟩
    rw [map_singleton, mem_singleton] at hb
    rintro rfl
    exact hx (hb ▸ ha)
  rw [ShamirCore.step, ShamirCore.unsealShard, acceptShard_collect hc.done h hlen hx,
    ShamirSeal.collect]
  by_cases hk : (c.shamir.received ++ [raw]).length < c.shamir.k
  · rw [if_pos hk]
    exact Or.inr ⟨⟨hc.mem, hc.done, hc.k, hk, hgen', hnodup', hc.loads⟩, rfl⟩
  · -- the threshold: the k buffered points are all there are
    have hlt := hc.lt
    have hfull : (c.shamir.received ++ [raw]).length = S.k := by
      rw [length_append, length_singleton] at hk ⊢
      have := hc.k
      omega
    have hcombine := Sharing.combine_points hfull.ge hgen' hnodup'
    obtain ⟨m, hm⟩ := hc.loads
    rw [if_neg hk, hc.k, ← hfull, take_length, hcombine]
    rw [hc.mem]
    simp only [run_unsealWith_ok hm]
    exact Or.inl ⟨nofun, rfl⟩

/-- One harmless string. -/
theorem Collecting.step_harmless (hc : Collecting E S c) (h : Harmless S c share) :
    Opened (c.step E share) ∨ Collecting E S (c.step E share) := by
  have hall := h.resolve_left (by rw [hc.done]; decide)
  cases hraw : rawURLDecode share with
  | none => rw [step_of_undecoded hc.done hraw]; exact Or.inr hc
  | some raw =>
    by_cases hx : xCoord raw ∈ c.shamir.received.map xCoord
    · rw [step_of_duplicate hc.done hraw hx]; exact Or.inr hc
    · rcases hall raw hraw with hlen | hdup | hgen
      · rw [step_of_short hc.done hraw hlen]; exact Or.inr hc
      · exact absurd hdup hx
      · exact (hc.step_genuine hraw hgen hx).imp_right And.left

/-- The x-coordinate a string is buffered under. -/
def xOf (share : Bytes) : UInt8 := xCoord ((rawURLDecode share).getD [])

/-- The x-coordinates buffered so far. -/
def buffered (c : ShamirCore) : List UInt8 := c.shamir.received.map xCoord

/-- One share: its x-coordinate is buffered afterwards, and none is lost. -/
theorem Collecting.step_share (hc : Collecting E S c) (h : rawURLDecode share = some raw)
    (hgen : S.Genuine raw) :
    Opened (c.step E share) ∨ (Collecting E S (c.step E share) ∧
      xOf share ∈ buffered (c.step E share) ∧ buffered c ⊆ buffered (c.step E share)) := by
  have hxOf : xOf share = xCoord raw := by rw [xOf, h]; rfl
  by_cases hx : xCoord raw ∈ c.shamir.received.map xCoord
  · rw [step_of_duplicate hc.done h hx, hxOf]
    exact Or.inr ⟨hc, hx, List.Subset.refl _⟩
  · rcases hc.step_genuine h hgen hx with hopen | ⟨hc', hrec⟩
    · exact Or.inl hopen
    · rw [buffered, buffered, hrec, hxOf, map_append, map_singleton]
      exact Or.inr ⟨hc', mem_append_right _ (mem_singleton.mpr rfl),
        subset_append_left _ _⟩

/-- A seal that is done accepts nothing more. -/
theorem runs_of_done (h : c.shamir.done = true) (shares : List Bytes) :
    runs (ShamirCore.step E) c shares = c := by
  induction shares with
  | nil => rfl
  | cons share shares ih =>
    rw [runs, foldl_cons, step_of_done h]
    exact ih

/-- A round of shares opens the barrier or leaves all their x-coordinates buffered. -/
theorem Collecting.runs_shares {shares : List Bytes} (hc : Collecting E S c)
    (hs : ∀ share ∈ shares, ∃ raw, rawURLDecode share = some raw ∧ S.Genuine raw) :
    Opened (runs (ShamirCore.step E) c shares) ∨
      (Collecting E S (runs (ShamirCore.step E) c shares) ∧
        buffered c ⊆ buffered (runs (ShamirCore.step E) c shares) ∧
        shares.map xOf ⊆ buffered (runs (ShamirCore.step E) c shares)) := by
  induction shares generalizing c with
  | nil => exact Or.inr ⟨hc, List.Subset.refl _, nil_subset _⟩
  | cons share shares ih =>
    obtain ⟨raw, hraw, hgen⟩ := hs share mem_cons_self
    have hrest := fun s hmem => hs s (mem_cons_of_mem share hmem)
    rcases hc.step_share hraw hgen with hopen | ⟨hc', hx, hsub⟩
    · left
      rw [runs, foldl_cons, ← runs, runs_of_done hopen.done]
      exact hopen
    · refine (ih hc' hrest).imp_right fun ⟨hc'', hsub', hmap⟩ =>
        ⟨hc'', List.Subset.trans hsub hsub', ?_⟩
      rw [map_cons]
      exact cons_subset.mpr ⟨hsub' hx, hmap⟩

/-! ## Shares of the sharing -/

theorem decode_share (h : share ∈ S.shares.map rawURLEncode) :
    rawURLDecode share = some (S.pointAt (xOf share)) := by
  obtain ⟨raw, hraw, rfl⟩ := mem_map.mp h
  have hgen := Sharing.genuine_of_mem_shares hraw
  rw [xOf, rawURLDecode_encode, Option.getD_some, ← hgen]

theorem xOf_injOn {a b : Bytes} (ha : a ∈ S.shares.map rawURLEncode)
    (hb : b ∈ S.shares.map rawURLEncode) (h : xOf a = xOf b) : a = b := by
  obtain ⟨ra, -, rfl⟩ := mem_map.mp ha
  obtain ⟨rb, -, rfl⟩ := mem_map.mp hb
  have heq := (decode_share ha).trans (h ▸ (decode_share hb).symm)
  rw [rawURLDecode_encode, rawURLDecode_encode] at heq
  rw [Option.some.inj heq]

/-- Any k distinct shares open a collecting core. -/
theorem Collecting.opens {round : List Bytes} (hc : Collecting E S c) (hnodup : round.Nodup)
    (hlen : round.length = S.k) (hsub : round ⊆ S.shares.map rawURLEncode) :
    Opened (runs (ShamirCore.step E) c round) := by
  have hs : ∀ share ∈ round, ∃ raw, rawURLDecode share = some raw ∧ S.Genuine raw :=
    fun share h => ⟨_, decode_share (hsub h), Sharing.genuine_pointAt _⟩
  refine (hc.runs_shares hs).resolve_right fun ⟨hc', _, hmap⟩ => ?_
  -- k distinct x-coordinates do not fit into a buffer of fewer than k shares
  have hx : (round.map xOf).Nodup :=
    hnodup.map_on fun a ha b hb h => xOf_injOn (hsub ha) (hsub hb) h
  have hle := (hx.subperm hmap).length_le
  have hlt := hc'.lt
  rw [length_map, hlen, buffered, length_map] at hle
  have := hc'.k
  omega

theorem shares_nodup : (S.shares.map rawURLEncode).Nodup := by
  refine List.Nodup.map rawURLEncode_injective ?_
  refine List.Nodup.map_on (fun i hi j hj h => ?_) nodup_range
  have hx := congrArg xCoord h
  rw [Sharing.xCoord_pointAt, Sharing.xCoord_pointAt] at hx
  have hn := S.n_le
  have hi' := mem_range.mp hi
  have hj' := mem_range.mp hj
  have := congrArg UInt8.toNat hx
  rw [UInt8.toNat_ofNat', UInt8.toNat_ofNat'] at this
  omega

theorem Collecting.recoverable (hc : Collecting E S c) : Recoverable E S c := by
  have hlen : ((S.shares.map rawURLEncode).take S.k).length = S.k := by
    rw [length_take, length_map, Sharing.shares, length_map, length_range,
      min_eq_left S.k_le]
  have hnodup := shares_nodup (S := S).sublist (take_sublist S.k _)
  have hopen := hc.opens hnodup hlen (take_subset S.k _)
  refine ⟨_, hnodup, hlen, take_subset S.k _, 1, ?_⟩
  rw [replicate_one, flatten_singleton]
  exact hopen.mem

end

/-- `Seal` leaves a core that collects. -/
theorem collecting_sealCore {E : Env} {S : Sharing} {c : ShamirCore} (hk : c.shamir.k = S.k)
    (hload : ∃ m, loadStore E S.secret c.world.store = .ok m) : Collecting E S c.sealCore where
  mem := rfl
  done := rfl
  k := hk
  lt := Nat.lt_of_lt_of_le Nat.zero_lt_two c.shamir.two_le_k
  genuine _ h := absurd h not_mem_nil
  nodup := nodup_nil
  loads := hload

/-- While every string submitted is one that is not buffered or a point of the sharing, a core
    that is still sealed can be opened by k shares. -/
theorem recoverable_of_harmless (E : Env) (S : Sharing) (c : ShamirCore) (hk : c.shamir.k = S.k)
    (hload : ∃ m, loadStore E S.secret c.world.store = .ok m) (shares : List Bytes)
    (hsafe : Meets (ShamirCore.step E) (Harmless S) c.sealCore shares)
    (hsealed : (runs (ShamirCore.step E) c.sealCore shares).mem = none) :
    Recoverable E S (runs (ShamirCore.step E) c.sealCore shares) := by
  have hinv : Opened (runs (ShamirCore.step E) c.sealCore shares) ∨
      Collecting E S (runs (ShamirCore.step E) c.sealCore shares) := by
    refine hsafe.holds (P := fun c => Opened c ∨ Collecting E S c)
      (Or.inr (collecting_sealCore hk hload)) fun c share hok hc => ?_
    rcases hc with hopen | hc
    · rw [step_of_done hopen.done]; exact Or.inl hopen
    · exact hc.step_harmless hok
  rcases hinv with hopen | hc
  · exact absurd hsealed hopen.mem
  · exact hc.recoverable

/-- The root key of the sample store, shared 2 of 3. -/
def sampleSharing : Sharing where
  secret := plainKey 7
  rows := List.replicate keySize [1]
  n := 3
  k := 2
  secret_ne := by decide
  k_pos := by decide
  k_le := by decide
  n_le := by decide
  rows_length := by decide
  row_length _ h := by rw [eq_of_mem_replicate h]; rfl

def sampleCore : ShamirCore where
  shamir := ⟨⟨3, 2, by decide, by decide, by decide⟩, [], false⟩
  mem := none
  world := sampleWorld

theorem sampleCore_loads :
    ∃ m, loadStore plainEnv sampleSharing.secret sampleCore.world.store = .ok m := by
  have h : (loadStore plainEnv sampleSharing.secret sampleCore.world.store).toBool = true := by
    decide +kernel
  cases hl : loadStore plainEnv sampleSharing.secret sampleCore.world.store with
  | ok m => exact ⟨m, rfl⟩
  | error e => rw [hl] at h; exact absurd h Bool.false_ne_true

/-- After one string that is no share and one share, two shares open the sample core. -/
theorem sampleCore_recoverable :
    Recoverable plainEnv sampleSharing (runs (ShamirCore.step plainEnv) sampleCore.sealCore
      [ascii "!", rawURLEncode (sampleSharing.pointAt 1)]) := by
  refine recoverable_of_harmless plainEnv sampleSharing sampleCore rfl sampleCore_loads _
    ⟨Or.inr fun raw h => ?_, Or.inr fun raw h => ?_, trivial⟩ ?_
  · have hnone : rawURLDecode (ascii "!") = none := by decide
    rw [hnone] at h
    exact absurd h nofun
  · rw [rawURLDecode_encode] at h
    rw [← Option.some.inj h]
    exact Or.inr (Or.inr (Sharing.genuine_pointAt 1))
  · rw [← Option.isNone_iff_eq_none]
    decide +kernel

/-- Two forged shares reach the threshold with a wrong key: no share is accepted any more. -/
theorem forged_shares_block :
    ∃ (E : Env) (S : Sharing) (c : ShamirCore) (shares : List Bytes), c.shamir.k = S.k ∧
      (∃ m, loadStore E S.secret c.world.store = .ok m) ∧
      (runs (ShamirCore.step E) c.sealCore shares).mem = none ∧
      ¬ Recoverable E S (runs (ShamirCore.step E) c.sealCore shares) := by
  have hstate : (runs (ShamirCore.step plainEnv) sampleCore.sealCore
      [rawURLEncode [1, 5], rawURLEncode [2, 5]]).mem.isNone = true ∧
      (runs (ShamirCore.step plainEnv) sampleCore.sealCore
      [rawURLEncode [1, 5], rawURLEncode [2, 5]]).shamir.done = true := by decide +kernel
  obtain ⟨hmem, hdone⟩ := hstate
  rw [Option.isNone_iff_eq_none] at hmem
  refine ⟨plainEnv, sampleSharing, sampleCore, _, rfl, sampleCore_loads, hmem, ?_⟩
  rintro ⟨round, -, -, -, rounds, h⟩
  rw [runs_of_done hdone] at h
  exact h hmem

end Tuck.Core
