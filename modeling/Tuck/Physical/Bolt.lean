/-
  The storage backend over one bbolt bucket.

  A bucket is a map from keys to values whose cursor walks the keys in the order of their
  bytes. bbolt refuses an empty key and one over its size limit and then changes nothing.
  The listing loop starts at the prefix and stops at the first key without it; since the keys
  that start with a prefix are neighbours in the order of bytes, these are all of them
  (`list_eq_filter`).
-/
import Tuck.Base.KV
import Tuck.Base.Machine

namespace Tuck.Physical

open Tuck.Base List

/-- A bbolt bucket. -/
abbrev Bucket := KV.Store Bytes

/-- bbolt's key size limit. -/
def maxKeySize : Nat := 32768

/-- The errors of a write. -/
inductive Err where
  | keyRequired
  | keyTooLarge
  /-- `unmarshal command`, with the entry that is not one. -/
  | unmarshal (data : Bytes)
  /-- `decode restore payload`, with the payload. -/
  | restorePayload (value : Bytes)
  | emptySnapshot
  | emptySnapshotKey
  | longSnapshotKey
  /-- `decode snapshot`. -/
  | decodeSnapshot
  | bucketMissing
  | unknownOp (op : Bytes)
  deriving DecidableEq

/-- A key that bbolt accepts. -/
def Accepted (k : Bytes) : Prop := k ≠ [] ∧ k.length ≤ maxKeySize

instance (k : Bytes) : Decidable (Accepted k) :=
  inferInstanceAs (Decidable (k ≠ [] ∧ k.length ≤ maxKeySize))

namespace Bucket

/-- `Bucket.Put`, with its error and the bucket after it. -/
def put (b : Bucket) (k v : Bytes) : Option Err × Bucket :=
  if k = [] then (some .keyRequired, b)
  else if maxKeySize < k.length then (some .keyTooLarge, b)
  else (none, b.insert k v)

/-- The keys from the cursor's position on: `Seek(pre)`, then `Next` while the prefix is there. -/
def list (b : Bucket) (pre : Bytes) : List Bytes :=
  ((KV.sortKeys b.keys).dropWhile fun k => k < pre).takeWhile fun k => hasPrefix k pre

theorem put_accepted {k : Bytes} (h : Accepted k) (b : Bucket) (v : Bytes) :
    b.put k v = (none, b.insert k v) := by
  rw [put, if_neg h.1, if_neg (Nat.not_lt.mpr h.2)]

theorem put_error {b : Bucket} {k v : Bytes} (h : (b.put k v).1 ≠ none) : (b.put k v).2 = b := by
  unfold put at h ⊢
  split_ifs at h ⊢
  · rfl
  · rfl
  · exact absurd rfl h

end Bucket

/-! ## The backend interface -/

/-- A call of `physical.Backend`. -/
inductive Op where
  | get (key : Bytes)
  | put (key value : Bytes)
  | delete (key : Bytes)
  | list (pre : Bytes)

/-- What a call returns. An entry is the key asked for and its value. -/
inductive Reply where
  | entry (e : Option (Bytes × Bytes))
  | done (err : Option Err)
  | keys (ks : List Bytes)
  deriving DecidableEq

/-- The keys of the call are ones that bbolt accepts. -/
def Op.Accepted : Op → Prop
  | .get k => Physical.Accepted k
  | .put k _ => Physical.Accepted k
  | .delete k => Physical.Accepted k
  | .list _ => True

/-- The key that the call writes. -/
def Op.written : Op → Option Bytes
  | .put k _ => some k
  | .delete k => some k
  | _ => none

/-- `Bolt.Get`, `Bolt.Put`, `Bolt.Delete` and `Bolt.List`. -/
def Bolt.step (b : Bucket) : Op → Reply × Bucket
  | .get k => (.entry ((b.lookup k).map fun v => (k, v)), b)
  | .put k v => (.done (b.put k v).1, (b.put k v).2)
  | .delete k => (.done none, b.erase k)
  | .list pre => (.keys (b.list pre), b)

/-! ## The listing loop -/

/-- What lies between a prefix and a string that has it, has it. -/
theorem prefix_of_le {p k k' : Bytes} (hpk : p ≤ k) (hk : k ≤ k') (hp : p <+: k') : p <+: k := by
  induction p generalizing k k' with
  | nil => exact nil_prefix
  | cons c p ih =>
    obtain ⟨t, rfl⟩ := hp
    cases k with
    | nil => exact absurd hpk (by simp)
    | cons d k =>
      rw [cons_append] at hk
      rw [cons_le_cons_iff] at hpk hk
      rcases hpk with hlt | ⟨rfl, hpk⟩
      · rcases hk with hlt' | ⟨rfl, -⟩
        · exact absurd (UInt8.lt_trans hlt hlt') (UInt8.lt_irrefl c)
        · exact absurd hlt (UInt8.lt_irrefl d)
      · rcases hk with hlt | ⟨-, hk⟩
        · exact absurd hlt (UInt8.lt_irrefl c)
        · exact cons_prefix_cons.mpr ⟨rfl, ih hpk hk (prefix_append p t)⟩

theorem prefix_le {p k : Bytes} (h : p <+: k) : p ≤ k := by
  induction p generalizing k with
  | nil => exact nil_le k
  | cons c p ih =>
    obtain ⟨t, rfl⟩ := h
    rw [cons_append, cons_le_cons_iff]
    exact Or.inr ⟨rfl, ih (prefix_append p t)⟩

theorem takeWhile_eq_filter {p : Bytes} {l : List Bytes} (hsorted : l.Pairwise (· ≤ ·))
    (hp : ∀ k ∈ l, p ≤ k) :
    (l.takeWhile fun k => hasPrefix k p) = l.filter fun k => hasPrefix k p := by
  induction l with
  | nil => rfl
  | cons k l ih =>
    obtain ⟨hk, hl⟩ := pairwise_cons.mp hsorted
    rw [takeWhile_cons, filter_cons]
    by_cases h : hasPrefix k p = true
    · rw [if_pos h, if_pos h, ih hl fun k' hk' => hp k' (mem_cons_of_mem k hk')]
    · -- a later key with the prefix would give it to this one
      rw [if_neg h, if_neg h, eq_comm, filter_eq_nil_iff]
      intro k' hk' h'
      exact h (hasPrefix_iff.mpr
        (prefix_of_le (hp k mem_cons_self) (hk k' hk') (hasPrefix_iff.mp h')))

theorem cursor_eq_filter {p : Bytes} {l : List Bytes} (hsorted : l.Pairwise (· ≤ ·)) :
    ((l.dropWhile fun k => k < p).takeWhile fun k => hasPrefix k p) =
      l.filter fun k => hasPrefix k p := by
  induction l with
  | nil => rfl
  | cons k l ih =>
    obtain ⟨hk, hl⟩ := List.pairwise_cons.mp hsorted
    rw [List.dropWhile_cons]
    by_cases hlt : k < p
    · have hne : ¬hasPrefix k p = true := fun h =>
        List.not_lt.mpr (prefix_le (hasPrefix_iff.mp h)) hlt
      rw [if_pos (decide_eq_true hlt), List.filter_cons, if_neg hne, ih hl]
    · have hle : p ≤ k := List.not_lt.mp hlt
      rw [if_neg (by simpa using hle)]
      refine takeWhile_eq_filter hsorted (List.forall_mem_cons.mpr ⟨hle, fun k' hk' => ?_⟩)
      exact List.le_trans hle (hk k' hk')

/-- The listing is that of a map: the keys with the prefix, in the order of their bytes. -/
theorem Bucket.list_eq_filter (b : Bucket) (pre : Bytes) :
    b.list pre = (KV.sortKeys b.keys).filter fun k => hasPrefix k pre :=
  cursor_eq_filter (KV.pairwise_sortKeys b.keys)

/-! ## The backend is a map -/

/-- A map with prefix listing in key order. -/
def mapStep (m : KV.Store Bytes) : Op → Reply × KV.Store Bytes
  | .get k => (.entry ((m.lookup k).map fun v => (k, v)), m)
  | .put k v => (.done none, m.insert k v)
  | .delete k => (.done none, m.erase k)
  | .list pre => (.keys ((KV.sortKeys m.keys).filter fun k => hasPrefix k pre), m)

theorem Bolt.step_eq_mapStep {op : Op} (h : op.Accepted) (b : Bucket) :
    Bolt.step b op = mapStep b op := by
  cases op with
  | get k => rfl
  | put k v => rw [Bolt.step, Bucket.put_accepted h, mapStep]
  | delete k => rfl
  | list pre => rw [Bolt.step, Bucket.list_eq_filter, mapStep]

theorem converse_bolt (b : Bucket) {ops : List Op} (h : ∀ op ∈ ops, op.Accepted) :
    converse Bolt.step b ops = converse mapStep b ops := by
  induction ops generalizing b with
  | nil => rfl
  | cons op ops ih =>
    obtain ⟨hop, hops⟩ := forall_mem_cons.mp h
    simp only [converse, Bolt.step_eq_mapStep hop, ih _ hops]

end Tuck.Physical
