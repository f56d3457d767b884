/-
  The Raft backend of a single node, beside the bbolt backend.

  A write is a command in JSON that the state machine decodes, a read goes to the local
  state. JSON text is UTF-8: a byte of a key that is none is written as U+FFFD. So the
  backend is the map that the bbolt backend is as long as the keys that are written are
  valid UTF-8, and not for any other key (`backend_faithful_iff`). Its own state has only
  keys that were decoded, so a snapshot, which is JSON too, restores it exactly
  (`restore_snapshot`).
-/
import Tuck.Raft.FSM

namespace Tuck.Raft

open Tuck.Base Physical List Option

/-! ## The backend -/

/-- The state of a node that is its own cluster. -/
structure Single where
  db : Db
  /-- The index of the last log entry. -/
  index : Nat

/-- `newFSM` on an empty directory. -/
def Single.start : Single := ⟨some ∅, 0⟩

section

variable (N : Node) (clock : Nat → Int)

/-- `Backend.apply` on the leader: the command is appended, committed and applied. -/
def Single.apply (s : Single) (c : Command) : Option Err × Single :=
  let l : Log := ⟨s.index + 1, c.marshal, clock (s.index + 1)⟩
  let r := applyBatch N (clock (s.index + 1)) s.db [l]
  (r.results.head?.join, ⟨r.db, s.index + 1⟩)

/-- `fsm.get`. -/
def fsmGet (db : Db) (k : Bytes) : Option (Bytes × Bytes) :=
  match db with
  | none => none
  | some b => (b.lookup k).map fun v => (k, v)

/-- `fsm.list`. -/
def fsmList (db : Db) (pre : Bytes) : List Bytes :=
  match db with
  | none => []
  | some b => b.list pre

/-- `Backend.Get`, `Backend.Put`, `Backend.Delete` and `Backend.List`. -/
def Single.step (s : Single) : Op → Reply × Single
  | .get k => (.entry (fsmGet s.db k), s)
  | .put k v =>
      let r := s.apply N clock ⟨opPut, k, v⟩
      (.done r.1, r.2)
  | .delete k =>
      let r := s.apply N clock ⟨opDelete, k, []⟩
      (.done r.1, r.2)
  | .list pre => (.keys (fsmList s.db pre), s)

end

/-! ## Snapshots -/

def snapshot (db : Db) : KV.Store Bytes := db.getD ∅

/-- `fsmSnapshot.Persist`: an object with the keys in order, and a line feed. -/
def persist (data : KV.Store Bytes) : Bytes :=
  (Json.obj ((KV.sortKeys data.keys).map fun k =>
    (k, .str (stdEncode ((data.lookup k).getD []))))).encode ++ [0x0A]

/-- The first value of a stream, as `Decoder.Decode` reads it. -/
def decodeFirst (raw : Bytes) : Option Json :=
  ((readValue (raw.length + 1) raw).map Prod.fst).filter fun j => j.depth ≤ maxNestingDepth

def restore (L : KV.Listing) (raw : Bytes) (db : Db) : Option Err × Db :=
  match (decodeFirst raw).bind toMap with
  | none => (some .decodeSnapshot, db)
  | some data => update (fun _ => replaceAllTx L data) db

/-! ## One call -/

section

variable (N : Node) (clock : Nat → Int) {s : Single} {b : Bucket}

theorem apply_put (hs : s.db = some b) (k v : Bytes) :
    s.apply N clock ⟨opPut, k, v⟩ =
      ((b.put (sanitize k) v).1, ⟨some (b.put (sanitize k) v).2, s.index + 1⟩) := by
  have hop : sanitize opPut = opPut := by decide
  have hne : ¬opPut = opRestore := by decide
  simp only [Single.apply, applyBatch, map_cons, map_nil, decode_marshal, hop, batchTx,
    applyCmd, if_neg hne, hs, if_true, List.head?_cons, join_some]

theorem apply_delete (hs : s.db = some b) (k : Bytes) :
    s.apply N clock ⟨opDelete, k, []⟩ = (none, ⟨some (b.erase (sanitize k)), s.index + 1⟩) := by
  have hop : sanitize opDelete = opDelete := by decide
  have hne : ¬opDelete = opRestore := by decide
  have hne' : ¬opDelete = opPut := by decide
  simp only [Single.apply, applyBatch, map_cons, map_nil, decode_marshal, hop, batchTx,
    applyCmd, if_neg hne, if_neg hne', hs, if_true, List.head?_cons, join_some]

/-- A call that writes no other keys than valid ones does what the bbolt backend does. -/
theorem step_valid (hs : s.db = some b) {op : Op} (hop : ∀ k, op.written = some k → Utf8Valid k) :
    (s.step N clock op).1 = (Bolt.step b op).1 ∧
      (s.step N clock op).2.db = some (Bolt.step b op).2 := by
  cases op with
  | get k => simp only [Single.step, Bolt.step, fsmGet, hs, and_self]
  | put k v =>
    rw [Single.step, apply_put N clock hs, sanitize_of_valid (hop k rfl)]
    exact ⟨rfl, rfl⟩
  | delete k =>
    rw [Single.step, apply_delete N clock hs, sanitize_of_valid (hop k rfl)]
    exact ⟨rfl, rfl⟩
  | list pre => simp only [Single.step, Bolt.step, fsmList, hs, and_self]

/-- Every stored key was accepted by bbolt and decoded from JSON. -/
def Held (b : Bucket) : Prop := ∀ k ∈ b, Accepted k ∧ Utf8Valid k

theorem held_put (hb : Held b) (k v : Bytes) : Held (b.put (sanitize k) v).2 := by
  by_cases hk : Accepted (sanitize k)
  · rw [Bucket.put_accepted hk]
    intro k' hk'
    rcases Finmap.mem_insert.mp hk' with rfl | hk'
    · exact ⟨hk, utf8Valid_sanitize k⟩
    · exact hb k' hk'
  · have herror : (b.put (sanitize k) v).1 ≠ none := by
      unfold Bucket.put
      split_ifs with h1 h2
      · exact nofun
      · exact nofun
      · exact absurd ⟨h1, Nat.not_lt.mp h2⟩ hk
    rw [Bucket.put_error herror]
    exact hb

theorem step_held (hs : s.db = some b) (hb : Held b) (op : Op) :
    ∃ b', (s.step N clock op).2.db = some b' ∧ Held b' := by
  cases op with
  | get k => exact ⟨b, hs, hb⟩
  | put k v =>
    rw [Single.step, apply_put N clock hs]
    exact ⟨_, rfl, held_put hb k v⟩
  | delete k =>
    rw [Single.step, apply_delete N clock hs]
    exact ⟨_, rfl, fun k' hk' => hb k' (Finmap.mem_erase.mp hk').2⟩
  | list pre => exact ⟨b, hs, hb⟩

theorem converse_held (hs : s.db = some b) (hb : Held b) (ops : List Op) :
    ∃ b', (converse (Single.step N clock) s ops).2.db = some b' ∧ Held b' := by
  induction ops generalizing s b with
  | nil => exact ⟨b, hs, hb⟩
  | cons op ops ih =>
    obtain ⟨b', hs', hb'⟩ := step_held N clock hs hb op
    exact ih hs' hb'

end

/-! ## A snapshot restored -/

section

variable {data : KV.Store Bytes}

/-- The members of a snapshot. -/
def members (data : KV.Store Bytes) (ks : List Bytes) : List (Bytes × Json) :=
  ks.map fun k => (k, .str (stdEncode ((data.lookup k).getD [])))

theorem depth_members (data : KV.Store Bytes) (ks : List Bytes) :
    depthMembers (members data ks) = 0 := by
  induction ks with
  | nil => rfl
  | cons k ks ih =>
    have hstr : (Json.str (stdEncode ((data.lookup k).getD []))).depth = 0 := by simp [Json.depth]
    rw [members, map_cons, depthMembers, hstr, ← members, ih, Nat.max_self]

theorem sanitize_members {ks : List Bytes} (h : ∀ k ∈ ks, Utf8Valid k) :
    sanitizeMembers (members data ks) = members data ks := by
  refine sanitizeMembers_eq fun m hm => ?_
  obtain ⟨k, hk, rfl⟩ := mem_map.mp hm
  exact ⟨sanitize_of_valid (h k hk), sanitize_str_stdEncode _⟩

theorem toMap_members (data : KV.Store Bytes) (ks : List Bytes) :
    toMap (.obj (members data ks)) = some (KV.fill [] data ks) := by
  change (members data ks).foldlM _ ∅ = some (KV.fill [] data ks)
  unfold KV.fill members
  generalize (∅ : KV.Store Bytes) = m
  induction ks generalizing m with
  | nil => rfl
  | cons k ks ih =>
    have hbytes : (Json.str (stdEncode ((data.lookup k).getD []))).toBytes =
        some ((data.lookup k).getD []) := stdDecode_encode _
    rw [map_cons, foldlM_cons, hbytes]
    exact ih _

theorem decodeFirst_persist (h : ∀ k ∈ data, Utf8Valid k) :
    (decodeFirst (persist data)).bind toMap = some data := by
  have hvalid : ∀ k ∈ KV.sortKeys data.keys, Utf8Valid k := fun k hk =>
    h k (Finmap.mem_keys.mp (KV.sorted.mem_order.mp hk))
  have hint : (Json.obj (members data (KV.sortKeys data.keys))).IntNums := by
    refine intMembers_iff.mpr fun m hm => ?_
    obtain ⟨k, -, rfl⟩ := mem_map.mp hm
    trivial
  have hsan : (Json.obj (members data (KV.sortKeys data.keys))).sanitize =
      .obj (members data (KV.sortKeys data.keys)) := by
    rw [Json.sanitize, sanitize_members hvalid]
  have hread := (Text.encoded hint (numEnd_cons (b := 0x0A) (by decide) [])).reads.2
    ((persist data).length + 1) (Nat.le_add_right_of_le (Nat.le_succ _))
  have hdepth : (Json.obj (members data (KV.sortKeys data.keys))).depth ≤ maxNestingDepth := by
    rw [Json.depth, depth_members]
    decide
  have hfirst :
      decodeFirst (persist data) = some (.obj (members data (KV.sortKeys data.keys))) := by
    rw [decodeFirst]
    change ((readValue ((persist data).length + 1)
      ((Json.obj (members data (KV.sortKeys data.keys))).encode ++ [0x0A])).map Prod.fst).filter _ =
        _
    rw [hread, hsan]
    exact filter_some_pos (decide_eq_true hdepth)
  rw [hfirst, bind_some, toMap_members]
  exact congrArg some (KV.fill_order KV.sorted [] data)

/-- A snapshot of a state of the machine restores it, whatever was there. -/
theorem restore_snapshot {b : Bucket} (hb : Held b) (L : KV.Listing) (db : Db) :
    restore L (persist (snapshot (some b))) db = (none, some b) := by
  rw [restore, snapshot, getD_some, decodeFirst_persist fun k hk => (hb k hk).2]
  simp only [update, replaceAllTx_accepted L fun k hk => (hb k (Finmap.mem_keys.mp hk)).1]

end

/-! ## The two backends -/

section

variable (N : Node) (clock : Nat → Int)

/-- The Raft backend replies to the calls as the bbolt backend and as a map with prefix
    listing in key order do, and a snapshot taken after any of them restores the map. -/
structure Faithful (ops : List Op) : Prop where
  bolt : (converse (Single.step N clock) .start ops).1 = (converse Bolt.step ∅ ops).1
  map : (converse (Single.step N clock) .start ops).1 = (converse mapStep ∅ ops).1
  restored : ∀ past, past <+: ops → ∀ L db,
    restore L (persist (snapshot (converse (Single.step N clock) .start past).2.db)) db =
      (none, some (converse mapStep ∅ past).2)

theorem held_empty : Held ∅ := fun _ hk => absurd hk Finmap.notMem_empty

/-- With keys that are valid UTF-8. -/
theorem faithful_of_valid {ops : List Op} (hops : ∀ op ∈ ops, op.Accepted)
    (hvalid : ∀ op ∈ ops, ∀ k, op.written = some k → Utf8Valid k) : Faithful N clock ops := by
  have hraft : ∀ past, (∀ op ∈ past, ∀ k, op.written = some k → Utf8Valid k) →
      (converse (Single.step N clock) .start past).1 = (converse Bolt.step ∅ past).1 ∧
        (converse (Single.step N clock) .start past).2.db = some (converse Bolt.step ∅ past).2 := by
    intro past hpast
    exact converse_eq_of_related (fun (s : Single) (b : Bucket) => s.db = some b) hpast rfl
      fun s b op hop hs => step_valid N clock hs hop
  have hmap :
      ∀ past, (∀ op ∈ past, op.Accepted) → converse Bolt.step ∅ past = converse mapStep ∅ past :=
    fun past hpast => converse_bolt ∅ hpast
  refine ⟨(hraft ops hvalid).1, ?_, fun past hpast L db => ?_⟩
  · rw [(hraft ops hvalid).1, hmap ops hops]
  · have hsub := hpast.subset
    obtain ⟨b, hdb, hheld⟩ := converse_held N clock (s := .start) rfl held_empty past
    rw [hdb, restore_snapshot hheld, ← hmap past fun op h => hops op (hsub h), ← hdb]
    exact congrArg _ (hraft past fun op h => hvalid op (hsub h)).2

/-- A key that is not valid UTF-8 is not found again. -/
theorem not_faithful {k : Bytes} (hbad : ¬Utf8Valid k) :
    ¬Faithful N clock [.put k [1], .get k] := by
  intro h
  have hne : k ≠ sanitize k := fun h => hbad (sanitize_eq_iff.mp h.symm)
  have hmissing : ((∅ : Bucket).put (sanitize k) [1]).2.lookup k = none := by
    by_cases hs : Accepted (sanitize k)
    · rw [Bucket.put_accepted hs, Finmap.lookup_insert_of_ne _ hne, Finmap.lookup_empty]
    · refine Finmap.lookup_eq_none.mpr fun hmem => hbad ?_
      exact (held_put held_empty k [1] k hmem).2
  have hmap := h.map
  simp only [converse, Single.step, apply_put N clock (s := .start) rfl, fsmGet, hmissing, mapStep,
    Finmap.lookup_insert, map_none, map_some, List.cons.injEq, Reply.entry.injEq,
    reduceCtorEq, false_and, and_false] at hmap

/-- For a set of keys to write, every sequence of calls is answered faithfully exactly if the
    keys are valid UTF-8. -/
theorem backend_faithful_iff (K : Set Bytes) :
    (∀ ops, (∀ op ∈ ops, op.Accepted ∧ ∀ k, op.written = some k → k ∈ K) → Faithful N clock ops) ↔
      ∀ k ∈ K, Accepted k → Utf8Valid k := by
  constructor
  · intro h k hk hacc
    by_contra hbad
    refine not_faithful N clock hbad (h _ ?_)
    intro op hop
    rcases mem_pair.mp hop with rfl | rfl
    · exact ⟨hacc, fun k' hk' => by cases hk'; exact hk⟩
    · exact ⟨hacc, nofun⟩
  · intro hK ops hops
    refine faithful_of_valid N clock (fun op h => (hops op h).1) fun op hop k hk => ?_
    refine hK k ((hops op hop).2 k hk) ?_
    have hacc := (hops op hop).1
    cases op with
    | put k' v => cases hk; exact hacc
    | delete k' => cases hk; exact hacc
    | get k' => cases hk
    | list pre => cases hk

end

/-- A node that visits maps in key order. -/
def sortedNode : Node := ⟨fun _ => (KV.sorted, KV.sorted), false⟩

/-- A secret at the path of one byte 0xFF: the write is acknowledged and the entry not found. -/
theorem bad_byte_key_not_found :
    (converse (Single.step sortedNode fun _ => 0) .start [.put [0xFF] [1], .get [0xFF]]).1 =
        [.done none, .entry none] ∧
      (converse Bolt.step ∅ [.put [0xFF] [1], .get [0xFF]]).1 =
        [.done none, .entry (some ([0xFF], [1]))] := by
  decide +kernel

end Tuck.Raft
