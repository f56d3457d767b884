/-
  The replicated state machine: log entries are commands in JSON, its state is a bbolt bucket.

  `apply` runs one entry in a transaction of its own, `applyBatch` all entries that were
  committed together in one transaction. In the shared transaction nothing is rolled back, so
  the two agree only because a command that fails has changed nothing (`applyCmd_error`): a
  restore is checked before the bucket is replaced, and what passed the check is accepted key
  by key. Go visits a map in no particular order, and in another one each time: a restore
  with bad keys of both kinds may report either (`applyBatch_agrees`).
-/
import Tuck.Base.Compact
import Tuck.Physical.Bolt

namespace Tuck.Raft

open Tuck.Base Physical

/-! ## Commands -/

structure Command where
  op : Bytes
  key : Bytes
  value : Bytes
  deriving DecidableEq

def opPut : Bytes := ascii "put"

def opDelete : Bytes := ascii "delete"

def opRestore : Bytes := ascii "restore"

/-- An empty value is left out. -/
def Command.json (c : Command) : Json :=
  .obj ([(ascii "op", .str c.op), (ascii "key", .str c.key)] ++
    if c.value = [] then [] else [(ascii "value", .str (stdEncode c.value))])

/-- `json.Marshal(cmd)`. -/
def Command.marshal (c : Command) : Bytes := c.json.encode

/-- One member of the object, by its folded name. -/
def Command.setField (c : Command) (kv : Bytes × Json) : Option Command :=
  if foldName kv.1 = ascii "OP" then (kv.2.toStr c.op).map fun s => { c with op := s }
  else if foldName kv.1 = ascii "KEY" then (kv.2.toStr c.key).map fun s => { c with key := s }
  else if foldName kv.1 = ascii "VALUE" then kv.2.toBytes.map fun v => { c with value := v }
  else some c

def decode (data : Bytes) : Option Command :=
  match jsonValue data with
  | some .null => some ⟨[], [], []⟩
  | some (.obj ms) => ms.foldlM Command.setField ⟨[], [], []⟩
  | _ => none

/-- A `map[string][]byte`: a later member replaces an earlier one of its name. -/
def toMap : Json → Option (KV.Store Bytes)
  | .null => some ∅
  | .obj ms => ms.foldlM (fun m kv => kv.2.toBytes.map fun v => m.insert kv.1 v) ∅
  | _ => none

/-! ## Commands written and read back -/

section

open List Option

theorem json_intNums (c : Command) : c.json.IntNums := by
  unfold Command.json
  split_ifs <;> simp [Json.IntNums, IntMembers]

theorem json_depth (c : Command) : c.json.depth ≤ maxNestingDepth := by
  unfold Command.json
  split_ifs <;> simp [Json.depth, depthMembers, maxNestingDepth]

theorem json_sanitize (c : Command) :
    c.json.sanitize = (Command.mk (sanitize c.op) (sanitize c.key) c.value).json := by
  have h1 : sanitize (ascii "op") = ascii "op" := by decide
  have h2 : sanitize (ascii "key") = ascii "key" := by decide
  have h3 : sanitize (ascii "value") = ascii "value" := by decide
  have h4 := sanitize_str_stdEncode c.value
  unfold Command.json
  split_ifs
  · simp only [Json.sanitize, sanitizeMembers, cons_append, nil_append, h1, h2]
  · simp only [Json.sanitize] at h4
    simp only [Json.sanitize, sanitizeMembers, cons_append, nil_append, h1, h2, h3, h4]

/-- A command that was written is decoded with the bad bytes of its key replaced. -/
theorem decode_marshal (c : Command) :
    decode c.marshal = some ⟨sanitize c.op, sanitize c.key, c.value⟩ := by
  have hop : foldName (ascii "op") = ascii "OP" := by decide
  have hkey : foldName (ascii "key") = ascii "KEY" := by decide
  have hvalue : foldName (ascii "value") = ascii "VALUE" := by decide
  have hbytes : (Json.str (stdEncode c.value)).toBytes = some c.value := stdDecode_encode c.value
  have hne1 : ¬ascii "KEY" = ascii "OP" := by decide
  have hne2 : ¬ascii "VALUE" = ascii "OP" := by decide
  have hne3 : ¬ascii "VALUE" = ascii "KEY" := by decide
  have hparse : jsonValue c.marshal = some c.json.sanitize := by
    rw [jsonValue, Command.marshal, parse_encode (json_intNums c), json_sanitize]
    exact filter_some_pos (decide_eq_true (json_depth _))
  rw [decode, hparse, json_sanitize]
  unfold Command.json
  simp only
  by_cases hv : c.value = []
  · simp only [append_nil, foldlM_cons, foldlM_nil, Command.setField, hop,
      hkey, if_neg hne1, if_true, Json.toStr, map_some, hv]
    rfl
  · simp only [if_neg hv, cons_append, nil_append, foldlM_cons, foldlM_nil,
      Command.setField, hop, hkey, hvalue, if_neg hne1, if_neg hne2, if_neg hne3, if_true,
      Json.toStr, map_some, hbytes]
    rfl

end

/-! ## One command -/

/-- A log entry, as far as the state machine reads it. -/
structure Log where
  index : Nat
  data : Bytes
  appendedAt : Int

/-- The orders of the two loops of a restore over its map. -/
abbrev Orders := KV.Listing × KV.Listing

/-- What the state machine does not determine: the orders in which Go visits a map, for each
    entry of the log, and whether the restore hook is set. -/
structure Node where
  iter : Nat → Orders
  hook : Bool

/-- The database: the data bucket, if it exists. -/
abbrev Db := Option Bucket

def validateRestoreData (L : KV.Listing) (data : KV.Store Bytes) : Option Err :=
  if data.keys = ∅ then some .emptySnapshot
  else (L.order data.keys).findSome? fun k =>
    if k = [] then some .emptySnapshotKey
    else if maxKeySize < k.length then some .longSnapshotKey
    else none

/-- The loop of `replaceAllTx`; the error of a key ends it where it is. -/
def putAll (data : KV.Store Bytes) : List Bytes → Bucket → Option Err × Bucket
  | [], b => (none, b)
  | k :: ks, b =>
      match b.put k ((data.lookup k).getD []) with
      | (none, b) => putAll data ks b
      | (some e, b) => (some e, b)

/-- `replaceAllTx`: the bucket is deleted and created, then filled. -/
def replaceAllTx (L : KV.Listing) (data : KV.Store Bytes) : Option Err × Db :=
  let r := putAll data (L.order data.keys) ∅
  (r.1, some r.2)

/-- `fsm.applyCmd`: the error, and the database as the transaction sees it after. -/
def applyCmd (L : Orders) (c : Command) (db : Db) : Option Err × Db :=
  if c.op = opRestore then
    match (jsonValue c.value).bind toMap with
    | none => (some (.restorePayload c.value), db)
    | some data =>
        match validateRestoreData L.1 data with
        | some e => (some e, db)
        | none => replaceAllTx L.2 data
  else match db with
    | none => (some .bucketMissing, db)
    | some b =>
        if c.op = opPut then
          let r := b.put c.key c.value
          (r.1, some r.2)
        else if c.op = opDelete then (none, some (b.erase c.key))
        else (some (.unknownOp c.op), db)

/-- `db.Update`: an error rolls the transaction back. -/
def update (f : Db → Option Err × Db) (db : Db) : Option Err × Db :=
  match f db with
  | (none, db') => (none, db')
  | (some e, _) => (some e, db)

/-- `restoreReactWindow`, in nanoseconds. -/
def restoreReactWindow : Int := 5 * 60 * 1000000000

/-! ## Entries -/

section

variable (N : Node) (now : Int)

/-- `fsm.afterRestore`: the entries for which the hook is called. -/
def afterRestore (l : Log) : List Nat :=
  if N.hook = true ∧ now - l.appendedAt < restoreReactWindow then [l.index] else []

/-- `fsm.Apply`: the result of the entry, the calls of the hook and the database. -/
def apply (db : Db) (l : Log) : (Option Err × List Nat) × Db :=
  match decode l.data with
  | none => ((some (.unmarshal l.data), []), db)
  | some c =>
      match update (applyCmd (N.iter l.index) c) db with
      | (some e, db') => ((some e, []), db')
      | (none, db') => ((none, if c.op = opRestore then afterRestore N now l else []), db')

/-- The transaction of `fsm.ApplyBatch` over the entries and what they decode to. -/
def batchTx : List (Log × Option Command) → Db → List (Option Err) × Db
  | [], db => ([], db)
  | (l, none) :: rest, db =>
      let r := batchTx rest db
      (some (.unmarshal l.data) :: r.1, r.2)
  | (l, some c) :: rest, db =>
      let s := applyCmd (N.iter l.index) c db
      let r := batchTx rest s.2
      (s.1 :: r.1, r.2)

/-- The loop after the transaction: a restore that succeeded calls the hook. -/
def batchHooks : List (Log × Option Command) → List (Option Err) → List Nat
  | (l, some c) :: rest, r :: results =>
      (if c.op = opRestore ∧ r = none then afterRestore N now l else []) ++ batchHooks rest results
  | (_, none) :: rest, _ :: results => batchHooks rest results
  | _, _ => []

/-- What a list of entries leaves: the result of each, the calls of the hook, the database. -/
@[ext] structure Applied where
  results : List (Option Err)
  hooks : List Nat
  db : Db

def applyBatch (db : Db) (logs : List Log) : Applied :=
  let cmds := logs.map fun l => (l, decode l.data)
  let r := batchTx N cmds db
  ⟨r.1, batchHooks N now cmds r.1, r.2⟩

/-- `fsm.Apply` on one entry after another. -/
def applyEach (db : Db) (logs : List Log) : Applied :=
  let r := converse (apply N now) db logs
  ⟨r.1.map Prod.fst, r.1.flatMap Prod.snd, r.2⟩

end

/-! ## A command that fails changes nothing -/

section

variable {data : KV.Store Bytes}

theorem putAll_accepted {ks : List Bytes} (h : ∀ k ∈ ks, Accepted k) (b : Bucket) :
    putAll data ks b = (none, ks.foldl (fun m k => m.insert k ((data.lookup k).getD [])) b) := by
  induction ks generalizing b with
  | nil => rfl
  | cons k ks ih =>
    obtain ⟨hk, hks⟩ := List.forall_mem_cons.mp h
    rw [putAll, Bucket.put_accepted hk, List.foldl_cons]
    exact ih hks _

/-- In whatever order they are put, accepted keys are put back in full. -/
theorem replaceAllTx_accepted (L : KV.Listing) (h : ∀ k ∈ data.keys, Accepted k) :
    replaceAllTx L data = (none, some data) := by
  rw [replaceAllTx, putAll_accepted fun k hk => h k (L.mem_order.mp hk)]
  exact congrArg (fun b => ((none : Option Err), some b)) (KV.fill_order L [] data)

/-- The errors of a key in a restore. -/
def Refuses (e : Err) : Prop := e = .emptySnapshotKey ∨ e = .longSnapshotKey

/-- The check passes what is not empty and has accepted keys only, in whatever order it goes
    through them. -/
theorem validate_cases (L : KV.Listing) (data : KV.Store Bytes) :
    (data.keys = ∅ ∧ validateRestoreData L data = some .emptySnapshot) ∨
      (data.keys ≠ ∅ ∧ (∀ k ∈ data.keys, Accepted k) ∧ validateRestoreData L data = none) ∨
      data.keys ≠ ∅ ∧ (¬ ∀ k ∈ data.keys, Accepted k) ∧
        ∃ e, Refuses e ∧ validateRestoreData L data = some e := by
  unfold validateRestoreData
  by_cases hempty : data.keys = ∅
  · exact .inl ⟨hempty, if_pos hempty⟩
  rw [if_neg hempty]
  refine .inr ?_
  cases hfind : (L.order data.keys).findSome? _ with
  | none =>
    refine .inl ⟨hempty, fun k hk => ?_, rfl⟩
    have hcheck := List.findSome?_eq_none_iff.mp hfind k (L.mem_order.mpr hk)
    split_ifs at hcheck with h1 h2
    exact ⟨h1, Nat.not_lt.mp h2⟩
  | some e =>
    obtain ⟨k, hk, hcheck⟩ := List.exists_of_findSome?_eq_some hfind
    have hkey := L.mem_order.mp hk
    split_ifs at hcheck with h1 h2
    · cases hcheck
      exact .inr ⟨hempty, fun h => (h k hkey).1 h1, _, .inl rfl, rfl⟩
    · cases hcheck
      exact .inr ⟨hempty, fun h => Nat.not_lt.mpr (h k hkey).2 h2, _, .inr rfl, rfl⟩

/-- What passed the check is put back in full. -/
theorem replaceAllTx_validated {L : KV.Listing} (L' : KV.Listing)
    (h : validateRestoreData L data = none) : replaceAllTx L' data = (none, some data) := by
  refine replaceAllTx_accepted L' ?_
  rcases validate_cases L data with ⟨-, hsome⟩ | ⟨-, haccepted, -⟩ | ⟨-, -, e, -, hsome⟩
  · rw [h] at hsome
    cases hsome
  · exact haccepted
  · rw [h] at hsome
    cases hsome

end

theorem applyCmd_error {L : Orders} {c : Command} {db : Db} (h : (applyCmd L c db).1 ≠ none) :
    (applyCmd L c db).2 = db := by
  unfold applyCmd at h ⊢
  by_cases hop : c.op = opRestore
  · rw [if_pos hop] at h ⊢
    cases hdata : (jsonValue c.value).bind toMap with
    | none => rfl
    | some data =>
      rw [hdata] at h
      cases hvalid : validateRestoreData L.1 data with
      | some e => simp only [hvalid]
      | none =>
        simp only [hvalid, replaceAllTx_validated L.2 hvalid] at h
        exact absurd rfl h
  · rw [if_neg hop] at h ⊢
    cases db with
    | none => rfl
    | some b =>
      simp only at h ⊢
      split_ifs at h ⊢
      · exact congrArg some (Bucket.put_error h)
      · exact absurd rfl h
      · rfl

/-- So a transaction of its own makes no difference to a command. -/
theorem update_applyCmd (L : Orders) (c : Command) (db : Db) :
    update (applyCmd L c) db = applyCmd L c db := by
  have herror := @applyCmd_error L c db
  unfold update
  generalize applyCmd L c db = r at herror ⊢
  obtain ⟨err, db'⟩ := r
  cases err with
  | none => rfl
  | some e => exact congrArg (Prod.mk (some e)) (herror nofun).symm

/-! ## Batches -/

section

variable (N : Node) (now : Int) (db : Db)

/-- The outcome of an entry in front of that of the others. -/
def Applied.cons (r : Option Err × List Nat) (rest : Applied) : Applied :=
  ⟨r.1 :: rest.results, r.2 ++ rest.hooks, rest.db⟩

theorem applyEach_cons (l : Log) (logs : List Log) :
    applyEach N now db (l :: logs) =
      .cons (apply N now db l).1 (applyEach N now (apply N now db l).2 logs) := rfl

theorem applyBatch_cons (l : Log) (logs : List Log) :
    applyBatch N now db (l :: logs) =
      .cons (apply N now db l).1 (applyBatch N now (apply N now db l).2 logs) := by
  simp only [applyBatch, List.map_cons]
  cases hcmd : decode l.data with
  | none =>
    simp only [apply, hcmd]
    rfl
  | some c =>
    simp only [apply, hcmd, update_applyCmd, batchTx, batchHooks]
    generalize applyCmd (N.iter l.index) c db = r
    obtain ⟨err, db'⟩ := r
    cases err with
    | none => simp only [and_true, Applied.cons]
    | some e => simp only [reduceCtorEq, and_false, if_false, Applied.cons]

/-- With the same orders, one transaction for all entries that were committed together leaves
    what a transaction for each would. -/
theorem applyBatch_same_orders (logs : List Log) :
    applyBatch N now db logs = applyEach N now db logs := by
  induction logs generalizing db with
  | nil => rfl
  | cons l logs ih => rw [applyBatch_cons, applyEach_cons, ih]

end

/-! ## Other orders -/

/-- The same result, or two errors of keys of a restore that is refused. -/
def SameResult (a b : Option Err) : Prop :=
  a = b ∨ ∃ e e', Refuses e ∧ Refuses e' ∧ a = some e ∧ b = some e'

/-- The same hooks and database, and the same results up to the key that a refused restore
    names. -/
structure Applied.Agrees (a b : Applied) : Prop where
  results : List.Forall₂ SameResult a.results b.results
  hooks : a.hooks = b.hooks
  db : a.db = b.db

section

variable {N : Node} {now : Int} {db : Db}

theorem SameResult.none_iff {a b : Option Err} (h : SameResult a b) : a = none ↔ b = none := by
  rcases h with rfl | ⟨e, e', -, -, rfl, rfl⟩
  · rfl
  · exact iff_of_false nofun nofun

theorem validate_order (L L' : KV.Listing) (data : KV.Store Bytes) :
    SameResult (validateRestoreData L data) (validateRestoreData L' data) := by
  rcases validate_cases L data with ⟨hk, h⟩ | ⟨hk, hacc, h⟩ | ⟨hk, hbad, e, he, h⟩ <;>
    rcases validate_cases L' data with ⟨hk', h'⟩ | ⟨hk', hacc', h'⟩ | ⟨hk', hbad', e', he', h'⟩
  all_goals first | exact absurd hk hk' | exact absurd hk' hk | skip
  · exact .inl (h.trans h'.symm)
  · exact .inl (h.trans h'.symm)
  · exact absurd hacc hbad'
  · exact absurd hacc' hbad
  · exact .inr ⟨e, e', he, he', h, h'⟩

theorem applyCmd_order (L L' : Orders) (c : Command) (db : Db) :
    SameResult (applyCmd L c db).1 (applyCmd L' c db).1 ∧
      (applyCmd L c db).2 = (applyCmd L' c db).2 := by
  unfold applyCmd
  by_cases hop : c.op = opRestore
  · rw [if_pos hop, if_pos hop]
    cases (jsonValue c.value).bind toMap with
    | none => exact ⟨.inl rfl, rfl⟩
    | some data =>
      have hsame := validate_order L.1 L'.1 data
      cases hvalid : validateRestoreData L.1 data with
      | none =>
        simp only [hvalid, hsame.none_iff.mp hvalid, replaceAllTx_validated _ hvalid]
        exact ⟨.inl rfl, trivial⟩
      | some e =>
        cases hvalid' : validateRestoreData L'.1 data with
        | none => exact absurd (hsame.none_iff.mpr hvalid') (by simp [hvalid])
        | some e' =>
          simp only [hvalid, hvalid'] at hsame ⊢
          exact ⟨hsame, trivial⟩
  · rw [if_neg hop, if_neg hop]
    exact ⟨.inl rfl, rfl⟩

theorem apply_order (iter : Nat → Orders) (l : Log) :
    SameResult (apply { N with iter := iter } now db l).1.1 (apply N now db l).1.1 ∧
      (apply { N with iter := iter } now db l).1.2 = (apply N now db l).1.2 ∧
      (apply { N with iter := iter } now db l).2 = (apply N now db l).2 := by
  unfold apply
  cases decode l.data with
  | none => exact ⟨.inl rfl, rfl, rfl⟩
  | some c =>
    obtain ⟨hresult, hdb⟩ := applyCmd_order (iter l.index) (N.iter l.index) c db
    simp only [update_applyCmd]
    generalize applyCmd (iter l.index) c db = r at hresult hdb ⊢
    generalize applyCmd (N.iter l.index) c db = r' at hresult hdb ⊢
    obtain ⟨err, db1⟩ := r
    obtain ⟨err', db2⟩ := r'
    cases err with
    | none =>
      obtain rfl := hresult.none_iff.mp rfl
      exact ⟨hresult, rfl, hdb⟩
    | some e =>
      cases err' with
      | none => exact absurd (hresult.none_iff.mpr rfl) nofun
      | some e' => exact ⟨hresult, rfl, hdb⟩

/-- One transaction for all entries that were committed together leaves what a transaction for
    each would, in whatever orders the two go through the maps of restores. -/
theorem applyBatch_agrees (N : Node) (iter : Nat → Orders) (now : Int) (db : Db)
    (logs : List Log) :
    (applyBatch { N with iter := iter } now db logs).Agrees (applyEach N now db logs) := by
  rw [applyBatch_same_orders]
  induction logs generalizing db with
  | nil => exact ⟨.nil, rfl, rfl⟩
  | cons l logs ih =>
    obtain ⟨hresult, hhooks, hdb⟩ := @apply_order N now db iter l
    rw [applyEach_cons, applyEach_cons, hdb]
    have hrest := ih (apply N now db l).2
    exact ⟨.cons hresult hrest.results, congrArg₂ (· ++ ·) hhooks hrest.hooks, hrest.db⟩

end

/-- An order with one key in front. -/
def front (k : Bytes) : KV.Listing where
  order s := if k ∈ s then k :: KV.sortKeys (s.erase k) else KV.sortKeys s
  nodup s := by
    split_ifs
    · refine List.nodup_cons.mpr ⟨fun hmem => ?_, KV.sorted.nodup _⟩
      exact absurd (KV.sorted.mem_order.mp hmem) (Finset.notMem_erase k s)
    · exact KV.sorted.nodup s
  mem_order := by
    intro s k'
    have hmem := @KV.sorted.mem_order
    split_ifs with hk
    · rw [List.mem_cons, show k' ∈ KV.sortKeys (s.erase k) ↔ _ from hmem, Finset.mem_erase]
      by_cases heq : k' = k
      · simp [heq, hk]
      · simp [heq]
    · exact hmem

theorem validate_front {k : Bytes} {data : KV.Store Bytes} (hk : k ∈ data.keys)
    (hbad : ¬ Accepted k) : validateRestoreData (front k) data =
      some (if k = [] then .emptySnapshotKey else .longSnapshotKey) := by
  have hne : data.keys ≠ ∅ := fun h => absurd (h ▸ hk) (Finset.notMem_empty k)
  have horder : (front k).order data.keys = k :: KV.sortKeys (data.keys.erase k) := if_pos hk
  rw [validateRestoreData, if_neg hne, horder, List.findSome?_cons]
  by_cases hempty : k = []
  · simp [hempty]
  · have hlong : maxKeySize < k.length := Nat.not_le.mp fun hle => hbad ⟨hempty, hle⟩
    simp [hempty, hlong]

/-- A restore with the empty key and another one. -/
def badRestore (key : Bytes) : Command :=
  ⟨opRestore, [], (Json.obj [([], .str []), (key, .str [])]).encode⟩

theorem applyCmd_badRestore {key k : Bytes} (hvalid : sanitize key = key)
    (hk : k = [] ∨ k = key) (hbad : ¬ Accepted k) (db : Db) :
    applyCmd (front k, KV.sorted) (badRestore key) db =
      (some (if k = [] then .emptySnapshotKey else .longSnapshotKey), db) := by
  have hvalue : (jsonValue (badRestore key).value).bind toMap =
      some (((∅ : KV.Store Bytes).insert [] []).insert key []) := by
    rw [badRestore, jsonValue, parse_encode (by simp [Json.IntNums, IntMembers])]
    simp only [Json.sanitize, sanitizeMembers, hvalid, sanitize_nil]
    rfl
  have hmem : k ∈ (((∅ : KV.Store Bytes).insert [] []).insert key []).keys := by
    rcases hk with rfl | rfl <;> simp [Finmap.mem_keys]
  have hop : (badRestore key).op = opRestore := rfl
  unfold applyCmd
  simp only [if_pos hop, hvalue, validate_front hmem hbad]

/-- The error of a restore with keys of both kinds depends on the order. -/
theorem badRestore_reports {key : Bytes} (hvalid : sanitize key = key)
    (hlong : maxKeySize < key.length) (l : Log) (hl : l.data = (badRestore key).marshal) :
    (applyBatch ⟨fun _ => (front [], KV.sorted), false⟩ 0 (some ∅) [l]).results =
        [some .emptySnapshotKey] ∧
      (applyEach ⟨fun _ => (front key, KV.sorted), false⟩ 0 (some ∅) [l]).results =
        [some .longSnapshotKey] := by
  have hdecode : decode l.data = some (badRestore key) := by
    rw [hl, decode_marshal]
    rfl
  constructor
  · have hresult := applyCmd_badRestore hvalid (.inl rfl) (fun h => h.1 rfl) (some ∅)
    simp only [applyBatch, List.map_singleton, hdecode, batchTx, hresult, if_true]
  · have hresult := applyCmd_badRestore hvalid (.inr rfl)
      (fun h => Nat.not_lt.mpr h.2 hlong) (some ∅)
    have hempty : key ≠ [] := List.ne_nil_of_length_pos (Nat.zero_lt_of_lt hlong)
    rw [applyEach_cons, apply, hdecode]
    simp only [update_applyCmd, hresult, if_neg hempty]
    rfl

/-- So the batch and the entries one by one may report different errors. -/
theorem results_not_same : ∃ (iter iter' : Nat → Orders) (l : Log),
    (applyBatch ⟨iter, false⟩ 0 (some ∅) [l]).results ≠
      (applyEach ⟨iter', false⟩ 0 (some ∅) [l]).results := by
  obtain ⟨key, hvalid, hlong⟩ : ∃ key : Bytes, sanitize key = key ∧ maxKeySize < key.length := by
    refine ⟨List.replicate (maxKeySize + 1) 0x61, ?_, ?_⟩
    · refine sanitize_of_valid (utf8Valid_ascii fun b hb => ?_)
      rw [List.eq_of_mem_replicate hb]
      decide
    · rw [List.length_replicate]
      exact Nat.lt_succ_self _
  obtain ⟨hbatch, heach⟩ := badRestore_reports hvalid hlong ⟨1, (badRestore key).marshal, 0⟩ rfl
  exact ⟨_, _, _, by rw [hbatch, heach]; decide⟩

end Tuck.Raft
