/-
  KV v2: every path has version metadata under "kv2/meta/" and the data of each version
  under "kv2/data/<path>/<version>", both inside the view of a namespace. The mount options
  (`kv2MountDefaults`) come from one record outside every namespace.

  The functions are the store's, with the time and the author of a write as arguments. The
  path locks of the source make the operations on one path take turns and are not part of a
  single operation.
-/
import Tuck.Core.Record
import Tuck.Base.Paths
import Tuck.Base.Utf8

namespace Tuck.KVv2

open Tuck.Base Prog List KV

def metaPrefix : Bytes := ascii "kv2/meta/"

def dataPrefix : Bytes := ascii "kv2/data/"

def metaKey (p : Bytes) : Bytes := metaPrefix ++ clean p

def dataKey (p : Bytes) (version : Int) : Bytes :=
  dataPrefix ++ (clean p ++ slash :: decimalInt version)

/-- A key in the view of a namespace. -/
def inView (ns key : Bytes) : Bytes := Namespace.storagePrefix ns ++ key

/-- `View.List`: the keys relative to the view. -/
def viewList (ns pre : Bytes) : Logical (List Bytes) :=
  (KV.list .storage (inView ns pre)).andThen fun keys =>
    .ret (.ok (keys.map fun k => trimPrefix k (Namespace.storagePrefix ns)))

/-! ## Keys -/

theorem decimalInt_injective : Function.Injective decimalInt := by
  intro a b h
  have := parseInt_decimalInt a
  rw [h, parseInt_decimalInt b] at this
  exact (Option.some.inj this).symm

theorem slash_notMem_decimalInt (v : Int) : slash ∉ decimalInt v := by
  have digits (n : Nat) : slash ∉ decimal n := fun h =>
    absurd (isDigit_of_mem_decimal h) (by decide)
  cases v with
  | ofNat n => exact digits n
  | negSucc n =>
    intro h
    obtain h | h := mem_cons.1 h
    · exact absurd h (by decide)
    · exact digits _ h

/-- The version is what follows the last '/'. -/
theorem append_version_inj {q q' : Bytes} {v v' : Int}
    (h : q ++ slash :: decimalInt v = q' ++ slash :: decimalInt v') : q = q' ∧ v = v' := by
  have hrev := congrArg List.reverse h
  simp only [reverse_append, reverse_cons, append_assoc, singleton_append] at hrev
  have hnot (u : Int) : slash ∉ (decimalInt u).reverse := fun hu =>
    slash_notMem_decimalInt u (mem_reverse.1 hu)
  obtain ⟨hv, hq⟩ := append_sep_inj (hnot v) (hnot v') hrev
  exact ⟨reverse_injective hq, decimalInt_injective (reverse_injective hv)⟩

theorem metaKey_inj {ns p p' : Bytes} :
    inView ns (metaKey p) = inView ns (metaKey p') ↔ clean p = clean p' := by
  unfold inView metaKey
  rw [append_right_inj, append_right_inj]

theorem dataKey_inj {ns p p' : Bytes} {v v' : Int} :
    inView ns (dataKey p v) = inView ns (dataKey p' v') ↔ clean p = clean p' ∧ v = v' := by
  unfold inView dataKey
  rw [append_right_inj, append_right_inj]
  constructor
  · exact append_version_inj
  · rintro ⟨hp, rfl⟩
    rw [hp]

theorem metaKey_ne_dataKey (ns p p' : Bytes) (v : Int) :
    inView ns (metaKey p) ≠ inView ns (dataKey p' v) := fun h =>
  append_ne_append (by decide) _ _ (append_cancel_left h)

/-! ## Mount options -/

structure Defaults where
  maxVersions : Int
  casRequired : Bool
  deriving DecidableEq

/-- `configKey` of the mount "secret/". -/
def mountConfigKey : Bytes := ascii "sys/mount-config/secret"

/-- `kv2MountDefaults`: a read that fails gives no overrides. -/
def kv2MountDefaults : Code Record Defaults :=
  (KV.get Err.storage mountConfigKey).bind fun
    | .ok (some (.mountConfig maxVersions casRequired)) => .ret ⟨maxVersions, casRequired⟩
    | _ => .ret ⟨0, false⟩

def defaultMax : Int := 10

/-- The metadata of a path that has none yet. -/
def newMeta (d : Defaults) (now : Int) : KVMeta where
  currentVersion := 0
  oldestVersion := 0
  maxVersions := if 0 < d.maxVersions then d.maxVersions else defaultMax
  casRequired := false
  customMetadata := []
  createdAt := some now
  updatedAt := none
  versions := ∅

/-! ## Metadata -/

def getMeta (ns p : Bytes) : Logical (Option KVMeta) :=
  (KV.get .storage (inView ns (metaKey p))).andThen fun
    | none => .ret (.ok none)
    | some r =>
        match r.kvMeta? with
        | some m => .ret (.ok (some m.normalize))
        | none => .ret (.error .decode)

def putMeta (ns p : Bytes) (m : KVMeta) : Logical Unit :=
  KV.put .storage (inView ns (metaKey p)) (.kvMeta m.normalize)

/-- The metadata with one more version. -/
def KVMeta.addVersion (m : KVMeta) (author : Option Author) (now : Int) : KVMeta :=
  { m with
    currentVersion := m.currentVersion + 1
    createdAt := m.createdAt.or (some now)
    updatedAt := some now
    versions := m.versions.insert (m.currentVersion + 1)
      ⟨m.currentVersion + 1, now, author, none, false⟩ }

/-! ## Versions -/

/-- The deletion of the data of one version; the caller ignores its error. -/
def deleteData (ns p : Bytes) (version : Int) : Logical Unit :=
  KV.delete .storage (inView ns (dataKey p version))

/-- `Write`, after the metadata were read. -/
def writeFrom (ns p value : Bytes) (cas : Option Int) (author : Option Author) (now : Int)
    (found : Option KVMeta) : Logical Int :=
  kv2MountDefaults.bind fun d =>
    let m := found.getD (newMeta d now)
    if cas = none ∧ (m.casRequired || d.casRequired) = true then .ret (.error .casRequired)
    else if cas.any (· ≠ m.currentVersion) then
      .ret (.error (.casMismatch (cas.getD 0) m.currentVersion))
    else
      let next := (m.addVersion author now).evict
      let version := m.currentVersion + 1
      (KV.put .storage (inView ns (dataKey p version)) (.raw value)).andThen fun _ =>
        (putMeta ns p next.1).andThen fun _ =>
          -- only now that the metadata no longer names them
          (each (deleteData ns p) next.2).bind fun _ => .ret (.ok version)

def write (ns p value : Bytes) (cas : Option Int) (author : Option Author) (now : Int) :
    Logical Int :=
  (getMeta ns p).andThen (writeFrom ns p value cas author now)

/-- `Read` of a version that is there or not, after the metadata were read. -/
def readVersion (ns p : Bytes) (version : Int) (m : KVMeta) :
    Logical (Option (Option Bytes × VerMeta)) :=
  match m.versions.lookup version with
  | none => .ret (.error (.versionNotFound version))
  | some vm =>
      if vm.destroyed then .ret (.error (.versionDestroyed version))
      else if vm.deletedAt.isSome then .ret (.ok (some (none, vm)))
      else
        (KV.get .storage (inView ns (dataKey p version))).andThen fun
          | none => .ret (.error (.versionMissing version))
          | some r => .ret (.ok (some (some r.bytes, vm)))

/-- `Read`: nothing for a path never written, and no value for a soft-deleted version. -/
def read (ns p : Bytes) (version : Int) : Logical (Option (Option Bytes × VerMeta)) :=
  (getMeta ns p).andThen fun found =>
    match found.filter (fun m => m.currentVersion ≠ 0) with
    | none => .ret (.ok none)
    | some m => readVersion ns p (if version = 0 then m.currentVersion else version) m

/-- The metadata rewritten, if there are any. -/
def editMeta (ns p : Bytes) (edit : KVMeta → Code Record KVMeta) : Logical Unit :=
  (getMeta ns p).andThen fun
    | none => .ret (.ok ())
    | some m => (edit m).bind fun m' => putMeta ns p m'

def softDelete (ns p : Bytes) (versions : List Int) (now : Int) : Logical Unit :=
  editMeta ns p fun m =>
    .ret (versions.foldl (fun m v => m.modify (fun vm =>
      if !vm.destroyed && vm.deletedAt.isNone then { vm with deletedAt := some now } else vm) v) m)

def undelete (ns p : Bytes) (versions : List Int) : Logical Unit :=
  editMeta ns p fun m =>
    .ret (versions.foldl (fun m v => m.modify (fun vm =>
      if !vm.destroyed then { vm with deletedAt := none } else vm) v) m)

/-- The loop of `Destroy`. -/
def destroyLoop (ns p : Bytes) : List Int → KVMeta → Code Record KVMeta
  | [], m => .ret m
  | v :: versions, m =>
      if (m.versions.lookup v).any (fun vm => !vm.destroyed) then
        (deleteData ns p v).bind fun _ =>
          destroyLoop ns p versions (m.modify (fun vm => { vm with destroyed := true }) v)
      else destroyLoop ns p versions m

def destroy (ns p : Bytes) (versions : List Int) : Logical Unit :=
  editMeta ns p (destroyLoop ns p versions)

def deleteAll (ns p : Bytes) : Logical Unit :=
  (getMeta ns p).andThen fun
    | none => .ret (.ok ())
    | some m =>
        (each (deleteData ns p) m.versions.keys).bind fun _ =>
          KV.delete .storage (inView ns (metaKey p))

/-! ## Configurable metadata -/

/-- `MetaUpdate`; a key without a value is deleted. -/
structure MetaUpdate where
  maxVersions : Option Int
  casRequired : Option Bool
  customMetadata : Option (List (Bytes × Option Bytes))
  replace : Bool

/-- `validText`: on valid UTF-8 a control character is a single byte. -/
def validText (s : Bytes) : Bool := utf8Valid s && s.all fun b => !(b < 0x20 || b = 0x7F)

def validateCustom (m : List (Bytes × Bytes)) : Bool :=
  m.length ≤ 64 &&
    m.all fun e => e.1 ≠ [] && e.1.length ≤ 128 && e.2.length ≤ 512 &&
      validText e.1 && validText e.2

/-- One entry of an update of a map. -/
def setCustom (m : List (Bytes × Bytes)) (e : Bytes × Option Bytes) : List (Bytes × Bytes) :=
  m.filter (·.1 ≠ e.1) ++ (e.2.map fun v => (e.1, v)).toList

/-- The custom metadata after an update. -/
def MetaUpdate.custom (u : MetaUpdate) (old : List (Bytes × Bytes)) : List (Bytes × Bytes) :=
  match u.customMetadata with
  | none => old
  | some es => es.foldl setCustom (if u.replace then [] else old)

/-- The metadata that an update makes of `m`. -/
def MetaUpdate.apply (u : MetaUpdate) (m : KVMeta) : KVMeta :=
  { m with
    customMetadata := u.custom m.customMetadata
    maxVersions := u.maxVersions.getD m.maxVersions
    casRequired := u.casRequired.getD m.casRequired }

/-- `UpdateMetadata`, once it has the metadata to update. -/
def updateFrom (ns p : Bytes) (u : MetaUpdate) (m : KVMeta) : Logical KVMeta :=
  if u.customMetadata.isSome && !validateCustom (u.custom m.customMetadata) then
    .ret (.error .invalidMetadata)
  else (putMeta ns p (u.apply m)).andThen fun _ => .ret (.ok (u.apply m).normalize)

def updateMetadata (ns p : Bytes) (u : MetaUpdate) (now : Int) : Logical KVMeta :=
  if u.maxVersions.any (fun n => n < 0 ∨ 1000 < n) then .ret (.error .invalidMetadata)
  else
    (getMeta ns p).andThen fun found =>
      (match found with
        | some m => ret m
        | none => kv2MountDefaults.bind fun d => .ret (newMeta d now)).bind (updateFrom ns p u)

/-! ## Listings -/

/-- `listScope`: the storage prefix and the logical prefix of a listing. -/
def listScope (pre : Bytes) : Bytes × Bytes :=
  if pre = [] then (metaPrefix, [])
  else (withSlash (metaPrefix ++ clean pre), withSlash (clean pre))

def list (ns pre : Bytes) : Logical (List Bytes) :=
  (viewList ns (listScope pre).1).andThen fun keys =>
    .ret (.ok (childNames metaPrefix (listScope pre).2 keys))

def Author.label (a : Author) : Bytes :=
  if a.displayName ≠ [] then a.displayName
  else if a.accessor ≠ [] then a.accessor
  else a.fingerprint

structure ListEntry where
  name : Bytes
  folder : Bool
  count : Nat
  restricted : Bool
  currentVersion : Int
  versions : Nat
  updatedAt : Option Int
  updatedBy : Bytes
  maxVersions : Int
  casRequired : Bool
  deleted : Bool
  destroyed : Bool
  deriving DecidableEq

structure Totals where
  secrets : Nat
  folders : Nat
  versions : Nat
  deleted : Nat
  destroyed : Nat
  hidden : Nat
  deriving DecidableEq

/-- What `ListDetailed` has gathered: the rows, the totals and the folders seen. -/
structure Details where
  rows : List ListEntry
  totals : Totals
  dirs : List Bytes
  deriving DecidableEq

namespace Details

def empty : Details := ⟨[], ⟨0, 0, 0, 0, 0, 0⟩, []⟩

def newRow (name : Bytes) : ListEntry :=
  ⟨name, endsInSlash name, 0, false, 0, 0, none, [], 0, false, false, false⟩

/-- The rows with the row of a name changed; a name without a row gets one first. -/
def editRow (name : Bytes) (f : ListEntry → ListEntry) (rows : List ListEntry) : List ListEntry :=
  let rows := if rows.any (·.name = name) then rows else rows ++ [newRow name]
  rows.map fun e => if e.name = name then f e else e

/-- The folders above a path. -/
def parents (rel : Bytes) : List Bytes :=
  (List.range rel.length).filterMap fun i =>
    if rel[i]? = some slash then some (rel.take i) else none

/-- The row, and the folders, that a key counts for. -/
def see (totals : Bool) (rel : Bytes) (d : Details) : Details :=
  { d with
    rows :=
      editRow (childName rel) (fun e => if e.folder then { e with count := e.count + 1 } else e)
      d.rows
    dirs := if totals then distinct (d.dirs ++ parents rel) else d.dirs }

/-- A secret whose metadata the caller may not read. -/
def hide (totals : Bool) (name : Bytes) (d : Details) : Details :=
  { d with
    rows := editRow name (fun e => if e.folder then e else { e with restricted := true }) d.rows
    totals := if totals then { d.totals with hidden := d.totals.hidden + 1 } else d.totals }

def fillEntry (m : KVMeta) (e : ListEntry) : ListEntry :=
  let current := m.versions.lookup m.currentVersion
  { e with
    currentVersion := m.currentVersion
    versions := m.versions.keys.length
    updatedAt := m.updatedAt
    maxVersions := m.maxVersions
    casRequired := m.casRequired
    updatedBy := ((current.bind VerMeta.createdBy).map Author.label).getD []
    destroyed := current.any VerMeta.destroyed
    deleted := current.any fun vm => !vm.destroyed && vm.deletedAt.isSome }

/-- A secret whose metadata were read. -/
def fill (totals : Bool) (name : Bytes) (m : KVMeta) (d : Details) : Details :=
  let vms := m.versions.entries.map Sigma.snd
  { d with
    rows := editRow name (fun e => if e.folder then e else fillEntry m e) d.rows
    totals :=
      if totals then
        { d.totals with
          secrets := d.totals.secrets + 1
          versions := d.totals.versions + vms.length
          destroyed := d.totals.destroyed + vms.countP VerMeta.destroyed
          deleted := d.totals.deleted + vms.countP fun vm => !vm.destroyed && vm.deletedAt.isSome }
      else d.totals }

/-- The rows by name, and the totals with the number of folders. -/
def result (totals : Bool) (d : Details) : List ListEntry × Option Totals :=
  (d.rows.insertionSort fun a b => a.name ≤ b.name,
    if totals then some { d.totals with folders := d.dirs.length } else none)

end Details

/-- The loop of `ListDetailed` over the listed keys. -/
def detailLoop (ns query : Bytes) (totals : Bool) (allow : Bytes → Bool) :
    List Bytes → Details → Logical Details
  | [], d => .ret (.ok d)
  | k :: keys, d =>
      let full := trimPrefix k metaPrefix
      let rel := trimPrefix full query
      let next := detailLoop ns query totals allow keys
      if rel = [] then next d
      else
        let seen := d.see totals rel
        if endsInSlash (childName rel) && !totals then next seen
        else if !allow full then next (seen.hide totals (childName rel))
        else
          (getMeta ns full).andThen fun
            | none => next seen
            | some m => next (seen.fill totals (childName rel) m)

def listDetailed (ns pre : Bytes) (totals : Bool) (allow : Bytes → Bool) :
    Logical (List ListEntry × Option Totals) :=
  (viewList ns (listScope pre).1).andThen fun keys =>
    (detailLoop ns (listScope pre).2 totals allow keys .empty).andThen fun d =>
      .ret (.ok (d.result totals))

/-! ## Statistics -/

def countSecrets (ns : Bytes) : Logical Nat :=
  (viewList ns metaPrefix).andThen fun keys =>
    .ret (.ok (keys.countP fun k => trimPrefix k metaPrefix ≠ []))

structure Stats where
  secrets : Nat
  versions : Nat
  deletedVersions : Nat
  destroyedVersions : Nat
  lastWriteAt : Option Int
  hidden : Nat
  truncated : Bool
  deriving DecidableEq

/-- The figures of one secret added. -/
def Stats.add (st : Stats) (m : KVMeta) : Stats :=
  let vms := m.versions.entries.map Sigma.snd
  { st with
    versions := st.versions + vms.length
    destroyedVersions := st.destroyedVersions + vms.countP VerMeta.destroyed
    deletedVersions :=
      st.deletedVersions + vms.countP fun vm => !vm.destroyed && vm.deletedAt.isSome
    lastWriteAt :=
      match st.lastWriteAt, m.updatedAt with
      | some a, some b => some (max a b)
      | a, b => a.or b }

/-- The loop of `Stats`, with the number of records it may still decode. -/
def statsLoop (ns : Bytes) (readable : Bytes → Bool) : List Bytes → Nat → Stats → Code Record Stats
  | [], _, st => .ret st
  | k :: keys, left, st =>
      let p := trimPrefix k metaPrefix
      let counted := { st with secrets := st.secrets + 1 }
      if p = [] then statsLoop ns readable keys left st
      else if !readable p then
        statsLoop ns readable keys left { counted with hidden := st.hidden + 1 }
      else if left = 0 then statsLoop ns readable keys left { counted with truncated := true }
      else
        (getMeta ns p).bind fun
          | .ok (some m) => statsLoop ns readable keys (left - 1) (counted.add m)
          | _ => statsLoop ns readable keys left counted

/-- `Store.Stats`; a limit that is not positive is the default. -/
def stats (ns : Bytes) (scanLimit : Int) (readable : Bytes → Bool) : Logical Stats :=
  (viewList ns metaPrefix).andThen fun keys =>
    (statsLoop ns readable keys (if scanLimit ≤ 0 then 5000 else scanLimit.toNat)
      ⟨0, 0, 0, 0, none, 0, false⟩).bind fun st => .ret (.ok st)

/-! ## The calls that are made -/

/-- The calls of the operations on a path: reads of its metadata and of the mount options,
    writes of its metadata and deletions of its data are in `P`. -/
structure Permits (P : Call Record → Prop) (ns p : Bytes) : Prop where
  getMeta : P (.get (inView ns (metaKey p)))
  getOptions : P (.get mountConfigKey)
  putMeta : ∀ m, P (.put (inView ns (metaKey p)) (.kvMeta m))
  deleteData : ∀ v, P (.delete (inView ns (dataKey p v)))

section

variable {P : Call Record → Prop} {ns p : Bytes}

theorem calls_getMeta (h : P (.get (inView ns (metaKey p)))) :
    Calls Call.Plausible P (getMeta ns p) := by
  refine Calls.andThen (Calls.attempt h) ?_
  rintro (_ | r)
  · trivial
  · dsimp only
    split <;> trivial

theorem calls_kv2MountDefaults (h : P (.get mountConfigKey)) :
    Calls Call.Plausible P kv2MountDefaults := by
  refine Calls.bind (Calls.attempt h) fun r => ?_
  split <;> trivial

theorem calls_read (hmeta : P (.get (inView ns (metaKey p))))
    (hdata : ∀ v, P (.get (inView ns (dataKey p v)))) (version : Int) :
    Calls Call.Plausible P (read ns p version) := by
  refine (calls_getMeta hmeta).andThen fun found => ?_
  split
  · trivial
  · rename_i m _
    generalize (if version = 0 then m.currentVersion else version) = v
    unfold readVersion
    split
    · trivial
    · split_ifs
      · trivial
      · trivial
      · refine Calls.andThen (Calls.attempt (hdata v)) ?_
        rintro (_ | r) <;> trivial

namespace Permits

variable (h : Permits P ns p)
include h

theorem write {value : Bytes} (hdata : ∀ v, P (.put (inView ns (dataKey p v)) (.raw value)))
    (cas : Option Int) (author : Option Author) (now : Int) :
    Calls Call.Plausible P (KVv2.write ns p value cas author now) := by
  refine (calls_getMeta h.getMeta).andThen fun found => ?_
  refine (calls_kv2MountDefaults h.getOptions).bind fun d => ?_
  dsimp only
  split_ifs
  · trivial
  · trivial
  · refine Calls.andThen (Calls.attempt (hdata _)) fun _ => ?_
    refine Calls.andThen (Calls.attempt (h.putMeta _)) fun _ => ?_
    refine Calls.bind (Calls.each fun v _ => ?_) fun _ => trivial
    exact Calls.attempt (h.deleteData v)

theorem editMeta {edit : KVMeta → Code Record KVMeta}
    (hedit : ∀ m, Calls Call.Plausible P (edit m)) :
    Calls Call.Plausible P (KVv2.editMeta ns p edit) := by
  refine (calls_getMeta h.getMeta).andThen ?_
  rintro (_ | m)
  · trivial
  · exact (hedit m).bind fun m' => Calls.attempt (h.putMeta _)

theorem softDelete (versions : List Int) (now : Int) :
    Calls Call.Plausible P (KVv2.softDelete ns p versions now) :=
  h.editMeta fun _ => trivial

theorem undelete (versions : List Int) :
    Calls Call.Plausible P (KVv2.undelete ns p versions) :=
  h.editMeta fun _ => trivial

theorem destroy (versions : List Int) :
    Calls Call.Plausible P (KVv2.destroy ns p versions) := by
  refine h.editMeta fun m => ?_
  induction versions generalizing m with
  | nil => trivial
  | cons v versions ih =>
    rw [destroyLoop]
    split_ifs
    · exact Calls.bind (Calls.attempt (h.deleteData v)) fun _ => ih _
    · exact ih m

theorem deleteAll (hmeta : P (.delete (inView ns (metaKey p)))) :
    Calls Call.Plausible P (KVv2.deleteAll ns p) := by
  refine (calls_getMeta h.getMeta).andThen ?_
  rintro (_ | m)
  · trivial
  · refine Calls.bind (Calls.each fun v _ => ?_) fun _ => Calls.attempt hmeta
    exact Calls.attempt (h.deleteData v)

theorem updateMetadata (u : MetaUpdate) (now : Int) :
    Calls Call.Plausible P (KVv2.updateMetadata ns p u now) := by
  unfold KVv2.updateMetadata
  split_ifs
  · trivial
  · refine (calls_getMeta h.getMeta).andThen fun found => ?_
    refine Calls.bind ?_ fun m => ?_
    · cases found with
      | some m => trivial
      | none => exact (calls_kv2MountDefaults h.getOptions).bind fun d => trivial
    · unfold updateFrom
      split_ifs
      · trivial
      · exact Calls.andThen (Calls.attempt (h.putMeta _)) fun _ => trivial

end Permits

end

/-! ## The keys that are touched -/

/-- The keys of a path of a namespace, metadata and version data, are in `A`, and so is the
    record of the mount options. -/
structure Covers (A : Set Bytes) (ns p : Bytes) : Prop where
  metadata : inView ns (metaKey p) ∈ A
  data : ∀ v, inView ns (dataKey p v) ∈ A
  options : mountConfigKey ∈ A

section

variable {A : Set Bytes} {ns p : Bytes}

variable (h : Covers A ns p)
include h

theorem Covers.permits : Permits (Call.Within A) ns p :=
  ⟨h.metadata, h.options, fun _ => h.metadata, h.data⟩

theorem Covers.write (value : Bytes) (cas : Option Int) (author : Option Author) (now : Int) :
    KV.Confined A (write ns p value cas author now) :=
  h.permits.write h.data cas author now

theorem Covers.read (version : Int) : KV.Confined A (read ns p version) :=
  calls_read h.metadata h.data version

theorem Covers.deleteAll : KV.Confined A (deleteAll ns p) := h.permits.deleteAll h.metadata

end

section

variable {A : Set Bytes} {ns : Bytes} (h : ∀ k, inView ns metaPrefix <+: k → k ∈ A)
include h

theorem confined_viewList {scope : Bytes} (hscope : metaPrefix <+: scope) :
    KV.Confined A (viewList ns scope) := by
  refine Calls.andThen (Calls.attempt fun k hk => h k (List.IsPrefix.trans ?_ hk))
    fun _ => trivial
  exact (prefix_append_right_inj _).2 hscope

omit h in
theorem prefix_listScope (pre : Bytes) : metaPrefix <+: (listScope pre).1 := by
  unfold listScope
  split_ifs
  · exact prefix_rfl
  · exact (prefix_append _ _).trans (prefix_withSlash _)

theorem metaKey_mem (p : Bytes) : inView ns (metaKey p) ∈ A :=
  h _ ((prefix_append_right_inj _).2 (prefix_append _ _))

/-- A listing looks below "kv2/meta/" of its namespace only. -/
theorem confined_list (pre : Bytes) : KV.Confined A (list ns pre) :=
  (confined_viewList h (prefix_listScope pre)).andThen fun _ => trivial

theorem confined_detailLoop (query : Bytes) (totals : Bool) (allow : Bytes → Bool)
    (keys : List Bytes) (d : Details) :
    KV.Confined A (detailLoop ns query totals allow keys d) := by
  induction keys generalizing d with
  | nil => trivial
  | cons k keys ih =>
    rw [detailLoop]
    dsimp only
    split_ifs
    · exact ih d
    · exact ih _
    · exact ih _
    · refine Calls.andThen (calls_getMeta (metaKey_mem h _)) ?_
      rintro (_ | m)
      · exact ih _
      · exact ih _

theorem confined_listDetailed (pre : Bytes) (totals : Bool) (allow : Bytes → Bool) :
    KV.Confined A (listDetailed ns pre totals allow) :=
  (confined_viewList h (prefix_listScope pre)).andThen fun keys =>
    (confined_detailLoop h _ totals allow keys .empty).andThen fun _ => trivial

theorem confined_countSecrets : KV.Confined A (countSecrets ns) :=
  (confined_viewList h prefix_rfl).andThen fun _ => trivial

theorem confined_statsLoop (readable : Bytes → Bool) (keys : List Bytes) (left : Nat) (st : Stats) :
    KV.Confined A (statsLoop ns readable keys left st) := by
  induction keys generalizing left st with
  | nil => trivial
  | cons k keys ih =>
    rw [statsLoop]
    dsimp only
    split_ifs
    · exact ih left st
    · exact ih left _
    · exact ih left _
    · refine Calls.bind (calls_getMeta (metaKey_mem h _)) fun r => ?_
      split
      · exact ih _ _
      · exact ih left _

theorem confined_stats (scanLimit : Int) (readable : Bytes → Bool) :
    KV.Confined A (stats ns scanLimit readable) :=
  (confined_viewList h prefix_rfl).andThen fun keys =>
    (confined_statsLoop h readable keys _ _).bind fun _ => trivial

end

end Tuck.KVv2
