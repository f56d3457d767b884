/-
  What the two KV engines store: the envelope of a KV v1 secret and the version metadata of a
  KV v2 secret. A time that may be zero is an `Option`.
-/
import Tuck.Base.Bytes

namespace Tuck

open Tuck.Base

/-! ## KV v1 -/

structure Entry where
  value : Bytes
  metadata : List (Bytes × Bytes)
  createdAt : Option Int
  expiresAt : Option Int
  deriving DecidableEq

def Entry.isExpired (e : Entry) (now : Int) : Bool := e.expiresAt.any fun t => t < now

def Entry.new (value : Bytes) (metadata : List (Bytes × Bytes)) (ttl now : Int) : Entry :=
  ⟨value, metadata, some now, if 0 < ttl then some (now + ttl) else none⟩

/-! ## KV v2 -/

namespace KVv2

structure Author where
  displayName : Bytes
  accessor : Bytes
  fingerprint : Bytes
  entityID : Bytes
  deriving DecidableEq

structure VerMeta where
  version : Int
  createdAt : Int
  createdBy : Option Author
  deletedAt : Option Int
  destroyed : Bool
  deriving DecidableEq

structure KVMeta where
  currentVersion : Int
  oldestVersion : Int
  maxVersions : Int
  casRequired : Bool
  customMetadata : List (Bytes × Bytes)
  createdAt : Option Int
  updatedAt : Option Int
  versions : AList fun _ : Int => VerMeta

/-- The version with the smallest number, if there is one. -/
def oldest : List (Sigma fun _ : Int => VerMeta) → Option (Int × VerMeta)
  | [] => none
  | ⟨v, vm⟩ :: rest =>
      match oldest rest with
      | none => some (v, vm)
      | some (u, um) => if v < u then some (v, vm) else some (u, um)

def KVMeta.normalize (m : KVMeta) : KVMeta :=
  { m with
    oldestVersion := ((oldest m.versions.entries).map Prod.fst).getD 0
    createdAt := m.createdAt.or ((oldest m.versions.entries).map fun p => p.2.createdAt)
    updatedAt := m.updatedAt.or ((m.versions.lookup m.currentVersion).map VerMeta.createdAt) }

/-- `evict`: the metadata without the versions above the cap, and the numbers dropped. -/
def KVMeta.evict (m : KVMeta) : KVMeta × List Int :=
  if m.maxVersions ≤ 0 then (m.normalize, [])
  else
    let gone :=
      (m.versions.keys.filter fun v => v ≤ m.currentVersion - m.maxVersions).insertionSort (· ≤ ·)
    ({ m with versions := gone.foldl (fun vs v => vs.erase v) m.versions }.normalize, gone)

/-- The version marked as the function says, if it is there. -/
def KVMeta.modify (m : KVMeta) (f : VerMeta → VerMeta) (v : Int) : KVMeta :=
  match m.versions.lookup v with
  | some vm => { m with versions := m.versions.insert v (f vm) }
  | none => m

end KVv2

end Tuck
