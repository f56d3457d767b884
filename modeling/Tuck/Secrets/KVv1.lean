/-
  KV v1: one entry for each path of a namespace, under "secret/". An operation on a path
  touches one key, the storage prefix of the namespace followed by `secretKey` of the path.
-/
import Tuck.Core.Record
import Tuck.Base.Paths

namespace Tuck.Secrets

open Tuck.Base

def secretPrefix : Bytes := ascii "secret/"

def secretKey (p : Bytes) : Bytes := secretPrefix ++ clean p

/-- `kvsecret.Unmarshal`: what is not an entry is taken as the value itself. -/
def unmarshal : Record → Entry
  | .secret e => e
  | r => ⟨r.bytes, [], none, none⟩

def listSecrets (ns pre : Bytes) : Logical (List Bytes) :=
  let nsPrefix := Namespace.storagePrefix ns
  let scope := if pre = [] then nsPrefix ++ secretPrefix else withSlash (nsPrefix ++ secretKey pre)
  let query := if pre = [] then [] else withSlash pre
  (KV.list .storage scope).andThen fun keys =>
    .ret (.ok (childNames (nsPrefix ++ secretPrefix) query keys))

/-- `GetSecretEntry`: an expired entry is deleted, and not returned. -/
def getSecretEntry (ns p : Bytes) (now : Int) : Logical (Option Entry) :=
  let key := Namespace.storagePrefix ns ++ secretKey p
  (KV.get .storage key).andThen fun
    | none => .ret (.ok none)
    | some r =>
        if (unmarshal r).isExpired now then
          (KV.delete Err.storage key).bind fun _ => .ret (.ok none)
        else .ret (.ok (some (unmarshal r)))

def putSecretWithMeta (ns p value : Bytes) (metadata : List (Bytes × Bytes)) (ttl now : Int) :
    Logical Unit :=
  KV.put .storage (Namespace.storagePrefix ns ++ secretKey p)
    (.secret (Entry.new value metadata ttl now))

def deleteSecret (ns p : Bytes) : Logical Unit :=
  KV.delete .storage (Namespace.storagePrefix ns ++ secretKey p)

/-! ## The keys that are touched -/

section

variable {A : Set Bytes} {ns p : Bytes}

theorem confined_getSecretEntry (h : Namespace.storagePrefix ns ++ secretKey p ∈ A) (now : Int) :
    KV.Confined A (getSecretEntry ns p now) := by
  refine Prog.Calls.andThen (Prog.Calls.attempt h) ?_
  rintro (_ | r)
  · trivial
  · dsimp only
    split_ifs
    · exact Prog.Calls.bind (Prog.Calls.attempt h) fun _ => trivial
    · trivial

theorem confined_putSecretWithMeta (h : Namespace.storagePrefix ns ++ secretKey p ∈ A)
    (value : Bytes) (metadata : List (Bytes × Bytes)) (ttl now : Int) :
    KV.Confined A (putSecretWithMeta ns p value metadata ttl now) :=
  Prog.Calls.attempt h

theorem confined_deleteSecret (h : Namespace.storagePrefix ns ++ secretKey p ∈ A) :
    KV.Confined A (deleteSecret ns p) :=
  Prog.Calls.attempt h

/-- A listing looks below "secret/" of its namespace only. -/
theorem confined_listSecrets (h : ∀ k, Namespace.storagePrefix ns ++ secretPrefix <+: k → k ∈ A)
    (pre : Bytes) : KV.Confined A (listSecrets ns pre) := by
  refine Prog.Calls.andThen (Prog.Calls.attempt fun k hk => h k (List.IsPrefix.trans ?_ hk))
    fun _ => trivial
  split_ifs
  · exact List.prefix_rfl
  · refine List.IsPrefix.trans ?_ (prefix_withSlash _)
    rw [secretKey, ← List.append_assoc]
    exact List.prefix_append _ _

end

end Tuck.Secrets
