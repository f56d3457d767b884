/-
  Namespaces do not reach each other's data.

  The data of a namespace are the keys below its storage prefix that belong to KV v1, KV v2
  or the policy store. The operations of these stores build every key, and every prefix they
  list, from the namespace's prefix and one of the stores' own, so they are confined to the
  data of their namespace and the record of the mount options (`Op.confined`). Two facts
  about strings then separate the namespaces: no store of the root starts like a namespace
  prefix, and of two different namespace prefixes neither starts with the other
  (`notMem_dataOf`).
-/
import Tuck.Core.Access
import Tuck.Secrets.KVv1
import Tuck.Secrets.KVv2

namespace Tuck.Namespace

open Tuck.Base

/-- The root, or a name that can be created. -/
def IsNamespace (ns : Bytes) : Prop := isRoot ns = true ∨ validateName ns = true

/-- Not two names of one namespace; the root has two. -/
def Different (a b : Bytes) : Prop := a ≠ b ∧ ¬(isRoot a = true ∧ isRoot b = true)

/-- Where the stores of a namespace keep their records. -/
def storePrefixes : List Bytes :=
  [Secrets.secretPrefix, KVv2.metaPrefix, KVv2.dataPrefix, ascii "auth/policy/"]

/-- The keys of the secrets and the policies of a namespace. -/
def dataOf (ns : Bytes) : Set Bytes := {k | ∃ pre ∈ storePrefixes, storagePrefix ns ++ pre <+: k}

theorem mem_dataOf {ns pre : Bytes} (hpre : pre ∈ storePrefixes) (k : Bytes) :
    storagePrefix ns ++ (pre ++ k) ∈ dataOf ns :=
  ⟨pre, hpre, by rw [← List.append_assoc]; exact List.prefix_append _ _⟩

/-! ## Separation -/

theorem not_overlaps_of_mem {pre : Bytes} (h : pre ∈ storePrefixes) :
    overlaps (ascii "ns/") pre = false ∧ overlaps KVv2.mountConfigKey pre = false := by
  revert pre
  decide

/-- The root's data are not below the prefix of another namespace. -/
theorem not_prefix_of_root_data {a b k : Bytes} (ha : isRoot a = true) (hb : isRoot b = false)
    (hk : k ∈ dataOf a) : ¬storagePrefix b <+: k := by
  obtain ⟨pre, hpre, hk⟩ := hk
  rw [storagePrefix_root ha] at hk
  exact not_prefix_of_not_overlaps hb (not_overlaps_of_mem hpre).1 hk

theorem prefix_of_mem_dataOf {ns k : Bytes} (hk : k ∈ dataOf ns) : storagePrefix ns <+: k := by
  obtain ⟨pre, -, hk⟩ := hk
  exact (List.prefix_append _ _).trans hk

/-- The data of different namespaces are disjoint. -/
theorem notMem_dataOf {a b k : Bytes} (ha : IsNamespace a) (hb : IsNamespace b)
    (hab : Different a b) (hka : k ∈ dataOf a) : k ∉ dataOf b := by
  intro hkb
  have hpa := prefix_of_mem_dataOf hka
  have hpb := prefix_of_mem_dataOf hkb
  obtain ha | ha := ha <;> obtain hb | hb := hb
  · exact hab.2 ⟨ha, hb⟩
  · exact not_prefix_of_root_data ha (isRoot_of_valid hb) hka hpb
  · exact not_prefix_of_root_data hb (isRoot_of_valid ha) hkb hpa
  · have heq := eq_of_prefix_storagePrefix (isRoot_of_valid ha) (isRoot_of_valid hb) hpa hpb
    exact hab.1 (storagePrefix_inj ha hb heq)

/-- The mount options are nobody's data. -/
theorem mountConfigKey_notMem_dataOf (ns : Bytes) : KVv2.mountConfigKey ∉ dataOf ns := by
  rintro ⟨pre, hpre, hk⟩
  by_cases hns : isRoot ns = true
  · rw [storagePrefix_root hns, List.nil_append] at hk
    have hover := overlaps_of_common (List.prefix_refl KVv2.mountConfigKey) hk
    rw [(not_overlaps_of_mem hpre).2] at hover
    exact Bool.false_ne_true hover
  · rw [Bool.not_eq_true] at hns
    have hmount : overlaps (ascii "ns/") KVv2.mountConfigKey = false := by decide
    exact not_prefix_of_not_overlaps hns hmount List.prefix_rfl ((List.prefix_append _ _).trans hk)

/-! ## The operations -/

/-- An operation of KV v1, KV v2 or the policy store. -/
inductive Op where
  | listSecrets (pre : Bytes)
  | getSecretEntry (p : Bytes) (now : Int)
  | putSecret (p value : Bytes) (metadata : List (Bytes × Bytes)) (ttl now : Int)
  | deleteSecret (p : Bytes)
  | write (p value : Bytes) (cas : Option Int) (author : Option KVv2.Author) (now : Int)
  | read (p : Bytes) (version : Int)
  | softDelete (p : Bytes) (versions : List Int) (now : Int)
  | undelete (p : Bytes) (versions : List Int)
  | destroy (p : Bytes) (versions : List Int)
  | deleteAll (p : Bytes)
  | getMeta (p : Bytes)
  | mountDefaults
  | updateMetadata (p : Bytes) (u : KVv2.MetaUpdate) (now : Int)
  | list (pre : Bytes)
  | listDetailed (pre : Bytes) (totals : Bool) (allow : Bytes → Bool)
  | countSecrets
  | stats (scanLimit : Int) (readable : Bytes → Bool)
  | getPolicy (name : Bytes)
  | putPolicy (p : Policy)
  | deletePolicy (name : Bytes)
  | listPolicies

def Op.Result : Op → Type
  | .listSecrets _ | .list _ | .listPolicies => List Bytes
  | .getSecretEntry .. => Option Entry
  | .write .. => Int
  | .read .. => Option (Option Bytes × KVv2.VerMeta)
  | .getMeta _ => Option KVv2.KVMeta
  | .mountDefaults => KVv2.Defaults
  | .updateMetadata .. => KVv2.KVMeta
  | .listDetailed .. => List KVv2.ListEntry × Option KVv2.Totals
  | .countSecrets => Nat
  | .stats .. => KVv2.Stats
  | .getPolicy _ => Policy
  | _ => Unit

/-- The operation executed in a namespace. -/
def Op.code (ns : Bytes) : (op : Op) → Logical op.Result
  | .listSecrets pre => Secrets.listSecrets ns pre
  | .getSecretEntry p now => Secrets.getSecretEntry ns p now
  | .putSecret p value metadata ttl now => Secrets.putSecretWithMeta ns p value metadata ttl now
  | .deleteSecret p => Secrets.deleteSecret ns p
  | .write p value cas author now => KVv2.write ns p value cas author now
  | .read p version => KVv2.read ns p version
  | .softDelete p versions now => KVv2.softDelete ns p versions now
  | .undelete p versions => KVv2.undelete ns p versions
  | .destroy p versions => KVv2.destroy ns p versions
  | .deleteAll p => KVv2.deleteAll ns p
  | .getMeta p => KVv2.getMeta ns p
  | .mountDefaults => KVv2.kv2MountDefaults.bind fun d => .ret (.ok d)
  | .updateMetadata p u now => KVv2.updateMetadata ns p u now
  | .list pre => KVv2.list ns pre
  | .listDetailed pre totals allow => KVv2.listDetailed ns pre totals allow
  | .countSecrets => KVv2.countSecrets ns
  | .stats scanLimit readable => KVv2.stats ns scanLimit readable
  | .getPolicy name => Core.getPolicy ns name
  | .putPolicy p => Core.putPolicy ns p
  | .deletePolicy name => Core.deletePolicy ns name
  | .listPolicies => Core.listPolicies ns

/-- An operation touches only the data of its namespace and reads the mount options. -/
theorem Op.confined {A : Set Bytes} {ns : Bytes} (hdata : dataOf ns ⊆ A)
    (hoptions : KVv2.mountConfigKey ∈ A) (op : Op) : KV.Confined A (op.code ns) := by
  have below {pre : Bytes} (hpre : pre ∈ storePrefixes) :
      ∀ k, storagePrefix ns ++ pre <+: k → k ∈ A := fun k hk => hdata ⟨pre, hpre, hk⟩
  have hsecret (p : Bytes) : storagePrefix ns ++ Secrets.secretKey p ∈ A :=
    hdata (mem_dataOf (by decide) _)
  have hpolicy (name : Bytes) : Core.policyKey ns name ∈ A := hdata (mem_dataOf (by decide) _)
  have hpath (p : Bytes) : KVv2.Covers A ns p :=
    ⟨hdata (mem_dataOf (by decide) _), fun v => hdata (mem_dataOf (by decide) _), hoptions⟩
  cases op with
  | listSecrets pre => exact Secrets.confined_listSecrets (below (by decide)) pre
  | getSecretEntry p now => exact Secrets.confined_getSecretEntry (hsecret p) now
  | putSecret p value metadata ttl now =>
    exact Secrets.confined_putSecretWithMeta (hsecret p) value metadata ttl now
  | deleteSecret p => exact Secrets.confined_deleteSecret (hsecret p)
  | write p value cas author now => exact (hpath p).write value cas author now
  | read p version => exact (hpath p).read version
  | softDelete p versions now => exact (hpath p).permits.softDelete versions now
  | undelete p versions => exact (hpath p).permits.undelete versions
  | destroy p versions => exact (hpath p).permits.destroy versions
  | deleteAll p => exact (hpath p).deleteAll
  | getMeta p => exact KVv2.calls_getMeta (hpath p).metadata
  | mountDefaults => exact Prog.Calls.bind (KVv2.calls_kv2MountDefaults hoptions) fun _ => trivial
  | updateMetadata p u now => exact (hpath p).permits.updateMetadata u now
  | list pre => exact KVv2.confined_list (below (by decide)) pre
  | listDetailed pre totals allow =>
    exact KVv2.confined_listDetailed (below (by decide)) pre totals allow
  | countSecrets => exact KVv2.confined_countSecrets (below (by decide))
  | stats scanLimit readable => exact KVv2.confined_stats (below (by decide)) scanLimit readable
  | getPolicy name => exact calls_getAs (hpolicy name)
  | putPolicy p => exact Prog.Calls.attempt (hpolicy p.name)
  | deletePolicy name => exact Prog.Calls.attempt (hpolicy name)
  | listPolicies =>
    have hpre : ascii "auth/policy/" ∈ storePrefixes := by decide
    refine Prog.Calls.andThen (Prog.Calls.attempt fun k hk => below hpre k ?_) fun _ => trivial
    rwa [Core.policyKey, List.append_nil] at hk

/-! ## Isolation -/

/-- An operation in one namespace calls for no key of another namespace's data, returns the
    same whatever these data are, and leaves them as they are, also if calls fail. -/
theorem namespaces_isolated {a b : Bytes} (ha : IsNamespace a) (hb : IsNamespace b)
    (hab : Different a b) (op : Op) :
    KV.Confined (dataOf b)ᶜ (op.code a) ∧
      ∀ (L : KV.Listing) (allow : Nat → KV.Call Record → Bool) (w w' : LogicalWorld),
        KV.Agree (dataOf b)ᶜ w w' →
          (Prog.runAllowed (KV.handle L) allow 0 (op.code a) w).1 =
              (Prog.runAllowed (KV.handle L) allow 0 (op.code a) w').1 ∧
            ∀ k ∈ dataOf b,
              (Prog.runAllowed (KV.handle L) allow 0 (op.code a) w).2.store.lookup k =
                w.store.lookup k := by
  have hconf : KV.Confined (dataOf b)ᶜ (op.code a) :=
    Op.confined (fun _ hk => notMem_dataOf ha hb hab hk) (mountConfigKey_notMem_dataOf b) op
  refine ⟨hconf, fun L allow w w' hww' => ⟨(KV.agree_of_within L allow 0 hconf hww').1, ?_⟩⟩
  intro k hk
  have hwrites := hconf.imp fun _ hc => KV.Call.Within.writes hc
  exact KV.frame_of_writes L allow 0 hwrites w fun hnot => hnot hk

theorem namespaces_isolated_nested :
    KV.Confined (dataOf (ascii "team/dev"))ᶜ
      ((Op.list (ascii "../ns/team~dev/kv2/meta")).code (ascii "team")) :=
  (namespaces_isolated (.inr (by decide)) (.inr (by decide)) ⟨by decide, by decide⟩ _).1

end Tuck.Namespace
