/-
  The namespaces of the core: creation, update and deletion.

  `deleteNamespace` drops the record of the name it is given and wipes everything below the
  storage prefix of that name. It does not check the name, and the prefix writes '/' as '~':
  the name "a~b", which cannot be created, has the prefix of "a/b". The deletion then leaves
  every other namespace alone exactly if none of the existing ones has the same prefix and
  data below it (`deleteNamespace_untouched_iff`).
-/
import Tuck.Core.Record

namespace Tuck.Core

open Tuck.Base Prog KV

def namespacePrefix : Bytes := ascii "sys/namespaces/"

/-- The key of the record of a namespace. -/
def namespaceKey (name : Bytes) : Bytes := namespacePrefix ++ name

def getNamespace (name : Bytes) : Logical Namespace := getAs Record.namespace? (namespaceKey name)

/-- `namespace.Store.Put`. -/
def putNamespace (ns : Namespace) : Logical Unit :=
  KV.put .storage (namespaceKey ns.name) (.namespace' ns)

def createNamespaceWithMetadata (name : Bytes) (m : Namespace.Metadata) (now : Int) :
    Logical Namespace :=
  if !Namespace.validateName name then .ret (.error .invalidName)
  else if !m.validate then .ret (.error .invalidMetadata)
  else
    (getNamespace name).bind fun
      | .ok _ => .ret (.error .alreadyExists)
      | .error _ =>
          let ns := (⟨name, now, [], [], [], none⟩ : Namespace).apply m
          (putNamespace ns).andThen fun _ => .ret (.ok ns)

/-- `DeleteNamespace`: the record first, then the data. -/
def deleteNamespace (name : Bytes) : Logical Unit :=
  if Namespace.isRoot name then .ret (.error .rootNamespace)
  else
    (KV.delete .storage (namespaceKey name)).andThen fun _ =>
      (KV.list .storage (Namespace.storagePrefix name)).andThen fun keys =>
        eachOk (fun k => KV.delete .storage k) keys

/-! ## What a deletion does -/

/-- The record of a name. -/
def storedNamespace (s : LogicalStore) (name : Bytes) : Option Namespace :=
  (s.lookup (namespaceKey name)).bind Record.namespace?

/-- The keys that a deletion of the name may remove. -/
def deleted (name : Bytes) : Set Bytes :=
  {k | k = namespaceKey name ∨ Namespace.storagePrefix name <+: k}

theorem deletes_deleteNamespace (name : Bytes) :
    Calls Call.Plausible (Call.Deletes (deleted name)) (deleteNamespace name) := by
  unfold deleteNamespace
  split_ifs
  · trivial
  · refine Calls.andThen (Calls.attempt (.inl rfl)) fun _ => ?_
    refine KV.calls_list trivial fun keys hkeys => ?_
    exact Calls.eachOk fun k hk => Calls.attempt (.inr (hkeys k hk))

/-- Without faults the record and the data are gone, and nothing else. -/
theorem run_deleteNamespace {name : Bytes} (h : Namespace.isRoot name = false) (L : Listing)
    (w : LogicalWorld) :
    run (handle L) (deleteNamespace name) w =
      (.ok (), { w with
        store := wipe L (w.store.erase (namespaceKey name)) (Namespace.storagePrefix name) }) := by
  unfold deleteNamespace
  rw [if_neg (by simp [h]), run_andThen, run_delete]
  dsimp only
  rw [run_andThen, run_list]
  exact run_eachOk_delete ..

theorem not_overlaps_namespaceKey (name k : Bytes) (hk : ascii "ns/" <+: k) :
    k ≠ namespaceKey name := by
  rintro rfl
  obtain ⟨x, hx⟩ := hk
  exact append_ne_append (by decide) x name hx

/-! ## What it leaves alone -/

/-- The root's records, secrets and policies and the records of the other namespaces are as
    before, and so is everything that belongs to an existing namespace other than `name`. -/
def Untouched (name : Bytes) (s s' : LogicalStore) : Prop :=
  (∀ k, ¬ascii "ns/" <+: k → k ≠ namespaceKey name → s'.lookup k = s.lookup k) ∧
    ∀ x, x ≠ name → Namespace.isRoot x = false → (storedNamespace s x).isSome = true →
      ∀ k, Namespace.storagePrefix x <+: k → s'.lookup k = s.lookup k

/-- No other existing namespace has data below the prefix that the deletion wipes. -/
def PrefixUnshared (name : Bytes) (s : LogicalStore) : Prop :=
  ∀ x, x ≠ name → Namespace.isRoot x = false → (storedNamespace s x).isSome = true →
    Namespace.storagePrefix x = Namespace.storagePrefix name →
      ∀ k, Namespace.storagePrefix x <+: k → s.lookup k = none

theorem prefix_ns_of_child {name k : Bytes} (h : Namespace.isRoot name = false)
    (hk : Namespace.storagePrefix name <+: k) : ascii "ns/" <+: k := by
  rw [Namespace.storagePrefix_child h] at hk
  exact (List.prefix_append _ _).trans hk

theorem untouched_of_prefixUnshared {name : Bytes} {w : LogicalWorld}
    (hroot : Namespace.isRoot name = false) (h : PrefixUnshared name w.store) (L : Listing)
    (allow : Nat → Call Record → Bool) :
    Untouched name w.store (runAllowed (handle L) allow 0 (deleteNamespace name) w).2.store := by
  have hlookup := lookup_of_deletes L allow 0 (deletes_deleteNamespace name) w
  constructor
  · intro k hns hrec
    obtain hsame | ⟨hrec' | hpre, -⟩ := hlookup k
    · exact hsame
    · exact absurd hrec' hrec
    · exact absurd (prefix_ns_of_child hroot hpre) hns
  · intro x hne hx hstored k hk
    obtain hsame | ⟨hrec | hpre, hgone⟩ := hlookup k
    · exact hsame
    · exact absurd hrec (not_overlaps_namespaceKey name k (prefix_ns_of_child hx hk))
    · have heq := Namespace.eq_of_prefix_storagePrefix hx hroot hk hpre
      rw [hgone, h x hne hx hstored heq k hk]

/-- A deletion, whichever of its calls fail, leaves the root and the other namespaces alone
    exactly if the name is refused or its prefix is not shared. -/
theorem deleteNamespace_untouched_iff (name : Bytes) (w : LogicalWorld) :
    (∀ (L : Listing) (allow : Nat → Call Record → Bool), Untouched name w.store
        (runAllowed (handle L) allow 0 (deleteNamespace name) w).2.store) ↔
      Namespace.isRoot name = true ∨ PrefixUnshared name w.store := by
  cases hroot : Namespace.isRoot name with
  | true =>
    refine iff_of_true (fun L allow => ?_) (.inl rfl)
    rw [deleteNamespace, if_pos hroot]
    exact ⟨fun _ _ _ => rfl, fun _ _ _ _ _ _ => rfl⟩
  | false =>
    constructor
    · intro h
      refine .inr fun x hne hx hstored heq k hk => ?_
      have hsame := (h sorted fun _ _ => true).2 x hne hx hstored k hk
      rw [runAllowed_all, run_deleteNamespace hroot, lookup_wipe, ← heq, if_pos hk] at hsame
      exact hsame.symm
    · rintro (h | h) L allow
      · cases h
      · exact untouched_of_prefixUnshared hroot h L allow

/-- A namespace "a/b" with a secret. -/
def nestedWorld : LogicalWorld where
  store := ((∅ : LogicalStore).insert (namespaceKey (ascii "a/b"))
      (.namespace' ⟨ascii "a/b", 0, [], [], [], none⟩)).insert
    (ascii "ns/a~b/secret/x") (.secret (Entry.new (ascii "v") [] 0 0))
  rng := Stream'.const 0

/-- Deleting "a~b", which does not exist, wipes the secrets of "a/b". -/
theorem deleteNamespace_wipes_other :
    (storedNamespace nestedWorld.store (ascii "a/b")).isSome = true ∧
      (nestedWorld.store.lookup (ascii "ns/a~b/secret/x")).isSome = true ∧
      storedNamespace nestedWorld.store (ascii "a~b") = none ∧
      (run (handle sorted) (deleteNamespace (ascii "a~b")) nestedWorld).1 = .ok () ∧
      ((run (handle sorted) (deleteNamespace (ascii "a~b")) nestedWorld).2.store.lookup
        (ascii "ns/a~b/secret/x")).isSome = false := by
  decide +kernel

end Tuck.Core
