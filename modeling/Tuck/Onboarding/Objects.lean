/-
  The objects of a team: for each task, its item in the plan, its key and its record. `Wrote`
  says that a store is another one with the objects of some tasks, whose keys were free. Doing
  a task adds its object or, if it fails, nothing (`did_forward`).
-/
import Tuck.Onboarding.Team

namespace Tuck.Onboarding

open Tuck.Base Tuck.Core Prog List

/-! ## Keys and records -/

namespace Team

variable (t : Team)

/-- The item of the plan; a policy is never in conflict. -/
def item (existing : Bool) : Task → PlanItem
  | .space => t.namespaceItem existing
  | .policy a => policyItem a
  | .ldapRole a => t.ldapItem a existing
  | .k8sRole b => k8sItem b existing

def key : Task → Bytes
  | .space => namespaceKey t.name
  | .policy a => policyKey t.name (teamPolicyName a)
  | .ldapRole a => LDAP.roleKey (teamLDAPRoleName t.name a)
  | .k8sRole b => K8s.roleKey b.cluster b.ns b.serviceAccount

def record (now : Int) : Task → Record
  | .space => .namespace' (t.namespaceRecord now)
  | .policy a => .policy (teamPolicy a)
  | .ldapRole a => .ldapRole (t.ldapRole a)
  | .k8sRole b => .k8sRole (t.k8sRole b)

end Team

section

variable {t : Team}

theorem isRoot_name (t : Team) : Namespace.isRoot t.name = false :=
  Namespace.isRoot_of_valid t.name_valid

/-- Policies are below the prefix of the namespace. -/
theorem prefix_policyKey (name : Bytes) :
    Namespace.storagePrefix t.name <+: policyKey t.name name := by
  unfold policyKey
  exact prefix_append ..

theorem prefix_ns (t : Team) : ascii "ns/" <+: Namespace.storagePrefix t.name := by
  rw [Namespace.storagePrefix_child (isRoot_name t)]
  exact prefix_append ..

theorem prefix_key_policy (a : Access) : ascii "ns/" <+: t.key (.policy a) :=
  (prefix_ns t).trans (prefix_policyKey _)

theorem ne_of_prefixes {k k' p p' : Bytes} (hk : p <+: k) (hk' : p' <+: k')
    (h : overlaps p p' = false) : k ≠ k' := by
  rintro rfl
  rw [overlaps_of_common hk hk'] at h
  cases h

theorem prefix_namespaceKey (name : Bytes) : ascii "sys/" <+: namespaceKey name :=
  (show ascii "sys/" <+: namespacePrefix by decide).trans (prefix_append ..)

theorem prefix_ldapKey (name : Bytes) : LDAP.rolesKey <+: LDAP.roleKey name :=
  prefix_append ..

theorem prefix_k8sKey (cluster ns sa : Bytes) :
    ascii "auth/k8s/" <+: K8s.roleKey cluster ns sa := by
  unfold K8s.roleKey
  split_ifs
  · refine (show ascii "auth/k8s/" <+: ascii "auth/k8s/role/" by decide).trans ?_
    rw [append_assoc]
    exact prefix_append ..
  · refine (show ascii "auth/k8s/" <+: ascii "auth/k8s/cluster/" by decide).trans ?_
    simp only [append_assoc]
    exact prefix_append ..

theorem teamPolicyName_inj {a a' : Access} (h : teamPolicyName a = teamPolicyName a') : a = a' := by
  cases a <;> cases a' <;> first | rfl | exact absurd h (by decide)

/-- A task with the key of a policy stores that policy. -/
theorem record_of_policyKey (now : Int) {x : Task} {a : Access} (h : t.key x = t.key (.policy a)) :
    t.record now x = t.record now (.policy a) := by
  have hns := prefix_key_policy (t := t) a
  cases x with
  | space => exact absurd h.symm (ne_of_prefixes hns (prefix_namespaceKey _) (by decide))
  | ldapRole a' => exact absurd h.symm (ne_of_prefixes hns (prefix_ldapKey _) (by decide))
  | k8sRole b => exact absurd h.symm (ne_of_prefixes hns (prefix_k8sKey _ _ _) (by decide))
  | policy a' =>
    have hname : teamPolicyName a' = teamPolicyName a := by
      have h : policyKey t.name (teamPolicyName a') = policyKey t.name (teamPolicyName a) := h
      unfold policyKey at h
      exact append_cancel_left (append_cancel_left h)
    rw [teamPolicyName_inj hname]

end

/-! ## Stores with objects of a team -/

/-- The store `s'` is `s` with the objects of the tasks; their keys were free. -/
structure Wrote (t : Team) (now : Int) (s : LogicalStore) (done : List Task) (s' : LogicalStore) :
    Prop where
  written : ∀ x ∈ done, s'.lookup (t.key x) = some (t.record now x)
  other : ∀ k, (∀ x ∈ done, t.key x ≠ k) → s'.lookup k = s.lookup k
  fresh : ∀ x ∈ done, s.lookup (t.key x) = none

section

variable {t : Team} {now : Int} {s s' : LogicalStore} {done : List Task}

theorem Wrote.nil : Wrote t now s [] s := ⟨nofun, fun _ _ => rfl, nofun⟩

theorem Wrote.put (h : Wrote t now s done s') {x : Task} (hfresh : s.lookup (t.key x) = none)
    (hsame : ∀ y ∈ done, t.key y = t.key x → t.record now y = t.record now x) :
    Wrote t now s (done ++ [x]) (s'.insert (t.key x) (t.record now x)) := by
  refine ⟨fun y hy => ?_, fun k hk => ?_, fun y hy => ?_⟩
  · rw [KV.lookup_insert]
    split_ifs with hkey
    · obtain hy | hy := mem_append.1 hy
      · rw [hsame y hy hkey]
      · rw [mem_singleton.1 hy]
    · obtain hy | hy := mem_append.1 hy
      · exact h.written y hy
      · exact absurd (congrArg t.key (mem_singleton.1 hy)) hkey
  · rw [KV.lookup_insert, if_neg (hk x (by simp)).symm]
    exact h.other k fun y hy => hk y (mem_append_left _ hy)
  · obtain hy | hy := mem_append.1 hy
    · exact h.fresh y hy
    · rwa [mem_singleton.1 hy]

/-- A key that is free now was free and is none of the objects'. -/
theorem Wrote.free (h : Wrote t now s done s') {k : Bytes} (hk : s'.lookup k = none) :
    s.lookup k = none ∧ ∀ y ∈ done, t.key y ≠ k := by
  have hnot : ∀ y ∈ done, t.key y ≠ k := by
    rintro y hy rfl
    rw [h.written y hy] at hk
    cases hk
  exact ⟨(h.other k hnot).symm.trans hk, hnot⟩

theorem Wrote.put_free (h : Wrote t now s done s') {x : Task} (hfree : s'.lookup (t.key x) = none) :
    Wrote t now s (done ++ [x]) (s'.insert (t.key x) (t.record now x)) :=
  h.put (h.free hfree).1 fun y hy hkey => absurd hkey ((h.free hfree).2 y hy)

end

/-! ## Doing a task -/

/-- After a task: its object is there too, or nothing has changed. -/
def Did (t : Team) (now : Int) (s : LogicalStore) (done : List Task) (x : Task) :
    Except Err Unit → LogicalWorld → Prop :=
  OkOr (fun w => Wrote t now s (done ++ [x]) w.store) fun w => Wrote t now s done w.store

/-- Where the namespace is not checked to be free, it has to be: no record of it, or one that
    can be read; and no policies in it. -/
structure Writable (t : Team) (mayFail : KV.Call Record → Prop) (s : LogicalStore) : Prop where
  space : s.lookup (t.key .space) = none ∨
    (∃ ns, s.lookup (t.key .space) = some (.namespace' ns)) ∧ ¬mayFail (.get (t.key .space))
  policy : ∀ a, s.lookup (t.key (.policy a)) = none

section

variable {reviewed : Bytes → Bool} {L : KV.Listing} {t : Team} {now : Int} {s : LogicalStore}
  {mayFail : KV.Call Record → Prop} {done : List Task} {w : LogicalWorld}

theorem done_eq_nil (h : done ++ [.space] <+: t.tasks) : done = [] := by
  cases done with
  | nil => rfl
  | cons y done =>
    have hrest := (cons_prefix_cons.1 h).2
    have hmem := hrest.subset (mem_append_right done (mem_singleton_self Task.space))
    simp at hmem

theorem did_put {x : Task}
    (h : Wrote t now s (done ++ [x]) (w.store.insert (t.key x) (t.record now x)))
    (hw : Wrote t now s done w.store) :
    Ends (KV.handle L) mayFail (Did t now s done x)
      (KV.put .storage (t.key x) (t.record now x)) w :=
  ⟨fun _ => hw, h⟩

theorem did_space (hdone : done = []) (hs : Writable t mayFail s)
    (hw : Wrote t now s done w.store) :
    Ends (KV.handle L) mayFail (Did t now s done .space)
      (t.step reviewed now .space).forward w := by
  have hlookup : w.store.lookup (t.key .space) = s.lookup (t.key .space) :=
    hw.other _ (by simp [hdone])
  -- any error of the read is taken for a missing record
  have hcreate : s.lookup (t.key .space) = none →
      Ends (KV.handle L) mayFail (Did t now s done .space)
        (KV.put .storage (t.key .space) (t.record now .space)) w :=
    fun hfree => did_put (hw.put_free (hlookup.trans hfree)) hw
  have hvalid : (!Namespace.validateName t.name) = false := by rw [t.name_valid]; rfl
  have hmeta : (!t.metadata.validate) = false := by rw [t.metadata_valid]; rfl
  change Ends _ _ _ ((createNamespaceWithMetadata t.name t.metadata now).andThen fun _ => _) w
  unfold createNamespaceWithMetadata
  rw [hvalid, hmeta]
  constructor
  · intro hfail
    obtain hfree | ⟨-, hnot⟩ := hs.space
    · exact hcreate hfree
    · exact absurd hfail hnot
  · obtain hfree | ⟨⟨ns, hns⟩, -⟩ := hs.space
    · change Ends _ _ _ (andThen (bind
        (.ret (decodeAs Record.namespace? (w.store.lookup (t.key .space)))) _) _) w
      rw [hlookup, hfree]
      exact hcreate hfree
    · change Ends _ _ _ (andThen (bind
        (.ret (decodeAs Record.namespace? (w.store.lookup (t.key .space)))) _) _) w
      rw [hlookup, hns]
      exact hw

theorem did_policy (a : Access) (hs : Writable t mayFail s) (hw : Wrote t now s done w.store) :
    Ends (KV.handle L) mayFail (Did t now s done (.policy a))
      (t.step reviewed now (.policy a)).forward w :=
  did_put (hw.put (hs.policy a) fun _ _ hkey => record_of_policyKey now hkey) hw

theorem did_ldapRole (a : Access) (hw : Wrote t now s done w.store) :
    Ends (KV.handle L) mayFail (Did t now s done (.ldapRole a))
      (t.step reviewed now (.ldapRole a)).forward w := by
  refine ⟨fun _ => hw, ?_⟩
  have hnames := KV.mem_names L w.store LDAP.rolesKey (teamLDAPRoleName t.name a)
  change Ends _ _ _ (if decide (teamLDAPRoleName t.name a ∈
    (L.order (KV.under w.store LDAP.rolesKey)).map fun k => trimPrefix k LDAP.rolesKey) = true
    then _ else _) w
  split_ifs with hexists
  · exact hw
  · refine did_put (hw.put_free ?_) hw
    rw [decide_eq_true_eq, hnames, Bool.not_eq_true, Option.isSome_eq_false_iff,
      Option.isNone_iff_eq_none] at hexists
    exact hexists

theorem did_k8sRole (b : Binding) (hw : Wrote t now s done w.store) :
    Ends (KV.handle L) mayFail (Did t now s done (.k8sRole b))
      (t.step reviewed now (.k8sRole b)).forward w := by
  refine ⟨fun _ => hw, ?_⟩
  change Ends _ _ _ (bind
    (.ret (decodeAs Record.k8sRole? (w.store.lookup (t.key (.k8sRole b))))) _) w
  cases hrole : w.store.lookup (t.key (.k8sRole b)) with
  | none =>
    change Ends _ _ _ (createK8sRole reviewed (t.k8sRole b)) w
    unfold createK8sRole
    split_ifs
    · exact hw
    · exact did_put (hw.put_free hrole) hw
  | some r =>
    cases hdec : Record.k8sRole? r with
    | some role =>
      simp only [decodeAs, hdec]
      exact hw
    | none =>
      simp only [decodeAs, hdec]
      exact hw

/-- Doing a task adds its object or, if it fails, nothing. -/
theorem did_forward (x : Task) (hs : Writable t mayFail s) (hdone : done ++ [x] <+: t.tasks)
    (hw : Wrote t now s done w.store) :
    Ends (KV.handle L) mayFail (Did t now s done x) (t.step reviewed now x).forward w := by
  cases x with
  | space => exact did_space (done_eq_nil hdone) hs hw
  | policy a => exact did_policy a hs hw
  | ldapRole a => exact did_ldapRole a hw
  | k8sRole b => exact did_k8sRole b hw

end

end Tuck.Onboarding
