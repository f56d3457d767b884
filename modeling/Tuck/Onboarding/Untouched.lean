/-
  What team onboarding does to objects that exist, when any storage call may fail, reads too.

  A failed read of the namespace record is taken for a missing namespace, and the rollback
  deletes by name. So existing objects are left alone, whichever calls fail, exactly if the
  request cannot get past the plan, or there is no record of the namespace and no secret or
  policy in it (`onboard_untouched_iff`).
-/
import Tuck.Onboarding.Plan
import Tuck.Namespace.Isolation

namespace Tuck.Onboarding

open Tuck.Base Tuck.Core Prog List KV

/-- The keys of namespace records, secrets, policies, LDAP roles and Kubernetes roles. -/
def objectKeys : Set Bytes :=
  {k | (∃ name, k = namespaceKey name) ∨ (∃ ns, k ∈ Namespace.dataOf ns) ∨
    (∃ name, k = LDAP.roleKey name) ∨ ∃ cluster ns sa, k = K8s.roleKey cluster ns sa}

/-- Every object that existed is stored unchanged. -/
def Kept (s s' : LogicalStore) : Prop :=
  ∀ k ∈ objectKeys, ∀ r, s.lookup k = some r → s'.lookup k = some r

/-- The request does not get past the plan: it is invalid, a cluster has no reviewer, or the key
    of a role is in use. -/
def Blocked (reviewed : Bytes → Bool) (spec : TeamSpec) (s : LogicalStore) : Prop :=
  ∀ t, normalizeTeamSpec spec = some t → (∃ b ∈ t.k8s, reviewed b.cluster = false) ∨
    (∃ a ∈ t.groupLevels, (s.lookup (t.key (.ldapRole a))).isSome = true) ∨
    ∃ b ∈ t.k8s, (s.lookup (t.key (.k8sRole b))).isSome = true

/-- There is no record of the namespace, and no secret or policy in it. -/
def Vacant (s : LogicalStore) (ns : Bytes) : Prop :=
  s.lookup (namespaceKey ns) = none ∧ ∀ k ∈ Namespace.dataOf ns, s.lookup k = none

section

variable {reviewed : Bytes → Bool} {L : Listing} {t : Team} {now : Int} {s : LogicalStore}
  {done : List Task} {w : LogicalWorld}

/-! ## Objects below the prefix of a namespace -/

theorem dataOf_congr {ns ns' : Bytes}
    (h : Namespace.storagePrefix ns = Namespace.storagePrefix ns') :
    Namespace.dataOf ns = Namespace.dataOf ns' := by
  unfold Namespace.dataOf
  rw [h]

theorem mem_dataOf_below {k : Bytes} (hk : k ∈ objectKeys)
    (hbelow : Namespace.storagePrefix t.name <+: k) : k ∈ Namespace.dataOf t.name := by
  have hns : ascii "ns/" <+: k := (prefix_ns t).trans hbelow
  obtain ⟨name, rfl⟩ | ⟨ns, hdata⟩ | ⟨name, rfl⟩ | ⟨cluster, ns, sa, rfl⟩ := hk
  · exact absurd rfl (ne_of_prefixes hns (prefix_namespaceKey name) (by decide))
  · cases hroot : Namespace.isRoot ns with
    | true =>
      exact absurd hbelow (Namespace.not_prefix_of_root_data hroot (isRoot_name t) hdata)
    | false =>
      have heq := Namespace.eq_of_prefix_storagePrefix hroot (isRoot_name t)
        (Namespace.prefix_of_mem_dataOf hdata) hbelow
      exact dataOf_congr heq ▸ hdata
  · exact absurd rfl (ne_of_prefixes hns (prefix_ldapKey name) (by decide))
  · exact absurd rfl (ne_of_prefixes hns (prefix_k8sKey cluster ns sa) (by decide))

theorem Wrote.kept {s' : LogicalStore} (h : Wrote t now s done s') : Kept s s' := by
  intro k _ r hr
  rw [h.other k]
  · exact hr
  · rintro x hx rfl
    rw [h.fresh x hx] at hr
    cases hr

/-- A deletion of a key without an object. -/
theorem Kept.erase {s' : LogicalStore} (h : Kept s s') {k : Bytes}
    (hk : k ∈ objectKeys → s.lookup k = none) : Kept s (s'.erase k) := by
  intro k' hk' r hr
  rw [lookup_erase, if_neg]
  · exact h k' hk' r hr
  · rintro rfl
    rw [hk hk'] at hr
    cases hr

/-! ## Enough -/

theorem policyKey_mem_dataOf (ns name : Bytes) : policyKey ns name ∈ Namespace.dataOf ns :=
  Namespace.mem_dataOf (by decide) name

theorem Vacant.writable (h : Vacant s t.name) : Writable t (fun _ => True) s :=
  ⟨Or.inl h.1, fun _ => h.2 _ (policyKey_mem_dataOf _ _)⟩

/-- On the way back, whatever is deleted and whatever fails, what existed stays. -/
theorem undo_keeps (hvacant : Vacant s t.name) {x : Task}
    (h : Kept s w.store ∧ ∀ y ∈ done ++ [x], s.lookup (t.key y) = none) :
    UndoEnds (handle L) (fun _ => True) (t.step reviewed now x)
      (fun w => Kept s w.store ∧ ∀ y ∈ done, s.lookup (t.key y) = none) w := by
  obtain ⟨hkept, hfresh⟩ := h
  have hrest : ∀ y ∈ done, s.lookup (t.key y) = none :=
    fun y hy => hfresh y (mem_append_left _ hy)
  have hkey : s.lookup (t.key x) = none := hfresh x (by simp)
  cases x with
  | space =>
    refine Ends.of_calls (fun c w => plausible_handle L c w)
      (deletes_deleteNamespace t.name) _ (fun c w hc hw => ?_) ⟨hkept, hrest⟩
    cases c with
    | put k v => cases hc
    | delete k =>
      refine ⟨hw.1.erase fun hobject => ?_, hw.2⟩
      obtain rfl | hprefix := hc
      · exact hkey
      · exact hvacant.2 k (mem_dataOf_below hobject hprefix)
    | get k => exact hw
    | list pre => exact hw
    | rand n => exact hw
  | policy a => exact ⟨hkept, hrest⟩
  | ldapRole a => exact ⟨fun _ => ⟨hkept, hrest⟩, hkept.erase fun _ => hkey, hrest⟩
  | k8sRole b => exact ⟨fun _ => ⟨hkept, hrest⟩, hkept.erase fun _ => hkey, hrest⟩

theorem ends_kept_of_vacant (hvacant : Vacant w.store t.name) :
    Ends (handle L) (fun _ => True) (fun _ w' => Kept w.store w'.store)
      (t.onboard reviewed now) w := by
  refine Ends.andThen (ends_planOf.imp fun r w' hr => ?_)
  obtain ⟨rfl, -⟩ := hr
  cases r with
  | error e => exact fun k _ r hr => hr
  | ok plan =>
    dsimp only
    split_ifs
    · exact fun k _ r hr => hr
    · refine Ends.andThen (Ends.imp (Ends.saga
        (fun done w => Wrote t now w'.store done w.store)
        (fun done w => Kept w'.store w.store ∧ ∀ y ∈ done, w'.store.lookup (t.key y) = none)
        (fun done x w hdone hw => did_forward x hvacant.writable hdone hw)
        (fun done w _ hw => ⟨hw.kept, hw.fresh⟩)
        (fun done x w hw => undo_keeps hvacant hw) Wrote.nil) fun r w hr => ?_)
      cases r with
      | error e => exact hr.1
      | ok _ => exact hr.kept

theorem ends_kept_of_blocked {spec : TeamSpec} (h : Blocked reviewed spec w.store)
    (hspec : normalizeTeamSpec spec = some t) :
    Ends (handle L) (fun _ => True) (fun _ w' => Kept w.store w'.store)
      (t.onboard reviewed now) w := by
  refine Ends.andThen (ends_planOf.imp fun r w' hr => ?_)
  obtain ⟨rfl, hr⟩ := hr
  cases r with
  | error e => exact fun k _ r hr => hr
  | ok plan =>
    obtain ⟨existing, hplan⟩ := hr plan rfl
    have hconflicts : plan.conflicts ≠ [] := by
      intro hnone
      have hfree := hplan.conflicts.1 hnone
      obtain ⟨b, hb, hnot⟩ | ⟨a, ha, hused⟩ | ⟨b, hb, hused⟩ := h t hspec
      · rw [hplan.reviewed b hb] at hnot
        cases hnot
      · have hnot := hfree (.ldapRole a) (by simp [Team.tasks, ha])
        exact Bool.false_ne_true (hnot.symm.trans hused)
      · have hnot := hfree (.k8sRole b) (by simp [Team.tasks, hb])
        exact Bool.false_ne_true (hnot.symm.trans hused)
    dsimp only
    rw [if_pos hconflicts]
    exact fun k _ r hr => hr

/-! ## Not more than enough -/

/-- Nothing stops the request. -/
structure Open (reviewed : Bytes → Bool) (t : Team) (s : LogicalStore) : Prop where
  reviewed : ∀ b ∈ t.k8s, reviewed b.cluster = true
  ldapRole : ∀ a ∈ t.groupLevels, s.lookup (t.key (.ldapRole a)) = none
  k8sRole : ∀ b ∈ t.k8s, s.lookup (t.key (.k8sRole b)) = none

theorem can_planK8s {bs : List Binding} (hreviewed : ∀ b ∈ bs, reviewed b.cluster = true)
    (hfree : ∀ b ∈ bs, w.store.lookup (t.key (.k8sRole b)) = none) :
    Can (handle L) (planK8s reviewed bs) w (.ok (bs.map (k8sItem · false))) w := by
  induction bs with
  | nil => exact ⟨rfl, rfl⟩
  | cons b bs ih =>
    have hrest := ih (fun b' hb' => hreviewed b' (mem_cons_of_mem b hb'))
      fun b' hb' => hfree b' (mem_cons_of_mem b hb')
    unfold planK8s
    rw [if_pos (hreviewed b mem_cons_self)]
    refine can_bind.2 ⟨.error .notFound, w, .inr ⟨?_, rfl⟩, ?_⟩
    · exact congrArg (decodeAs Record.k8sRole?) (hfree b mem_cons_self)
    · exact can_andThen.2 ⟨_, w, hrest, rfl, rfl⟩

/-- With a failed read of the namespace the plan has no conflict. -/
theorem can_planOf (h : Open reviewed t w.store) :
    ∃ plan, plan.conflicts = [] ∧ Can (handle L) (planOf reviewed t) w (.ok plan) w := by
  refine ⟨_, ?_, can_bind.2 ⟨.error .storage, w, .inl ⟨rfl, rfl⟩,
    can_andThen.2 ⟨_, w, .inr ⟨rfl, rfl⟩,
      can_andThen.2 ⟨_, w, can_planK8s h.reviewed h.k8sRole, rfl, rfl⟩⟩⟩⟩
  unfold OnboardResult.conflicts
  rw [filter_eq_nil_iff]
  intro it hit
  rw [decide_eq_true_eq]
  obtain hit | hit := mem_append.1 hit
  · obtain hit | hit := mem_append.1 hit
    · obtain rfl | hit := mem_cons.1 hit
      · exact nofun
      · obtain ⟨a, -, rfl⟩ := mem_map.1 hit
        exact nofun
    · obtain ⟨a, ha, rfl⟩ := mem_map.1 hit
      intro hconflict
      have hmem := of_decide_eq_true (conflict_of.1 hconflict)
      have hused := (mem_names L w.store LDAP.rolesKey (teamLDAPRoleName t.name a)).1 hmem
      have hfree := h.ldapRole a ha
      unfold Team.key LDAP.roleKey at hfree
      rw [hfree] at hused
      cases hused
  · obtain ⟨b, -, rfl⟩ := mem_map.1 hit
    exact nofun

/-- With a failed read the record of the namespace is written over. -/
theorem can_create : Can (handle L) (t.step reviewed now .space).forward w (.ok ())
    ⟨w.store.insert (t.key .space) (t.record now .space), w.rng⟩ := by
  have hvalid : (!Namespace.validateName t.name) = false := by rw [t.name_valid]; rfl
  have hmeta : (!t.metadata.validate) = false := by rw [t.metadata_valid]; rfl
  change Can _ ((createNamespaceWithMetadata t.name t.metadata now).andThen fun _ => _) w _ _
  unfold createNamespaceWithMetadata
  rw [hvalid, hmeta]
  exact can_andThen.2 ⟨_, _, can_bind.2 ⟨.error .storage, w, .inl ⟨rfl, rfl⟩,
    .inr ⟨rfl, rfl⟩⟩, rfl, rfl⟩

theorem can_deleteNamespace : Can (handle L) (deleteNamespace t.name) w (.ok ())
    ⟨wipe L (w.store.erase (namespaceKey t.name)) (Namespace.storagePrefix t.name), w.rng⟩ := by
  refine (can_iff (handle L) 0).2 ⟨fun _ _ => true, ?_⟩
  rw [runAllowed_all]
  exact run_deleteNamespace (isRoot_name t) L w

/-- A level is used, so a policy is written after the namespace. -/
theorem tasks_eq (t : Team) : ∃ a rest, t.tasks = .space :: .policy a :: rest := by
  obtain ⟨a, ha, hgroups⟩ := t.grouped
  have hmem : a ∈ t.levels := mem_filter.2 ⟨ha, decide_eq_true (Or.inl hgroups)⟩
  obtain ⟨b, levels, hlevels⟩ := exists_cons_of_ne_nil (ne_nil_of_mem hmem)
  unfold Team.tasks
  rw [hlevels]
  exact ⟨b, _, rfl⟩

/-- The tasks can end with a wiped namespace: the read of its record fails, and then the write of
    a policy. -/
theorem can_wipe : ∃ w', Can (handle L) (saga (t.step reviewed now) t.tasks []) w
      (.error .storage) w' ∧ w'.store.lookup (namespaceKey t.name) = none ∧
      ∀ k ∈ Namespace.dataOf t.name, w'.store.lookup k = none := by
  obtain ⟨a, rest, htasks⟩ := tasks_eq t
  rw [htasks]
  refine ⟨_, can_bind.2 ⟨.ok (), _, can_create, can_bind.2 ⟨.error .storage, _,
    .inl ⟨rfl, rfl⟩, can_bind.2 ⟨(), _, can_bind.2 ⟨.ok (), _, can_deleteNamespace,
      rfl, rfl⟩, rfl, rfl⟩⟩⟩, ?_, fun k hk => ?_⟩
  · rw [lookup_wipe, lookup_erase, if_pos rfl, ite_self]
  · rw [lookup_wipe, if_pos (Namespace.prefix_of_mem_dataOf hk)]

/-- If nothing stops the request and what exists is left alone, the namespace is vacant. -/
theorem vacant_of_kept (h : Open reviewed t w.store)
    (hkept : ∀ allow : Nat → Call Record → Bool, Kept w.store
      (runAllowed (handle L) allow 0 (t.onboard reviewed now) w).2.store) :
    Vacant w.store t.name := by
  obtain ⟨plan, hconflicts, hplan⟩ := can_planOf (L := L) h
  obtain ⟨w', hsaga, hrecord, hdata⟩ := can_wipe (L := L) (t := t) (w := w)
  have hcan : Can (handle L) (t.onboard reviewed now) w (.error .storage) w' := by
    refine can_bind.2 ⟨.ok plan, w, hplan, ?_⟩
    dsimp only
    rw [if_neg (not_not.2 hconflicts)]
    exact can_bind.2 ⟨.error .storage, w', hsaga, rfl, rfl⟩
  obtain ⟨allow, hrun⟩ := (can_iff (handle L) 0).1 hcan
  have hkept' := hkept allow
  rw [hrun] at hkept'
  -- what is gone in the end was not there
  have hgone : ∀ k ∈ objectKeys, w'.store.lookup k = none → w.store.lookup k = none := by
    intro k hk hnone
    cases hlookup : w.store.lookup k with
    | none => rfl
    | some r =>
      rw [hkept' k hk r hlookup] at hnone
      cases hnone
  exact ⟨hgone _ (Or.inl ⟨t.name, rfl⟩) hrecord,
    fun k hk => hgone k (Or.inr (Or.inl ⟨t.name, hk⟩)) (hdata k hk)⟩

theorem open_of_not_blocked {spec : TeamSpec} (hspec : normalizeTeamSpec spec = some t)
    (h : ¬Blocked reviewed spec s) : Open reviewed t s := by
  unfold Blocked at h
  rw [not_forall] at h
  obtain ⟨t', h⟩ := h
  obtain ⟨hspec', h⟩ := Classical.not_imp.1 h
  obtain rfl : t = t' := Option.some.inj (hspec.symm.trans hspec')
  obtain ⟨hreviewed, h⟩ := not_or.1 h
  obtain ⟨hldap, hk8s⟩ := not_or.1 h
  refine ⟨fun b hb => ?_, fun a ha => ?_, fun b hb => ?_⟩
  · by_contra hnot
    exact hreviewed ⟨b, hb, Bool.eq_false_iff.2 hnot⟩
  · by_contra hnot
    exact hldap ⟨a, ha, Option.isSome_iff_ne_none.2 hnot⟩
  · by_contra hnot
    exact hk8s ⟨b, hb, Option.isSome_iff_ne_none.2 hnot⟩

end

/-- Whichever storage calls fail, onboarding leaves what exists unchanged, exactly if the request
    does not get past the plan or the namespace is vacant. -/
theorem onboard_untouched_iff (reviewed : Bytes → Bool) (spec : TeamSpec) (now : Int)
    (w : LogicalWorld) :
    (∀ (L : Listing) (allow : Nat → Call Record → Bool), Kept w.store
        (runAllowed (handle L) allow 0 (onboardTeam reviewed spec now) w).2.store) ↔
      Blocked reviewed spec w.store ∨ Vacant w.store spec.name := by
  unfold onboardTeam
  cases hspec : normalizeTeamSpec spec with
  | none =>
    refine iff_of_true (fun L allow k _ r hr => hr) (Or.inl fun t ht => ?_)
    rw [hspec] at ht
    cases ht
  | some t =>
    rw [← normalize_name hspec]
    constructor
    · intro h
      by_cases hblocked : Blocked reviewed spec w.store
      · exact Or.inl hblocked
      · exact Or.inr (vacant_of_kept (open_of_not_blocked hspec hblocked) (h sorted))
    · intro h L allow
      obtain hblocked | hvacant := h
      · exact (ends_kept_of_blocked hblocked hspec).runAllowed (fun _ _ _ => trivial) 0
      · exact (ends_kept_of_vacant hvacant).runAllowed (fun _ _ _ => trivial) 0

/-! ### An existing namespace -/

/-- The namespace "green" exists, with a secret. -/
def greenWorld : LogicalWorld where
  store := ((∅ : LogicalStore).insert (namespaceKey (ascii "green"))
      (.namespace' ⟨ascii "green", 0, [], [], [], none⟩)).insert
    (ascii "ns/green/secret/x") (.secret (Entry.new (ascii "v") [] 0 0))
  rng := Stream'.const 0

def greenSpec : TeamSpec where
  name := ascii "green"
  description := []
  owner := []
  labels := []
  groups := [(ascii "reader", [ascii "all"])]
  ttl := 0
  k8s := []

/-- The two reads of the namespace record fail, then the write of the policy does: the rollback
    deletes the namespace that existed, and its secret. -/
theorem onboard_wipes_existing :
    let allow : Nat → Call Record → Bool := fun _ c =>
      match c with
      | .get k => k ≠ namespaceKey (ascii "green")
      | .put k _ => k ≠ policyKey (ascii "green") (ascii "team-reader")
      | _ => true
    let r := runAllowed (handle sorted) allow 0
      (onboardTeam (fun _ => true) greenSpec 7) greenWorld
    ¬Kept greenWorld.store r.2.store := by
  intro allow r h
  have hsecret : ascii "ns/green/secret/x" ∈ objectKeys :=
    Or.inr (Or.inl ⟨ascii "green",
      @Namespace.mem_dataOf (ascii "green") Secrets.secretPrefix (by decide) (ascii "x")⟩)
  have hkept := h _ hsecret _ rfl
  have hgone : (r.2.store.lookup (ascii "ns/green/secret/x")).isSome = false := by decide +kernel
  rw [hkept] at hgone
  cases hgone

end Tuck.Onboarding
