/-
  What `PlanTeam` reports. It reads only; a plan lists the tasks of the team, each LDAP and
  Kubernetes role as a conflict exactly if its key is in use (`ends_planOf`). Whether the
  namespace is one depends on whether its record could be read.
-/
import Tuck.Onboarding.Objects

namespace Tuck.Onboarding

open Tuck.Base Tuck.Core Prog

/-- Whether the plan takes the object of a task to exist. -/
def Team.planned (t : Team) (s : LogicalStore) (existing : Bool) : Task → Bool
  | .space => existing
  | .policy _ => false
  | x => (s.lookup (t.key x)).isSome

/-- The plan of a team in a store. -/
structure Planned (reviewed : Bytes → Bool) (t : Team) (s : LogicalStore) (existing : Bool)
    (plan : OnboardResult) : Prop where
  ns : plan.ns = t.name
  items : plan.items = t.tasks.map fun x => t.item (t.planned s existing x) x
  k8sHints : plan.k8sHints = t.hints
  reviewed : ∀ b ∈ t.k8s, reviewed b.cluster = true

section

variable {reviewed : Bytes → Bool} {L : KV.Listing} {t : Team} {mayFail : KV.Call Record → Prop}
  {w : LogicalWorld}

theorem conflict_of {kind : Kind} {name detail conflictDetail : Bytes} {existing : Bool} :
    (PlanItem.of kind name detail conflictDetail existing).action = .conflict ↔
      existing = true := by
  cases existing with
  | true => exact ⟨fun _ => rfl, fun _ => rfl⟩
  | false => exact ⟨nofun, nofun⟩

section

variable {s : LogicalStore} {existing : Bool} {plan : OnboardResult}

/-- A plan has a conflict exactly if one of the objects is taken to exist. -/
theorem Planned.conflicts (h : Planned reviewed t s existing plan) :
    plan.conflicts = [] ↔ ∀ x ∈ t.tasks, t.planned s existing x = false := by
  unfold OnboardResult.conflicts
  rw [h.items, List.filter_eq_nil_iff, List.forall_mem_map]
  refine forall₂_congr fun x _ => ?_
  rw [decide_eq_true_eq]
  cases x with
  | policy a => exact iff_of_true nofun rfl
  | space => exact (not_congr conflict_of).trans (by rw [Bool.not_eq_true])
  | ldapRole a => exact (not_congr conflict_of).trans (by rw [Bool.not_eq_true])
  | k8sRole b => exact (not_congr conflict_of).trans (by rw [Bool.not_eq_true])

theorem Planned.items_of_no_conflicts (h : Planned reviewed t s existing plan)
    (hnone : plan.conflicts = []) : plan.items = t.tasks.map (t.item false) := by
  rw [h.items]
  refine List.map_congr_left fun x hx => ?_
  rw [h.conflicts.1 hnone x hx]

end

/-! ## Reading -/

/-- The Kubernetes items of a plan. -/
theorem ends_planK8s (bs : List Binding) :
    Ends (KV.handle L) mayFail (fun r w' => w' = w ∧ ∀ items, r = .ok items →
      items = bs.map (fun b => k8sItem b (w.store.lookup
        (K8s.roleKey b.cluster b.ns b.serviceAccount)).isSome) ∧
      ∀ b ∈ bs, reviewed b.cluster = true) (planK8s reviewed bs) w := by
  induction bs with
  | nil =>
    refine ⟨rfl, fun items hitems => ?_⟩
    cases hitems
    exact ⟨rfl, fun _ hb => absurd hb List.not_mem_nil⟩
  | cons b bs ih =>
    unfold planK8s
    split_ifs with hb
    · refine ⟨fun _ => ⟨rfl, fun _ h => by cases h⟩, ?_⟩
      change Ends _ _ _ (bind (.ret (decodeAs Record.k8sRole? (w.store.lookup
        (K8s.roleKey b.cluster b.ns b.serviceAccount)))) _) w
      -- the rest of the items follow
      have hrest :
          ∀ existing, (w.store.lookup (K8s.roleKey b.cluster b.ns b.serviceAccount)).isSome =
          existing → Ends (KV.handle L) mayFail (fun r w' => w' = w ∧ ∀ items, r = .ok items →
            items = (b :: bs).map (fun b => k8sItem b (w.store.lookup
              (K8s.roleKey b.cluster b.ns b.serviceAccount)).isSome) ∧
            ∀ b' ∈ b :: bs, reviewed b'.cluster = true)
          ((planK8s reviewed bs).andThen fun items =>
            .ret (.ok (k8sItem b existing :: items))) w := by
        intro existing hexisting
        refine Ends.andThen (ih.imp fun r w' hr => ?_)
        obtain ⟨rfl, hr⟩ := hr
        cases r with
        | error e => exact ⟨rfl, fun _ h => by cases h⟩
        | ok items =>
          obtain ⟨hitems, hreviewed⟩ := hr items rfl
          refine ⟨rfl, fun items' hitems' => ?_⟩
          cases hitems'
          rw [List.map_cons, hexisting, hitems]
          exact ⟨rfl, List.forall_mem_cons.2 ⟨hb, hreviewed⟩⟩
      cases hrole : w.store.lookup (K8s.roleKey b.cluster b.ns b.serviceAccount) with
      | none => exact hrest false (by rw [hrole]; rfl)
      | some r =>
        cases hdec : Record.k8sRole? r with
        | some role =>
          simp only [decodeAs, hdec]
          exact hrest true (by rw [hrole]; rfl)
        | none =>
          simp only [decodeAs, hdec]
          exact ⟨rfl, fun _ h => by cases h⟩
    · exact ⟨rfl, fun _ h => by cases h⟩

theorem decide_mem_names (a : Access) :
    decide (teamLDAPRoleName t.name a ∈
      (L.order (KV.under w.store LDAP.rolesKey)).map fun k => trimPrefix k LDAP.rolesKey) =
      (w.store.lookup (t.key (.ldapRole a))).isSome := by
  rw [Bool.eq_iff_iff, decide_eq_true_eq]
  exact KV.mem_names L w.store LDAP.rolesKey (teamLDAPRoleName t.name a)

/-- Reading for the plan changes nothing. -/
theorem ends_planOf :
    Ends (KV.handle L) mayFail (fun r w' => w' = w ∧ ∀ plan, r = .ok plan →
      ∃ existing, Planned reviewed t w.store existing plan) (planOf reviewed t) w := by
  -- after the read of the namespace, whatever it gave
  have hrest : ∀ existing : Except Err Namespace,
      Ends (KV.handle L) mayFail (fun r w' => w' = w ∧ ∀ plan, r = .ok plan →
        ∃ existing, Planned reviewed t w.store existing plan)
      (LDAP.listRoles.andThen fun names => (planK8s reviewed t.k8s).andThen fun k8sItems =>
        .ret (.ok
          { ns := t.name
            dryRun := true
            items := t.namespaceItem existing.isOk :: t.levels.map policyItem ++
              t.groupLevels.map (fun a => t.ldapItem a (teamLDAPRoleName t.name a ∈ names)) ++
              k8sItems
            k8sHints := t.hints })) w := by
    intro existing
    refine ⟨fun _ => ⟨rfl, nofun⟩, ?_⟩
    change Ends _ _ _ (andThen (planK8s reviewed t.k8s) _) w
    refine Ends.andThen ((ends_planK8s t.k8s).imp fun r w' hr => ?_)
    obtain ⟨rfl, hr⟩ := hr
    cases r with
    | error e => exact ⟨rfl, nofun⟩
    | ok items =>
      obtain ⟨hitems, hreviewed⟩ := hr items rfl
      refine ⟨rfl, fun plan hplan => ⟨existing.isOk, ?_⟩⟩
      cases hplan
      refine ⟨rfl, ?_, rfl, hreviewed⟩
      rw [hitems]
      unfold Team.tasks
      simp only [List.map_cons, List.map_append, List.map_map, List.cons_append, List.append_assoc]
      change _ :: (_ ++ (t.groupLevels.map (fun a => t.ldapItem a
        (decide (teamLDAPRoleName t.name a ∈
        (L.order (KV.under w'.store LDAP.rolesKey)).map
          fun k => trimPrefix k LDAP.rolesKey))) ++ _)) = _
      simp only [decide_mem_names]
      rfl
  exact ⟨fun _ => hrest (.error .storage), hrest _⟩

end

end Tuck.Onboarding
