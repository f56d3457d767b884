/-
  Team onboarding is all-or-nothing, if what stands under the key of its namespace is absent or can
  be read. If a write of `OnboardTeam` fails, or an object turns out to exist, the rollback leaves
  every key with the value it had; otherwise the objects of the plan are stored and nothing else has
  changed (`onboard_all_or_nothing`). A record that does not decode is taken for a missing one: it
  is overwritten, and the rollback deletes it (`onboard_loses_undecodable`).

  The policies have no undo of their own: the rollback wipes the namespace. This is why there
  must be no data below its prefix before (`back_of_wrote`).
-/
import Tuck.Onboarding.Plan

namespace Tuck.Onboarding

open Tuck.Base Tuck.Core Prog KV

/-- A write. -/
def IsPut : Call Record → Prop
  | .put _ _ => True
  | _ => False

/-- No data below the prefix of the namespace. -/
def NoData (s : LogicalStore) (ns : Bytes) : Prop :=
  ∀ k, Namespace.storagePrefix ns <+: k → s.lookup k = none

/-- What is stored under the key of the namespace, if anything, is a namespace. -/
def RecordDecodes (s : LogicalStore) (name : Bytes) : Prop :=
  ∀ r, s.lookup (namespaceKey name) = some r → ∃ ns, r = .namespace' ns

/-! ## The way back -/

/-- The keys that the undoing of a task deletes. -/
def Team.covers (t : Team) : Task → Set Bytes
  | .space => deleted t.name
  | .policy _ => ∅
  | x => {t.key x}

/-- With the tasks still to be undone, the stores agree outside of what that deletes, and the
    first has nothing there. -/
structure Back (t : Team) (s : LogicalStore) (done : List Task) (s' : LogicalStore) : Prop where
  free : ∀ x ∈ done, ∀ k ∈ t.covers x, s.lookup k = none
  other : ∀ k, (∀ x ∈ done, k ∉ t.covers x) → s'.lookup k = s.lookup k

section

variable {reviewed : Bytes → Bool} {L : Listing} {t : Team} {now : Int} {s : LogicalStore}
  {done : List Task}

/-- The undoing of the tasks deletes what they have written; policies go with the namespace. -/
theorem back_of_wrote {s' : LogicalStore} (hdata : NoData s t.name) (hdone : done <+: t.tasks)
    (h : Wrote t now s done s') : Back t s done s' := by
  constructor
  · intro x hx k hk
    cases x with
    | space =>
      obtain rfl | hprefix := hk
      · exact h.fresh .space hx
      · exact hdata k hprefix
    | policy a => exact absurd hk (Set.notMem_empty k)
    | ldapRole a => exact Set.mem_singleton_iff.1 hk ▸ h.fresh _ hx
    | k8sRole b => exact Set.mem_singleton_iff.1 hk ▸ h.fresh _ hx
  · intro k hk
    refine h.other k fun x hx hkey => hk x hx ?_
    subst hkey
    cases x with
    | space => exact Or.inl rfl
    | ldapRole a => exact Set.mem_singleton _
    | k8sRole b => exact Set.mem_singleton _
    | policy a =>
      -- the first task is done, and its undoing wipes the namespace
      cases done with
      | nil => cases hx
      | cons y done =>
        obtain rfl : y = .space := (List.cons_prefix_cons.1 hdone).1
        exact absurd (Or.inr (prefix_policyKey _)) (hk .space List.mem_cons_self)

theorem Back.erase {x : Task} {s' s'' : LogicalStore} (h : Back t s (done ++ [x]) s')
    (hgone : ∀ k ∈ t.covers x, s''.lookup k = none)
    (hkept : ∀ k ∉ t.covers x, s''.lookup k = s'.lookup k) : Back t s done s'' := by
  refine ⟨fun y hy => h.free y (List.mem_append_left _ hy), fun k hk => ?_⟩
  by_cases hx : k ∈ t.covers x
  · rw [hgone k hx, h.free x (by simp) k hx]
  · rw [hkept k hx]
    refine h.other k fun y hy => ?_
    obtain hy | hy := List.mem_append.1 hy
    · exact hk y hy
    · rwa [List.mem_singleton.1 hy]

theorem Back.erase_key {x : Task} {s' : LogicalStore} (h : Back t s (done ++ [x]) s')
    (hx : t.covers x = {t.key x}) : Back t s done (s'.erase (t.key x)) := by
  refine h.erase (fun k hk => ?_) fun k hk => ?_
  · rw [hx, Set.mem_singleton_iff] at hk
    rw [lookup_erase, if_pos hk]
  · rw [hx, Set.mem_singleton_iff] at hk
    rw [lookup_erase, if_neg hk]

theorem ends_deleteNamespace {w : LogicalWorld} (h : Back t s (done ++ [.space]) w.store) :
    Ends (handle L) IsPut (fun _ w => Back t s done w.store) (deleteNamespace t.name) w := by
  refine Ends.of_run (fun c w => plausible_handle L c w)
    ((deletes_deleteNamespace t.name).imp fun c hc hput => ?_) ?_
  · cases c with
    | put k v => exact hc
    | _ => exact hput
  · rw [run_deleteNamespace (isRoot_name t)]
    refine h.erase (fun k hk => ?_) fun k hk => ?_
    · rw [lookup_wipe, lookup_erase]
      split_ifs with hprefix hrec
      · rfl
      · rfl
      · exact absurd hk (not_or.2 ⟨hrec, hprefix⟩)
    · have hk := not_or.1 hk
      rw [lookup_wipe, if_neg hk.2, lookup_erase, if_neg hk.1]

/-- Undoing a task. -/
theorem undoes {x : Task} {w : LogicalWorld} (h : Back t s (done ++ [x]) w.store) :
    UndoEnds (handle L) IsPut (t.step reviewed now x) (fun w => Back t s done w.store) w := by
  cases x with
  | space => exact ends_deleteNamespace h
  | policy a => exact h.erase (fun k hk => absurd hk (Set.notMem_empty k)) fun _ _ => rfl
  | ldapRole a => exact ⟨nofun, h.erase_key rfl⟩
  | k8sRole b => exact ⟨nofun, h.erase_key rfl⟩

/-! ## Every outcome -/

/-- What a call leaves: nothing, or the objects of the plan and nothing else. -/
def AllOrNothing (spec : TeamSpec) (now : Int) (s : LogicalStore) :
    Except Err OnboardResult → LogicalWorld → Prop
  | .error _, w => ∀ k, w.store.lookup k = s.lookup k
  | .ok plan, w => ∃ t, normalizeTeamSpec spec = some t ∧
      plan.items = t.tasks.map (t.item false) ∧
      (∀ x ∈ t.tasks, w.store.lookup (t.key x) = some (t.record now x)) ∧
      ∀ k, (∀ x ∈ t.tasks, t.key x ≠ k) → w.store.lookup k = s.lookup k

theorem ends_onboard {spec : TeamSpec} {w : LogicalWorld} (hspec : normalizeTeamSpec spec = some t)
    (hdata : NoData w.store t.name) (htyped : RecordDecodes w.store t.name) :
    Ends (handle L) IsPut (AllOrNothing spec now w.store) (t.onboard reviewed now) w := by
  have hwritable : Writable t IsPut w.store := by
    refine ⟨?_, fun a => hdata _ (prefix_policyKey _)⟩
    cases hrec : w.store.lookup (t.key .space) with
    | none => exact Or.inl rfl
    | some r =>
      obtain ⟨ns, rfl⟩ := htyped r hrec
      exact Or.inr ⟨⟨ns, rfl⟩, fun h => h⟩
  refine Ends.andThen (ends_planOf.imp fun r w' hr => ?_)
  obtain ⟨rfl, hr⟩ := hr
  cases r with
  | error e => exact fun k => rfl
  | ok plan =>
    obtain ⟨existing, hplan⟩ := hr plan rfl
    dsimp only
    split_ifs with hconflicts
    · exact fun k => rfl
    · refine Ends.andThen (Ends.imp (Ends.saga
        (fun done w => Wrote t now w'.store done w.store)
        (fun done w => Back t w'.store done w.store)
        (fun done x w hdone hw => did_forward x hwritable hdone hw)
        (fun done w hdone hw => back_of_wrote hdata hdone hw)
        (fun done x w hw => undoes hw) Wrote.nil) fun r w hr => ?_)
      cases r with
      | error e => exact fun k => hr.other k nofun
      | ok _ =>
        exact ⟨t, hspec, hplan.items_of_no_conflicts (not_not.1 hconflicts), hr.written, hr.other⟩

end

def blueSpec : TeamSpec where
  name := ascii "org/blue"
  description := ascii "payments"
  owner := []
  labels := []
  groups := [(ascii "admin", [ascii " leads "]), (ascii "reader", [ascii "all", ascii "all"])]
  ttl := 0
  k8s := [⟨[], ascii "blue", ascii "app", []⟩]

/-- Every call succeeds but the writes of one key. -/
def refusingPut (bad : Bytes) : Nat → Call Record → Bool
  | _, .put k _ => k ≠ bad
  | _, _ => true

theorem isPut_of_refused (bad : Bytes) (n : Nat) (c : Call Record)
    (hc : refusingPut bad n c = false) :
    IsPut c := by
  cases c with
  | put k v => trivial
  | _ => cases hc

end Tuck.Onboarding
