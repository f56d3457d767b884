/-
  Two onboardings side by side, at the granularity of single storage calls. Each checks that an
  object is free in one call and creates it in another, and a rollback deletes by name.

  If the two teams have different namespaces and share no LDAP role name and no Kubernetes role
  key, then what a successful call wrote is stored in the end (`onboard_keeps_objects`). With a
  shared namespace the rollback of one call deletes what the other created, and the LDAP roles
  of "a/b" and "a--b" have the same names (`onboard_race`).
-/
import Tuck.Onboarding.Untouched

namespace Tuck.Onboarding

open Tuck.Base Tuck.Core Prog List KV

/-! ## What a team touches -/

/-- The keys that onboarding a team may write or delete. -/
def Team.footprint (t : Team) : Set Bytes :=
  {k | k ∈ deleted t.name ∨ (∃ a ∈ t.groupLevels, k = t.key (.ldapRole a)) ∨
    ∃ b ∈ t.k8s, k = t.key (.k8sRole b)}

/-- The call writes only objects of the team, and deletes only what is its own. -/
def Team.Touches (t : Team) : Call Record → Prop
  | .put k _ => ∃ x ∈ t.tasks, t.key x = k
  | .delete k => k ∈ t.footprint
  | _ => True

/-- The teams have different namespaces and no role in common. -/
structure Apart (t t' : Team) : Prop where
  name : t.name ≠ t'.name
  ldapRole : ∀ a ∈ t.groupLevels, ∀ a' ∈ t'.groupLevels,
    teamLDAPRoleName t.name a ≠ teamLDAPRoleName t'.name a'
  k8sRole : ∀ b ∈ t.k8s, ∀ b' ∈ t'.k8s,
    K8s.roleKey b.cluster b.ns b.serviceAccount ≠ K8s.roleKey b'.cluster b'.ns b'.serviceAccount

section

variable {reviewed : Bytes → Bool} {t t' : Team} {now : Int}

theorem Apart.symm (h : Apart t t') : Apart t' t :=
  ⟨h.name.symm, fun a ha a' ha' => (h.ldapRole a' ha' a ha).symm,
    fun b hb b' hb' => (h.k8sRole b' hb' b hb).symm⟩

theorem mem_ldapTask {a : Access} : Task.ldapRole a ∈ t.tasks ↔ a ∈ t.groupLevels := by
  simp [Team.tasks]

theorem mem_k8sTask {b : Binding} : Task.k8sRole b ∈ t.tasks ↔ b ∈ t.k8s := by
  simp [Team.tasks]

theorem key_mem_footprint {x : Task} (hx : x ∈ t.tasks) : t.key x ∈ t.footprint := by
  cases x with
  | space => exact Or.inl (Or.inl rfl)
  | policy a => exact Or.inl (Or.inr (prefix_policyKey _))
  | ldapRole a => exact Or.inr (Or.inl ⟨a, mem_ldapTask.1 hx, rfl⟩)
  | k8sRole b => exact Or.inr (Or.inr ⟨b, mem_k8sTask.1 hx, rfl⟩)

/-- Keys of LDAP roles and of Kubernetes roles differ. -/
theorem ldapKey_ne_k8sKey (name cluster ns sa : Bytes) :
    LDAP.roleKey name ≠ K8s.roleKey cluster ns sa :=
  ne_of_prefixes (prefix_ldapKey _) (prefix_k8sKey _ _ _) (by decide)

/-- Deleting a namespace leaves what lies under other prefixes. -/
theorem not_deleted_of_prefix {k p : Bytes} (hk : p <+: k)
    (hsys : overlaps p (ascii "sys/") = false) (hns : overlaps p (ascii "ns/") = false) (t : Team) :
    k ∉ deleted t.name := by
  rintro (heq | hprefix)
  · exact ne_of_prefixes hk (prefix_namespaceKey _) hsys heq
  · exact ne_of_prefixes hk ((prefix_ns t).trans hprefix) hns rfl

/-- What belongs to one namespace is not deleted with another. -/
theorem key_not_deleted (h : t.name ≠ t'.name) {x : Task} : t.key x ∉ deleted t'.name := by
  cases x with
  | space =>
    rintro (heq | hprefix)
    · exact h (append_cancel_left heq)
    · exact ne_of_prefixes ((prefix_ns t').trans hprefix) (prefix_namespaceKey _) (by decide) rfl
  | policy a =>
    have hown : Namespace.storagePrefix t.name <+: t.key (.policy a) := prefix_policyKey _
    rintro (heq | hprefix)
    · exact ne_of_prefixes (prefix_key_policy a) (prefix_namespaceKey _) (by decide) heq
    · have heq := Namespace.eq_of_prefix_storagePrefix (isRoot_name t) (isRoot_name t') hown hprefix
      exact h (Namespace.storagePrefix_inj t.name_valid t'.name_valid heq)
  | ldapRole a => exact not_deleted_of_prefix (prefix_ldapKey _) (by decide) (by decide) t'
  | k8sRole b => exact not_deleted_of_prefix (prefix_k8sKey _ _ _) (by decide) (by decide) t'

/-- The objects of one team are outside of what the other touches. -/
theorem Apart.key_notMem (h : Apart t t') {x : Task} (hx : x ∈ t.tasks) :
    t.key x ∉ t'.footprint := by
  rintro (hdeleted | ⟨a', ha', heq⟩ | ⟨b', hb', heq⟩)
  · exact key_not_deleted h.name hdeleted
  · cases x with
    | space => exact ne_of_prefixes (prefix_namespaceKey _) (prefix_ldapKey _) (by decide) heq
    | policy a => exact ne_of_prefixes (prefix_key_policy a) (prefix_ldapKey _) (by decide) heq
    | ldapRole a => exact h.ldapRole a (mem_ldapTask.1 hx) a' ha' (append_cancel_left heq)
    | k8sRole b => exact ldapKey_ne_k8sKey _ _ _ _ heq.symm
  · cases x with
    | space => exact ne_of_prefixes (prefix_namespaceKey _) (prefix_k8sKey _ _ _) (by decide) heq
    | policy a => exact ne_of_prefixes (prefix_key_policy a) (prefix_k8sKey _ _ _) (by decide) heq
    | ldapRole a => exact ldapKey_ne_k8sKey _ _ _ _ heq
    | k8sRole b => exact h.k8sRole b (mem_k8sTask.1 hx) b' hb' heq

/-! ## Calls within the footprint -/

theorem calls_planK8s (bs : List Binding) :
    Calls Call.Plausible (t.Touches) (planK8s reviewed bs) := by
  induction bs with
  | nil => trivial
  | cons b bs ih =>
    unfold planK8s
    split_ifs
    · refine Calls.bind ((Calls.attempt trivial).andThen fun _ => trivial) fun r => ?_
      split
      · exact ih.andThen fun _ => trivial
      · exact ih.andThen fun _ => trivial
      · trivial
    · trivial

theorem calls_planOf :
    Calls Call.Plausible (t.Touches) (planOf reviewed t) := by
  refine Calls.bind ((Calls.attempt trivial).andThen fun _ => trivial) fun existing => ?_
  refine Calls.andThen ((Calls.attempt trivial).andThen fun _ => trivial) fun names => ?_
  exact (calls_planK8s t.k8s).andThen fun _ => trivial

theorem calls_forward {x : Task} (hx : x ∈ t.tasks) :
    Calls Call.Plausible (t.Touches) (t.step reviewed now x).forward := by
  have hput : Calls Call.Plausible (t.Touches)
      (KV.put Err.storage (t.key x) (t.record now x)) :=
    Calls.attempt ⟨x, hx, rfl⟩
  cases x with
  | space =>
    refine Calls.andThen ?_ fun _ => trivial
    unfold createNamespaceWithMetadata
    split_ifs
    · trivial
    · trivial
    · refine Calls.bind ((Calls.attempt trivial).andThen fun _ => trivial) fun r => ?_
      cases r with
      | ok ns => trivial
      | error e => exact hput.andThen fun _ => trivial
  | policy a => exact hput
  | ldapRole a =>
    refine Calls.andThen (Calls.andThen ((Calls.attempt trivial).andThen
      fun _ => trivial) fun _ => trivial) fun existing => ?_
    split_ifs
    · trivial
    · exact hput
  | k8sRole b =>
    refine Calls.bind ((Calls.attempt trivial).andThen fun _ => trivial) fun r => ?_
    split
    · trivial
    · unfold createK8sRole
      split_ifs
      · trivial
      · exact hput
    · trivial

theorem calls_undo {x : Task} (hx : x ∈ t.tasks) (u : Logical Unit)
    (hu : u ∈ (t.step reviewed now x).undo) :
    Calls Call.Plausible (t.Touches) u := by
  cases x with
  | space =>
    obtain rfl := Option.some.inj hu
    refine (deletes_deleteNamespace t.name).imp fun c hc => ?_
    cases c with
    | delete k => exact Or.inl hc
    | put k v => cases hc
    | _ => trivial
  | policy a => cases hu
  | ldapRole a =>
    obtain rfl := Option.some.inj hu
    exact Calls.attempt (key_mem_footprint hx)
  | k8sRole b =>
    obtain rfl := Option.some.inj hu
    exact Calls.attempt (key_mem_footprint hx)

theorem calls_onboard :
    Calls Call.Plausible (t.Touches) (t.onboard reviewed now) := by
  refine calls_planOf.andThen fun plan => ?_
  split_ifs
  · trivial
  · exact (Calls.saga (fun x hx => calls_forward hx) fun x hx => calls_undo hx).andThen
      fun _ => trivial

end

/-! ## What a call has written -/

/-- What a call remembers: the last it wrote to each key, and whether a key it wrote was found
    missing. -/
structure Trail where
  last : Bytes → Option Record
  odd : Bool

def Trail.empty : Trail := ⟨fun _ => none, false⟩

def learn (m : Trail) : (c : Call Record) → c.Reply → Trail
  | .put k v, _ => { m with last := fun k' => if k' = k then some v else m.last k' }
  | .delete k, _ => { m with last := fun k' => if k' = k then none else m.last k' }
  | .get k, r => { m with odd := m.odd || (r.isNone && (m.last k).isSome) }
  | .list _, _ => m
  | .rand _, _ => m

/-- What a call remembers is stored. -/
structure Trail.Current (t : Team) (w : LogicalWorld) (m : Trail) : Prop where
  even : m.odd = false
  own : ∀ k v, m.last k = some v → ∃ x ∈ t.tasks, t.key x = k
  stored : ∀ k v, m.last k = some v → w.store.lookup k = some v

/-- The objects of the tasks are the last that the call wrote to their keys. -/
def Trail.Has (t : Team) (now : Int) (done : List Task) (m : Trail) : Prop :=
  m.odd = false → ∀ x ∈ done, m.last (t.key x) = some (t.record now x)

section

variable {reviewed : Bytes → Bool} {L : Listing} {t t' : Team} {now : Int} {w : LogicalWorld}
  {m : Trail} {done : List Task}

theorem Trail.Current.own_call {c : Call Record} (hc : t.Touches c) (h : m.Current t w) :
    (learn m c (handle L c w).1).Current t (handle L c w).2 := by
  cases c with
  | put k v =>
    refine ⟨h.even, fun k' v' hlast => ?_, fun k' v' hlast => ?_⟩
    · change (if k' = k then some v else m.last k') = some v' at hlast
      split_ifs at hlast with hk
      · exact hk ▸ hc
      · exact h.own k' v' hlast
    · change (if k' = k then some v else m.last k') = some v' at hlast
      change (w.store.insert k v).lookup k' = some v'
      rw [lookup_insert]
      split_ifs at hlast ⊢
      · exact hlast
      · exact h.stored k' v' hlast
  | delete k =>
    refine ⟨h.even, fun k' v' hlast => ?_, fun k' v' hlast => ?_⟩
    · change (if k' = k then none else m.last k') = some v' at hlast
      split_ifs at hlast
      exact h.own k' v' hlast
    · change (if k' = k then none else m.last k') = some v' at hlast
      change (w.store.erase k).lookup k' = some v'
      rw [lookup_erase]
      split_ifs at hlast ⊢
      exact h.stored k' v' hlast
  | get k =>
    refine ⟨?_, h.own, h.stored⟩
    -- a key that the call wrote is there
    change (m.odd || ((w.store.lookup k).isNone && (m.last k).isSome)) = false
    rw [h.even]
    cases hlast : m.last k with
    | none => exact Bool.and_false _
    | some v => rw [h.stored k v hlast]; rfl
  | list pre => exact h
  | rand n => exact ⟨h.even, h.own, h.stored⟩

/-- Calls for a team apart leave what is remembered. -/
theorem Trail.Current.other_call (hapart : Apart t t') {c : Call Record} (hc : t'.Touches c)
    (h : m.Current t w) : m.Current t (handle L c w).2 := by
  have hne : ∀ k v, m.last k = some v → k ∉ t'.footprint := by
    intro k v hlast
    obtain ⟨x, hx, rfl⟩ := h.own k v hlast
    exact hapart.key_notMem hx
  refine ⟨h.even, h.own, fun k v hlast => ?_⟩
  rw [← h.stored k v hlast]
  refine KV.handle_frame (A := t'.footprint) L w ?_ (hne k v hlast)
  cases c with
  | put k' v' =>
    obtain ⟨x, hx, rfl⟩ := hc
    exact key_mem_footprint hx
  | delete k' => exact hc
  | _ => trivial

/-! ## Doing a task -/

theorem teamLDAPRoleName_inj {ns : Bytes} {a a' : Access}
    (h : teamLDAPRoleName ns a = teamLDAPRoleName ns a') : a = a' := by
  have htext := append_cancel_left h
  cases a <;> cases a' <;> first | rfl | exact absurd htext (by decide)

/-- A task with the key of an LDAP role stores that role. -/
theorem record_of_ldapKey {x : Task} {a : Access} (h : t.key x = t.key (.ldapRole a)) :
    t.record now x = t.record now (.ldapRole a) := by
  cases x with
  | space =>
    exact absurd h (ne_of_prefixes (prefix_namespaceKey _) (prefix_ldapKey _) (by decide))
  | policy a' =>
    exact absurd h (ne_of_prefixes (prefix_key_policy a') (prefix_ldapKey _) (by decide))
  | ldapRole a' => rw [teamLDAPRoleName_inj (append_cancel_left h)]
  | k8sRole b => exact absurd h.symm (ldapKey_ne_k8sKey _ _ _ _)

/-- The write of an object, which replaces at most itself. -/
theorem Trail.Has.put {x : Task} (h : m.Has t now done)
    (hsame : m.odd = false → ∀ y ∈ done, t.key y = t.key x → t.record now y = t.record now x) :
    (learn m (.put (t.key x) (t.record now x)) ()).Has t now (done ++ [x]) := by
  intro heven y hy
  change (if t.key y = t.key x then some (t.record now x) else m.last (t.key y)) = _
  obtain hy | hy := mem_append.1 hy
  · split_ifs with hkey
    · rw [hsame heven y hy hkey]
    · exact h heven y hy
  · rw [mem_singleton.1 hy, if_pos rfl]

theorem Trail.Has.get (h : m.Has t now done) (k : Bytes) (r : Option Record) :
    (learn m (.get k) r).Has t now done :=
  fun heven => h (Bool.or_eq_false_iff.1 heven).1

/-- A key that the call finds free is none that it wrote. -/
theorem Trail.Has.ne_of_free (h : m.Has t now done) {k : Bytes}
    (heven : (learn m (.get k) none).odd = false) : ∀ y ∈ done, t.key y ≠ k := by
  obtain ⟨hodd, hlast⟩ := Bool.or_eq_false_iff.1 heven
  rintro y hy rfl
  rw [h hodd y hy] at hlast
  cases hlast

/-- What a call knows after a task. -/
abbrev TracedTask (t : Team) (now : Int) (done : List Task) (m : Trail) (p : Logical Unit) : Prop :=
  Traced learn Call.Plausible (fun _ => t.Touches)
    (fun m r => r.isOk = true → m.Has t now done) m p

theorem traced_put {x : Task} (hx : x ∈ t.tasks) (h : m.Has t now done)
    (hsame : m.odd = false → ∀ y ∈ done, t.key y = t.key x → t.record now y = t.record now x) :
    TracedTask t now (done ++ [x]) m (KV.put Err.storage (t.key x) (t.record now x)) :=
  ⟨⟨x, hx, rfl⟩, nofun, fun _ _ _ => h.put hsame⟩

theorem traced_forward {x : Task} (hdone : done ++ [x] <+: t.tasks) (h : m.Has t now done) :
    TracedTask t now (done ++ [x]) m (t.step reviewed now x).forward := by
  have hx : x ∈ t.tasks := hdone.subset (by simp)
  cases x with
  | space =>
    obtain rfl := done_eq_nil hdone
    have hnothing : ∀ m : Trail, m.Has t now [] := fun _ _ => nofun
    have hput : ∀ m : Trail, TracedTask t now [Task.space] m
        ((KV.put Err.storage (t.key .space) (t.record now .space)).andThen fun _ =>
          .ret (.ok ())) :=
      fun m => ⟨⟨_, hx, rfl⟩, nofun, fun _ _ _ => (hnothing m).put fun _ => nofun⟩
    change TracedTask t now _ m ((createNamespaceWithMetadata t.name t.metadata now).andThen _)
    unfold createNamespaceWithMetadata
    split_ifs
    · nofun
    · nofun
    · refine ⟨trivial, hput m, fun r _ => ?_⟩
      cases r with
      | none => exact hput _
      | some r =>
        cases r <;> first | exact hput _ | nofun
  | policy a => exact traced_put hx h fun _ y _ hkey => record_of_policyKey now hkey
  | ldapRole a =>
    refine ⟨trivial, nofun, fun names _ => ?_⟩
    change TracedTask t now _ m (if _ then _ else _)
    split_ifs
    · nofun
    · exact traced_put hx h fun _ y _ hkey => record_of_ldapKey hkey
  | k8sRole b =>
    refine ⟨trivial, nofun, fun r _ => ?_⟩
    cases r with
    | none =>
      change TracedTask t now _ _ (createK8sRole reviewed (t.k8sRole b))
      unfold createK8sRole
      split_ifs
      · nofun
      · exact traced_put hx (h.get _ none) fun heven y hy hkey =>
          absurd hkey (h.ne_of_free heven y hy)
    | some r => cases r <;> nofun

theorem traced_onboard :
    Traced learn Call.Plausible (fun _ => t.Touches)
      (fun m r => r.isOk = true → m.Has t now t.tasks) Trail.empty (t.onboard reviewed now) := by
  refine Traced.bind ((Traced.of_calls calls_planOf (fun _ _ hc => hc) _).imp fun m r _ => ?_)
  cases r with
  | error e => nofun
  | ok plan =>
    change Traced _ _ _ _ _ (if _ then _ else _)
    split_ifs
    · nofun
    · refine Traced.bind (Traced.imp (Traced.saga (fun done m => m.Has t now done)
        (fun done x m hdone hm => traced_forward hdone hm)
        (fun x hx u hu m => Traced.of_calls (calls_undo hx u hu) (fun _ _ hc => hc) m)
        (fun _ => nofun)) fun m r hr => ?_)
      cases r with
      | error e => nofun
      | ok _ => exact fun _ => hr rfl

end

/-! ## Side by side -/

/-- A call of `OnboardTeam`. -/
structure Request where
  spec : TeamSpec
  now : Int

abbrev OnboardPool :=
  Pool (Call Record) Call.Reply Trail LogicalWorld (Except Err OnboardResult)

def startOnboardings (reviewed : Bytes → Bool) (w : LogicalWorld) (reqs : List Request) :
    OnboardPool :=
  ⟨w, reqs.map fun r => ⟨onboardTeam reviewed r.spec r.now, Trail.empty⟩⟩

/-- The namespace record, the policies and the roles are stored as the call writes them. -/
def Request.Stored (r : Request) (s : LogicalStore) : Prop :=
  ∃ t, normalizeTeamSpec r.spec = some t ∧
    ∀ x ∈ t.tasks, s.lookup (t.key x) = some (t.record r.now x)

/-- The teams of the requests are apart. -/
def Request.Apart (r r' : Request) : Prop :=
  ∀ t t', normalizeTeamSpec r.spec = some t → normalizeTeamSpec r'.spec = some t' →
    Onboarding.Apart t t'

theorem Request.Apart.symm {r r' : Request} (h : r.Apart r') : r'.Apart r :=
  fun t' t ht' ht => (h t t' ht ht').symm

/-- A call for the request. -/
def Request.Makes (r : Request) (_ : Trail) (c : Call Record) : Prop :=
  ∃ t, normalizeTeamSpec r.spec = some t ∧ t.Touches c

/-- A call for a team that is apart from that of the request. -/
def Request.Foreign (r : Request) (c : Call Record) : Prop :=
  ∃ t', (∀ t, normalizeTeamSpec r.spec = some t → Onboarding.Apart t t') ∧ t'.Touches c

def Request.Remembers (r : Request) (w : LogicalWorld) (m : Trail) : Prop :=
  ∀ t, normalizeTeamSpec r.spec = some t → m.Current t w

/-- After a success the objects are what was written last. -/
def Request.Left (r : Request) (m : Trail) (a : Except Err OnboardResult) : Prop :=
  a.isOk = true → ∃ t, normalizeTeamSpec r.spec = some t ∧ m.Has t r.now t.tasks

section

variable {reviewed : Bytes → Bool} {L : Listing} {r r' : Request}

theorem Request.Remembers.start (r : Request) (w : LogicalWorld) : r.Remembers w Trail.empty :=
  fun _ _ => ⟨rfl, nofun, nofun⟩

theorem Request.Remembers.own_call (w : LogicalWorld) (m : Trail) (c : Call Record)
    (hc : r.Makes m c) (h : r.Remembers w m) :
    r.Remembers (handle L c w).2 (learn m c (handle L c w).1) := by
  intro t ht
  obtain ⟨t', ht', hc⟩ := hc
  obtain rfl := Option.some.inj (ht'.symm.trans ht)
  exact (h t' ht).own_call hc

theorem Request.Remembers.other_call (w : LogicalWorld) (m : Trail) (c : Call Record)
    (hc : r.Foreign c) (h : r.Remembers w m) : r.Remembers (handle L c w).2 m := by
  intro t ht
  obtain ⟨t', hapart, hc⟩ := hc
  exact (h t ht).other_call (hapart t ht) hc

theorem traced_onboardTeam (r : Request) :
    Traced learn Call.Plausible r.Makes r.Left Trail.empty
      (onboardTeam reviewed r.spec r.now) := by
  unfold onboardTeam
  cases ht : normalizeTeamSpec r.spec with
  | none => nofun
  | some t =>
    have hmakes : ∀ m c, t.Touches c → r.Makes m c := fun _ c hc => ⟨t, ht, hc⟩
    exact (traced_onboard.imp fun m a ha hok => ⟨t, ht, ha hok⟩).mono (fun _ _ h => h) hmakes

/-- The other request makes only calls for a team apart. -/
theorem calls_onboardTeam (h : r.Apart r') :
    Calls Call.Plausible r.Foreign (onboardTeam reviewed r'.spec r'.now) := by
  unfold onboardTeam
  cases ht' : normalizeTeamSpec r'.spec with
  | none => trivial
  | some t' => exact calls_onboard.imp fun c hc => ⟨t', fun t ht => h t t' ht ht', hc⟩

end

/-- Whichever calls fail: what a successful call wrote is stored from then on, if the teams of
    the two requests are apart. -/
theorem onboard_keeps_objects (L : Listing) (reviewed : Bytes → Bool) (w : LogicalWorld)
    (first second : Request) (hapart : first.Apart second) (sched : List (Nat × Bool)) (j : Nat)
    (r : Request) (hr : [first, second][j]? = some r) (plan : OnboardResult)
    (hret : (runs (Pool.step (handle L) learn) (startOnboardings reviewed w [first, second])
      sched).result? j = some (.ok plan)) :
    r.Stored (runs (Pool.step (handle L) learn) (startOnboardings reviewed w [first, second])
      sched).world.store := by
  have hothers : ∀ i r', i ≠ j → [first, second][i]? = some r' → r.Apart r' := by
    intro i r' hij hr'
    match i, j, hr, hr' with
    | 0, 0, _, _ => exact absurd rfl hij
    | 1, 1, _, _ => exact absurd rfl hij
    | 0, 1, rfl, rfl => exact hapart.symm
    | 1, 0, rfl, rfl => exact hapart
  obtain ⟨m, hremembers, hleft⟩ := Pool.owned (plausible_handle L)
    (Request.Remembers.own_call (r := r)) Request.Remembers.other_call
    (fun th hth => by
      rw [startOnboardings, List.getElem?_map, hr] at hth
      obtain rfl := Option.some.inj hth
      exact ⟨.start r w, traced_onboardTeam r⟩)
    (fun i th hij hth => by
      obtain ⟨r', hr', rfl⟩ := Option.map_eq_some_iff.1 ((List.getElem?_map ..).symm.trans hth)
      exact calls_onboardTeam (hothers i r' hij hr')) hret
  obtain ⟨t, ht, hhas⟩ := hleft rfl
  have hcurrent := hremembers t ht
  exact ⟨t, ht, fun x hx => hcurrent.stored _ _ (hhas hcurrent.even x hx)⟩

/-- A request like that for "green", for another namespace. -/
def requestFor (name : Bytes) (now : Int) : Request := ⟨{ greenSpec with name := name }, now⟩

/-- Two requests, one call after the other. -/
def runRequests (first second : Request) (turns : List Nat) : OnboardPool :=
  runs (Pool.step (handle sorted) learn)
    (startOnboardings (fun _ => true) ⟨∅, Stream'.const 0⟩ [first, second])
    (turns.map fun i => (i, true))

theorem normalize_requestFor {name : Bytes} {now : Int} {t : Team}
    (h : normalizeTeamSpec (requestFor name now).spec = some t) :
    t.groups = greenSpec.groupsOf ∧ t.k8s = [] := by
  unfold normalizeTeamSpec at h
  split_ifs at h
  obtain ⟨k8s, hk8s, rfl⟩ := Option.map_eq_some_iff.1 h
  exact ⟨rfl, (Option.some.inj hk8s).symm⟩

theorem requestFor_apart :
    (requestFor (ascii "green") 7).Apart (requestFor (ascii "blue") 8) := by
  intro t t' ht ht'
  have hname : t.name = ascii "green" := normalize_name ht
  have hname' : t'.name = ascii "blue" := normalize_name ht'
  refine ⟨?_, fun a _ a' _ => ?_, fun b hb => ?_⟩
  · rw [hname, hname']
    decide
  · rw [hname, hname']
    cases a <;> cases a' <;> decide
  · rw [(normalize_requestFor ht).2] at hb
    cases hb

/-- Two requests for different namespaces in turns. -/
def sideBySide : OnboardPool :=
  runRequests (requestFor (ascii "green") 7) (requestFor (ascii "blue") 8)
    [0, 1, 0, 1, 0, 1, 0, 1, 0, 1, 0, 1, 0, 1]

theorem sideBySide_ok : ∃ plan, sideBySide.result? 0 = some (.ok plan) := by
  have hok : (sideBySide.result? 0).any Except.isOk = true := by decide +kernel
  generalize sideBySide.result? 0 = result at hok
  cases result with
  | none => cases hok
  | some a =>
    cases a with
    | error e => cases hok
    | ok plan => exact ⟨plan, rfl⟩

theorem onboard_keeps_objects_side_by_side :
    (requestFor (ascii "green") 7).Stored sideBySide.world.store := by
  obtain ⟨plan, hret⟩ := sideBySide_ok
  exact onboard_keeps_objects sorted (fun _ => true) ⟨∅, Stream'.const 0⟩ _ _ requestFor_apart
    _ 0 _ rfl plan hret

/-- Two requests for one namespace: the second reads that there is none, the first creates
    everything, then the second finds the LDAP role and rolls back. -/
def rolledBack : OnboardPool :=
  runRequests (requestFor (ascii "green") 7) (requestFor (ascii "green") 8)
    ([1, 1, 1] ++ List.replicate 7 0 ++ List.replicate 6 1)

/-- Two namespaces whose LDAP roles have one name: the second call does not find the role, the
    first creates everything, then the second writes its role. -/
def overwritten : OnboardPool :=
  runRequests (requestFor (ascii "a/b") 7) (requestFor (ascii "a--b") 8)
    (List.replicate 6 1 ++ List.replicate 7 0 ++ [1])

theorem onboard_race :
    ((rolledBack.result? 0).any Except.isOk = true ∧ (rolledBack.result? 1).isSome = true ∧
      ¬(requestFor (ascii "green") 7).Stored rolledBack.world.store) ∧
    (overwritten.result? 0).any Except.isOk = true ∧ (overwritten.result? 1).isSome = true ∧
      ¬(requestFor (ascii "a/b") 7).Stored overwritten.world.store := by
  refine ⟨⟨by decide +kernel, by decide +kernel, ?_⟩, by decide +kernel, by decide +kernel, ?_⟩
  · rintro ⟨t, ht, hstored⟩
    have hname : t.name = ascii "green" := normalize_name ht
    have hspace := hstored .space mem_cons_self
    have hgone : (rolledBack.world.store.lookup (namespaceKey (ascii "green"))).isSome = false := by
      decide +kernel
    rw [← hname] at hgone
    rw [show rolledBack.world.store.lookup (namespaceKey t.name) = _ from hspace] at hgone
    cases hgone
  · rintro ⟨t, ht, hstored⟩
    have hname : t.name = ascii "a/b" := normalize_name ht
    -- the name of the LDAP role does not tell the namespaces apart
    have hother : ((overwritten.world.store.lookup (LDAP.roleKey (ascii "a--b-reader"))).bind
        Record.ldapRole?).map LDAP.Role.tuckNamespace = some (ascii "a--b") := by decide +kernel
    have hmem : Task.ldapRole .reader ∈ t.tasks := by
      rw [mem_ldapTask, Team.groupLevels, (normalize_requestFor ht).1]
      decide
    have hkey : t.key (.ldapRole .reader) = LDAP.roleKey (ascii "a--b-reader") := by
      change LDAP.roleKey (teamLDAPRoleName t.name .reader) = _
      rw [hname]
      decide
    have hown := hstored _ hmem
    rw [← hkey, hown] at hother
    exact absurd (hname.symm.trans (Option.some.inj hother)) (by decide)

end Tuck.Onboarding
