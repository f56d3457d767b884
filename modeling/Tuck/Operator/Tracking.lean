/-
  What the controller tracks, and when it refreshes it: the list and the watch events write the
  table of tracked resources, the scan reads it.

  Two things go wrong over several cycles. A list adds to the table and never clears it, so
  what was deleted while the watch was down stays tracked (`tracked_list_iff`). And an event
  that changes no spec, which is meant to do nothing, still moves the deadline of its resource
  (`scans_due`).

  What becomes of a `reconcile` is any here (`Sys.reconcile` is its model): only its times and
  whether it succeeded matter. `attempted` is not in the source: it is the time at which the
  last attempt for a resource ended.
-/
import Tuck.Operator.Deletion
import Tuck.Base.KV
import Tuck.Base.Machine

namespace Tuck.Operator

open Tuck.Base KV

/-- `trackedResource`. -/
structure Tracked where
  ts : TuckSecret
  nextRefresh : Int

/-- What becomes of a `reconcile`: whether it succeeds, the time until it reads the clock for the
    deadline, and the time from there to its end. -/
structure Attempt where
  ok : Bool
  synced : Nat
  rest : Nat

structure Controller where
  tracked : KV.Store Tracked
  now : Int
  attempted : Bytes → Int

/-- The type of a watch event. -/
inductive EventType
  | added | modified | deleted | bookmark | error | unknown
  deriving DecidableEq

/-- What the controller does: the list part of a cycle, a watch event, a scan, or nothing for some
    time. A scan visits the table in an order of its own. -/
inductive Act
  | list (items : List (TuckSecret × Attempt))
  | event (type : EventType) (ts : TuckSecret) (a : Attempt)
  | scan (L : Listing) (attempts : Bytes → Attempt)
  | wait (d : Nat)

section

-- `time.ParseDuration`, in nanoseconds
variable (parseDuration : Bytes → Option Int)

/-- Five minutes. -/
def defaultRefresh : Int := 300000000000

def Spec.refreshDuration (s : Spec) : Int :=
  if s.refreshInterval = [] then defaultRefresh
  else (parseDuration s.refreshInterval).getD defaultRefresh

namespace Controller

/-- `addTracked`; the result says whether the spec changed. -/
def addTracked (c : Controller) (ts : TuckSecret) : Controller × Bool :=
  let r : Tracked := ⟨ts, c.now + ts.spec.refreshDuration parseDuration⟩
  ({ c with tracked := c.tracked.insert ts.resourceKey r },
    !(c.tracked.lookup ts.resourceKey).any fun prev => prev.ts.spec = ts.spec)

def removeTracked (c : Controller) (ts : TuckSecret) : Controller :=
  { c with tracked := c.tracked.erase ts.resourceKey }

/-- `reconcile`, as far as the table is concerned. -/
def reconcile (c : Controller) (ts : TuckSecret) (a : Attempt) : Controller where
  tracked :=
    match c.tracked.lookup ts.resourceKey with
    | some r =>
        if a.ok then
          c.tracked.insert ts.resourceKey
            { r with nextRefresh := c.now + a.synced + ts.spec.refreshDuration parseDuration }
        else c.tracked
    | none => c.tracked
  now := c.now + a.synced + a.rest
  attempted := Function.update c.attempted ts.resourceKey (c.now + a.synced + a.rest)

/-- One resource of the list; of `runDeletion` only the table is kept. -/
def listItem (c : Controller) (ts : TuckSecret) (a : Attempt) : Controller :=
  let c := (c.addTracked parseDuration ts).1
  if ts.deleting then c.removeTracked ts else c.reconcile parseDuration ts a

def handleEvent (c : Controller) (type : EventType) (ts : TuckSecret) (a : Attempt) : Controller :=
  match type with
  | .added | .modified =>
      let (c, specChanged) := c.addTracked parseDuration ts
      if ts.deleting then c.removeTracked ts
      else if specChanged then c.reconcile parseDuration ts a
      else c
  | .deleted => c.removeTracked ts
  | .bookmark | .error | .unknown => c

/-- The tracked resources, in the order in which a loop visits them. -/
def entries (c : Controller) (L : Listing) : List Tracked :=
  (L.order c.tracked.keys).filterMap c.tracked.lookup

/-- The resources that a scan finds due. -/
def due (c : Controller) (L : Listing) : List TuckSecret :=
  ((c.entries L).filter fun r => r.nextRefresh < c.now).map (·.ts)

def runDueRefreshes (c : Controller) (L : Listing) (attempts : Bytes → Attempt) : Controller :=
  (c.due L).foldl (fun c ts => c.reconcile parseDuration ts (attempts ts.resourceKey)) c

def step (c : Controller) : Act → Controller
  | .list items => items.foldl (fun c i => c.listItem parseDuration i.1 i.2) c
  | .event type ts a => c.handleEvent parseDuration type ts a
  | .scan L attempts => c.runDueRefreshes parseDuration L attempts
  | .wait d => { c with now := c.now + d }

/-- The resource that is tracked under a key. -/
def known (c : Controller) (k : Bytes) : Option TuckSecret := (c.tracked.lookup k).map (·.ts)

/-- Exactly the listed resources that are not being deleted are tracked, as they were listed. -/
def TracksExactly (c : Controller) (items : List TuckSecret) : Prop :=
  ∀ k ts, c.known k = some ts ↔ ts ∈ items ∧ ts.deleting = false ∧ ts.resourceKey = k

/-- A scan now leaves out no resource whose last attempt ended more than its interval ago. -/
def ScanComplete (c : Controller) (L : Listing) : Prop :=
  ∀ k r, c.tracked.lookup k = some r →
    c.attempted k < c.now - r.ts.spec.refreshDuration parseDuration → r.ts ∈ c.due L

/-- The act is an event without a change of the spec that puts off the deadline of its resource. -/
def movesDeadline (c : Controller) : Act → Bool
  | .event .added ts _ | .event .modified ts _ =>
      !ts.deleting && (c.tracked.lookup ts.resourceKey).any fun r =>
        decide (r.ts.spec = ts.spec) &&
          decide (r.nextRefresh < c.now + ts.spec.refreshDuration parseDuration)
  | _ => false

end Controller

end

/-! ## What is tracked after a list -/

namespace Controller

section

variable {parseDuration : Bytes → Option Int} {c : Controller} {ts : TuckSecret} {a : Attempt}

theorem known_addTracked (k : Bytes) :
    (c.addTracked parseDuration ts).1.known k =
      if k = ts.resourceKey then some ts else c.known k := by
  unfold known addTracked
  rw [lookup_insert]
  split_ifs <;> rfl

theorem known_removeTracked (k : Bytes) :
    (c.removeTracked ts).known k = if k = ts.resourceKey then none else c.known k := by
  unfold known removeTracked
  rw [lookup_erase]
  split_ifs <;> rfl

theorem known_reconcile : (c.reconcile parseDuration ts a).known = c.known := by
  funext k
  unfold known reconcile
  cases hr : c.tracked.lookup ts.resourceKey with
  | none => rfl
  | some r =>
    dsimp only
    split_ifs
    · rw [lookup_insert]
      split_ifs with hk
      · rw [hk, hr]
        rfl
      · rfl
    · rfl

theorem known_listItem (k : Bytes) :
    (c.listItem parseDuration ts a).known k =
      if k = ts.resourceKey then (if ts.deleting then none else some ts) else c.known k := by
  unfold listItem
  dsimp only
  split_ifs with hdel hk hk
  · rw [known_removeTracked, if_pos hk]
  · rw [known_removeTracked, if_neg hk, known_addTracked, if_neg hk]
  · rw [known_reconcile, known_addTracked, if_pos hk]
  · rw [known_reconcile, known_addTracked, if_neg hk]

/-- After the list a key has what was listed under it, and what it had before if nothing was. -/
theorem known_list {items : List (TuckSecret × Attempt)}
    (hnodup : (items.map (·.1.resourceKey)).Nodup) (k : Bytes) :
    (∀ i ∈ items, i.1.resourceKey = k → (c.step parseDuration (.list items)).known k =
        if i.1.deleting then none else some i.1) ∧
      ((∀ i ∈ items, i.1.resourceKey ≠ k) →
        (c.step parseDuration (.list items)).known k = c.known k) := by
  induction items generalizing c with
  | nil => exact ⟨fun i hi => absurd hi List.not_mem_nil, fun _ => rfl⟩
  | cons j items ih =>
    obtain ⟨hj, hrest⟩ := List.nodup_cons.1 hnodup
    obtain ⟨hlisted, hother⟩ := ih (c := c.listItem parseDuration j.1 j.2) hrest
    constructor
    · intro i hi hk
      rcases List.mem_cons.1 hi with rfl | hi
      · refine (hother fun i' hi' hk' => hj ?_).trans ?_
        · exact List.mem_map.2 ⟨i', hi', hk'.trans hk.symm⟩
        · rw [known_listItem, if_pos hk.symm]
      · exact hlisted i hi hk
    · intro hk
      obtain ⟨hkj, hk⟩ := List.forall_mem_cons.1 hk
      refine (hother hk).trans ?_
      rw [known_listItem, if_neg (Ne.symm hkj)]

end

/-- After a list exactly the listed resources are tracked if and only if nothing was tracked
    before that is not listed any more. The keys of a list are distinct. -/
theorem tracked_list_iff (parseDuration : Bytes → Option Int) (c : Controller)
    (items : List (TuckSecret × Attempt)) (hnodup : (items.map (·.1.resourceKey)).Nodup) :
    (c.step parseDuration (.list items)).TracksExactly (items.map Prod.fst) ↔
      ∀ k, c.known k ≠ none → ∃ i ∈ items, i.1.resourceKey = k := by
  constructor
  · intro h k hk
    by_contra hnot
    push Not at hnot
    obtain ⟨ts, hts⟩ := Option.ne_none_iff_exists'.1 hk
    rw [← (known_list hnodup k).2 hnot] at hts
    obtain ⟨hmem, -, hkey⟩ := (h k ts).1 hts
    obtain ⟨i, hi, rfl⟩ := List.mem_map.1 hmem
    exact hnot i hi hkey
  · intro h k ts
    constructor
    · intro hts
      by_cases hlisted : ∃ i ∈ items, i.1.resourceKey = k
      · obtain ⟨i, hi, hk⟩ := hlisted
        rw [(known_list hnodup k).1 i hi hk] at hts
        split_ifs at hts with hdel
        obtain rfl := Option.some.inj hts
        exact ⟨List.mem_map_of_mem hi, by simpa using hdel, hk⟩
      · push Not at hlisted
        rw [(known_list hnodup k).2 hlisted] at hts
        obtain ⟨i, hi, hk⟩ := h k (by rw [hts]; exact Option.some_ne_none ts)
        exact absurd hk (hlisted i hi)
    · rintro ⟨hmem, hdel, hk⟩
      obtain ⟨i, hi, rfl⟩ := List.mem_map.1 hmem
      rw [(known_list hnodup k).1 i hi hk, hdel]
      rfl

def twoItems : List (TuckSecret × Attempt) :=
  [(sharing "db" "password", ⟨true, 1, 1⟩), (sharing "web" "cert", ⟨true, 1, 1⟩)]

/-- The same resources later, when the first one is being deleted. -/
def laterItems : List (TuckSecret × Attempt) :=
  twoItems.map fun i => ({ i.1 with deleting := i.1.name = ascii "db" }, i.2)

def trackingTwo : Controller := step (fun _ => none) ⟨∅, 0, fun _ => 0⟩ (.list twoItems)

/-- Two resources are tracked and listed again. -/
theorem tracked_second_list :
    trackingTwo.known (ascii "team-a/db") = some (sharing "db" "password") ∧
      (trackingTwo.step (fun _ => none) (.list laterItems)).TracksExactly
        (laterItems.map Prod.fst) := by
  refine ⟨by decide +kernel, (tracked_list_iff _ _ _ (by decide)).2 fun k hk => ?_⟩
  by_contra hnot
  push Not at hnot
  rw [laterItems, List.forall_mem_map] at hnot
  exact hk ((known_list (by decide) k).2 hnot)

/-- A resource is listed, then deleted while the watch is down, and another one is created for the
    same key of the same Secret. After the next list the first one is still tracked, and the
    second one is refused as a conflict. -/
theorem deleted_resource_tracked :
    let c := runs (step fun _ => none) ⟨∅, 0, fun _ => 0⟩
      [.list [(sharing "db" "password", ⟨true, 1, 1⟩)], .wait 1000000000,
        .list [(sharing "db2" "password", ⟨false, 1, 1⟩)]]
    c.known (ascii "team-a/db") = some (sharing "db" "password") ∧
      Sys.checkSecretConflict ⟨[sharing "db2" "password"], fun _ => none,
        (c.entries sorted).map (·.ts)⟩
        (sharing "db2" "password") [(ascii "password", ascii "team-a/db")] = false := by
  decide +kernel

/-! ## Deadlines -/

section

variable (parseDuration : Bytes → Option Int)

/-- The deadline of a tracked resource is not later than its interval after the last attempt. -/
structure InTime (c : Controller) (k : Bytes) (r : Tracked) : Prop where
  key : r.ts.resourceKey = k
  deadline : r.nextRefresh ≤ c.attempted k + r.ts.spec.refreshDuration parseDuration
  past : c.attempted k ≤ c.now

def Timely (c : Controller) : Prop :=
  ∀ k r, c.tracked.lookup k = some r → InTime parseDuration c k r

end

section

variable {parseDuration : Bytes → Option Int} {c : Controller} {ts : TuckSecret} {a : Attempt}

theorem mem_due {L : Listing} :
    ts ∈ c.due L ↔ ∃ k r, c.tracked.lookup k = some r ∧ r.nextRefresh < c.now ∧ r.ts = ts := by
  simp only [due, entries, List.mem_map, List.mem_filter, List.mem_filterMap, L.mem_order,
    Finmap.mem_keys, decide_eq_true_eq]
  constructor
  · rintro ⟨r, ⟨⟨k, -, hr⟩, hdue⟩, rfl⟩
    exact ⟨k, r, hr, hdue, rfl⟩
  · rintro ⟨k, r, hr, hdue, rfl⟩
    exact ⟨r, ⟨⟨k, Finmap.mem_of_lookup_eq_some hr, hr⟩, hdue⟩, rfl⟩

/-- An attempt brings its resource in time, whatever comes of it, if the deadline before was not
    later than the interval from the start of the attempt. -/
theorem timely_reconcile
    (hother : ∀ k r, k ≠ ts.resourceKey → c.tracked.lookup k = some r → InTime parseDuration c k r)
    (hself : ∀ r, c.tracked.lookup ts.resourceKey = some r →
      r.ts = ts ∧ r.nextRefresh ≤ c.now + ts.spec.refreshDuration parseDuration) :
    Timely parseDuration (c.reconcile parseDuration ts a) := by
  intro k r hr
  by_cases hk : k = ts.resourceKey
  · subst hk
    have hkept : r.ts = ts ∧
        r.nextRefresh ≤ c.now + a.synced + ts.spec.refreshDuration parseDuration := by
      unfold reconcile at hr
      cases hold : c.tracked.lookup ts.resourceKey with
      | none => rw [hold] at hr; exact nomatch hold.symm.trans hr
      | some r' =>
        obtain ⟨hts, hle⟩ := hself r' hold
        rw [hold] at hr
        dsimp only at hr
        split_ifs at hr
        · rw [lookup_insert, if_pos rfl] at hr
          obtain rfl := Option.some.inj hr
          exact ⟨hts, le_refl _⟩
        · obtain rfl := Option.some.inj (hold.symm.trans hr)
          exact ⟨hts, by omega⟩
    obtain ⟨rfl, hle⟩ := hkept
    refine ⟨rfl, ?_, ?_⟩
    · simp only [reconcile, Function.update_self]
      omega
    · simp only [reconcile, Function.update_self, le_refl]
  · have hold : c.tracked.lookup k = some r := by
      rw [← hr]
      unfold reconcile
      cases c.tracked.lookup ts.resourceKey with
      | none => rfl
      | some r' =>
        dsimp only
        split_ifs
        · rw [lookup_insert, if_neg hk]
        · rfl
    obtain ⟨hkey, hdeadline, hpast⟩ := hother k r hk hold
    refine ⟨hkey, ?_, ?_⟩
    · simpa only [reconcile, Function.update_of_ne hk] using hdeadline
    · simp only [reconcile, Function.update_of_ne hk]
      omega

theorem timely_removeTracked
    (hother : ∀ k r, k ≠ ts.resourceKey → c.tracked.lookup k = some r →
      InTime parseDuration c k r) :
    Timely parseDuration (c.removeTracked ts) := by
  intro k r hr
  rw [removeTracked, lookup_erase] at hr
  split_ifs at hr with hk
  obtain ⟨hkey, hdeadline, hpast⟩ := hother k r hk hr
  exact ⟨hkey, hdeadline, hpast⟩

/-- Tracking a resource leaves the others in time. -/
theorem inTime_addTracked (h : Timely parseDuration c) (k : Bytes) (r : Tracked)
    (hk : k ≠ ts.resourceKey) (hr : (c.addTracked parseDuration ts).1.tracked.lookup k = some r) :
    InTime parseDuration (c.addTracked parseDuration ts).1 k r := by
  rw [addTracked, lookup_insert, if_neg hk] at hr
  obtain ⟨hkey, hdeadline, hpast⟩ := h k r hr
  exact ⟨hkey, hdeadline, hpast⟩

/-- A resource that is tracked and then reconciled is in time. -/
theorem timely_synced (h : Timely parseDuration c) :
    Timely parseDuration ((c.addTracked parseDuration ts).1.reconcile parseDuration ts a) := by
  refine timely_reconcile (inTime_addTracked h) fun r hr => ?_
  rw [addTracked, lookup_insert, if_pos rfl] at hr
  obtain rfl := Option.some.inj hr
  exact ⟨rfl, le_refl _⟩

theorem timely_listItem (h : Timely parseDuration c) :
    Timely parseDuration (c.listItem parseDuration ts a) := by
  unfold listItem
  dsimp only
  split_ifs
  · exact timely_removeTracked (inTime_addTracked h)
  · exact timely_synced h

/-- An event keeps the deadlines in time unless it puts one off. -/
theorem timely_handleEvent {type : EventType} (h : Timely parseDuration c)
    (hmoves : c.movesDeadline parseDuration (.event type ts a) = false) :
    Timely parseDuration (c.handleEvent parseDuration type ts a) := by
  have hchanged : (c.movesDeadline parseDuration (.event .added ts a) = false) →
      Timely parseDuration (c.handleEvent parseDuration .added ts a) := by
    intro hmoves
    simp only [handleEvent]
    split_ifs with hdel hspec
    · exact timely_removeTracked (inTime_addTracked h)
    · exact timely_synced h
    · -- The resource is tracked with this spec, and its deadline stays where it is or earlier.
      simp only [addTracked, Bool.not_eq_true', Bool.not_eq_false, Option.any_eq_true,
        decide_eq_true_eq] at hspec
      obtain ⟨prev, hprev, hsame⟩ := hspec
      simp only [movesDeadline, hprev, Option.any_some, hsame, decide_true, Bool.true_and,
        Bool.and_eq_false_iff, Bool.not_eq_false', hdel, decide_eq_false_iff_not, not_lt,
        Bool.false_eq_true, false_or] at hmoves
      obtain ⟨-, hdeadline, hpast⟩ := h _ prev hprev
      intro k r hr
      by_cases hk : k = ts.resourceKey
      · subst hk
        rw [addTracked, lookup_insert, if_pos rfl] at hr
        obtain rfl := Option.some.inj hr
        rw [hsame] at hdeadline
        exact ⟨rfl, hmoves.trans hdeadline, hpast⟩
      · exact inTime_addTracked h k r hk hr
  cases type with
  | added => exact hchanged hmoves
  | modified => exact hchanged hmoves
  | deleted => exact timely_removeTracked fun k r _ hr => h k r hr
  | bookmark => exact h
  | error => exact h
  | unknown => exact h

/-- The reconciles of a scan, each for a resource as it is tracked. -/
theorem timely_reconciles {attempts : Bytes → Attempt} {l : List TuckSecret}
    (h : Timely parseDuration c) (hl : ∀ ts ∈ l, c.known ts.resourceKey = some ts) :
    Timely parseDuration
      (l.foldl (fun c ts => c.reconcile parseDuration ts (attempts ts.resourceKey)) c) := by
  induction l generalizing c with
  | nil => exact h
  | cons ts l ih =>
    obtain ⟨hts, hl⟩ := List.forall_mem_cons.1 hl
    refine ih (timely_reconcile (fun k r _ hr => h k r hr) fun r hr => ?_) ?_
    · obtain rfl : r.ts = ts := by
        rw [known, hr] at hts
        exact Option.some.inj hts
      obtain ⟨-, hdeadline, hpast⟩ := h _ r hr
      exact ⟨rfl, by omega⟩
    · rw [known_reconcile]
      exact hl

theorem timely_step (h : Timely parseDuration c) {act : Act}
    (hmoves : c.movesDeadline parseDuration act = false) :
    Timely parseDuration (c.step parseDuration act) := by
  cases act with
  | list items =>
    rw [step]
    clear hmoves
    induction items generalizing c with
    | nil => exact h
    | cons i items ih => exact ih (timely_listItem h)
  | event type ts a => exact timely_handleEvent h hmoves
  | scan L attempts =>
    refine timely_reconciles h fun ts hts => ?_
    obtain ⟨k, r, hr, -, rfl⟩ := mem_due.1 hts
    rw [(h k r hr).key, known, hr]
    rfl
  | wait d =>
    intro k r hr
    obtain ⟨hkey, hdeadline, hpast⟩ := h k r hr
    exact ⟨hkey, hdeadline, by simp only [step]; omega⟩

end

/-- In every run from an empty table in which no event puts off a deadline without changing the
    spec, no scan leaves out a resource whose last attempt ended more than its interval ago. -/
theorem scans_due (parseDuration : Bytes → Option Int) (now : Int) (attempted : Bytes → Int)
    (acts : List Act)
    (h : Meets (step parseDuration) (fun c act => c.movesDeadline parseDuration act = false)
      ⟨∅, now, attempted⟩ acts) :
    Meets (step parseDuration) (fun c act => ∀ L attempts, act = .scan L attempts →
      c.ScanComplete parseDuration L) ⟨∅, now, attempted⟩ acts := by
  refine h.transfer (P := Timely parseDuration) (fun k r hr => by cases hr) ?_
  intro c act hmoves htimely
  refine ⟨fun L _ _ k r hr hlong => ?_, timely_step htimely hmoves⟩
  obtain ⟨-, hdeadline, -⟩ := htimely k r hr
  exact mem_due.2 ⟨k, r, hr, by omega, rfl⟩

/-- A resource is synced, and found due after more than five minutes. -/
theorem scan_after_sync :
    Meets (step fun _ => none) (fun c act => ∀ L attempts, act = .scan L attempts →
        c.ScanComplete (fun _ => none) L) ⟨∅, 0, fun _ => 0⟩
      [.event .added (sharing "db" "password") ⟨true, 1, 1⟩, .wait 300000000001,
        .scan sorted fun _ => ⟨true, 1, 1⟩] :=
  scans_due _ 0 (fun _ => 0) _ (by decide +kernel)

/-- With an event that changes no spec every four minutes, the resource is not due eight minutes
    after its last attempt. -/
theorem echo_skips_refresh :
    let c := runs (step fun _ => none) ⟨∅, 0, fun _ => 0⟩
      [.event .added (sharing "db" "password") ⟨true, 1, 1⟩, .wait 240000000000,
        .event .modified (sharing "db" "password") ⟨true, 1, 1⟩, .wait 240000000000]
    c.known (ascii "team-a/db") = some (sharing "db" "password") ∧
      c.attempted (ascii "team-a/db") < c.now - (sharing "db" "password").spec.refreshDuration
        (fun _ => none) ∧
      c.due sorted = [] := by
  decide +kernel

end Controller

end Tuck.Operator
