/-
  KV v1 reads and writes of one path that run side by side, at the granularity of single
  storage calls, any of which may fail. A read that finds an expired entry deletes it in a
  call of its own, so between the two calls a write can replace the entry.

  The world carries what the last completed write stored. In the runs in which every deletion
  finds an entry that has expired, or none, that write is not lost (`reads_keep_writes`);
  without this a read can delete an entry that never expires (`read_loses_write`).
-/
import Tuck.Base.Threads
import Tuck.Secrets.KVv1

namespace Tuck.Secrets

open Tuck.Base KV

/-! ## Reads and writes of a path -/

/-- A read or a write, with the time that it sees. -/
inductive Access where
  | get (now : Int)
  | put (value : Bytes) (metadata : List (Bytes × Bytes)) (ttl now : Int)

namespace Access

def now : Access → Int
  | get now => now
  | put _ _ _ now => now

def code (ns p : Bytes) : Access → Logical (Option Entry)
  | get now => getSecretEntry ns p now
  | put value metadata ttl now =>
      (putSecretWithMeta ns p value metadata ttl now).andThen fun _ => .ret (.ok none)

end Access

/-- The key of the entry of a path. -/
def entryKey (ns p : Bytes) : Bytes := Namespace.storagePrefix ns ++ secretKey p

/-- The store, and the record that the last completed write under a key stored. -/
abbrev LastPutWorld := LogicalWorld × Option Record

def handleLastPut (L : Listing) (key : Bytes) (c : Call Record) (w : LastPutWorld) :
    c.Reply × LastPutWorld :=
  ((handle L c w.1).1, (handle L c w.1).2,
    match c with
    | .put k r => if k = key then some r else w.2
    | _ => w.2)

/-- Each thread remembers the time that it sees. -/
abbrev EntryPool := Pool (Call Record) Call.Reply Int LastPutWorld (Except Err (Option Entry))

def startAccesses (ns p : Bytes) (w : LogicalWorld) (as : List Access) : EntryPool :=
  ⟨(w, none), as.map fun a => ⟨a.code ns p, a.now⟩⟩

def stepAccess (L : Listing) (ns p : Bytes) : EntryPool → Nat × Bool → EntryPool :=
  Pool.step (handleLastPut L (entryKey ns p)) fun now _ _ => now

/-! ## Deletions of expired entries -/

/-- A deletion finds an entry that has expired by the time that the thread sees, or none. -/
def DeletesExpired (w : LastPutWorld) (now : Int) : Call Record → Prop
  | .delete k => (w.1.store.lookup k).all (fun r => (unmarshal r).isExpired now) = true
  | _ => True

instance (w : LastPutWorld) (now : Int) : (c : Call Record) → Decidable (DeletesExpired w now c)
  | .delete _ => inferInstanceAs (Decidable (_ = _))
  | .get _ => isTrue trivial
  | .put _ _ => isTrue trivial
  | .list _ => isTrue trivial
  | .rand _ => isTrue trivial

theorem Entry.isExpired_mono {e : Entry} {now later : Int} (h : e.isExpired now = true)
    (hle : now ≤ later) : e.isExpired later = true := by
  unfold Entry.isExpired at h ⊢
  cases hexp : e.expiresAt with
  | none =>
    rw [hexp] at h
    cases h
  | some t =>
    rw [hexp] at h
    simp only [Option.any_some, decide_eq_true_eq] at h ⊢
    exact h.trans_le hle

section

variable {L : Listing} {ns p : Bytes} {later : Int}

/-- What the last write stored is there, unless it has expired. -/
def LastKept (key : Bytes) (later : Int) (w : LastPutWorld) : Prop :=
  ∀ r, w.2 = some r → (unmarshal r).isExpired later = false → w.1.store.lookup key = some r

theorem LastKept.step {key : Bytes} {w : LastPutWorld} {now : Int} {c : Call Record}
    (h : LastKept key later w) (hnow : now ≤ later) (hguard : DeletesExpired w now c) :
    LastKept key later (handleLastPut L key c w).2 := by
  intro r hr hexp
  cases c with
  | put k x =>
    dsimp only [handleLastPut, handle] at hr ⊢
    rw [lookup_insert]
    by_cases hk : k = key
    · rw [if_pos hk] at hr
      rw [if_pos hk.symm]
      exact hr
    · rw [if_neg hk] at hr
      rw [if_neg (Ne.symm hk)]
      exact h r hr hexp
  | delete k =>
    dsimp only [handleLastPut, handle] at hr ⊢
    have hkept := h r hr hexp
    rw [lookup_erase]
    split_ifs with hk
    · -- the entry of the last write has not expired
      subst hk
      dsimp only [DeletesExpired] at hguard
      rw [hkept] at hguard
      have hlater := Entry.isExpired_mono hguard hnow
      rw [hexp] at hlater
      cases hlater
    · exact hkept
  | get k => exact h r hr hexp
  | list pre => exact h r hr hexp
  | rand n => exact h r hr hexp

theorem traced_now {α : Type} (code : Code Record α) {now : Int} (hnow : now ≤ later) :
    Traced (fun now _ _ => now) (fun _ _ => True) (fun now (_ : Call Record) => now ≤ later)
      (fun _ _ => True) now code := by
  induction code with
  | ret a => trivial
  | call c k ih => exact ⟨hnow, ih none, fun r _ => ih (some r)⟩

theorem run_getSecretEntry {w : LogicalWorld} {r : Record}
    (h : w.store.lookup (entryKey ns p) = some r) (hexp : (unmarshal r).isExpired later = false) :
    Prog.run (handle L) (getSecretEntry ns p later) w = (.ok (some (unmarshal r)), w) := by
  unfold getSecretEntry
  rw [Prog.run_andThen, run_get]
  unfold entryKey at h
  simp [h, hexp]

/-- If every deletion finds an expired entry, or none, and no access sees a later time than the
    last read, then that read returns the entry of the last completed write, unless it has
    expired. -/
theorem reads_keep_writes (w : LogicalWorld) (as : List Access) (sched : List (Nat × Bool))
    (hclock : ∀ a ∈ as, a.now ≤ later)
    (hmeets : Meets (stepAccess L ns p) (Pool.Guarded DeletesExpired)
      (startAccesses ns p w as) sched)
    (e : Entry)
    (hlast : (runs (stepAccess L ns p) (startAccesses ns p w as) sched).world.2 = some (.secret e))
    (hexp : e.isExpired later = false) :
    (Prog.run (handle L) (getSecretEntry ns p later)
      (runs (stepAccess L ns p) (startAccesses ns p w as) sched).world.1).1 = .ok (some e) := by
  have hstart : (startAccesses ns p w as).Inv (fun now _ _ => now) (fun _ _ => True)
      (fun now _ => now ≤ later) (LastKept (entryKey ns p) later) := by
    refine ⟨nofun, fun t ht => ?_⟩
    obtain ⟨a, ha, rfl⟩ := List.mem_map.1 ht
    exact traced_now _ (hclock a ha)
  have hinv := hstart.runs (fun _ _ _ => trivial)
    (fun w now c hw hnow hguard => hw.step hnow hguard) hmeets
  have hkept := hinv.world (.secret e) hlast hexp
  exact congrArg Prod.fst (run_getSecretEntry hkept hexp)

end

/-! ### An entry that expires while it is read -/

/-- A write that expires after one second, a read two seconds later and a write without expiry. -/
def expiryRace : List Access :=
  [.put (ascii "a") [] 1 0, .get 2, .put (ascii "b") [] 0 2]

/-- The three accesses under a schedule. -/
def raceRun (sched : List (Nat × Bool)) : EntryPool :=
  runs (stepAccess sorted [] (ascii "app"))
    (startAccesses [] (ascii "app") ⟨∅, fun _ => 0⟩ expiryRace) sched

theorem reads_keep_writes_inTurn :
    (Prog.run (handle sorted) (getSecretEntry [] (ascii "app") 3)
      (raceRun [(0, true), (1, true), (1, true), (2, true)]).world.1).1 =
      .ok (some (Entry.new (ascii "b") [] 0 2)) :=
  reads_keep_writes ⟨∅, fun _ => 0⟩ expiryRace _ (by decide) (by decide +kernel) _ rfl rfl

/-- The second write comes between the two calls of the read, which then deletes it: all three
    accesses have returned, and the entry is gone. -/
theorem read_loses_write :
    (Prog.run (handle sorted) (getSecretEntry [] (ascii "app") 3)
      (raceRun [(0, true), (1, true), (2, true), (1, true)]).world.1).1 = .ok none ∧
    (raceRun [(0, true), (1, true), (2, true), (1, true)]).world.2.map unmarshal =
      some (Entry.new (ascii "b") [] 0 2) ∧
    (Entry.new (ascii "b") [] 0 2).isExpired 3 = false ∧
    ∀ i < 3, (raceRun [(0, true), (1, true), (2, true), (1, true)]).result? i =
      some (.ok none) := by
  decide +kernel

end Tuck.Secrets
