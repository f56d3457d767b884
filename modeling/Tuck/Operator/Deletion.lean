/-
  Who owns the keys of a Kubernetes Secret: syncing a TuckSecret and deleting it.

  A sync merges its keys into the Secret and leaves all others, so several
  TuckSecrets can share one Secret. A deletion with the policy "Delete" removes the Secret
  as a whole, whoever wrote its keys, and takes the finalizer off whatever came of that.
  It respects the other owners exactly where the Secret holds nothing of theirs and the
  removal was reported as done (`deletion_respects_iff`).

  The cluster is what the API server holds. `written` and `ours` are not in the source: they
  say which keys, and which Secrets, the operator wrote.
-/
import Tuck.Operator.Paths

namespace Tuck.Operator

open Tuck.Base

/-! ## TuckSecrets -/

/-- `TuckSecretSpec`; a restart target is a kind and a name. -/
structure Spec where
  tuckPath : Bytes
  secretName : Bytes
  secretKey : Bytes
  data : List (Bytes × Bytes)
  tuckServer : Bytes
  kvVersion : Bytes
  refreshInterval : Bytes
  deletionPolicy : Bytes
  restartTargets : List (Bytes × Bytes)
  deriving DecidableEq

inductive SpecErr where
  | setTogether
  | emptyData
  | declaredTwice (key : Bytes)
  | nothing
  deriving DecidableEq

/-- The loop of `Entries` over the data. -/
def addEntries (out : List (Bytes × Bytes)) : List (Bytes × Bytes) →
    Except SpecErr (List (Bytes × Bytes))
  | [] => .ok out
  | (k, p) :: rest =>
      if k = [] ∨ p = [] then .error .emptyData
      else if k ∈ out.map Prod.fst then .error (.declaredTwice k)
      else addEntries (out ++ [(k, p)]) rest

/-- `Entries`: the Tuck path of each key of the Secret. -/
def Spec.entries (s : Spec) : Except SpecErr (List (Bytes × Bytes)) :=
  if decide (s.tuckPath = []) ≠ decide (s.secretKey = []) then .error .setTogether
  else
    match addEntries (if s.tuckPath ≠ [] then [(s.secretKey, s.tuckPath)] else []) s.data with
    | .error e => .error e
    | .ok out => if out = [] then .error .nothing else .ok out

/-- The engine to read from; the first one by default. -/
def Spec.engine (s : Spec) : Bytes := if s.kvVersion = [] then ascii "1" else s.kvVersion

structure TuckSecret where
  ns : Bytes
  name : Bytes
  resourceVersion : Bytes
  /-- `DeletionTimestamp` is set. -/
  deleting : Bool
  finalizers : List Bytes
  spec : Spec
  deriving DecidableEq

namespace TuckSecret

def resourceKey (ts : TuckSecret) : Bytes := ts.ns ++ slash :: ts.name

/-- The Secret that it targets. -/
def secretId (ts : TuckSecret) : Bytes × Bytes := (ts.ns, ts.spec.secretName)

/-- The key is one of its entries. -/
def declares (ts : TuckSecret) (key : Bytes) : Bool :=
  match ts.spec.entries with
  | .ok out => decide (key ∈ out.map Prod.fst)
  | .error _ => false

end TuckSecret

def finalizerCleanup : Bytes := ascii "tuck.io/cleanup"

/-! ## The cluster and the controller -/

/-- A Secret, with what the operator wrote of it. -/
structure Secret where
  data : Bytes → Option Bytes
  written : Bytes → Bool
  ours : Bool

structure Sys where
  resources : List TuckSecret
  secrets : Bytes × Bytes → Option Secret
  tracked : List TuckSecret

/-- What became of a request that changes the cluster: done, done but not reported (the
    answer was lost), or not done. -/
inductive Outcome where
  | ok
  | lost
  | failed
  deriving DecidableEq

namespace Sys

def removeTracked (s : Sys) (ts : TuckSecret) : Sys :=
  { s with tracked := s.tracked.filter (·.resourceKey ≠ ts.resourceKey) }

/-- `checkSecretConflict`: whether no other live TuckSecret writes one of the keys. -/
def checkSecretConflict (s : Sys) (ts : TuckSecret) (entries : List (Bytes × Bytes)) : Bool :=
  s.tracked.all fun other =>
    other.resourceKey = ts.resourceKey || other.secretId ≠ ts.secretId || other.deleting ||
      entries.all fun e => !other.declares e.1

/-- `mergeSecret`: the desired keys, and those of the Secret that are not among them. -/
def mergeSecret (desired : List (Bytes × Bytes)) (existing : Option Secret) : Secret where
  data := fun k => (desired.lookup k).or (existing.bind fun e => e.data k)
  written := fun k => (desired.lookup k).isSome || existing.any fun e => e.written k
  ours := true

def setSecret (s : Sys) (id : Bytes × Bytes) (sec : Option Secret) : Sys :=
  { s with secrets := Function.update s.secrets id sec }

def applySecret (s : Sys) (id : Bytes × Bytes) (desired : List (Bytes × Bytes)) (o : Outcome) :
    Sys × Bool :=
  match o with
  | .failed => (s, false)
  | _ => (s.setSecret id (some (mergeSecret desired (s.secrets id))), decide (o = .ok))

/-- `reconcile`; `fetch` is what Tuck gives for a path, and the result whether all went well. -/
def reconcile (s : Sys) (enforce : Bool) (annotations : Option Annotations)
    (fetch : Bytes → Bytes → Option Bytes) (ts : TuckSecret) (o : Outcome) : Sys × Bool :=
  if ts.spec.secretName = [] then (s, false)
  else
    match ts.spec.entries with
    | .error _ => (s, false)
    | .ok entries =>
        if s.checkSecretConflict ts entries = false then (s, false)
        else
          match authorizePaths enforce ts.ns annotations entries with
          | .error _ => (s, false)
          | .ok (paths, _) =>
              match paths.mapM fun e => (fetch e.2 ts.spec.engine).map fun v => (e.1, v) with
              | none => (s, false)
              | some data => s.applySecret ts.secretId data o

/-- `DeleteSecret`: a Secret that is not there counts as removed. -/
def deleteSecret (s : Sys) (id : Bytes × Bytes) (o : Outcome) : Sys × Bool :=
  match o with
  | .failed => (s, false)
  | _ => (s.setSecret id none, decide (o = .ok))

def patchFinalizers (s : Sys) (ts : TuckSecret) (finalizers : List Bytes) (o : Outcome) : Sys :=
  match o with
  | .failed => s
  | _ => { s with resources := s.resources.map fun r =>
      if r.resourceKey = ts.resourceKey then { r with finalizers := finalizers } else r }

def removeFinalizer (s : Sys) (ts : TuckSecret) (o : Outcome) : Sys :=
  s.patchFinalizers ts (ts.finalizers.filter (· ≠ finalizerCleanup)) o

def runDeletion (s : Sys) (ts : TuckSecret) (del fin : Outcome) : Sys :=
  let s := s.removeTracked ts
  -- an error of the removal is only logged
  let s := if ts.spec.deletionPolicy = ascii "Delete" then (s.deleteSecret ts.secretId del).1 else s
  if ts.resourceVersion = [] then s else s.removeFinalizer ts fin

/-- The finalizer is on the resource. -/
def hasFinalizer (s : Sys) (ts : TuckSecret) : Bool :=
  s.resources.any fun r => r.resourceKey = ts.resourceKey &&
    decide (finalizerCleanup ∈ r.finalizers)

/-- A key of the Secret that `ts` alone owns: it declares it, no other live TuckSecret does, and
    the operator wrote it. -/
structure Owns (s : Sys) (ts : TuckSecret) (sec : Secret) (key : Bytes) : Prop where
  declared : ts.declares key = true
  alone : ∀ other ∈ s.resources, other.deleting = false → other.resourceKey ≠ ts.resourceKey →
    other.secretId = ts.secretId → other.declares key = false
  written : sec.written key = true

end Sys

/-! ## Deleting -/

/-- A deletion respects what others own: it removes only keys that the TuckSecret alone
    owns and only Secrets that the operator wrote, and its finalizer goes only after the
    removal was reported as done. -/
structure Respects (s : Sys) (ts : TuckSecret) (del fin : Outcome) : Prop where
  keys : ∀ id sec key, s.secrets id = some sec → sec.data key ≠ none →
    (∀ sec', (s.runDeletion ts del fin).secrets id = some sec' → sec'.data key = none) →
    id = ts.secretId ∧ s.Owns ts sec key
  secrets : ∀ id sec, s.secrets id = some sec → (s.runDeletion ts del fin).secrets id = none →
    sec.ours = true
  finalizer : s.hasFinalizer ts = true → (s.runDeletion ts del fin).hasFinalizer ts = false →
    del = .ok

/-- The Secret holds nothing of others, if it is removed, and the removal is reported as done,
    if the finalizer goes. -/
structure Alone (s : Sys) (ts : TuckSecret) (del fin : Outcome) : Prop where
  secret : del ≠ .failed → ∀ sec, s.secrets ts.secretId = some sec →
    sec.ours = true ∧ ∀ key, sec.data key ≠ none → s.Owns ts sec key
  reported : del ≠ .ok → ts.resourceVersion = [] ∨ fin = .failed ∨ s.hasFinalizer ts = false

theorem runDeletion_secrets (s : Sys) {ts : TuckSecret} (del fin : Outcome)
    (hpolicy : ts.spec.deletionPolicy = ascii "Delete") :
    (s.runDeletion ts del fin).secrets =
      if del = .failed then s.secrets else Function.update s.secrets ts.secretId none := by
  have hfin : ∀ t : Sys, (t.removeFinalizer ts fin).secrets = t.secrets := by
    intro t
    cases fin <;> rfl
  unfold Sys.runDeletion
  simp only [if_pos hpolicy]
  have hdel : ((s.removeTracked ts).deleteSecret ts.secretId del).1.secrets =
      if del = .failed then s.secrets else Function.update s.secrets ts.secretId none := by
    cases del <;> rfl
  by_cases hrv : ts.resourceVersion = []
  · rw [if_pos hrv, hdel]
  · rw [if_neg hrv, hfin, hdel]

theorem runDeletion_hasFinalizer {s : Sys} {ts : TuckSecret} {del fin : Outcome} :
    (s.runDeletion ts del fin).hasFinalizer ts =
      if ts.resourceVersion = [] ∨ fin = .failed then s.hasFinalizer ts else false := by
  have hpatched : ∀ t : Sys, ({ t with resources := t.resources.map fun r =>
      if r.resourceKey = ts.resourceKey then
        { r with finalizers := ts.finalizers.filter (· ≠ finalizerCleanup) }
      else r } : Sys).hasFinalizer ts = false := by
    intro t
    rw [Sys.hasFinalizer, List.any_map, List.any_eq_false]
    intro r _
    simp only [Function.comp_apply]
    split_ifs with hkey
    · simp only [List.mem_filter, ne_eq, not_true_eq_false, decide_false, Bool.and_false,
        Bool.false_eq_true, and_false, not_false_eq_true]
    · simp only [hkey, decide_false, Bool.false_and, Bool.false_eq_true, not_false_eq_true]
  have hdel : ∀ t : Sys, (if ts.spec.deletionPolicy = ascii "Delete" then
      (t.deleteSecret ts.secretId del).1 else t).resources = t.resources := by
    intro t
    split_ifs
    · cases del <;> rfl
    · rfl
  have hsame : ∀ t t' : Sys, t.resources = t'.resources → t.hasFinalizer ts = t'.hasFinalizer ts :=
    fun t t' h => by rw [Sys.hasFinalizer, Sys.hasFinalizer, h]
  unfold Sys.runDeletion
  simp only
  by_cases hrv : ts.resourceVersion = []
  · rw [if_pos hrv, if_pos (Or.inl hrv)]
    exact hsame _ _ (hdel _)
  rw [if_neg hrv]
  cases fin with
  | failed =>
    rw [if_pos (Or.inr rfl)]
    exact hsame _ _ (hdel _)
  | ok =>
    have hpatch : ¬ (ts.resourceVersion = [] ∨ Outcome.ok = .failed) :=
      not_or.mpr ⟨hrv, fun h => nomatch h⟩
    rw [if_neg hpatch]
    exact hpatched _
  | lost =>
    have hpatch : ¬ (ts.resourceVersion = [] ∨ Outcome.lost = .failed) :=
      not_or.mpr ⟨hrv, fun h => nomatch h⟩
    rw [if_neg hpatch]
    exact hpatched _

/-- Deleting a TuckSecret with the policy "Delete" respects the other owners exactly where the
    Secret, if it is removed, holds only keys that this one alone owns and the operator
    wrote, and the finalizer, if it goes, goes after a removal that was reported. -/
theorem deletion_respects_iff (s : Sys) (ts : TuckSecret) (del fin : Outcome)
    (hpolicy : ts.spec.deletionPolicy = ascii "Delete") :
    Respects s ts del fin ↔ Alone s ts del fin := by
  have hsecrets := runDeletion_secrets s del fin hpolicy
  constructor
  · intro h
    constructor
    · intro hdel sec hsec
      have hgone : (s.runDeletion ts del fin).secrets ts.secretId = none := by
        rw [hsecrets, if_neg hdel, Function.update_self]
      refine ⟨h.secrets _ sec hsec hgone, fun key hkey => ?_⟩
      refine (h.keys _ sec key hsec hkey fun sec' hsec' => ?_).2
      rw [hgone] at hsec'
      exact nomatch hsec'
    · intro hdel
      by_contra hnot
      obtain ⟨hrv, hfin, hhas⟩ : ¬ ts.resourceVersion = [] ∧ ¬ fin = .failed ∧
          ¬ s.hasFinalizer ts = false := by
        simpa only [not_or] using hnot
      refine hdel (h.finalizer (Bool.not_eq_false _ ▸ hhas) ?_)
      rw [runDeletion_hasFinalizer, if_neg (not_or.mpr ⟨hrv, hfin⟩)]
  · intro h
    -- a Secret that changes is the one that is removed
    have hremoved : ∀ id sec, s.secrets id = some sec →
        (s.runDeletion ts del fin).secrets id ≠ some sec → del ≠ .failed ∧ id = ts.secretId := by
      intro id sec hsec hne
      rw [hsecrets] at hne
      split_ifs at hne with hdel
      · exact absurd hsec hne
      · refine ⟨hdel, ?_⟩
        by_contra hid
        rw [Function.update_of_ne hid] at hne
        exact hne hsec
    constructor
    · intro id sec key hsec hkey hgone
      obtain ⟨hdel, rfl⟩ := hremoved id sec hsec fun hsame => hkey (hgone sec hsame)
      exact ⟨rfl, (h.secret hdel sec hsec).2 key hkey⟩
    · intro id sec hsec hgone
      obtain ⟨hdel, rfl⟩ :=
        hremoved id sec hsec (by rw [hgone]; exact (Option.some_ne_none sec).symm)
      exact (h.secret hdel sec hsec).1
    · intro hhas hafter
      by_contra hdel
      rw [runDeletion_hasFinalizer] at hafter
      rcases h.reported hdel with hrv | hfin | hnone
      · rw [if_pos (Or.inl hrv), hhas] at hafter
        exact nomatch hafter
      · rw [if_pos (Or.inr hfin), hhas] at hafter
        exact nomatch hafter
      · rw [hhas] at hnone
        exact nomatch hnone

/-- A TuckSecret that writes one key of the Secret "app". -/
def sharing (name key : String) : TuckSecret where
  ns := ascii "team-a"
  name := ascii name
  resourceVersion := ascii "7"
  deleting := false
  finalizers := [finalizerCleanup]
  spec := ⟨ascii "team-a/db", ascii "app", ascii key, [], [], [], [], ascii "Delete", []⟩

/-- These TuckSecrets, all synced. -/
def synced (tss : List TuckSecret) : Sys :=
  tss.foldl (fun s ts => (s.reconcile false none (fun _ _ => some (ascii "v")) ts .ok).1)
    ⟨tss, fun _ => none, tss⟩

/-- Where the Secret has one owner, its deletion respects the others. -/
theorem single_respected :
    ((synced [sharing "db" "password"]).secrets (ascii "team-a", ascii "app")).isSome = true ∧
      Respects (synced [sharing "db" "password"]) (sharing "db" "password") .ok .ok := by
  refine ⟨by decide +kernel, (deletion_respects_iff _ _ _ _ (by decide +kernel)).mpr ⟨?_, ?_⟩⟩
  · intro _ sec hsec
    cases hsec
    refine ⟨rfl, fun key hkey => ?_⟩
    have hpassword : key = ascii "password" := by
      by_contra hne
      refine hkey ?_
      show (List.lookup key [(ascii "password", ascii "v")]).or none = none
      rw [List.lookup_cons, beq_eq_false_iff_ne.mpr hne]
      rfl
    subst hpassword
    refine ⟨by decide +kernel, fun other hother _ hne => ?_, by decide +kernel⟩
    rw [List.mem_singleton.mp hother] at hne
    exact absurd rfl hne
  · exact fun hne => absurd rfl hne

/-- Two TuckSecrets that share the Secret. -/
def shared : Sys := synced [sharing "db" "password", sharing "tls" "cert"]

/-- The deletion of one takes the other's key with it; and where the removal fails, the
    finalizer goes all the same. -/
theorem shared_not_respected :
    ((((shared.secrets (ascii "team-a", ascii "app")).bind fun sec => sec.data (ascii "cert")) =
        some (ascii "v") ∧
      (shared.runDeletion (sharing "db" "password") .ok .ok).secrets (ascii "team-a", ascii "app") =
        none) ∧
      ¬ Respects shared (sharing "db" "password") .ok .ok) ∧
    ((shared.runDeletion (sharing "db" "password") .failed .ok).hasFinalizer
        (sharing "db" "password") = false ∧
      ¬ Respects shared (sharing "db" "password") .failed .ok) := by
  have hcert : ((shared.secrets (ascii "team-a", ascii "app")).bind
      fun sec => sec.data (ascii "cert")) = some (ascii "v") := by decide +kernel
  have hgone : (shared.runDeletion (sharing "db" "password") .ok .ok).secrets
      (ascii "team-a", ascii "app") = none := rfl
  have hstripped : (shared.runDeletion (sharing "db" "password") .failed .ok).hasFinalizer
      (sharing "db" "password") = false := by decide +kernel
  refine ⟨⟨⟨hcert, hgone⟩, fun h => ?_⟩, hstripped, fun h => ?_⟩
  · obtain ⟨sec, hsec, hdata⟩ := Option.bind_eq_some_iff.mp hcert
    have howns := (h.keys _ sec (ascii "cert") hsec (by rw [hdata]; exact Option.some_ne_none _)
      fun sec' hsec' => nomatch hgone.symm.trans hsec').2
    exact absurd howns.declared (by decide +kernel)
  · exact nomatch h.finalizer (by decide +kernel) hstripped

end Tuck.Operator
