/-
  The CSI driver: publishing a volume, refreshing it, and the files it writes for it.

  Every file is written beside its destination and renamed into place. The destination is the
  target path joined with the name of the file, and cleaned. An alias is a plain name, but a
  key of a secret's value can be any text, and so can the last element of a path: a name that
  goes up leads out of the volume, and two names may lead to one file though they differ.
  The files stay in the volume and apart exactly where every name cleans to one element of
  its own (`confined_iff`).

  A round's effects are the changes of single files. Making the target directory and mounting
  or unmounting the file system on it are not among them.
-/
import Tuck.Csi.Fetch

namespace Tuck.Csi

open Tuck.Base List FilePath

/-! ## Volumes -/

/-- The attributes of a volume, as far as they decide what is fetched and written. -/
structure VolumeContext where
  addr : Bytes
  paths : Bytes
  auth : Bytes
  expandKeys : Bytes
  mode : Bytes
  refreshInterval : Bytes
  deriving DecidableEq

/-- What kubelet passes to prove who asks: the secret "token", and the token that
    `serviceAccountToken` finds. -/
structure Credentials where
  token : Bytes
  serviceAccount : Option Bytes
  deriving DecidableEq

structure MountState where
  token : Bytes
  k8s : Bool
  sa : Bytes
  expandKeys : Bool
  mode : Nat
  paths : List Bytes
  interval : Int
  nextRefresh : Int
  deriving DecidableEq

/-- `strings.EqualFold(s, "true")`. -/
def isTrue (s : Bytes) : Bool :=
  s.map (fun b => if 0x41 ≤ b ∧ b ≤ 0x5A then b + 0x20 else b) == ascii "true"

/-- `strconv.ParseUint(s, 8, 32)`. -/
def parseOctal (s : Bytes) : Option Nat :=
  let n := s.foldl (fun n b => 8 * n + (b.toNat - 0x30)) 0
  if s ≠ [] ∧ (∀ b ∈ s, 0x30 ≤ b ∧ b ≤ 0x37) ∧ n < 2 ^ 32 then some n else none

/-- `refreshTickInterval`, in nanoseconds. -/
def refreshTickInterval : Int := 30 * 1000000000

/-- `parseRefreshInterval`; `parseDuration` is `time.ParseDuration`. -/
def parseRefreshInterval (parseDuration : Bytes → Option Int) (raw : Bytes) : Option Int :=
  if raw = [] then some 0
  else
    match parseDuration raw with
    | none => none
    | some d => if d < 0 then none else some (max d refreshTickInterval)

/-- Which token to use, whether to log in with a service account, and with which token of
    its own. -/
def Credentials.forAuth (cr : Credentials) (auth : Bytes) : Option (Bytes × Bool × Bytes) :=
  if auth = [] ∨ auth = ascii "token" then
    if cr.token = [] then none else some (cr.token, false, [])
  else if auth = ascii "kubernetes" then cr.serviceAccount.map fun sa => ([], true, sa)
  else none

/-- The state that `NodePublishVolume` makes of a request it accepts. -/
def mountState (parseDuration : Bytes → Option Int) (vc : VolumeContext) (cr : Credentials)
    (now : Int) : Option MountState :=
  if vc.addr = [] ∨ vc.paths = [] then none
  else
    match cr.forAuth vc.auth, parseRefreshInterval parseDuration vc.refreshInterval with
    | some (token, k8s, sa), some interval =>
        some
          { token, k8s, sa, interval
            expandKeys := isTrue vc.expandKeys
            mode := (parseOctal vc.mode).getD 0o400
            paths := splitPaths vc.paths
            nextRefresh := now + interval }
    | _, _ => none

/-! ## Fetching -/

/-- What the server does during one round: the tokens it gives to the first and the second
    login, and its answer to each request of each attempt. -/
structure Net where
  login : Nat → Option Bytes
  answer : Nat → Nat → Option Answer

section

variable (num : Bytes → Option Bytes)

/-- The entries of a volume, each with the answer to its request. -/
def MountState.entries (st : MountState) (answer : Nat → Option Answer) :
    List (Bytes × Option Answer) :=
  st.paths.zipIdx.map fun p => (p.1, answer p.2)

/-- One attempt of `fetchAll` at all entries. -/
def MountState.attempt (st : MountState) (answer : Nat → Nat → Option Answer) (k : Nat) :
    Except Refusal (List File) :=
  fetchPaths num st.expandKeys [] (st.entries (answer k))

/-- `authRejected`, for the outcome of an attempt. -/
def authRejected : Except Refusal (List File) → Bool
  | .error (.fetch (.status code)) => code = 401 || code = 403
  | _ => false

/-- `fetchAll`, with the token that is cached afterwards. -/
def fetchAll (st : MountState) (net : Net) : Bytes × Except Refusal (List File) :=
  match if st.k8s ∧ st.token = [] then net.login 0 else some st.token with
  | none => (st.token, .error .login)
  | some token =>
      if st.k8s ∧ authRejected (st.attempt num net.answer 0) then
        match net.login 1 with
        | none => (token, .error .login)
        | some token => (token, st.attempt num net.answer 1)
      else (token, st.attempt num net.answer 0)

/-- The attempt that decides: the second one if the first was turned away and there is a
    service account to log in with. -/
def MountState.decisive (st : MountState) (answer : Nat → Nat → Option Answer) : Nat :=
  if st.k8s ∧ authRejected (st.attempt num answer 0) then 1 else 0

theorem fetchAll_ok {st : MountState} {net : Net} {files : List File}
    (h : (fetchAll num st net).2 = .ok files) :
    st.attempt num net.answer (st.decisive num net.answer) = .ok files := by
  unfold fetchAll at h
  unfold MountState.decisive
  split at h
  · exact absurd h (by simp)
  · split_ifs at h ⊢ with hretry
    · split at h
      · exact absurd h (by simp)
      · exact h
    · exact h

theorem fetchAll_of_login (st : MountState) {net : Net} {token : Bytes}
    (h : ∀ k, net.login k = some token) :
    (fetchAll num st net).2 = st.attempt num net.answer (st.decisive num net.answer) := by
  have hfirst : ∃ t, (if st.k8s ∧ st.token = [] then net.login 0 else some st.token) = some t := by
    split_ifs
    · exact ⟨token, h 0⟩
    · exact ⟨st.token, rfl⟩
  obtain ⟨t, hfirst⟩ := hfirst
  unfold fetchAll MountState.decisive
  rw [hfirst, h 1]
  simp only
  split_ifs
  · rfl
  · rfl

end

/-! ## Writing -/

/-- A change of a file. -/
inductive Effect where
  | create (p : FilePath)
  | write (p : FilePath) (data : Bytes)
  | chmod (p : FilePath) (mode : Nat)
  | rename (src dest : FilePath) (source : Source)
  | remove (p : FilePath)
  deriving DecidableEq

def Effect.paths : Effect → List FilePath
  | .create p => [p]
  | .write p _ => [p]
  | .chmod p _ => [p]
  | .rename src dest _ => [src, dest]
  | .remove p => [p]

/-- How far the operating system lets a write come. -/
inductive Fate where
  | createFails
  | writeFails
  | closeFails
  | renameFails
  | done
  deriving DecidableEq

structure Outcome where
  /-- The number in the name of the temporary file. -/
  random : Nat
  fate : Fate
  /-- The temporary file can be removed. -/
  removed : Bool
  deriving DecidableEq

/-- The deferred removal of the temporary file, whose error is ignored; it does nothing once
    the file was renamed. -/
def Outcome.cleanup (o : Outcome) (tmp : FilePath) : List Effect :=
  if o.removed then [.remove tmp] else []

/-- The name that `os.CreateTemp` makes of the pattern for a destination. -/
def tempName (base : Bytes) (random : Nat) : Bytes :=
  0x2E :: (base ++ (ascii ".tmp-" ++ decimal random))

/-- `writeFileAtomic`: what it does, and whether it reports success. `os.CreateTemp` refuses a
    pattern with a separator. -/
def writeFileAtomic (dest : FilePath) (f : File) (mode : Nat) (o : Outcome) :
    List Effect × Bool :=
  let tmp := dest.dir.child (tempName dest.base o.random)
  if slash ∈ dest.base ∨ dest.hasNul then ([], false)
  else
    match o.fate with
    | .createFails => ([], false)
    | .writeFails => ([.create tmp, .write tmp f.value] ++ o.cleanup tmp, false)
    | .closeFails =>
        ([.create tmp, .write tmp f.value, .chmod tmp mode] ++ o.cleanup tmp, false)
    | .renameFails =>
        ([.create tmp, .write tmp f.value, .chmod tmp mode, .chmod dest 0o600] ++
          o.cleanup tmp, false)
    | .done =>
        ([.create tmp, .write tmp f.value, .chmod tmp mode, .chmod dest 0o600,
          .rename tmp dest f.source] ++ o.cleanup tmp, true)

/-- The loop over the files, which ends at the first that cannot be written. -/
def writeAll (target : Bytes) (mode : Nat) (outcome : Nat → Outcome) :
    Nat → List File → List Effect × Bool
  | _, [] => ([], true)
  | i, f :: files =>
      match writeFileAtomic (.join target f.name) f mode (outcome i) with
      | (effects, false) => (effects, false)
      | (effects, true) =>
          let rest := writeAll target mode outcome (i + 1) files
          (effects ++ rest.1, rest.2)

/-! ## Rounds -/

/-- What the node does during one round: the answers to the mount calls, the order in which
    the map of files is walked, and what becomes of each write. -/
structure Host where
  mounted : Bool
  mkdir : Bool
  mount : Bool
  client : Bool
  order : List File → List File
  order_perm : ∀ files, (order files).Perm files
  outcome : Nat → Outcome

/-- `Driver`, with its tracked mounts by target path. -/
structure Driver where
  mounts : Bytes → Option MountState
  named : mounts [] = none

namespace Driver

/-- `NewDriver`. -/
def new : Driver := ⟨fun _ => none, rfl⟩

def track (d : Driver) (target : Bytes) (h : target ≠ []) (st : MountState) : Driver where
  mounts := Function.update d.mounts target (some st)
  named := by rw [Function.update_of_ne (Ne.symm h), d.named]

/-- Change the state of a mount, if it is still tracked. -/
def modify (d : Driver) (target : Bytes) (f : MountState → MountState) : Driver where
  mounts := Function.update d.mounts target ((d.mounts target).map f)
  named := by
    by_cases h : target = []
    · rw [h, Function.update_self, d.named]
      rfl
    · rw [Function.update_of_ne (Ne.symm h), d.named]

end Driver

/-- What a round leaves and does. -/
structure Round where
  driver : Driver
  effects : List Effect
  ok : Bool

section

variable (num : Bytes → Option Bytes)

/-- `NodePublishVolume` of a request that it accepts with this state, for a target that is not
    mounted yet. -/
def publishNew (d : Driver) (target : Bytes) (h : target ≠ []) (st : MountState) (net : Net)
    (host : Host) : Round :=
  if !host.mkdir || !host.mount || !host.client then ⟨d, [], false⟩
  else
    match fetchAll num st net with
    | (_, .error _) => ⟨d, [], false⟩
    | (token, .ok files) =>
        match writeAll target st.mode host.outcome 0 (host.order files) with
        | (effects, false) => ⟨d, effects, false⟩
        | (effects, true) =>
            ⟨if 0 < st.interval ∨ st.k8s then d.track target h { st with token } else d,
              effects, true⟩

/-- `NodePublishVolume`. A volume that is tracked only takes the new credentials; one that is
    mounted and not tracked is tracked again and due at once. -/
def nodePublishVolume (parseDuration : Bytes → Option Int) (d : Driver) (target : Bytes)
    (vc : VolumeContext) (cr : Credentials) (now : Int) (net : Net) (host : Host) : Round :=
  if h : target = [] then ⟨d, [], false⟩
  else
    match mountState parseDuration vc cr now with
    | none => ⟨d, [], false⟩
    | some st =>
        if (d.mounts target).any fun cur => cur.k8s = st.k8s then
          ⟨d.modify target fun cur =>
            if st.k8s then { cur with sa := st.sa } else { cur with token := st.token }, [], true⟩
        else if host.mounted then
          ⟨if st.k8s ∨ 0 < st.interval then d.track target h { st with nextRefresh := now } else d,
            [], true⟩
        else publishNew num d target h st net host

/-- `refreshMount`, for a copy of the state of a tracked mount. -/
def refreshMount (d : Driver) (target : Bytes) (st : MountState) (now : Int) (net : Net)
    (host : Host) : Round :=
  if !host.client then ⟨d, [], false⟩
  else
    let fetched := fetchAll num st net
    let d :=
      if st.k8s ∧ fetched.1 ≠ [] then d.modify target fun cur => { cur with token := fetched.1 }
      else d
    match fetched.2 with
    | .error _ => ⟨d, [], false⟩
    | .ok files =>
        match writeAll target st.mode host.outcome 0 (host.order files) with
        | (effects, false) => ⟨d, effects, false⟩
        | (effects, true) =>
            ⟨d.modify target fun cur => { cur with nextRefresh := now + cur.interval },
              effects, true⟩

end

/-! ## Files stay inside and apart -/

/-- A direct child of the target, with the name of a file. -/
def Inside (target : Bytes) (p : FilePath) : Prop :=
  ∃ n, IsName n ∧ p = (FilePath.clean target).child n

structure Confined (target : Bytes) (effects : List Effect) : Prop where
  inside : ∀ e ∈ effects, ∀ p ∈ e.paths, Inside target p
  apart : ∀ tmp tmp' dest source source', Effect.rename tmp dest source ∈ effects →
    Effect.rename tmp' dest source' ∈ effects → source = source'

theorem confined_nil (target : Bytes) : Confined target [] where
  inside := fun _ he => absurd he not_mem_nil
  apart := fun _ _ _ _ _ he => absurd he not_mem_nil

/-- A name that no path may hold. -/
def Unusable (f : File) : Prop := ∃ x ∈ (relative f.name).1, 0 ∈ x

/-- Every name of a usable file cleans to one element, and to one of its own. -/
structure Plain (files : List File) : Prop where
  single : ∀ f ∈ files, ¬ Unusable f → ∃ n, relative f.name = ([n], 0)
  distinct : ∀ f ∈ files, ∀ g ∈ files, ¬ Unusable f → relative f.name = relative g.name →
    f.source = g.source

theorem isName_tempName {base : Bytes} (h : slash ∉ base) (random : Nat) :
    IsName (tempName base random) := by
  have hlong : 2 < (tempName base random).length := by
    have htmp : (ascii ".tmp-").length = 5 := rfl
    simp only [tempName, length_cons, length_append, htmp]
    omega
  refine ⟨cons_ne_nil _ _, fun hdot => ?_, fun hdot => ?_, fun hmem => ?_⟩
  · exact absurd (hdot ▸ hlong) (by decide)
  · exact absurd (hdot ▸ hlong) (by decide)
  · rcases mem_cons.mp hmem with heq | hmem
    · exact absurd heq (by decide)
    rcases mem_append.mp hmem with hmem | hmem
    · exact h hmem
    rcases mem_append.mp hmem with hmem | hmem
    · exact absurd hmem (by decide)
    · exact absurd (isDigit_of_mem_decimal hmem) (by decide)

variable {f : File} {mode : Nat}

theorem mem_cleanup {o : Outcome} {tmp : FilePath} {e : Effect} :
    e ∈ o.cleanup tmp ↔ o.removed = true ∧ e = .remove tmp := by
  rw [Outcome.cleanup, mem_ite_nil_right, mem_singleton]

/-- What a write touches. -/
theorem mem_writeFileAtomic {dest : FilePath} {o : Outcome} {e : Effect}
    (h : e ∈ (writeFileAtomic dest f mode o).1) :
    ¬ (slash ∈ dest.base ∨ dest.hasNul = true) ∧
      (∀ p ∈ e.paths, p = dest ∨ p = dest.dir.child (tempName dest.base o.random)) ∧
      ∀ tmp dest' source, e = .rename tmp dest' source → dest' = dest ∧ source = f.source := by
  unfold writeFileAtomic at h
  simp only at h
  split_ifs at h with hbad
  · exact absurd h not_mem_nil
  refine ⟨hbad, ?_⟩
  cases hfate : o.fate <;> rw [hfate] at h <;>
    simp only [mem_append, mem_cleanup, mem_cons, not_mem_nil, or_false] at h
  case writeFails => rcases h with (rfl | rfl) | ⟨-, rfl⟩ <;> simp [Effect.paths]
  case closeFails => rcases h with (rfl | rfl | rfl) | ⟨-, rfl⟩ <;> simp [Effect.paths]
  case renameFails => rcases h with (rfl | rfl | rfl | rfl) | ⟨-, rfl⟩ <;> simp [Effect.paths]
  case done =>
    rcases h with (rfl | rfl | rfl | rfl | rfl) | ⟨-, rfl⟩ <;>
      simp +contextual [Effect.paths, eq_comm]

theorem writeFileAtomic_done {dest : FilePath} (h : ¬ (slash ∈ dest.base ∨ dest.hasNul = true))
    (f : File) (mode : Nat) {o : Outcome} (ho : o.fate = .done) :
    (writeFileAtomic dest f mode o).2 = true ∧
      Effect.rename (dest.dir.child (tempName dest.base o.random)) dest f.source ∈
        (writeFileAtomic dest f mode o).1 := by
  unfold writeFileAtomic
  simp only [if_neg h, ho]
  exact ⟨trivial, by simp⟩

variable {target : Bytes} {files : List File}

theorem mem_writeAll {outcome : Nat → Outcome} {i : Nat} {e : Effect}
    (h : e ∈ (writeAll target mode outcome i files).1) :
    ∃ f ∈ files, ∃ j, e ∈ (writeFileAtomic (.join target f.name) f mode (outcome j)).1 := by
  induction files generalizing i with
  | nil => exact absurd h not_mem_nil
  | cons f files ih =>
    unfold writeAll at h
    cases hw : writeFileAtomic (.join target f.name) f mode (outcome i) with
    | mk effects ok =>
      have hfirst : e ∈ effects → ∃ g ∈ f :: files, ∃ j,
          e ∈ (writeFileAtomic (.join target g.name) g mode (outcome j)).1 := by
        intro he
        exact ⟨f, mem_cons_self, i, by rw [hw]; exact he⟩
      cases ok with
      | false =>
        rw [hw] at h
        exact hfirst h
      | true =>
        rw [hw] at h
        rcases mem_append.mp h with h | h
        · exact hfirst h
        · obtain ⟨g, hg, hin⟩ := ih h
          exact ⟨g, mem_cons_of_mem f hg, hin⟩

/-- A write that succeeds is among the effects, and the others follow. -/
theorem writeAll_cons {outcome : Nat → Outcome} {i : Nat}
    (h : (writeFileAtomic (.join target f.name) f mode (outcome i)).2 = true) :
    (writeAll target mode outcome i (f :: files)).1 =
      (writeFileAtomic (.join target f.name) f mode (outcome i)).1 ++
        (writeAll target mode outcome (i + 1) files).1 := by
  rw [writeAll]
  generalize writeFileAtomic (.join target f.name) f mode (outcome i) = w at h
  obtain ⟨effects, ok⟩ := w
  cases h
  rfl

theorem hasNul_join (ht : target ≠ []) (h : Unusable f) :
    (FilePath.join target f.name).hasNul = true := by
  obtain ⟨x, hx, h0⟩ := h
  rw [join_eq ht]
  refine any_eq_true.mpr ⟨x, ?_, by simpa using h0⟩
  exact mem_reverse.mpr (mem_append_left _ hx)

/-- Files with plain names are written inside the target, and apart. -/
theorem confined_writeAll (ht : target ≠ [])
    (h : Plain files) (mode : Nat) (outcome : Nat → Outcome) (i : Nat) :
    Confined target (writeAll target mode outcome i files).1 := by
  -- what is known of the file that a change comes from
  have hfrom : ∀ e ∈ (writeAll target mode outcome i files).1, ∃ f ∈ files, ∃ n o,
      ¬ Unusable f ∧ relative f.name = ([n], 0) ∧ IsName n ∧
      e ∈ (writeFileAtomic ((FilePath.clean target).child n) f mode o).1 := by
    intro e he
    obtain ⟨f, hf, j, hin⟩ := mem_writeAll he
    have hus : ¬ Unusable f := fun hu =>
      (mem_writeFileAtomic hin).1 (Or.inr (hasNul_join ht hu))
    obtain ⟨n, hn⟩ := h.single f hf hus
    have hmem : n ∈ (relative f.name).1 := by
      rw [hn]
      exact mem_singleton_self n
    have hname : IsName n := isName_of_mem_relative hmem
    rw [join_of_plain ht hn] at hin
    exact ⟨f, hf, n, outcome j, hus, hn, hname, hin⟩
  constructor
  · intro e he p hp
    obtain ⟨f, -, n, o, -, -, hname, hin⟩ := hfrom e he
    rcases (mem_writeFileAtomic hin).2.1 p hp with rfl | rfl
    · exact ⟨n, hname, rfl⟩
    · rw [dir_child, base_child]
      exact ⟨_, isName_tempName hname.2.2.2 _, rfl⟩
  · intro tmp tmp' dest source source' he he'
    obtain ⟨f, hf, n, o, hus, hn, -, hin⟩ := hfrom _ he
    obtain ⟨g, hg, n', o', -, hn', -, hin'⟩ := hfrom _ he'
    obtain ⟨hd, rfl⟩ := (mem_writeFileAtomic hin).2.2 _ _ _ rfl
    obtain ⟨hd', rfl⟩ := (mem_writeFileAtomic hin').2.2 _ _ _ rfl
    have hnn : n = n' := by
      have hbase := congrArg FilePath.base (hd.symm.trans hd')
      rwa [base_child, base_child] at hbase
    refine h.distinct f hf g hg hus ?_
    rw [hn, hn', hnn]

/-! ## Names that are not plain -/

/-- The decoy of a usable name is a target in which its file can be written. -/
theorem usable_join_decoy (h : ¬ Unusable f) :
    ¬ (slash ∈ (FilePath.join (decoy f.name) f.name).base ∨
      (FilePath.join (decoy f.name) f.name).hasNul = true) := by
  have hnames : ∀ x ∈ (FilePath.join (decoy f.name) f.name).parts, IsName x ∧ 0 ∉ x := by
    rw [join_decoy]
    intro x hx
    rcases mem_cons.mp hx with rfl | hx
    · exact ⟨isName_freshName _, fun h0 => absurd (mem_freshName h0) (by decide)⟩
    · have hx := mem_reverse.mp hx
      exact ⟨isName_of_mem_relative hx, fun h0 => h ⟨x, hx, h0⟩⟩
  rw [not_or]
  constructor
  · have hne : (FilePath.join (decoy f.name) f.name).parts ≠ [] := by
      rw [join_decoy]
      exact cons_ne_nil _ _
    exact (hnames _ (base_mem hne)).1.2.2.2
  · intro hnul
    obtain ⟨x, hx, h0⟩ := any_eq_true.mp hnul
    exact (hnames x hx).2 (by simpa using h0)

/-- A map may be walked with some of its files first. -/
theorem exists_order (front : List File) (hn : front.Nodup)
    (h : front ⊆ files) :
    ∃ order : List File → List File, (∀ l, (order l).Perm l) ∧
      ∃ rest, order files = front ++ rest := by
  obtain ⟨l, hl, hsub⟩ := hn.subperm h
  obtain ⟨rest, hrest⟩ := hsub.exists_perm_append
  refine ⟨fun l => if l = files then front ++ rest else l, fun l => ?_, rest, if_pos rfl⟩
  simp only
  split_ifs with heq
  · rw [heq]
    exact (hl.symm.append_right rest).trans hrest.symm
  · exact .refl l

/-- If the files are confined wherever they are written, their names are plain. -/
theorem plain_of_confined (mode : Nat)
    (h : ∀ target ≠ [], ∀ order : List File → List File, (∀ l, (order l).Perm l) →
      Confined target (writeAll target mode (fun _ => ⟨0, .done, true⟩) 0 (order files)).1) :
    Plain files := by
  have hdone {f : File} (hus : ¬ Unusable f) (g : File) :=
    writeFileAtomic_done (usable_join_decoy hus) g mode (o := ⟨0, .done, true⟩) rfl
  have hsingle : ∀ f ∈ files, ¬ Unusable f → ∃ n, relative f.name = ([n], 0) := by
    intro f hf hus
    obtain ⟨order, hperm, rest, hfirst⟩ := exists_order [f] (nodup_singleton f)
      (cons_subset.mpr ⟨hf, nil_subset _⟩)
    obtain ⟨hok, hmem⟩ := hdone hus f
    have hin := (h (decoy f.name) (cons_ne_nil _ _) order hperm).inside
    rw [hfirst, singleton_append, writeAll_cons hok] at hin
    obtain ⟨n, -, hn⟩ := hin _ (mem_append_left _ hmem) _
      (mem_cons_of_mem _ (mem_singleton_self _))
    exact ⟨n, relative_of_join_decoy hn⟩
  refine ⟨hsingle, fun f hf g hg hus heq => ?_⟩
  by_cases hfg : f = g
  · rw [hfg]
  -- both are written to the same child, one right after the other
  obtain ⟨n, hn⟩ := hsingle f hf hus
  have hne : decoy f.name ≠ [] := cons_ne_nil _ _
  have hdest : FilePath.join (decoy f.name) g.name = FilePath.join (decoy f.name) f.name := by
    rw [join_of_plain hne hn, join_of_plain hne (heq ▸ hn)]
  obtain ⟨order, hperm, rest, hfirst⟩ := exists_order [f, g]
    (nodup_cons.mpr ⟨by simpa using hfg, nodup_singleton g⟩)
    (cons_subset.mpr ⟨hf, cons_subset.mpr ⟨hg, nil_subset _⟩⟩)
  have hapart := (h (decoy f.name) hne order hperm).apart
  rw [hfirst] at hapart
  obtain ⟨hok, hmem⟩ := hdone hus f
  obtain ⟨hok', hmem'⟩ := hdone hus g
  rw [cons_append, singleton_append, writeAll_cons hok,
    writeAll_cons (by rw [hdest]; exact hok'), hdest] at hapart
  exact hapart _ _ _ _ _ (mem_append_left _ hmem)
    (mem_append_right _ (mem_append_left _ hmem'))

/-! ## Every publish and every refresh -/

section

variable (num : Bytes → Option Bytes) (parseDuration : Bytes → Option Int)

/-- The files that a volume is offered by the attempt that decides. -/
def MountState.offered (st : MountState) (answer : Nat → Nat → Option Answer) : List File :=
  (st.entries (answer (st.decisive num answer))).flatMap (given num st.expandKeys)

/-- The entries and the answers are accepted. -/
def MountState.Accepted (st : MountState) (answer : Nat → Nat → Option Answer) : Prop :=
  ∃ files, st.attempt num answer (st.decisive num answer) = .ok files

variable {files : List File} {st : MountState}

theorem MountState.offered_of_ok {answer : Nat → Nat → Option Answer}
    (h : st.attempt num answer (st.decisive num answer) = .ok files) :
    files = st.offered num answer :=
  fetchPaths_ok num h

/-- What a round writes are the files that were offered, if they were accepted. -/
theorem effects_refreshMount (d : Driver) (target : Bytes) (st : MountState) (now : Int)
    (net : Net) (host : Host) :
    (refreshMount num d target st now net host).effects = [] ∨
      st.Accepted num net.answer ∧ (refreshMount num d target st now net host).effects =
        (writeAll target st.mode host.outcome 0 (host.order (st.offered num net.answer))).1 := by
  unfold refreshMount
  by_cases hready : (!host.client) = true
  · rw [if_pos hready]
    exact Or.inl rfl
  rw [if_neg hready]
  cases hf : fetchAll num st net with
  | mk token fetched =>
    cases fetched with
    | error e => exact Or.inl rfl
    | ok files =>
      have hok := fetchAll_ok num (congrArg Prod.snd hf)
      refine Or.inr ⟨⟨files, hok⟩, ?_⟩
      rw [← st.offered_of_ok num hok]
      simp only
      split
      · rename_i hw
        rw [hw]
      · rename_i hw
        rw [hw]

theorem effects_publishNew_ok {d : Driver} {target : Bytes} {h : target ≠ []}
    {net : Net} {host : Host} (hready : ¬ (!host.mkdir || !host.mount || !host.client) = true)
    (hf : (fetchAll num st net).2 = .ok files) :
    (publishNew num d target h st net host).effects =
      (writeAll target st.mode host.outcome 0 (host.order files)).1 := by
  rw [publishNew, if_neg hready]
  generalize fetchAll num st net = fetched at hf
  obtain ⟨token, fetched⟩ := fetched
  cases hf
  simp only
  split
  · rename_i hw
    rw [hw]
  · rename_i hw
    rw [hw]

/-- A publish writes nothing, or the files that were offered and accepted. -/
theorem effects_nodePublishVolume (d : Driver) (target : Bytes) {vc : VolumeContext}
    {cr : Credentials} {now : Int}
    (hst : mountState parseDuration vc cr now = some st) (net : Net) (host : Host) :
    (nodePublishVolume num parseDuration d target vc cr now net host).effects = [] ∨
      target ≠ [] ∧ st.Accepted num net.answer ∧
      (nodePublishVolume num parseDuration d target vc cr now net host).effects =
        (writeAll target st.mode host.outcome 0 (host.order (st.offered num net.answer))).1 := by
  by_cases ht : target = []
  · exact Or.inl (by rw [nodePublishVolume, dif_pos ht])
  rw [nodePublishVolume, dif_neg ht, hst]
  simp only
  by_cases htracked : ((d.mounts target).any fun cur => cur.k8s = st.k8s) = true
  · exact Or.inl (by rw [if_pos htracked])
  by_cases hmounted : host.mounted = true
  · exact Or.inl (by rw [if_neg htracked, if_pos hmounted])
  rw [if_neg htracked, if_neg hmounted]
  by_cases hready : (!host.mkdir || !host.mount || !host.client) = true
  · exact Or.inl (by rw [publishNew, if_pos hready])
  cases hf : (fetchAll num st net).2 with
  | error e =>
    refine Or.inl ?_
    rw [publishNew, if_neg hready]
    generalize fetchAll num st net = fetched at hf
    obtain ⟨token, fetched⟩ := fetched
    cases hf
    rfl
  | ok files =>
    have hok := fetchAll_ok num hf
    refine Or.inr ⟨ht, ⟨files, hok⟩, ?_⟩
    rw [effects_publishNew_ok num hready hf, st.offered_of_ok num hok]

/-- The files of a volume stay inside it and apart, with these answers of the server: when it
    is published, and when it is refreshed with the credentials it has by then. -/
structure StaysConfined (vc : VolumeContext) (cr : Credentials) (now : Int) (st : MountState)
    (answer : Nat → Nat → Option Answer) : Prop where
  publish : ∀ d target login host, Confined target
    (nodePublishVolume num parseDuration d target vc cr now ⟨login, answer⟩ host).effects
  refresh : ∀ (d : Driver) target token sa next later login host,
    d.mounts target = some { st with token := token, sa := sa, nextRefresh := next } →
    Confined target (refreshMount num d target
      { st with token := token, sa := sa, nextRefresh := next } later ⟨login, answer⟩ host).effects

theorem Plain.of_perm {files' : List File} (h : Plain files) (hp : files'.Perm files) :
    Plain files' where
  single := fun f hf => h.single f (hp.mem_iff.mp hf)
  distinct := fun f hf g hg => h.distinct f (hp.mem_iff.mp hf) g (hp.mem_iff.mp hg)

/-- The files of an accepted volume stay inside it and apart exactly where, once entries and
    answers are accepted, every file name cleans to one element of its own. -/
theorem confined_iff {vc : VolumeContext} {cr : Credentials} {now : Int}
    (hst : mountState parseDuration vc cr now = some st) (answer : Nat → Nat → Option Answer) :
    StaysConfined num parseDuration vc cr now st answer ↔
      (st.Accepted num answer → Plain (st.offered num answer)) := by
  constructor
  · rintro h ⟨files, hfiles⟩
    refine plain_of_confined st.mode fun target ht order hperm => ?_
    -- a first publish, at which the node and the server do their part
    let net : Net := ⟨fun _ => some [], answer⟩
    let host : Host := ⟨false, true, true, true, order, hperm, fun _ => ⟨0, .done, true⟩⟩
    have hfetch : (fetchAll num st net).2 = .ok files :=
      (fetchAll_of_login num st fun _ => rfl).trans hfiles
    have heffects : (nodePublishVolume num parseDuration .new target vc cr now net host).effects =
        (writeAll target st.mode host.outcome 0 (order (st.offered num answer))).1 := by
      rw [nodePublishVolume, dif_neg ht, hst, ← st.offered_of_ok num hfiles]
      have hready : ¬ (!host.mkdir || !host.mount || !host.client) = true := Bool.false_ne_true
      exact effects_publishNew_ok num hready hfetch
    rw [← heffects]
    exact h.publish .new target _ host
  · intro h
    have hwrite : ∀ target ≠ [], ∀ mode (host : Host), st.Accepted num answer → Confined target
        (writeAll target mode host.outcome 0 (host.order (st.offered num answer))).1 :=
      fun target ht mode host hacc =>
        confined_writeAll ht ((h hacc).of_perm (host.order_perm _)) mode host.outcome 0
    constructor
    · intro d target login host
      rcases effects_nodePublishVolume num parseDuration d target hst ⟨login, answer⟩ host
        with he | ⟨ht, hacc, he⟩
      · rw [he]
        exact confined_nil target
      · rw [he]
        exact hwrite target ht st.mode host hacc
    · intro d target token sa next later login host hd
      have ht : target ≠ [] := by
        rintro rfl
        rw [d.named] at hd
        exact absurd hd (by simp)
      rcases effects_refreshMount num d target
        { st with token := token, sa := sa, nextRefresh := next } later ⟨login, answer⟩ host
        with he | ⟨hacc, he⟩
      · rw [he]
        exact confined_nil target
      · rw [he]
        exact hwrite target ht st.mode host hacc

end

/-- A volume with one secret, whose keys are expanded. -/
def dbVolume : VolumeContext :=
  { addr := ascii "https://tuck:8200", paths := ascii "db", auth := []
    expandKeys := ascii "true", mode := [], refreshInterval := [] }

def dbState : MountState :=
  { token := ascii "t", k8s := false, sa := [], expandKeys := true
    mode := 0o400, paths := [ascii "db"], interval := 0, nextRefresh := 0 }

/-- The answer that gives the secret a JSON object with these keys as its value. -/
def dbAnswer (keys : List Bytes) (_ _ : Nat) : Option Answer :=
  some ⟨200, (Json.obj [(ascii "path", .str (ascii "db")),
    (ascii "value", .str (Json.obj (keys.map fun k => (k, .str k))).encode)]).encode⟩

/-- What the first publish of the volume does with that answer. -/
def dbEffects (keys : List Bytes) : List Effect :=
  (nodePublishVolume (fun _ => none) (fun _ => none) .new (ascii "/pod/vol") dbVolume
    ⟨ascii "t", none⟩ 0 ⟨fun _ => none, dbAnswer keys⟩
    ⟨false, true, true, true, id, fun _ => .refl _, fun _ => ⟨0, .done, true⟩⟩).effects

/-- A key that goes up is written beside the volume; two keys that clean to one name end in one
    file. -/
theorem keys_not_confined :
    ¬ Confined (ascii "/pod/vol") (dbEffects [ascii "../ca"]) ∧
      ¬ Confined (ascii "/pod/vol") (dbEffects [ascii "user", ascii "./user"]) := by
  constructor
  · intro h
    have hmem : Effect.write ⟨true, [ascii "pod", ascii ".ca.tmp-0"]⟩ (ascii "../ca") ∈
        dbEffects [ascii "../ca"] := by decide +kernel
    obtain ⟨n, -, hn⟩ := h.inside _ hmem _ mem_cons_self
    have hparts : [ascii "pod", ascii ".ca.tmp-0"] = [ascii "pod", ascii "vol", n] :=
      congrArg FilePath.parts hn
    exact absurd (congrArg List.length hparts) (by simp)
  · intro h
    have huser : Effect.rename ⟨true, [ascii "pod", ascii "vol", ascii ".user.tmp-0"]⟩
        ⟨true, [ascii "pod", ascii "vol", ascii "user"]⟩ ⟨ascii "db", some (ascii "user")⟩ ∈
        dbEffects [ascii "user", ascii "./user"] := by decide +kernel
    have hdot : Effect.rename ⟨true, [ascii "pod", ascii "vol", ascii ".user.tmp-0"]⟩
        ⟨true, [ascii "pod", ascii "vol", ascii "user"]⟩ ⟨ascii "db", some (ascii "./user")⟩ ∈
        dbEffects [ascii "user", ascii "./user"] := by decide +kernel
    exact absurd (h.apart _ _ _ _ _ huser hdot) (by decide)

theorem user_key_confined :
    mountState (fun _ => none) dbVolume ⟨ascii "t", none⟩ 0 = some dbState ∧
      StaysConfined (fun _ => none) (fun _ => none) dbVolume ⟨ascii "t", none⟩ 0 dbState
        (dbAnswer [ascii "user"]) := by
  have hst : mountState (fun _ => none) dbVolume ⟨ascii "t", none⟩ 0 = some dbState := by
    decide +kernel
  refine ⟨hst, (confined_iff _ _ hst _).mpr fun _ => ?_⟩
  have hoffered : dbState.offered (fun _ => none) (dbAnswer [ascii "user"]) =
      [⟨ascii "user", ⟨ascii "db", some (ascii "user")⟩, ascii "user"⟩] := by decide +kernel
  rw [hoffered]
  constructor
  · intro f hf _
    rw [mem_singleton.mp hf]
    exact ⟨ascii "user", by decide +kernel⟩
  · intro f hf g hg _ _
    rw [mem_singleton.mp hf, mem_singleton.mp hg]

end Tuck.Csi
