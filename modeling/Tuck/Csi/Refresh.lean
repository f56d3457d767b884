/-
  What a volume shows after its refreshes.

  A refresh replaces the files one by one, in any order, ends at the first that cannot be
  written, and removes none. So it leaves a mixture if a write fails after others, and a file of
  a key that is gone if it succeeds. As long as each attempt writes nothing new before it fails
  and then removes its temporary file, and drops no file if it succeeds, the volume shows
  exactly the last fetch that succeeded (`shows_of_harmless`).

  `os.CreateTemp` takes a name that is not in use (`tempsUnused`).
-/
import Tuck.Csi.Driver
import Tuck.Base.Machine

namespace Tuck.Csi

open Tuck.Base Function

/-- The contents of the files. -/
abbrev Files := FilePath → Option Bytes

/-- A rename is atomic. -/
def Effect.apply (fs : Files) : Effect → Files
  | .create p => Function.update fs p (some [])
  | .write p data => Function.update fs p (some data)
  | .chmod _ _ => fs
  | .rename src dest _ => Function.update (Function.update fs dest (fs src)) src none
  | .remove p => Function.update fs p none

def after (effects : List Effect) (fs : Files) : Files := effects.foldl Effect.apply fs

/-- The temporary file of a write. -/
def tempOf (dest : FilePath) (o : Outcome) : FilePath :=
  dest.dir.child (tempName dest.base o.random)

/-- A write that fails in this way leaves no temporary file. -/
def Outcome.clean (o : Outcome) : Bool := o.removed || o.fate = .createFails

section

variable (target : Bytes)

def File.path (f : File) : FilePath := .join target f.name

/-- A path in the directory of the volume. -/
def Below (p : FilePath) : Prop :=
  p.rooted = (FilePath.clean target).rooted ∧ (FilePath.clean target).parts <+: p.parts

instance (p : FilePath) : Decidable (Below target p) := inferInstanceAs (Decidable (_ ∧ _))

/-- The directory holds the files of a fetch and nothing else. -/
def Shows (files : List File) (fs : Files) : Prop :=
  ∀ p, Below target p →
    (∀ v, fs p = some v → ∃ f ∈ files, f.path target = p ∧ f.value = v) ∧
      ∀ f ∈ files, f.path target = p → fs p ≠ none

/-- The file is written: its path can be used, and no operation fails. -/
def File.passes (f : File) (o : Outcome) : Bool :=
  decide (slash ∉ (f.path target).base) && !(f.path target).hasNul && o.fate = .done

/-- How many files are written before the first that is not. -/
def reached (outcome : Nat → Outcome) : Nat → List File → Nat
  | _, [] => 0
  | i, f :: files => if f.passes target (outcome i) then reached outcome (i + 1) files + 1 else 0

def put (fs : Files) (f : File) : Files := Function.update fs (f.path target) (some f.value)

/-- Each temporary file has a name that is not in use. -/
def tempsUnused (outcome : Nat → Outcome) : Nat → List File → Files → Bool
  | _, [], _ => true
  | i, f :: files, fs =>
      (fs (tempOf (f.path target) (outcome i))).isNone &&
        tempsUnused outcome (i + 1) files
          (if f.passes target (outcome i) then put target fs f else fs)

end

/-! ## One refresh -/

section

variable {target : Bytes} {fs : Files} {outcome : Nat → Outcome}

theorem tempOf_ne (dest : FilePath) (o : Outcome) : tempOf dest o ≠ dest := by
  intro h
  have hparts : dest.parts.dropLast ++ [tempName dest.base o.random] = dest.parts :=
    congrArg FilePath.parts h
  have hbase : dest.base = tempName dest.base o.random := by
    conv_lhs => rw [FilePath.base, ← hparts, List.getLast?_concat]
    rfl
  have hlen := congrArg List.length hbase
  simp only [tempName, List.length_cons, List.length_append] at hlen
  omega

theorem after_writeFileAtomic {f : File} (mode : Nat) {o : Outcome}
    (h : fs (tempOf (f.path target) o) = none)
    (hclean : f.passes target o = false → o.clean = true) :
    (writeFileAtomic (f.path target) f mode o).2 = f.passes target o ∧
      after (writeFileAtomic (f.path target) f mode o).1 fs =
        if f.passes target o then put target fs f else fs := by
  have hne := tempOf_ne (f.path target) o
  have htmp : (f.path target).dir.child (tempName (f.path target).base o.random) =
      tempOf (f.path target) o := rfl
  unfold writeFileAtomic
  rw [htmp]
  unfold File.passes at hclean ⊢
  generalize tempOf (f.path target) o = tmp at h hne
  -- Without the rename, all that is left of the write is a temporary file that was removed.
  have hremoved (v : Bytes) : Function.update
      (Function.update (Function.update fs tmp (some [])) tmp (some v)) tmp none = fs := by
    rw [update_idem, update_idem, ← h, update_eq_self]
  by_cases hbad : slash ∈ (f.path target).base ∨ (f.path target).hasNul = true
  · rw [if_pos hbad]
    obtain hbad | hbad := hbad
    · simp [hbad, after]
    · simp [hbad, after]
  · rw [if_neg hbad]
    push Not at hbad
    cases hfate : o.fate with
    | createFails => simp [after]
    | writeFails =>
      have hrm : o.removed = true := by simpa [Outcome.clean, hfate] using hclean
      exact ⟨by simp, by simpa [after, Effect.apply, Outcome.cleanup, hrm] using hremoved f.value⟩
    | closeFails =>
      have hrm : o.removed = true := by simpa [Outcome.clean, hfate] using hclean
      exact ⟨by simp, by simpa [after, Effect.apply, Outcome.cleanup, hrm] using hremoved f.value⟩
    | renameFails =>
      have hrm : o.removed = true := by simpa [Outcome.clean, hfate] using hclean
      exact ⟨by simp, by simpa [after, Effect.apply, Outcome.cleanup, hrm] using hremoved f.value⟩
    | done =>
      refine ⟨by simp [hbad], ?_⟩
      rw [if_pos (by simp [hbad]), put]
      funext p
      unfold Outcome.cleanup
      by_cases hp : p = tmp
      · subst hp
        split_ifs <;> simp [after, Effect.apply, update_of_ne hne, h]
      · by_cases hd : p = f.path target
        · subst hd
          split_ifs <;> simp [after, Effect.apply, update_of_ne hp]
        · split_ifs <;> simp [after, Effect.apply, update_of_ne hp, update_of_ne hd]

theorem after_writeAll (mode : Nat) {i : Nat} {files : List File}
    (h : tempsUnused target outcome i files fs = true)
    (hclean : reached target outcome i files ≠ files.length →
      (outcome (i + reached target outcome i files)).clean = true) :
    ((writeAll target mode outcome i files).2 = true ↔
        reached target outcome i files = files.length) ∧
      after (writeAll target mode outcome i files).1 fs =
        (files.take (reached target outcome i files)).foldl (put target) fs := by
  induction files generalizing i fs with
  | nil => exact ⟨⟨fun _ => rfl, fun _ => rfl⟩, rfl⟩
  | cons f files ih =>
    rw [tempsUnused, Bool.and_eq_true, Option.isNone_iff_eq_none] at h
    rw [reached] at hclean
    obtain ⟨hok, hafter⟩ := after_writeFileAtomic mode h.1 fun hstop => by
      rw [hstop, if_neg Bool.false_ne_true] at hclean
      exact hclean (Nat.succ_ne_zero _).symm
    cases hw : writeFileAtomic (f.path target) f mode (outcome i) with
    | mk effects ok =>
      rw [hw] at hok hafter
      dsimp only at hok hafter
      subst hok
      unfold writeAll reached
      rw [← File.path, hw]
      cases hpass : f.passes target (outcome i) with
      | false => simpa [hpass] using hafter
      | true =>
        rw [hpass, if_pos rfl] at hafter
        rw [hpass, if_pos rfl] at h hclean
        obtain ⟨hrest, hfiles⟩ := ih h.2 fun hne => by
          have hlast := hclean (by rw [List.length_cons]; omega)
          rwa [← Nat.add_assoc, Nat.add_right_comm] at hlast
        refine ⟨by simpa using hrest, ?_⟩
        rw [if_pos rfl, List.take_succ_cons, List.foldl_cons, ← hfiles, ← hafter]
        exact List.foldl_append

/-- A path has what was written there last, and what it had before if nothing was. -/
theorem foldl_put (target : Bytes) (fs : Files) (files : List File) (p : FilePath) :
    (∃ f ∈ files, f.path target = p ∧ files.foldl (put target) fs p = some f.value) ∨
      (∀ f ∈ files, f.path target ≠ p) ∧ files.foldl (put target) fs p = fs p := by
  induction files using List.reverseRecOn with
  | nil => exact .inr ⟨nofun, rfl⟩
  | append_singleton files f ih =>
    rw [List.foldl_append, List.foldl_cons, List.foldl_nil]
    by_cases hp : f.path target = p
    · exact .inl ⟨f, by simp, hp, by rw [put, hp, update_self]⟩
    · rw [put, update_of_ne (Ne.symm hp)]
      obtain ⟨g, hg, hpath, hval⟩ | ⟨hnone, hval⟩ := ih
      · exact .inl ⟨g, by simp [hg], hpath, hval⟩
      · refine .inr ⟨fun g hg => ?_, hval⟩
        rcases List.mem_append.1 hg with hg | hg
        · exact hnone g hg
        · rw [List.mem_singleton.1 hg]
          exact hp

end

/-! ## Series of refreshes -/

/-- One call of `refreshMount`. -/
structure Attempt where
  driver : Driver
  st : MountState
  now : Int
  net : Net
  host : Host

/-- The files, and the newest fetch that an attempt brought to its end. -/
structure Volume where
  files : Files
  shown : List File

section

variable (num : Bytes → Option Bytes) (target : Bytes)

def Attempt.fetched (a : Attempt) : Option (List File) :=
  if a.host.client then (fetchAll num a.st a.net).2.toOption else none

def Attempt.round (a : Attempt) : Round :=
  refreshMount num a.driver target a.st a.now a.net a.host

def Volume.step (v : Volume) (a : Attempt) : Volume where
  files := after (a.round num target).effects v.files
  shown := if (a.round num target).ok then (a.fetched num).getD [] else v.shown

def Attempt.TempsUnused (v : Volume) (a : Attempt) : Prop :=
  ∀ files, a.fetched num = some files →
    tempsUnused target a.host.outcome 0 (a.host.order files) v.files = true

/-- If all files of the fetch are written, they are also at the paths of the fetch before; if
    not, those that are written are as in the fetch before, and the write that failed leaves no
    temporary file. -/
def Attempt.Harmless (v : Volume) (a : Attempt) : Prop :=
  ∀ files, a.fetched num = some files →
    let new := a.host.order files
    let k := reached target a.host.outcome 0 new
    if k = new.length then ∀ g ∈ v.shown, ∃ f ∈ files, f.path target = g.path target
    else (a.host.outcome k).clean = true ∧
      ∀ f ∈ new.take k, ∃ g ∈ v.shown, g.path target = f.path target ∧ g.value = f.value

variable {num target}

theorem round_of_fetched {a : Attempt} :
    match a.fetched num with
    | none => (a.round num target).effects = [] ∧ (a.round num target).ok = false
    | some files =>
        let w := writeAll target a.st.mode a.host.outcome 0 (a.host.order files)
        (a.round num target).effects = w.1 ∧ (a.round num target).ok = w.2 := by
  unfold Attempt.fetched Attempt.round refreshMount
  cases a.host.client with
  | false => exact ⟨rfl, rfl⟩
  | true =>
    simp only [Bool.not_true, Bool.false_eq_true, if_false, if_true]
    cases (fetchAll num a.st a.net).2 with
    | error e => exact ⟨rfl, rfl⟩
    | ok files =>
      dsimp only [Except.toOption]
      generalize writeAll target a.st.mode a.host.outcome 0 (a.host.order files) = w
      obtain ⟨effects, ok⟩ := w
      cases ok with
      | false => exact ⟨rfl, rfl⟩
      | true => exact ⟨rfl, rfl⟩

theorem shows_step {v : Volume} {a : Attempt} (h : Shows target v.shown v.files)
    (hunused : a.TempsUnused num target v) (hharmless : a.Harmless num target v) :
    Shows target (v.step num target a).shown (v.step num target a).files := by
  have hround := @round_of_fetched num target a
  unfold Volume.step
  cases hf : a.fetched num with
  | none =>
    rw [hf] at hround
    rw [hround.1, hround.2]
    exact h
  | some files =>
    rw [hf] at hround
    have hcond := hharmless files hf
    obtain ⟨hok, hafter⟩ := after_writeAll a.st.mode (hunused files hf) fun hstop => by
      dsimp only at hcond
      rw [if_neg hstop] at hcond
      rw [Nat.zero_add]
      exact hcond.1
    rw [hround.1, hround.2, hafter]
    have hmem {f : File} : f ∈ a.host.order files ↔ f ∈ files := (a.host.order_perm files).mem_iff
    dsimp only at hcond
    split_ifs at hcond with hall
    · rw [if_pos (hok.2 hall), hall, List.take_length]
      show Shows target files _
      intro p hp
      dsimp only
      obtain ⟨f, hfn, hpath, hval⟩ | ⟨hnone, hval⟩ :=
        foldl_put target v.files (a.host.order files) p
      · rw [hval]
        exact ⟨fun w hw => ⟨f, hmem.1 hfn, hpath, Option.some.inj hw⟩,
          fun _ _ _ => Option.some_ne_none _⟩
      · rw [hval]
        refine ⟨fun w hw => ?_, fun f hfn hpath => absurd hpath (hnone f (hmem.2 hfn))⟩
        obtain ⟨g, hg, hpath, -⟩ := (h p hp).1 w hw
        obtain ⟨f, hfn, hsame⟩ := hcond g hg
        exact absurd (hsame.trans hpath) (hnone f (hmem.2 hfn))
    · rw [if_neg fun htrue => hall (hok.1 htrue)]
      intro p hp
      dsimp only
      obtain ⟨f, hfn, hpath, hval⟩ | ⟨-, hval⟩ := foldl_put target v.files
        ((a.host.order files).take (reached target a.host.outcome 0 (a.host.order files))) p
      · obtain ⟨g, hg, hsame, hvalue⟩ := hcond.2 f hfn
        rw [hval]
        refine ⟨fun w hw => ⟨g, hg, hsame.trans hpath, ?_⟩, fun _ _ _ => Option.some_ne_none _⟩
        exact hvalue.trans (Option.some.inj hw)
      · rw [hval]
        exact h p hp

/-- In every series of refreshes of which none is harmful, the volume shows exactly the newest
    fetch that succeeded after each of them. -/
theorem shows_of_harmless {v : Volume} {as : List Attempt} (h : Shows target v.shown v.files)
    (hmeets : Meets (Volume.step num target)
      (fun v a => a.TempsUnused num target v ∧ a.Harmless num target v) v as) :
    Shows target (runs (Volume.step num target) v as).shown
      (runs (Volume.step num target) v as).files :=
  hmeets.holds (P := fun v => Shows target v.shown v.files) h fun _ _ hok hshows =>
    shows_step hshows hok.1 hok.2

end

theorem perm_id : ∀ l : List File, (id l).Perm l := fun _ => .refl _

/-- A refresh of the volume with one secret that has these keys, with the given fates of the
    writes. -/
def dbAttempt (keys : List Bytes) (fate : Nat → Fate) : Attempt :=
  ⟨.new, dbState, 0, ⟨fun _ => none, dbAnswer keys⟩,
    ⟨false, true, true, true, id, perm_id, fun i => ⟨0, fate i, true⟩⟩⟩

/-- The second write fails. -/
def failSecond (i : Nat) : Fate := if i = 1 then .writeFails else .done

def dbVolumeAfter (as : List Attempt) : Volume :=
  runs (Volume.step (fun _ => none) (ascii "/pod/vol")) ⟨fun _ => none, []⟩ as

/-- The file of a key of the secret. -/
def dbFile (key : Bytes) : File := ⟨key, ⟨ascii "db", some key⟩, key⟩

/-- Two refreshes, the second with one more key, and one that fails after it wrote a file that
    did not change. -/
def dbAttempts : List Attempt :=
  [dbAttempt [ascii "user"] (fun _ => .done),
    dbAttempt [ascii "user", ascii "pass"] (fun _ => .done),
    dbAttempt [ascii "user", ascii "name"] failSecond]

theorem user_shown :
    Shows (ascii "/pod/vol") (dbVolumeAfter dbAttempts).shown (dbVolumeAfter dbAttempts).files := by
  have hfetched (keys : List Bytes) (fate : Nat → Fate) (files : List File)
      (h : (dbAttempt keys fate).fetched (fun _ => none) = some (keys.map dbFile))
      (hf : (dbAttempt keys fate).fetched (fun _ => none) = some files) :
      keys.map dbFile = files := Option.some.inj (h.symm.trans hf)
  refine shows_of_harmless (fun p _ => ⟨nofun, nofun⟩) ⟨⟨fun files hf => ?_, fun files hf => ?_⟩,
    ⟨fun files hf => ?_, fun files hf => ?_⟩, ⟨fun files hf => ?_, fun files hf => ?_⟩, trivial⟩
  all_goals
    obtain rfl := hfetched _ _ _ (by decide +kernel) hf
    decide +kernel

/-- The file of a key that is gone stays; and a refresh whose second write fails leaves the file
    of its first beside those of the fetch before. -/
theorem files_of_two_fetches :
    let v := dbVolumeAfter [dbAttempt [ascii "user", ascii "pass"] (fun _ => .done),
      dbAttempt [ascii "user"] (fun _ => .done)]
    let w := dbVolumeAfter [dbAttempt [ascii "user"] (fun _ => .done),
      dbAttempt [ascii "name", ascii "pass"] failSecond]
    ¬ Shows (ascii "/pod/vol") v.shown v.files ∧ ¬ Shows (ascii "/pod/vol") w.shown w.files := by
  have hstray (v : Volume) (p : FilePath) (hbelow : Below (ascii "/pod/vol") p)
      (hnone : ∀ f ∈ v.shown, f.path (ascii "/pod/vol") ≠ p) (hsome : (v.files p).isSome = true) :
      ¬ Shows (ascii "/pod/vol") v.shown v.files := by
    intro h
    obtain ⟨value, hvalue⟩ := Option.isSome_iff_exists.mp hsome
    obtain ⟨f, hf, hpath, -⟩ := (h p hbelow).1 value hvalue
    exact hnone f hf hpath
  constructor
  · refine hstray _ ⟨true, [ascii "pod", ascii "vol", ascii "pass"]⟩ ?_ ?_ ?_
    all_goals decide +kernel
  · refine hstray _ ⟨true, [ascii "pod", ascii "vol", ascii "name"]⟩ ?_ ?_ ?_
    all_goals decide +kernel

end Tuck.Csi
