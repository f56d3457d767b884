/-
  The rotation of the log file (`RotatingFileLogger`).

  A file that has reached its size is renamed to a name with the current second in it, and renaming
  replaces a file that has this name already. Old backups are removed in the background, by
  goroutines that first list the backups and then remove them one by one, at any time between the
  writes. As long as every rotation gives a name behind those of the backups there are, nothing but
  the oldest backups is ever lost, in every run and every interleaving (`lossless_of_fits`); two
  rotations within a second lose a file (`backup_replaced`).
-/
import Tuck.Audit.Chain
import Tuck.Base.Calendar
import Tuck.Base.KV
import Tuck.Base.Machine

namespace Tuck.Audit.Rotation

open Tuck.Base List Finmap

/-! ## Names -/

/-- The name without its extension. -/
def stem (name : Bytes) : Bytes :=
  if 0x2E ∈ name then ((name.reverse.dropWhile (· != 0x2E)).drop 1).reverse else name

/-- The name that a rotation gives to the file. -/
def backupName (name : Bytes) (now : Int) : Bytes :=
  stem name ++ 0x2E :: (stamp now ++ ascii ".log")

/-- The marks and letters of the pattern "????????T??????.log". -/
def backupPattern : List (Option UInt8) :=
  List.replicate 8 none ++ some 0x54 :: List.replicate 6 none ++ (ascii ".log").map some

/-- `filepath.Match`, for patterns of letters and question marks (`none`). -/
def matchPattern : List (Option UInt8) → Bytes → Bool
  | [], s => s.isEmpty
  | _ :: _, [] => false
  | some b :: ps, c :: s => b == c && matchPattern ps s
  | none :: ps, c :: s => c != 0x2F && matchPattern ps ((c :: s).drop (max 1 (runeLen (c :: s))))

/-- The names that the pattern of `purgeOldFiles` matches. -/
def isBackup (name k : Bytes) : Bool :=
  hasPrefix k (stem name ++ [0x2E]) && matchPattern backupPattern (k.drop ((stem name).length + 1))

/-! ## The logger and its directory -/

/-- The files of the directory, each with its records. -/
abbrev Dir := KV.Store (List Bytes)

/-- A goroutine of `purgeOldFiles`: not yet at the listing, or with files still to remove. -/
inductive Purge where
  | started
  | removing (names : List Bytes)
  deriving DecidableEq

/-- `RotatingFileLogger`, with the directory and the goroutines. -/
structure RotatingFileLogger where
  name : Bytes
  maxSize : Nat
  maxBackups : Nat
  prevHash : Bytes
  size : Nat
  dir : Dir
  purges : List Purge

def defaultMaxSize : Nat := 104857600

def defaultMaxBackups : Nat := 7

/-- `openAppend`: the directory with the file, and its size. -/
def openAppend (dir : Dir) (name : Bytes) : Dir × Nat :=
  match dir.lookup name with
  | some records => (dir, (records.map List.length).sum)
  | none => (dir.insert name [], 0)

def newRotatingFileLogger (name : Bytes) (maxSize maxBackups : Int) (dir : Dir) :
    RotatingFileLogger where
  name := name
  maxSize := if maxSize ≤ 0 then defaultMaxSize else maxSize.toNat
  maxBackups := if maxBackups ≤ 0 then defaultMaxBackups else maxBackups.toNat
  prevHash := genesisHash
  size := (openAppend dir name).2
  dir := (openAppend dir name).1
  purges := []

def rename (dir : Dir) (src dst : Bytes) : Dir :=
  match dir.lookup src with
  | some records => (dir.erase src).insert dst records
  | none => dir

namespace RotatingFileLogger

/-- The backups, in the order of their names. -/
def backups (l : RotatingFileLogger) : List (Bytes × List Bytes) :=
  (KV.sortKeys (l.dir.keys.filter fun k => isBackup l.name k)).map fun k =>
    (k, (l.dir.lookup k).getD [])

/-- The records of the active file. -/
def active (l : RotatingFileLogger) : List Bytes := (l.dir.lookup l.name).getD []

/-- `rotateLocked`. -/
def rotate (l : RotatingFileLogger) (now : Int) : RotatingFileLogger :=
  let opened := openAppend (rename l.dir l.name (backupName l.name now)) l.name
  { l with
    dir := opened.1, size := opened.2, prevHash := genesisHash, purges := l.purges ++ [.started] }

/-- `rotateLocked`, if the file has reached its size. -/
def rotateIfFull (l : RotatingFileLogger) (now : Int) : RotatingFileLogger :=
  if l.maxSize ≤ l.size then l.rotate now else l

/-- What is appended for an entry; nothing if it cannot be encoded. -/
def newRecords (sha : Bytes → Bytes) (l : RotatingFileLogger) (e : Entry) : List Bytes :=
  let line := (Logger.write sha ⟨l.prevHash, []⟩ e).out
  if line = [] then [] else [line]

/-- `Write` after the rotation. -/
def append (sha : Bytes → Bytes) (l : RotatingFileLogger) (e : Entry) : RotatingFileLogger :=
  { l with
    dir := l.dir.insert l.name (l.active ++ l.newRecords sha e)
    prevHash := (Logger.write sha ⟨l.prevHash, []⟩ e).prevHash
    size := l.size + ((l.newRecords sha e).map List.length).sum }

/-- A step of the `i`-th goroutine: the listing, or the next removal. -/
def purge (l : RotatingFileLogger) (i : Nat) : RotatingFileLogger :=
  match l.purges[i]? with
  | some .started =>
      let found := l.backups.map Prod.fst
      { l with purges := l.purges.set i (.removing (found.take (found.length - l.maxBackups))) }
  | some (.removing (old :: names)) =>
      { l with dir := l.dir.erase old, purges := l.purges.set i (.removing names) }
  | _ => l

end RotatingFileLogger

/-! ## Runs -/

/-- A write, with the reading of the clock if it rotates, or a step of a goroutine. -/
inductive Act where
  | write (e : Entry) (now : Int)
  | purge (i : Nat)

/-- The logger and all records ever written, in their order. -/
structure Written where
  logger : RotatingFileLogger
  records : List Bytes

def Written.step (sha : Bytes → Bytes) (w : Written) : Act → Written
  | .write e now =>
      let l := w.logger.rotateIfFull now
      ⟨l.append sha e, w.records ++ l.newRecords sha e⟩
  | .purge i => { w with logger := w.logger.purge i }

/-- A logger on any directory; the records that are there already count as written. -/
def Written.start (name : Bytes) (maxSize maxBackups : Int) (dir : Dir) : Written :=
  let l := newRotatingFileLogger name maxSize maxBackups dir
  ⟨l, l.backups.flatMap Prod.snd ++ l.active⟩

/-- Removed backups, the backups in the order of their names and the active file are all that was
    ever written. What was removed is older than every backup, and there are as many of these as
    are to be kept: with a removed one itself, more than `maxBackups`. -/
def Lossless (w : Written) : Prop :=
  ∃ gone : List (Bytes × List Bytes),
    (gone ++ w.logger.backups).flatMap Prod.snd ++ w.logger.active = w.records ∧
    (gone ++ w.logger.backups).Pairwise (fun a b => a.1 < b.1) ∧
    (gone ≠ [] → w.logger.maxBackups ≤ w.logger.backups.length)

/-- A rotation names the file so that it is found as a backup, behind all backups there are. -/
def Fits (w : Written) : Act → Prop
  | .write _ now => w.logger.maxSize ≤ w.logger.size →
      isBackup w.logger.name (backupName w.logger.name now) = true ∧
        ∀ b ∈ w.logger.backups, b.1 < backupName w.logger.name now
  | .purge _ => True

/-! ## Names of backups -/

theorem stem_append_eq {name : Bytes} (h : 0x2E ∈ name) :
    ∃ ext, name = stem name ++ 0x2E :: ext ∧ 0x2E ∉ ext := by
  obtain ⟨as, bs, heq, has⟩ := eq_append_cons_of_mem (mem_reverse.2 h)
  have hstem : stem name = bs.reverse := by
    unfold stem
    rw [if_pos h, heq, dropWhile_append_of_pos fun b hb => ?_]
    · rfl
    · exact bne_iff_ne.2 fun hdot => has (hdot ▸ hb)
  refine ⟨as.reverse, ?_, fun hmem => has (mem_reverse.1 hmem)⟩
  rw [hstem, ← reverse_reverse name, heq, reverse_append, reverse_cons, append_assoc]
  rfl

/-- The last bytes that a pattern with letters at its end can match. -/
theorem dot_mem_of_matchPattern {ps : List (Option UInt8)} {s : Bytes}
    (h : matchPattern ps s = true) (hps : some 0x2E ∈ ps) : 0x2E ∈ s := by
  induction ps generalizing s with
  | nil => exact absurd hps (not_mem_nil)
  | cons p ps ih =>
    cases s with
    | nil => cases h
    | cons c s =>
      cases p with
      | some b =>
        rw [matchPattern, Bool.and_eq_true, beq_iff_eq] at h
        obtain hp | hps := mem_cons.1 hps
        · rw [← h.1, ← Option.some.inj hp]
          exact mem_cons_self ..
        · exact mem_cons_of_mem _ (ih h.2 hps)
      | none =>
        rw [matchPattern, Bool.and_eq_true] at h
        obtain hp | hps := mem_cons.1 hps
        · cases hp
        · exact mem_of_mem_drop (ih h.2 hps)

/-- The active file is not taken for a backup. -/
theorem isBackup_self (name : Bytes) : isBackup name name = false := by
  rw [Bool.eq_false_iff]
  intro h
  unfold isBackup at h
  rw [Bool.and_eq_true, hasPrefix_iff] at h
  obtain ⟨hpre, hmatch⟩ := h
  have hdot := dot_mem_of_matchPattern hmatch (by decide)
  by_cases hmem : 0x2E ∈ name
  · obtain ⟨ext, heq, hext⟩ := stem_append_eq hmem
    refine hext ?_
    have hdrop : name.drop ((stem name).length + 1) = ext := by
      generalize stem name = st at heq
      rw [heq, drop_append, drop_of_length_le (by omega), nil_append,
        Nat.add_sub_cancel_left]
      rfl
    rwa [hdrop] at hdot
  · exact hmem (mem_of_mem_drop hdot)

theorem backupName_ne (name : Bytes) (now : Int) : backupName name now ≠ name := by
  intro heq
  by_cases hmem : 0x2E ∈ name
  · obtain ⟨ext, hname, hext⟩ := stem_append_eq hmem
    unfold backupName at heq
    conv_rhs at heq => rw [hname]
    refine hext ?_
    rw [← tail_eq_of_cons_eq (append_cancel_left heq)]
    exact mem_append_right _ (by decide)
  · refine hmem ?_
    rw [← heq]
    exact mem_append_right _ (mem_cons_self ..)

/-! ## The listing of the backups -/

/-- The name of a backup and its records. -/
abbrev Backup := Bytes × List Bytes

/-- In strictly ascending order of the names. -/
abbrev Ascending (bs : List Backup) : Prop := bs.Pairwise fun a b => a.1 < b.1

/-- The backups of a directory, in strictly ascending order of their names. -/
structure Lists (name : Bytes) (dir : Dir) (bs : List Backup) : Prop where
  ascending : Ascending bs
  mem_iff : ∀ {k records},
    (k, records) ∈ bs ↔ isBackup name k = true ∧ dir.lookup k = some records

section

variable {name : Bytes} {dir : Dir} {bs : List Backup}

theorem pairwise_lt_sortKeys (s : Finset Bytes) : (KV.sortKeys s).Pairwise (· < ·) := by
  refine List.Pairwise.imp₂ (fun a b hle hne => ?_) (KV.pairwise_sortKeys s) (KV.sorted.nodup s)
  exact Std.lt_of_le_of_ne hle hne

/-- Lists in strictly ascending order with the same members are the same. -/
theorem eq_of_ascending {as bs : List Backup} (has : Ascending as) (hbs : Ascending bs)
    (h : ∀ x, x ∈ as ↔ x ∈ bs) : as = bs := by
  have hnodup {l : List Backup} (hl : Ascending l) : l.Nodup := by
    refine List.Pairwise.imp (fun {a b} hlt => ?_) hl
    rintro rfl
    exact List.lt_irrefl _ hlt
  refine List.Perm.eq_of_pairwise (fun a b _ _ hab hba => ?_) has hbs
    ((List.perm_ext_iff_of_nodup (hnodup has) (hnodup hbs)).2 h)
  exact absurd (List.lt_trans hab hba) (List.lt_irrefl _)

theorem lists_backups (l : RotatingFileLogger) : Lists l.name l.dir l.backups where
  ascending := by
    unfold RotatingFileLogger.backups
    exact pairwise_map.2 (pairwise_lt_sortKeys _)
  mem_iff := by
    intro k records
    unfold RotatingFileLogger.backups
    rw [mem_map]
    constructor
    · rintro ⟨k', hk', heq⟩
      obtain ⟨rfl, rfl⟩ := Prod.mk.inj heq
      obtain ⟨hkeys, hbackup⟩ := Finset.mem_filter.1 (KV.sorted.mem_order.1 hk')
      obtain ⟨v, hv⟩ := mem_iff.1 (mem_keys.1 hkeys)
      refine ⟨by simpa using hbackup, ?_⟩
      rw [hv]
      rfl
    · rintro ⟨hbackup, hlookup⟩
      refine ⟨k, KV.sorted.mem_order.2 (Finset.mem_filter.2 ⟨?_, by simpa using hbackup⟩), ?_⟩
      · exact mem_keys.2 (mem_iff.2 ⟨records, hlookup⟩)
      · rw [hlookup]
        rfl

theorem backups_eq {l : RotatingFileLogger} (h : Lists l.name l.dir bs) : l.backups = bs :=
  eq_of_ascending (lists_backups l).ascending h.ascending fun ⟨_, _⟩ =>
    (lists_backups l).mem_iff.trans h.mem_iff.symm

/-- The files that are not backups do not matter. -/
theorem Lists.congr (h : Lists name dir bs) {dir' : Dir}
    (hdir : ∀ k, isBackup name k = true → dir'.lookup k = dir.lookup k) : Lists name dir' bs where
  ascending := h.ascending
  mem_iff := by
    intro k records
    rw [h.mem_iff]
    exact and_congr_right fun hk => by rw [hdir k hk]

/-- A new backup behind all others. -/
theorem Lists.snoc (h : Lists name dir bs) {dst : Bytes} (hdst : isBackup name dst = true)
    (hlast : ∀ b ∈ bs, b.1 < dst) (records : List Bytes) :
    Lists name (dir.insert dst records) (bs ++ [(dst, records)]) where
  ascending := by
    refine List.pairwise_append.2
      ⟨h.ascending, List.pairwise_singleton .., fun a ha b hb => ?_⟩
    rw [List.mem_singleton.1 hb]
    exact hlast a ha
  mem_iff := by
    intro k records'
    rw [List.mem_append, h.mem_iff, List.mem_singleton, Prod.mk.injEq, KV.lookup_insert]
    by_cases hk : k = dst
    · subst hk
      have hnew : dir.lookup k ≠ some records' := fun hlookup =>
        List.lt_irrefl k (hlast _ (h.mem_iff.2 ⟨hdst, hlookup⟩))
      simp [hdst, hnew, eq_comm]
    · simp [hk]

/-- Without the oldest backup. -/
theorem Lists.tail {old : Backup} (h : Lists name dir (old :: bs)) :
    Lists name (dir.erase old.1) bs where
  ascending := h.ascending.of_cons
  mem_iff := by
    intro k records
    have hne : (k, records) ∈ bs → k ≠ old.1 := by
      rintro hmem rfl
      have hlt : old.1 < old.1 := (List.pairwise_cons.1 h.ascending).1 (old.1, records) hmem
      exact List.lt_irrefl _ hlt
    rw [KV.lookup_erase]
    have hiff := @h.mem_iff k records
    rw [List.mem_cons] at hiff
    constructor
    · intro hmem
      rw [if_neg (hne hmem)]
      exact hiff.1 (.inr hmem)
    · rintro ⟨hbackup, hlookup⟩
      split_ifs at hlookup with hk
      obtain hold | hmem := hiff.2 ⟨hbackup, hlookup⟩
      · exact absurd (congrArg Prod.fst hold) hk
      · exact hmem

end

/-! ## The invariant -/

/-- The backups behind a name. -/
def newer (bs : List Backup) (k : Bytes) : List Backup := bs.filter fun b => k < b.1

/-- The names that a goroutine has still to remove: in ascending order, each a name of a backup with
    enough newer backups, and with every older backup before it. -/
structure Removable (maxBackups : Nat) (name : Bytes) (bs : List Backup) (names : List Bytes) :
    Prop where
  ascending : names.Pairwise (· < ·)
  backup : ∀ k ∈ names, isBackup name k = true
  enough : ∀ k ∈ names, maxBackups ≤ (newer bs k).length
  older : ∀ k ∈ names, ∀ b ∈ bs, b.1 < k → b.1 ∈ names

/-- What every step keeps, over the backups of the directory and the records of the active file:
    nothing was lost but what is older, and the goroutines remove the oldest only. -/
structure Inv (w : Written) (bs : List Backup) (live : List Bytes) : Prop where
  lists : Lists w.logger.name w.logger.dir bs
  active : w.logger.dir.lookup w.logger.name = some live
  kept : 0 < w.logger.maxBackups
  lossless : ∃ gone, (gone ++ bs).flatMap Prod.snd ++ live = w.records ∧ Ascending (gone ++ bs) ∧
    (gone ≠ [] → w.logger.maxBackups ≤ bs.length)
  removable : ∀ names, Purge.removing names ∈ w.logger.purges →
    Removable w.logger.maxBackups w.logger.name bs names

section

variable {maxBackups : Nat} {name : Bytes} {bs : List Backup} {names : List Bytes}

/-- A backup behind all others changes nothing for what is to be removed. -/
theorem Removable.snoc (h : Removable maxBackups name bs names) (hpos : 0 < maxBackups)
    {new : Backup} (hlast : ∀ b ∈ bs, b.1 < new.1) :
    Removable maxBackups name (bs ++ [new]) names where
  ascending := h.ascending
  backup := h.backup
  enough := by
    intro k hk
    unfold newer
    rw [List.filter_append, List.length_append]
    exact Nat.le_add_right_of_le (h.enough k hk)
  older := by
    intro k hk b hb hlt
    obtain hb | hb := List.mem_append.1 hb
    · exact h.older k hk b hb hlt
    · -- a newer backup of `k` is older than the new one
      obtain ⟨b', hb'⟩ := List.exists_mem_of_length_pos (Nat.lt_of_lt_of_le hpos (h.enough k hk))
      obtain ⟨hmem, hkb⟩ := List.mem_filter.1 hb'
      rw [List.mem_singleton.1 hb] at hlt
      exact absurd (List.lt_trans hlt (List.lt_trans (of_decide_eq_true hkb) (hlast b' hmem)))
        (List.lt_irrefl _)

/-- The oldest backup is gone. -/
theorem Removable.tail {old : Backup} (h : Removable maxBackups name (old :: bs) names)
    (hold : ∀ b ∈ bs, old.1 < b.1) (henough : maxBackups ≤ bs.length) :
    Removable maxBackups name bs names where
  ascending := h.ascending
  backup := h.backup
  enough := by
    intro k hk
    have hk' := h.enough k hk
    by_cases hlt : k < old.1
    · have hall : newer bs k = bs :=
        List.filter_eq_self.2 fun b hb => decide_eq_true (List.lt_trans hlt (hold b hb))
      rwa [hall]
    · unfold newer at hk' ⊢
      rwa [List.filter_cons_of_neg (by simpa using hlt)] at hk'
  older := fun k hk b hb hlt => h.older k hk b (List.mem_cons_of_mem _ hb) hlt

theorem Removable.of_cons {old : Bytes} (h : Removable maxBackups name bs (old :: names))
    (hgone : ∀ b ∈ bs, b.1 ≠ old) : Removable maxBackups name bs names where
  ascending := h.ascending.of_cons
  backup := fun k hk => h.backup k (mem_cons_of_mem _ hk)
  enough := fun k hk => h.enough k (mem_cons_of_mem _ hk)
  older := by
    intro k hk b hb hlt
    obtain heq | hmem := mem_cons.1 (h.older k (mem_cons_of_mem _ hk) b hb hlt)
    · exact absurd heq (hgone b hb)
    · exact hmem

/-- The next file of a goroutine is the oldest backup, or it is gone already. -/
theorem Removable.oldest {old : Bytes} (h : Removable maxBackups name bs (old :: names))
    (hbs : Ascending bs) :
    (∃ records rest, bs = (old, records) :: rest) ∨ ∀ b ∈ bs, b.1 ≠ old := by
  cases bs with
  | nil => exact .inr fun b hb => absurd hb not_mem_nil
  | cons b rest =>
    by_cases hb : b.1 = old
    · exact .inl ⟨b.2, rest, hb ▸ rfl⟩
    refine .inr fun b' hb' heq => ?_
    obtain rfl | hmem := mem_cons.1 hb'
    · exact hb heq
    -- the goroutine would have to remove the older `b` first
    have hlt : b.1 < old := heq ▸ (List.pairwise_cons.1 hbs).1 b' hmem
    obtain hold | hlater := mem_cons.1 (h.older old mem_cons_self b mem_cons_self hlt)
    · exact hb hold
    · exact List.lt_irrefl _ (List.lt_trans hlt ((List.pairwise_cons.1 h.ascending).1 _ hlater))

/-- The names that the listing picks. -/
theorem removable_take (h : Ascending bs)
    (hbackup : ∀ b ∈ bs, isBackup name b.1 = true) :
    Removable maxBackups name bs ((bs.map Prod.fst).take (bs.length - maxBackups)) := by
  have hsplit := List.take_append_drop (bs.length - maxBackups) bs
  have hpair := List.pairwise_append.1 (hsplit.symm ▸ h)
  rw [← List.map_take]
  refine ⟨List.pairwise_map.2 hpair.1, ?_, ?_, ?_⟩
  · intro k hk
    obtain ⟨b, hb, rfl⟩ := List.mem_map.1 hk
    exact hbackup b (List.mem_of_mem_take hb)
  · intro k hk
    obtain ⟨b, hb, rfl⟩ := List.mem_map.1 hk
    -- all that are kept are newer
    have hkept : (bs.drop (bs.length - maxBackups)).Sublist (newer bs b.1) := by
      have hself : (bs.drop (bs.length - maxBackups)).filter (fun b' => b.1 < b'.1) =
          bs.drop (bs.length - maxBackups) :=
        List.filter_eq_self.2 fun b' hb' => decide_eq_true (hpair.2.2 b hb b' hb')
      rw [← hself]
      exact (List.drop_sublist _ _).filter _
    have hlen := hkept.length_le
    have hpos := List.length_pos_of_mem hb
    rw [List.length_take] at hpos
    rw [List.length_drop] at hlen
    omega
  · intro k hk b' hb' hlt
    obtain ⟨b, hb, rfl⟩ := List.mem_map.1 hk
    refine List.mem_map_of_mem ?_
    rw [← hsplit] at hb'
    obtain hb' | hb' := List.mem_append.1 hb'
    · exact hb'
    · exact absurd (List.lt_trans hlt (hpair.2.2 b hb b' hb')) (List.lt_irrefl _)

end

/-! ## The steps -/

theorem ne_of_isBackup {name k : Bytes} (hk : isBackup name k = true) : k ≠ name := by
  rintro rfl
  rw [isBackup_self] at hk
  cases hk

theorem active_eq {l : RotatingFileLogger} {records : List Bytes}
    (h : l.dir.lookup l.name = some records) : l.active = records := by
  unfold RotatingFileLogger.active
  rw [h]
  rfl

/-- The directory after a rotation. -/
theorem dir_rotate {l : RotatingFileLogger} {records : List Bytes} (now : Int)
    (hactive : l.dir.lookup l.name = some records) :
    (l.rotate now).dir =
      ((l.dir.erase l.name).insert (backupName l.name now) records).insert l.name [] := by
  have hnone : ((l.dir.erase l.name).insert (backupName l.name now) records).lookup l.name =
      none := by
    rw [KV.lookup_insert, if_neg (backupName_ne l.name now).symm, lookup_erase]
  unfold RotatingFileLogger.rotate rename openAppend
  simp only [hactive, hnone]

section

variable {w : Written} {sha : Bytes → Bytes} {bs : List Backup} {live : List Bytes}

theorem Inv.rotate (h : Inv w bs live) {now : Int}
    (hbackup : isBackup w.logger.name (backupName w.logger.name now) = true)
    (hlast : ∀ b ∈ bs, b.1 < backupName w.logger.name now) :
    Inv ⟨w.logger.rotate now, w.records⟩ (bs ++ [(backupName w.logger.name now, live)]) [] := by
  obtain ⟨gone, hrecords, hascending, henough⟩ := h.lossless
  have hdir := dir_rotate now h.active
  refine ⟨?_, ?_, h.kept, ⟨gone, ?_, ?_, fun hgone => ?_⟩, fun names hnames => ?_⟩
  · dsimp only
    rw [hdir]
    have herased : Lists w.logger.name (w.logger.dir.erase w.logger.name) bs :=
      h.lists.congr fun k hk => lookup_erase_ne (ne_of_isBackup hk)
    refine (herased.snoc hbackup hlast live).congr fun k hk => ?_
    exact lookup_insert_of_ne _ (ne_of_isBackup hk)
  · dsimp only
    rw [hdir]
    exact lookup_insert _
  · simpa using hrecords
  · rw [← List.append_assoc]
    refine List.pairwise_append.2
      ⟨hascending, List.pairwise_singleton .., fun a ha b hb => ?_⟩
    rw [List.mem_singleton.1 hb]
    obtain ha | ha := List.mem_append.1 ha
    · -- a removed backup is older than one that was kept
      have hlen := henough (List.ne_nil_of_mem ha)
      obtain ⟨b', hb'⟩ := List.exists_mem_of_length_pos (Nat.lt_of_lt_of_le h.kept hlen)
      exact List.lt_trans ((List.pairwise_append.1 hascending).2.2 a ha b' hb') (hlast b' hb')
    · exact hlast a ha
  · rw [List.length_append]
    exact Nat.le_add_right_of_le (henough hgone)
  · obtain hmem | hmem := List.mem_append.1 hnames
    · exact (h.removable names hmem).snoc h.kept hlast
    · cases List.mem_singleton.1 hmem

theorem Inv.append (h : Inv w bs live) (e : Entry) :
    Inv ⟨w.logger.append sha e, w.records ++ w.logger.newRecords sha e⟩ bs
      (live ++ w.logger.newRecords sha e) where
  lists := h.lists.congr fun k hk => lookup_insert_of_ne _ (ne_of_isBackup hk)
  active := by
    unfold RotatingFileLogger.append
    rw [active_eq h.active]
    exact lookup_insert _
  kept := h.kept
  lossless := by
    obtain ⟨gone, hrecords, hrest⟩ := h.lossless
    exact ⟨gone, by rw [← append_assoc, hrecords], hrest⟩
  removable := h.removable

/-- The other goroutines have what they had. -/
theorem Purge.mem_set {ps : List Purge} {i : Nat} {names names' : List Bytes}
    (h : Purge.removing names' ∈ ps.set i (.removing names)) :
    names' = names ∨ Purge.removing names' ∈ ps := by
  obtain hmem | heq := mem_or_eq_of_mem_set h
  · exact .inr hmem
  · exact .inl (Purge.removing.inj heq)

theorem Inv.remove (h : Inv w bs live) {i : Nat} {old : Bytes} {names : List Bytes}
    (hi : w.logger.purges[i]? = some (.removing (old :: names))) :
    ∃ bs', Inv ⟨{ w.logger with
      dir := w.logger.dir.erase old, purges := w.logger.purges.set i (.removing names) },
      w.records⟩ bs' live := by
  have hrem := h.removable _ (List.mem_of_getElem? hi)
  have hactive : (w.logger.dir.erase old).lookup w.logger.name = some live :=
    (lookup_erase_ne (ne_of_isBackup (hrem.backup old mem_cons_self)).symm).trans h.active
  obtain ⟨records, rest, rfl⟩ | hgone := hrem.oldest h.lists.ascending
  · obtain ⟨gone, hrecords, hascending, -⟩ := h.lossless
    have hnewer : ∀ b ∈ rest, old < b.1 := (List.pairwise_cons.1 h.lists.ascending).1
    have hlen : w.logger.maxBackups ≤ rest.length := by
      refine (hrem.enough old mem_cons_self).trans ?_
      unfold newer
      rw [List.filter_cons_of_neg (by simp)]
      exact List.length_filter_le ..
    refine ⟨rest, h.lists.tail, hactive, h.kept, ⟨gone ++ [(old, records)], ?_, ?_, fun _ => hlen⟩,
      fun names' hnames' => ?_⟩
    · rw [List.append_assoc]
      exact hrecords
    · rw [List.append_assoc]
      exact hascending
    · obtain rfl | hmem := Purge.mem_set hnames'
      · exact (hrem.tail hnewer hlen).of_cons fun b hb heq =>
          List.lt_irrefl _ (heq ▸ hnewer b hb)
      · exact (h.removable names' hmem).tail hnewer hlen
  · refine ⟨bs, h.lists.congr fun k hk => ?_, hactive, h.kept, h.lossless, fun names' hnames' => ?_⟩
    · rw [KV.lookup_erase]
      split_ifs with hkold
      · cases hfile : w.logger.dir.lookup k with
        | none => rfl
        | some records => exact absurd hkold (hgone _ (h.lists.mem_iff.2 ⟨hk, hfile⟩))
      · rfl
    · obtain rfl | hmem := Purge.mem_set hnames'
      · exact hrem.of_cons hgone
      · exact h.removable names' hmem

theorem Inv.list (h : Inv w bs live) (i : Nat) :
    Inv ⟨{ w.logger with purges := w.logger.purges.set i (.removing
      ((bs.map Prod.fst).take ((bs.map Prod.fst).length - w.logger.maxBackups))) }, w.records⟩
      bs live := by
  refine ⟨h.lists, h.active, h.kept, h.lossless, fun names hnames => ?_⟩
  obtain rfl | hmem := Purge.mem_set hnames
  · rw [length_map]
    exact removable_take h.lists.ascending fun ⟨k, records⟩ hb => (h.lists.mem_iff.1 hb).1
  · exact h.removable names hmem

/-- Every step that fits keeps the invariant. -/
theorem Inv.step (h : Inv w bs live) {act : Act} (hact : Fits w act) :
    ∃ bs' live', Inv (w.step sha act) bs' live' := by
  have hbackups := backups_eq h.lists
  cases act with
  | write e now =>
    have hrotated : ∃ bs' live', Inv ⟨w.logger.rotateIfFull now, w.records⟩ bs' live' := by
      unfold RotatingFileLogger.rotateIfFull
      split_ifs with hfull
      · obtain ⟨hbackup, hlast⟩ := hact hfull
        exact ⟨_, _, h.rotate hbackup (hbackups ▸ hlast)⟩
      · exact ⟨_, _, h⟩
    obtain ⟨bs', live', hrotated⟩ := hrotated
    exact ⟨_, _, hrotated.append e⟩
  | purge i =>
    unfold Written.step RotatingFileLogger.purge
    dsimp only
    split
    · rw [hbackups]
      exact ⟨_, _, h.list i⟩
    · next hi => exact (h.remove hi).imp fun _ hinv => ⟨_, hinv⟩
    · exact ⟨_, _, h⟩

theorem Inv.toLossless (h : Inv w bs live) : Lossless w := by
  unfold Lossless
  rw [backups_eq h.lists, active_eq h.active]
  exact h.lossless

theorem inv_start (name : Bytes) (maxSize maxBackups : Int) (dir : Dir) :
    ∃ bs live, Inv (Written.start name maxSize maxBackups dir) bs live := by
  have hactive : ∃ live, (openAppend dir name).1.lookup name = some live := by
    unfold openAppend
    cases hfile : dir.lookup name with
    | some records => exact ⟨records, hfile⟩
    | none => exact ⟨[], lookup_insert _⟩
  obtain ⟨live, hactive⟩ := hactive
  have hlists := lists_backups (newRotatingFileLogger name maxSize maxBackups dir)
  refine ⟨_, live, hlists, hactive, ?_, ⟨[], ?_, hlists.ascending, fun h => absurd rfl h⟩, nofun⟩
  · unfold Written.start newRotatingFileLogger defaultMaxBackups
    dsimp only
    split_ifs <;> omega
  · have hlive : (newRotatingFileLogger name maxSize maxBackups dir).active = live :=
      active_eq hactive
    rw [← hlive]
    rfl

/-- From any directory, in every run whose rotations all find a new last name, nothing but the
    oldest backups is lost, however the goroutines that remove them are interleaved with the
    writes. -/
theorem lossless_of_fits {name : Bytes} {maxSize maxBackups : Int} {dir : Dir} {acts : List Act}
    (h : Meets (Written.step sha) Fits (Written.start name maxSize maxBackups dir) acts) :
    Lossless (runs (Written.step sha) (Written.start name maxSize maxBackups dir) acts) := by
  obtain ⟨bs, live, hinv⟩ := h.holds (P := fun w => ∃ bs live, Inv w bs live)
    (inv_start name maxSize maxBackups dir) fun _ _ hact ⟨_, _, hinv⟩ => hinv.step hact
  exact hinv.toLossless

end

/-! ## Three records in files of a byte -/

instance (w : Written) : DecidablePred (Fits w)
  | .write _ _ => inferInstanceAs (Decidable (_ → _))
  | .purge _ => isTrue trivial

/-- Every write after the first one rotates. -/
def tiny : Written := .start (ascii "audit.log") 1 7 ∅

def writeAt (now : Int) : Act := .write .zero now

theorem lossless_laterSeconds :
    Lossless (runs (Written.step fun m => m) tiny [writeAt 0, writeAt 1, .purge 0, writeAt 2]) :=
  lossless_of_fits (by decide +kernel)

/-- Two rotations within a second: of three records two are left, and no backup was removed. -/
theorem backup_replaced :
    let w := runs (Written.step fun m => m) tiny [writeAt 0, writeAt 0, writeAt 0]
    w.records.length = 3 ∧ (w.logger.backups.flatMap Prod.snd ++ w.logger.active).length = 2 ∧
      ¬Lossless w := by
  refine ⟨by decide +kernel, by decide +kernel, ?_⟩
  intro ⟨gone, hrecords, _, hgone⟩
  obtain rfl : gone = [] := by
    by_contra hne
    exact absurd (hgone hne) (by decide +kernel)
  exact absurd (congrArg List.length hrecords) (by decide +kernel)

end Tuck.Audit.Rotation
