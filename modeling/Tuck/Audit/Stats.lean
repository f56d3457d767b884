/-
  The counters of the audited requests (`Stats`): a slot for each minute of a day, a slot for
  each second of a minute and one for the day.

  A slot starts over when a record of another period arrives, also of an earlier one. At startup
  the records come in the order of the log, so a record that is late in the log can wipe out what
  was counted before. The snapshot is exact if and only if that does not happen to a period it
  shows (`accurate_iff`); a request that began before midnight and ended after others of the new
  day is enough (`day_forgotten`).
-/
import Tuck.Audit.Chain
import Tuck.Base.Slots
import Mathlib.Algebra.BigOperators.Fin
import Mathlib.Algebra.Order.BigOperators.Group.Finset

namespace Tuck.Audit

open Tuck.Base List

/-! ## The counters -/

/-- The minutes that are retained. -/
def statsMinutes : Nat := 1440

/-- The seconds of the rate. -/
def rateWindow : Nat := 60

/-- The counts of a `minuteBucket`. -/
structure MinuteTally where
  count : Nat
  errors : Nat
  deriving DecidableEq

/-- The counters of a day; an operation that `byOp` does not hold counts zero. -/
structure DayTally where
  today : Nat
  todayEr : Nat
  byOp : Bytes → Nat

/-- `Stats`. Times are nanoseconds since the epoch. -/
structure Stats where
  since : Int
  minutes : Fin statsMinutes → Slot MinuteTally
  secs : Fin rateWindow → Slot Nat
  day : Slot DayTally
  total : Nat

def MinuteTally.zero : MinuteTally := ⟨0, 0⟩

def DayTally.zero : DayTally := ⟨0, 0, fun _ => 0⟩

def newStats (now : Int) : Stats :=
  ⟨now, fun _ => ⟨0, .zero⟩, fun _ => ⟨0, 0⟩, ⟨0, .zero⟩, 0⟩

def failed (e : Entry) : Bool := 400 ≤ e.status

/-- The operation under which an entry counts. -/
def opOf (e : Entry) : Bytes := if e.operation = [] then operation e.method e.path else e.operation

def MinuteTally.bump (b : MinuteTally) (e : Entry) : MinuteTally :=
  ⟨b.count + 1, if failed e then b.errors + 1 else b.errors⟩

def DayTally.bump (d : DayTally) (e : Entry) : DayTally :=
  ⟨d.today + 1, if failed e then d.todayEr + 1 else d.todayEr,
    Function.update d.byOp (opOf e) (d.byOp (opOf e) + 1)⟩

/-- `t.Unix()`. -/
def unix (t : Int) : Int := t / 1000000000

/-- The cell `k % n` of an array, where the remainder has the sign of `k`; `none` is the panic of
    an index that is out of range. -/
def goIndex (n : Nat) (k : Int) : Option (Fin n) :=
  if h : 0 ≤ k.tmod n ∧ (k.tmod n).toNat < n then some ⟨(k.tmod n).toNat, h.2⟩ else none

/-- A call of `recordAt`. -/
structure Timed where
  time : Int
  entry : Entry

def Timed.sec (r : Timed) : Int := unix r.time

/-- `recordAt`, at the clock value `now`. -/
def recordAt (now : Int) (s : Stats) (r : Timed) : Option Stats :=
  if now + 60000000000 < r.time ∨ r.time < now - statsMinutes * 60000000000 then some s
  else
    let min := r.sec.tdiv 60
    let day := r.sec.tdiv 86400
    (goIndex statsMinutes min).bind fun i =>
      (goIndex rateWindow r.sec).bind fun j =>
        some
          { since := if r.time < s.since then r.time else s.since
            minutes := Function.update s.minutes i
              ((s.minutes i).record .zero (fun b r => b.bump r.entry) min r)
            secs := Function.update s.secs j ((s.secs j).record 0 (fun n _ => n + 1) r.sec r)
            day := s.day.record .zero (fun d r => d.bump r.entry) day r
            total := s.total + 1 }

/-- The calls of `seed` for the records of the log. -/
def recordAll (now : Int) (rs : List Timed) : Option Stats :=
  rs.foldlM (recordAt now) (newStats now)

/-! ## The snapshot -/

/-- `MinuteCount`; the minute stands for its start. -/
structure MinuteCount where
  minute : Int
  count : Nat
  errors : Nat
  deriving DecidableEq

structure StatsSnapshot where
  since : Int
  total : Nat
  today : Nat
  todayErrors : Nat
  lastMinute : Nat
  perMinute : List MinuteCount
  byOperation : Bytes → Nat
  windowMinute : Nat

/-- The number of minutes of a snapshot, between 1 and 1440. -/
def clampMinutes (minutes : Int) : Nat :=
  if minutes < 1 then 1 else if statsMinutes < minutes then statsMinutes else minutes.toNat

/-- The cell of a minute, also of a negative one: `((m % n) + n) % n`. -/
def minuteCell (m : Int) : Fin statsMinutes :=
  ⟨((m.tmod statsMinutes + statsMinutes).tmod statsMinutes).toNat, by
    have h := Int.tmod_lt_of_pos (m.tmod statsMinutes + statsMinutes)
      (show (0 : Int) < statsMinutes by decide)
    unfold statsMinutes at h ⊢
    omega⟩

/-- `Snapshot`, at the clock value `now`. -/
def Stats.snapshot (s : Stats) (now : Int) (minutes : Int) : StatsSnapshot :=
  let window := clampMinutes minutes
  let nowSec := unix now
  let nowMin := nowSec.tdiv 60
  let today := s.day.read .zero (nowSec.tdiv 86400)
  { since := s.since
    total := s.total
    today := today.today
    todayErrors := today.todayEr
    lastMinute := ((List.finRange rateWindow).map fun j =>
      if nowSec - rateWindow < (s.secs j).period ∧ (s.secs j).period ≤ nowSec then (s.secs j).tally
      else 0).sum
    perMinute := (List.range window).map fun (i : Nat) =>
      let m := nowMin - window + 1 + i
      let b := (s.minutes (minuteCell m)).read .zero m
      ⟨m, b.count, b.errors⟩
    byOperation := today.byOp
    windowMinute := window }

/-! ## What it should show -/

def Timed.minute (r : Timed) : Int := r.sec / 60

/-- The UTC day. -/
def Timed.day (r : Timed) : Int := r.sec / 86400

/-- The retained window, in which calls count. -/
def Retained (now : Int) (r : Timed) : Prop :=
  now - 86400000000000 ≤ r.time ∧ r.time ≤ now + 60000000000

/-- The seconds of the last minute. -/
def Recent (now sec : Int) : Prop := unix now - 60 < sec ∧ sec ≤ unix now

instance (now sec : Int) : Decidable (Recent now sec) := inferInstanceAs (Decidable (_ ∧ _))

/-- The snapshot counts the records `rs`: those of each of its minutes, of the last 60 seconds and
    of the current day. -/
structure Accurate (now minutes : Int) (rs : List Timed) (snap : StatsSnapshot) : Prop where
  perMinute : snap.perMinute = (List.range (clampMinutes minutes)).map fun (i : Nat) =>
    let m := unix now / 60 - clampMinutes minutes + 1 + i
    ⟨m, (rs.filter fun r => r.minute = m).length,
      (rs.filter fun r => r.minute = m ∧ failed r.entry).length⟩
  lastMinute : snap.lastMinute = (rs.filter fun r => Recent now r.sec).length
  today : snap.today = (rs.filter fun r => r.day = unix now / 86400).length
  todayErrors : snap.todayErrors =
    (rs.filter fun r => r.day = unix now / 86400 ∧ failed r.entry).length
  byOperation : ∀ op, snap.byOperation op =
    (rs.filter fun r => r.day = unix now / 86400 ∧ opOf r.entry = op).length

/-- The minutes of a snapshot. -/
def Shown (now minutes m : Int) : Prop :=
  unix now / 60 - clampMinutes minutes < m ∧ m ≤ unix now / 60

/-- A call that does not panic: it is not before 1970, or it is at midnight. -/
def Indexable (r : Timed) : Prop := 0 ≤ r.sec ∨ 86400 ∣ r.sec

/-- The later record `b` leaves what the snapshot shows of the earlier one `a`: it does not bring
    another period into the same slot. -/
structure Keeps (now minutes : Int) (a b : Timed) : Prop where
  minute : Shown now minutes a.minute → 1440 ∣ b.minute - a.minute → b.minute = a.minute
  sec : Recent now a.sec → 60 ∣ b.sec - a.sec → b.sec = a.sec
  day : a.day = unix now / 86400 → b.day = a.day

/-! ## The cells -/

instance : NeZero statsMinutes := ⟨by decide⟩

instance : NeZero rateWindow := ⟨by decide⟩

/-- The cell of a period. -/
def cellOf (n : Nat) [NeZero n] (k : Int) : Fin n :=
  ⟨(k % n).toNat, by
    have hn : (0 : Int) < n := Int.natCast_pos.2 (NeZero.pos n)
    have hlt := Int.emod_lt_of_pos k hn
    omega⟩

theorem cellOf_eq_iff {n : Nat} [NeZero n] {a b : Int} :
    cellOf n a = cellOf n b ↔ (n : Int) ∣ a - b := by
  have hn : (n : Int) ≠ 0 := Int.natCast_ne_zero.2 (NeZero.ne n)
  have ha := Int.emod_nonneg a hn
  have hb := Int.emod_nonneg b hn
  unfold cellOf
  rw [Fin.mk.injEq, Int.dvd_iff_emod_eq_zero, ← Int.emod_eq_emod_iff_emod_sub_eq_zero]
  omega

theorem goIndex_eq_some {n : Nat} [NeZero n] {k : Int} (h : 0 ≤ k ∨ (n : Int) ∣ k) :
    goIndex n k = some (cellOf n k) := by
  have htmod : k.tmod n = k % n := by
    obtain h | h := h
    · exact Int.tmod_eq_emod_of_nonneg h
    · rw [Int.tmod_eq_zero_of_dvd h, Int.emod_eq_zero_of_dvd h]
  have hn : (0 : Int) < n := Int.natCast_pos.2 (NeZero.pos n)
  have hnonneg := Int.emod_nonneg k hn.ne'
  have hlt := Int.emod_lt_of_pos k hn
  unfold goIndex cellOf
  simp only [htmod]
  rw [dif_pos ⟨hnonneg, by omega⟩]

theorem goIndex_eq_none {n : Nat} {k : Int} (h : ¬(0 ≤ k ∨ (n : Int) ∣ k)) :
    goIndex n k = none := by
  rw [not_or] at h
  refine dif_neg fun hmod => h.2 (Int.dvd_of_tmod_eq_zero ?_)
  have hle : k.tmod n ≤ 0 := by
    rw [← neg_nonneg, ← Int.neg_tmod]
    exact Int.tmod_nonneg _ (by omega)
  omega

theorem minuteCell_eq (m : Int) : minuteCell m = cellOf statsMinutes m := by
  have hlt := Int.lt_tmod_of_pos m (show (0 : Int) < statsMinutes by decide)
  have hcongr : (statsMinutes : Int) ∣ m.tmod statsMinutes + statsMinutes - m := by
    have := Int.mul_tdiv_add_tmod m statsMinutes
    exact ⟨1 - m.tdiv statsMinutes, by rw [mul_sub]; omega⟩
  have hcell := cellOf_eq_iff.2 hcongr
  rw [← hcell]
  unfold minuteCell cellOf
  simp only [Fin.mk.injEq]
  rw [Int.tmod_eq_emod_of_nonneg (by omega)]

/-! ## A refill as a fold -/

/-- `recordAt` for a call of the window that does not panic. -/
def Stats.account (s : Stats) (r : Timed) : Stats where
  since := if r.time < s.since then r.time else s.since
  minutes := Function.update s.minutes (cellOf statsMinutes r.minute)
    ((s.minutes (cellOf statsMinutes r.minute)).record .zero (fun b r => b.bump r.entry) r.minute r)
  secs := Function.update s.secs (cellOf rateWindow r.sec)
    ((s.secs (cellOf rateWindow r.sec)).record 0 (fun n _ => n + 1) r.sec r)
  day := s.day.record .zero (fun d r => d.bump r.entry) r.day r
  total := s.total + 1

theorem recordAt_eq_some {now : Int} {r : Timed} (hr : Retained now r) (h : Indexable r)
    (s : Stats) : recordAt now s r = some (s.account r) := by
  have hmin : r.sec.tdiv 60 = r.minute := by
    obtain h | h := h
    · exact Int.tdiv_eq_ediv_of_nonneg h
    · exact Int.tdiv_eq_ediv_of_dvd (Int.dvd_trans (by decide) h)
  have hday : r.sec.tdiv 86400 = r.day := by
    obtain h | h := h
    · exact Int.tdiv_eq_ediv_of_nonneg h
    · exact Int.tdiv_eq_ediv_of_dvd h
  have hi : goIndex statsMinutes r.minute = some (cellOf statsMinutes r.minute) := by
    refine goIndex_eq_some ?_
    unfold statsMinutes Timed.minute
    obtain h | ⟨q, h⟩ := h
    · exact .inl (by omega)
    · exact .inr ⟨q, by omega⟩
  have hj : goIndex rateWindow r.sec = some (cellOf rateWindow r.sec) := by
    refine goIndex_eq_some ?_
    obtain h | h := h
    · exact .inl h
    · exact .inr (Int.dvd_trans (by decide) h)
  obtain ⟨hlow, hhigh⟩ := hr
  unfold recordAt
  rw [if_neg (by unfold statsMinutes; omega)]
  simp only [hmin, hday, hi, hj, Option.bind_some]
  rfl

theorem recordAt_eq_none {now : Int} {r : Timed} (hr : Retained now r) (h : ¬Indexable r)
    (s : Stats) : recordAt now s r = none := by
  unfold Indexable at h
  rw [not_or] at h
  obtain ⟨hlow, hhigh⟩ := hr
  unfold recordAt
  rw [if_neg (by unfold statsMinutes; omega)]
  by_cases hsec : (60 : Int) ∣ r.sec
  · -- a whole minute, but not of midnight
    have hmin := Int.tdiv_eq_ediv_of_dvd hsec
    have hi : goIndex statsMinutes (r.sec.tdiv 60) = none := by
      refine goIndex_eq_none ?_
      rw [hmin]
      unfold statsMinutes
      omega
    simp only [hi, Option.bind_none]
  · have hj : goIndex rateWindow r.sec = none := by
      refine goIndex_eq_none ?_
      rw [not_or]
      exact ⟨h.1, hsec⟩
    simp only [hj, Option.bind_none, Option.bind_fun_none]

theorem recordAll_eq_some {now : Int} {rs : List Timed} (hrs : ∀ r ∈ rs, Retained now r)
    (h : ∀ r ∈ rs, Indexable r) :
    recordAll now rs = some (rs.foldl Stats.account (newStats now)) := by
  unfold recordAll
  generalize newStats now = s
  induction rs generalizing s with
  | nil => rfl
  | cons r rs ih =>
    rw [forall_mem_cons] at hrs h
    rw [foldlM_cons, recordAt_eq_some hrs.1 h.1]
    exact ih hrs.2 h.2 _

theorem indexable_of_recordAll {now : Int} {rs : List Timed} (hrs : ∀ r ∈ rs, Retained now r)
    {s' : Stats} (hs' : recordAll now rs = some s') : ∀ r ∈ rs, Indexable r := by
  unfold recordAll at hs'
  generalize newStats now = s at hs'
  induction rs generalizing s with
  | nil => exact forall_mem_nil _
  | cons r rs ih =>
    rw [forall_mem_cons] at hrs
    by_cases hr : Indexable r
    · rw [foldlM_cons, recordAt_eq_some hrs.1 hr] at hs'
      exact forall_mem_cons.2 ⟨hr, ih hrs.2 _ hs'⟩
    · rw [foldlM_cons, recordAt_eq_none hrs.1 hr] at hs'
      cases hs'

/-! ## What the slots hold -/

section

variable {now minutes : Int} (rs : List Timed)

theorem foldl_minuteTally :
    rs.foldl (fun b r => b.bump r.entry) MinuteTally.zero =
      ⟨rs.length, (rs.filter fun r => failed r.entry).length⟩ := by
  induction rs using List.reverseRecOn with
  | nil => rfl
  | append_singleton rs r ih =>
    rw [foldl_append, ih, filter_append, length_append, length_append]
    by_cases hf : failed r.entry = true
    · simp [MinuteTally.bump, hf]
    · simp [MinuteTally.bump, hf]

theorem foldl_dayTally :
    rs.foldl (fun d r => d.bump r.entry) DayTally.zero =
      ⟨rs.length, (rs.filter fun r => failed r.entry).length,
        fun op => (rs.filter fun r => opOf r.entry = op).length⟩ := by
  induction rs using List.reverseRecOn with
  | nil => rfl
  | append_singleton rs r ih =>
    have hops (op : Bytes) :
        Function.update (fun op => (rs.filter fun r => opOf r.entry = op).length)
        (opOf r.entry) ((rs.filter fun r' => opOf r'.entry = opOf r.entry).length + 1) op =
          ((rs ++ [r]).filter fun r => opOf r.entry = op).length := by
      rw [filter_append, length_append]
      by_cases hop : opOf r.entry = op
      · subst hop
        simp
      · rw [Function.update_of_ne (Ne.symm hop)]
        simp [hop]
    rw [foldl_append, ih, foldl_cons, foldl_nil]
    unfold DayTally.bump
    rw [funext hops]
    by_cases hf : failed r.entry = true
    · simp [hf]
    · simp [hf]

theorem minutes_foldl (s : Stats) :
    (rs.foldl Stats.account s).minutes =
      rs.foldl (fun b r => Function.update b (cellOf statsMinutes r.minute)
        ((b (cellOf statsMinutes r.minute)).record .zero (fun b r => b.bump r.entry) r.minute r))
        s.minutes := (foldl_hom Stats.minutes fun _ _ => rfl).symm

theorem secs_foldl (s : Stats) :
    (rs.foldl Stats.account s).secs =
      rs.foldl (fun b r => Function.update b (cellOf rateWindow r.sec)
        ((b (cellOf rateWindow r.sec)).record 0 (fun n _ => n + 1) r.sec r)) s.secs :=
  (foldl_hom Stats.secs fun _ _ => rfl).symm

theorem day_foldl (s : Stats) :
    (rs.foldl Stats.account s).day =
      rs.foldl (fun d r => d.record .zero (fun d r => d.bump r.entry) r.day r) s.day :=
  (foldl_hom Stats.day fun _ _ => rfl).symm

/-- What the slot of a minute counts. -/
theorem read_minutes (m : Int) :
    ((rs.foldl Stats.account (newStats now)).minutes (cellOf statsMinutes m)).read .zero m =
      let kept := survivors Timed.minute (cellOf statsMinutes) rs m
      ⟨kept.length, (kept.filter fun r => failed r.entry).length⟩ := by
  rw [minutes_foldl]
  exact (Slot.read_bank MinuteTally.zero _ Timed.minute (cellOf statsMinutes) _ (fun _ => rfl)
    rs m).trans (foldl_minuteTally _)

theorem read_day (d : Int) :
    (rs.foldl Stats.account (newStats now)).day.read .zero d =
      let kept := survivors Timed.day (fun _ => ()) rs d
      ⟨kept.length, (kept.filter fun r => failed r.entry).length,
        fun op => (kept.filter fun r => opOf r.entry = op).length⟩ := by
  rw [day_foldl, Slot.read_foldl DayTally.zero _ Timed.day _ rfl, foldl_dayTally]
  simp only [survivors, decide_true, filter_true]

/-! ### The seconds -/

/-- The second of the last minute that has the cell `j`. -/
def recentSecond (now : Int) (j : Fin rateWindow) : Int := unix now - (unix now - j) % 60

theorem recent_iff {now sec : Int} :
    Recent now sec ↔ sec = recentSecond now (cellOf rateWindow sec) := by
  unfold Recent recentSecond cellOf rateWindow
  dsimp only
  omega

theorem recent_recentSecond (now : Int) (j : Fin rateWindow) : Recent now (recentSecond now j) := by
  unfold Recent recentSecond
  omega

theorem cellOf_recentSecond (now : Int) (j : Fin rateWindow) :
    cellOf rateWindow (recentSecond now j) = j := by
  have hj : j.val < 60 := j.isLt
  refine Fin.ext ?_
  unfold recentSecond cellOf rateWindow
  dsimp only
  omega

/-- What a slot adds to the rate: the count of the only second of the last minute that it can
    hold. -/
theorem secs_term (j : Fin rateWindow) :
    (if unix now - rateWindow < ((rs.foldl Stats.account (newStats now)).secs j).period ∧
        ((rs.foldl Stats.account (newStats now)).secs j).period ≤ unix now then
      ((rs.foldl Stats.account (newStats now)).secs j).tally else 0) =
      (survivors Timed.sec (cellOf rateWindow) rs (recentSecond now j)).length := by
  have hslot := (congrFun (secs_foldl rs (newStats now)) j).trans
    (foldl_bank 0 (fun n _ => n + 1) Timed.sec (cellOf rateWindow) _ rs j)
  have hread : (survivors Timed.sec (cellOf rateWindow) rs (recentSecond now j)).length =
      Slot.read 0 ((rs.filter fun r => cellOf rateWindow r.sec = j).foldl
        (fun s r => s.record 0 (fun n _ => n + 1) r.sec r) ⟨0, 0⟩) (recentSecond now j) := by
    rw [Slot.read_foldl 0 _ Timed.sec ⟨0, 0⟩ rfl, foldl_add_const, one_mul, zero_add]
    unfold survivors
    rw [cellOf_recentSecond]
  rw [hslot, hread]
  change (if Recent now (Slot.period ((rs.filter fun r => cellOf rateWindow r.sec = j).foldl
    (fun s r => s.record 0 (fun n _ => n + 1) r.sec r) ⟨0, 0⟩)) then _ else 0) = _
  obtain hnil | ⟨r, hr, hperiod⟩ := Slot.period_foldl 0 (fun n _ => n + 1) Timed.sec ⟨0, 0⟩
    (rs.filter fun r => cellOf rateWindow r.sec = j)
  · rw [hnil]
    exact (ite_self _).trans (ite_self _).symm
  · have hcell : cellOf rateWindow r.sec = j := of_decide_eq_true (mem_filter.1 hr).2
    refine if_congr ?_ rfl rfl
    rw [hperiod, recent_iff, hcell]

/-- Every record of the last minute has the recent second of its cell. -/
theorem length_recent :
    (rs.filter fun r => Recent now r.sec).length =
      ∑ j, (rs.filter fun r => r.sec = recentSecond now j).length := by
  have hone (r : Timed) : (∑ j, if r.sec = recentSecond now j then 1 else 0) =
      if Recent now r.sec then 1 else 0 := by
    have hj (j : Fin rateWindow) : r.sec = recentSecond now j ↔
        Recent now r.sec ∧ cellOf rateWindow r.sec = j := by
      constructor
      · intro h
        rw [h]
        exact ⟨recent_recentSecond now j, cellOf_recentSecond now j⟩
      · rintro ⟨h, rfl⟩
        exact recent_iff.1 h
    simp only [hj, ite_and]
    split_ifs <;> simp
  simp only [← countP_eq_length_filter]
  induction rs with
  | nil => simp
  | cons r rs ih =>
    simp only [countP_cons, decide_eq_true_eq, Finset.sum_add_distrib, hone, ih]

/-! ## The counts -/

theorem unix_nonneg (hnow : 0 ≤ now) : 0 ≤ unix now := by
  unfold unix
  omega

/-- The minutes are counted exactly if each slot that is read has kept all its records. -/
theorem perMinute_iff (hnow : 0 ≤ now) :
    ((rs.foldl Stats.account (newStats now)).snapshot now minutes).perMinute =
        (List.range (clampMinutes minutes)).map (fun (i : Nat) =>
          let m := unix now / 60 - clampMinutes minutes + 1 + i
          ⟨m, (rs.filter fun r => r.minute = m).length,
            (rs.filter fun r => r.minute = m ∧ failed r.entry).length⟩) ↔
      ∀ m, Shown now minutes m →
        survivors Timed.minute (cellOf statsMinutes) rs m = rs.filter fun r => r.minute = m := by
  unfold Stats.snapshot
  dsimp only
  rw [Int.tdiv_eq_ediv_of_nonneg (unix_nonneg hnow), map_inj_left]
  simp only [minuteCell_eq, read_minutes, MinuteCount.mk.injEq, true_and, mem_range]
  constructor
  · rintro h m ⟨hlow, hhigh⟩
    obtain ⟨i, hi⟩ : ∃ i : Nat, m = unix now / 60 - clampMinutes minutes + 1 + i :=
      ⟨(m - (unix now / 60 - clampMinutes minutes + 1)).toNat, by omega⟩
    have hcount := (h i (by omega)).1
    rw [← hi] at hcount
    exact (survivors_eq_iff_length rs m).1 hcount
  · intro h i hi
    rw [h _ (show Shown now minutes _ from ⟨by omega, by omega⟩), filter_filter]
    refine ⟨rfl, congrArg List.length (filter_congr fun r _ => ?_)⟩
    simp [and_comm]

theorem lastMinute_iff :
    ((rs.foldl Stats.account (newStats now)).snapshot now minutes).lastMinute =
        (rs.filter fun r => Recent now r.sec).length ↔
      ∀ sec, Recent now sec →
        survivors Timed.sec (cellOf rateWindow) rs sec = rs.filter fun r => r.sec = sec := by
  have hsum : ((rs.foldl Stats.account (newStats now)).snapshot now minutes).lastMinute =
      ∑ j, (survivors Timed.sec (cellOf rateWindow) rs (recentSecond now j)).length := by
    unfold Stats.snapshot
    simp only [secs_term]
    exact (Fin.sum_univ_def _).symm
  rw [hsum, length_recent, Finset.sum_eq_sum_iff_of_le
    fun j _ => (survivors_sublist rs (recentSecond now j)).length_le]
  constructor
  · intro h sec hsec
    rw [recent_iff.1 hsec]
    exact (survivors_eq_iff_length rs _).1 (h _ (Finset.mem_univ _))
  · exact fun h j _ => congrArg List.length (h _ (recent_recentSecond now j))

theorem today_iff (hnow : 0 ≤ now) :
    ((rs.foldl Stats.account (newStats now)).snapshot now minutes).today =
        (rs.filter fun r => r.day = unix now / 86400).length ↔
      survivors Timed.day (fun _ => ()) rs (unix now / 86400) =
        rs.filter fun r => r.day = unix now / 86400 := by
  unfold Stats.snapshot
  dsimp only
  rw [Int.tdiv_eq_ediv_of_nonneg (unix_nonneg hnow), read_day]
  exact survivors_eq_iff_length rs _

/-- The rest of the day's counters follows. -/
theorem day_eq (hnow : 0 ≤ now) (h : survivors Timed.day (fun _ => ()) rs (unix now / 86400) =
    rs.filter fun r => r.day = unix now / 86400) :
    ((rs.foldl Stats.account (newStats now)).snapshot now minutes).todayErrors =
        (rs.filter fun r => r.day = unix now / 86400 ∧ failed r.entry).length ∧
      ∀ op, ((rs.foldl Stats.account (newStats now)).snapshot now minutes).byOperation op =
        (rs.filter fun r => r.day = unix now / 86400 ∧ opOf r.entry = op).length := by
  unfold Stats.snapshot
  dsimp only
  rw [Int.tdiv_eq_ediv_of_nonneg (unix_nonneg hnow), read_day]
  dsimp only
  rw [h]
  refine ⟨?_, fun op => ?_⟩
  · rw [filter_filter]
    exact congrArg List.length (filter_congr fun r _ => by simp [and_comm])
  · rw [filter_filter]
    exact congrArg List.length (filter_congr fun r _ => by simp [and_comm])

/-- No pair of records disturbs a period that is shown exactly if every such period keeps all
    its records. -/
theorem pairwise_keeps_iff :
    rs.Pairwise (Keeps now minutes) ↔
      (∀ m, Shown now minutes m →
        survivors Timed.minute (cellOf statsMinutes) rs m = rs.filter fun r => r.minute = m) ∧
      (∀ sec, Recent now sec →
        survivors Timed.sec (cellOf rateWindow) rs sec = rs.filter fun r => r.sec = sec) ∧
      survivors Timed.day (fun _ => ()) rs (unix now / 86400) =
        rs.filter fun r => r.day = unix now / 86400 := by
  simp only [survivors_eq_iff, cellOf_eq_iff, pairwise_iff_forall_sublist]
  constructor
  · intro h
    refine ⟨fun m hm {a b} hab ha hb => ?_, fun sec hsec {a b} hab ha hb => ?_,
      fun {a b} hab ha _ => ?_⟩
    · subst ha
      exact (h hab).minute hm hb
    · subst ha
      exact (h hab).sec hsec hb
    · exact ((h hab).day ha).trans ha
  · rintro ⟨hminute, hsec, hday⟩ a b hab
    exact ⟨fun ha hb => hminute _ ha hab rfl hb, fun ha hb => hsec _ ha hab rfl hb,
      fun ha => (hday hab ha trivial).trans ha.symm⟩

variable {rs}

/-- From 1970 on, a refill with records of the retained window is followed by a snapshot that
    counts them all exactly if no call panics and no record is followed by one that starts its slot
    over. -/
theorem accurate_iff (hnow : 0 ≤ now) (hrs : ∀ r ∈ rs, Retained now r) (minutes : Int) :
    (∃ s, recordAll now rs = some s ∧ Accurate now minutes rs (s.snapshot now minutes)) ↔
      (∀ r ∈ rs, Indexable r) ∧ rs.Pairwise (Keeps now minutes) := by
  rw [pairwise_keeps_iff]
  constructor
  · rintro ⟨s, hs, hacc⟩
    have hindex := indexable_of_recordAll hrs hs
    rw [recordAll_eq_some hrs hindex] at hs
    obtain rfl := Option.some.inj hs
    exact ⟨hindex, (perMinute_iff rs hnow).1 hacc.perMinute, (lastMinute_iff rs).1 hacc.lastMinute,
      (today_iff rs hnow).1 hacc.today⟩
  · rintro ⟨hindex, hminute, hsec, hday⟩
    obtain ⟨herrors, hops⟩ := @day_eq now minutes rs hnow hday
    exact ⟨_, recordAll_eq_some hrs hindex, (perMinute_iff rs hnow).2 hminute,
      (lastMinute_iff rs).2 hsec, (today_iff rs hnow).2 hday, herrors, hops⟩

end

/-! ### A log around midnight -/

/-- A record at a second. -/
def atSecond (sec : Int) : Timed := ⟨sec * 1000000000, .zero⟩

/-- A minute after midnight: two requests of the new day, in their order. -/
theorem accurate_inOrder : ∃ s,
    recordAll 86460000000000 [atSecond 86405, atSecond 86410] = some s ∧
      Accurate 86460000000000 60 [atSecond 86405, atSecond 86410]
        (s.snapshot 86460000000000 60) := by
  refine (accurate_iff (by decide) ?_ 60).2 ⟨?_, ?_⟩
  · simp [Retained, atSecond]
  · simp [Indexable, atSecond, Timed.sec, unix]
  · rw [pairwise_pair]
    exact ⟨fun _ _ => by decide, fun _ h => absurd h (by decide), fun _ => by decide⟩

/-- A minute after midnight: a request of the new day, then one that began a second before
    midnight. The snapshot counts no request today. -/
theorem day_forgotten : ∃ s,
    recordAll 86460000000000 [atSecond 86410, atSecond 86399] = some s ∧
      (s.snapshot 86460000000000 60).today = 0 ∧
      ¬Accurate 86460000000000 60 [atSecond 86410, atSecond 86399]
        (s.snapshot 86460000000000 60) := by
  refine ⟨_, recordAll_eq_some ?_ ?_, ?_, fun h => ?_⟩
  · simp [Retained, atSecond]
  · simp [Indexable, atSecond, Timed.sec, unix]
  · decide +kernel
  · exact absurd h.today (by decide +kernel)

end Tuck.Audit
