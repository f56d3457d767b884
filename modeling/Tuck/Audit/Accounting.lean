/-
  No record is lost on its way to a sink without being counted.

  One runner keeps a line of records: those its sink was given, the one in hand and those in
  the queue. Its own steps leave the line and the count as they are, `enqueue` adds the new
  record to one of them (`Runner.Ordered`, `Runner.total`). Over the system, a runner that can
  still be visited is in the table and not closed (`Inv.opened`), because a runner is closed
  only after it was removed, and it is removed only while no `Log` call reads the table. So
  the branch of `enqueue` that counts nothing is never taken.
-/
import Tuck.Audit.Fanout

namespace Tuck.Audit

open Tuck.Base List

/-! ## Retries merged -/

/-- The list with consecutive repetitions merged. -/
def mergeRetries : List Nat → List Nat
  | [] => []
  | [a] => [a]
  | a :: b :: l => if a = b then mergeRetries (b :: l) else a :: mergeRetries (b :: l)

variable {l : List Nat} {n : Nat}

theorem mem_mergeRetries : n ∈ mergeRetries l ↔ n ∈ l := by
  fun_induction mergeRetries l with
  | case1 => rfl
  | case2 a => rfl
  | case3 b l ih =>
    rw [ih]
    simp only [mem_cons, or_self_left]
  | case4 a b l hne ih => simp only [mem_cons, ih]

theorem mergeRetries_concat (l : List Nat) (n : Nat) :
    mergeRetries (l ++ [n]) =
      if l.getLast? = some n then mergeRetries l else mergeRetries l ++ [n] := by
  fun_induction mergeRetries l with
  | case1 => rfl
  | case2 a => by_cases h : a = n <;> simp [mergeRetries, h]
  | case3 b l ih =>
    rw [cons_append, cons_append, mergeRetries, if_pos rfl, getLast?_cons_cons]
    exact ih
  | case4 a b l hne ih =>
    rw [cons_append, cons_append, mergeRetries, if_neg hne, getLast?_cons_cons, ← cons_append, ih]
    split_ifs <;> rfl

/-! ## One runner -/

namespace Runner

variable {r : Runner} {lim n : Nat}

/-- The record in hand that the sink has not been given yet. -/
def ahead (r : Runner) : List Nat :=
  match r.worker with
  | .taken n => [n]
  | .trying n a _ => if a = 1 then [n] else []
  | _ => []

/-- All records that reached the runner and were not dropped, in order. -/
def line (r : Runner) : List Nat := mergeRetries r.handed ++ (r.ahead ++ r.queue)

/-- After the first attempt the record in hand is the last one given to the sink. -/
def Current (r : Runner) : Prop :=
  match r.worker with
  | .trying n a _ => a ≠ 0 ∧ (a ≠ 1 → r.handed.getLast? = some n)
  | .waiting n a _ => a ≠ 0 ∧ r.handed.getLast? = some n
  | .recording n _ => r.handed.getLast? = some n
  | _ => True

/-- The line increases and stays below `lim`, and every record that left the queue is sent,
    failed or in hand. -/
structure Ordered (lim : Nat) (r : Runner) : Prop where
  increasing : r.line.Pairwise (· < ·)
  below : ∀ n ∈ r.line, n < lim
  current : r.Current
  tallied : (mergeRetries r.handed).length + r.ahead.length = r.sent + r.errors + r.inDelivery

/-- A worker that has finished left nothing behind, and nothing can come. -/
def Settled (r : Runner) : Prop := r.worker = .finished → r.queue = [] ∧ r.closed = true

/-- The records counted, queued or in hand. -/
def total (r : Runner) : Nat :=
  r.sent + r.errors + r.dropped + r.skipped + r.queue.length + r.inDelivery

theorem Ordered.mono (h : r.Ordered lim) {lim' : Nat} (hle : lim ≤ lim') : r.Ordered lim' :=
  ⟨h.increasing, fun n hn => (h.below n hn).trans_le hle, h.current, h.tallied⟩

theorem make_ordered (attempts delay : Int) (paused : Bool) :
    (make attempts delay paused).Ordered lim :=
  ⟨List.Pairwise.nil, fun _ h => absurd h not_mem_nil, trivial, rfl⟩

/-- The first attempt at a record adds it to what the sink was given. -/
theorem getLast?_ne (h : r.Ordered lim) {n m : Nat} (hw : r.worker = .trying n 1 m) :
    r.handed.getLast? ≠ some n := by
  intro hlast
  have hmem : n ∈ mergeRetries r.handed := mem_mergeRetries.mpr (mem_of_getLast? hlast)
  have hahead : n ∈ r.ahead ++ r.queue := by
    refine mem_append_left _ ?_
    simp only [ahead, hw, if_true, mem_singleton]
  exact absurd (pairwise_append.mp h.increasing |>.2.2 n hmem n hahead) (lt_irrefl n)

/-- Between two attempts the sink was given the record in hand last. -/
theorem Ordered.waiting (h : r.Ordered lim) {n a m : Nat} (hw : r.worker = .waiting n a m) :
    a ≠ 0 ∧ r.handed.getLast? = some n := by
  have hcurrent := h.current
  rwa [Current, hw] at hcurrent

/-- A new record goes to the end of the line, or is dropped. -/
theorem enqueue_ordered (h : r.Ordered n) : (r.enqueue n).Ordered (n + 1) := by
  unfold enqueue
  split_ifs
  · exact h.mono (Nat.le_succ n)
  · have hline : ({ r with queue := r.queue ++ [n] } : Runner).line = r.line ++ [n] := by
      simp only [line, append_assoc]
      rfl
    refine ⟨?_, ?_, h.current, h.tallied⟩
    · rw [hline, pairwise_append]
      refine ⟨h.increasing, pairwise_singleton _ _, fun a ha b hb => ?_⟩
      rw [mem_singleton.mp hb]
      exact h.below a ha
    · rw [hline]
      intro a ha
      rcases mem_append.mp ha with ha | ha
      · exact (h.below a ha).trans (Nat.lt_succ_self n)
      · rw [mem_singleton.mp ha]
        exact Nat.lt_succ_self n
  · exact ⟨h.increasing, (h.mono (Nat.le_succ n)).below, h.current, h.tallied⟩

theorem enqueue_total (h : r.closed = false) : (r.enqueue n).total = r.total + 1 := by
  unfold enqueue
  rw [if_neg (by rw [h]; decide)]
  split_ifs
  · simp only [total, inDelivery, length_append, length_singleton]
    omega
  · simp only [total, inDelivery]
    omega

theorem enqueue_fields (n : Nat) (x : Runner) :
    (x.enqueue n).since = x.since ∧ (x.enqueue n).till = x.till ∧
      (x.enqueue n).closed = x.closed ∧ (x.enqueue n).worker = x.worker := by
  unfold enqueue
  split_ifs <;> exact ⟨rfl, rfl, rfl, rfl⟩

/-- What the steps of a runner's own keep, whatever else they change. -/
structure Keeps (x y : Runner) : Prop where
  total : y.total = x.total
  since : y.since = x.since
  till : y.till = x.till
  closed : y.closed = x.closed
  ordered : ∀ lim, x.Ordered lim → y.Ordered lim
  settled : x.Settled → y.Settled
  finished : x.worker = .finished → y.worker = .finished

theorem Keeps.refl (x : Runner) : x.Keeps x :=
  ⟨rfl, rfl, rfl, rfl, fun _ h => h, fun h => h, fun h => h⟩

theorem keeps_flags (x : Runner) (paused stop : Bool) :
    x.Keeps { x with paused := paused, stop := stop } :=
  ⟨rfl, rfl, rfl, rfl, fun _ h => { h with }, fun h => h, fun h => h⟩

/-- A worker's step that leaves the count, the line and the fields of other calls as they are. -/
theorem Keeps.of_line {x y : Runner} (htotal : y.total = x.total)
    (hfields : y.since = x.since ∧ y.till = x.till ∧ y.closed = x.closed ∧
      y.dropped = x.dropped ∧ y.skipped = x.skipped)
    (hline : ∀ lim, x.Ordered lim → y.line = x.line ∧ y.Current) (hx : x.worker ≠ .finished)
    (hy : y.Settled) : x.Keeps y where
  total := htotal
  since := hfields.1
  till := hfields.2.1
  closed := hfields.2.2.1
  ordered := fun lim h => by
    obtain ⟨hline, hcurrent⟩ := hline lim h
    refine ⟨hline ▸ h.increasing, hline ▸ h.below, hcurrent, ?_⟩
    have htallied := h.tallied
    have hlength := congrArg length hline
    simp only [line, length_append] at hlength
    simp only [Runner.total, hfields] at htotal
    omega
  settled := fun _ => hy
  finished := fun hf => absurd hf hx

/-- An attempt: the first one moves its record from the line ahead to what the sink was given, a
    later one repeats what the sink was given last. -/
theorem keeps_attempt {x y : Runner} {n a m : Nat} (hw : x.worker = .trying n a m)
    (hhanded : y.handed = x.handed ++ [n]) (hqueue : y.queue = x.queue) (hahead : y.ahead = [])
    (hcurrent : a ≠ 0 → y.handed.getLast? = some n → y.Current)
    (htotal : y.total = x.sent + x.errors + x.dropped + x.skipped + x.queue.length + 1)
    (hfields : y.since = x.since ∧ y.till = x.till ∧ y.closed = x.closed ∧
      y.dropped = x.dropped ∧ y.skipped = x.skipped) (hy : y.Settled) : x.Keeps y := by
  refine .of_line (htotal.trans ?_) hfields (fun lim h => ?_) (by simp [hw]) hy
  · rw [total, inDelivery, hw]
  have hold := h.current
  rw [Current, hw] at hold
  dsimp only at hold
  have hmerged : mergeRetries (x.handed ++ [n]) = mergeRetries x.handed ++ x.ahead := by
    by_cases ha : a = 1
    · subst ha
      rw [mergeRetries_concat, if_neg (getLast?_ne h hw)]
      simp only [ahead, hw, if_true]
    · rw [mergeRetries_concat, if_pos (hold.2 ha)]
      simp only [ahead, hw, if_neg ha, append_nil]
  refine ⟨?_, hcurrent hold.1 (by rw [hhanded, List.getLast?_concat])⟩
  simp only [line, hhanded, hqueue, hahead, hmerged, nil_append, append_assoc]

theorem keeps_work (x : Runner) (res : SendResult) : x.Keeps (x.work res) := by
  unfold work
  cases hw : x.worker with
  | idle =>
    cases hq : x.queue with
    | nil =>
      dsimp only
      split_ifs with hclosed
      · refine .of_line ?_ ⟨rfl, rfl, rfl, rfl, rfl⟩ (fun lim h => ⟨?_, trivial⟩) (by simp [hw])
          fun _ => ⟨rfl, hclosed⟩
        · simp only [total, inDelivery, hw, hq]
        · simp only [line, ahead, hw, hq]
      · exact .refl x
    | cons n queue =>
      refine .of_line ?_ ⟨rfl, rfl, rfl, rfl, rfl⟩ (fun lim h => ⟨?_, trivial⟩) (by simp [hw]) nofun
      · simp only [total, inDelivery, hw, hq, length_cons]
        omega
      · simp only [line, ahead, hw, hq, nil_append, cons_append]
  | taken n =>
    refine .of_line ?_ ⟨rfl, rfl, rfl, rfl, rfl⟩
      (fun lim h => ⟨?_, Nat.one_ne_zero, fun hne => absurd rfl hne⟩) (by simp [hw]) nofun
    · simp only [total, inDelivery, hw]
    · simp only [line, ahead, hw, if_true]
  | trying n a m =>
    have hlast (ok : Bool) :
        x.Keeps { x with handed := x.handed ++ [n], worker := .recording n ok } :=
      keeps_attempt hw rfl rfl rfl (fun _ h => h) rfl ⟨rfl, rfl, rfl, rfl, rfl⟩ nofun
    cases res with
    | ok => exact hlast true
    | permanent => exact hlast false
    | transient =>
      dsimp only
      split_ifs
      · exact hlast false
      · exact keeps_attempt hw rfl rfl rfl (fun ha h => ⟨ha, h⟩) rfl ⟨rfl, rfl, rfl, rfl, rfl⟩ nofun
  | waiting n a m =>
    refine .of_line ?_ ⟨rfl, rfl, rfl, rfl, rfl⟩ (fun lim h => ?_) (by simp [hw]) nofun
    · simp only [total, inDelivery, hw]
    · obtain ⟨ha, hlast⟩ := h.waiting hw
      exact ⟨by simp only [line, ahead, hw, if_neg (Nat.succ_ne_succ_iff.2 ha)],
        Nat.succ_ne_zero a, fun _ => hlast⟩
  | recording n ok =>
    cases ok <;> refine .of_line ?_ ⟨rfl, rfl, rfl, rfl, rfl⟩ (fun lim h => ⟨?_, trivial⟩)
      (by simp [hw]) nofun
    all_goals simp only [total, inDelivery, line, ahead, hw]
    all_goals omega
  | finished => exact .refl x

theorem keeps_abort (x : Runner) : x.Keeps x.abort := by
  unfold abort
  split
  · rename_i n a m hw
    split_ifs
    · refine .of_line ?_ ⟨rfl, rfl, rfl, rfl, rfl⟩ (fun lim h => ⟨?_, (h.waiting hw).2⟩)
        (by simp [hw]) nofun
      · simp only [total, inDelivery, hw]
      · simp only [line, ahead, hw]
    · exact .refl x
  · exact .refl x

end Runner

/-! ## A runner and the places it is named at -/

/-- How often a runner is named: in the table, by a call that registers it, by a call that
    closes it, by such a call that has not marked it as closed, and by the `Log` call that
    has still to visit it. -/
@[ext]
structure Seat where
  table : Nat
  pending : Nat
  leaving : Nat
  untouched : Nat
  owing : Nat

/-- What holds of a runner at its seat, after so many fan-outs. -/
structure Seat.Fits (q : Seat) (fanned : Nat) (x : Runner) : Prop where
  placed : q.table + q.pending + q.leaving ≤ 1
  touched : q.untouched ≤ q.leaving
  opened : q.table + q.pending + q.untouched ≠ 0 → x.closed = false
  registered : q.table ≠ 0 ↔ x.since ≠ none ∧ x.till = none
  fresh : x.since = none → x.total = 0 ∧ x.till = none
  waiting : q.pending ≠ 0 → x.since = none
  visiting : q.owing ≤ q.table
  account : ∀ a, x.since = some a → a + x.total + q.owing = x.till.getD fanned
  ordered : x.Ordered (fanned - q.owing)
  settled : x.Settled

namespace Seat.Fits

variable {q : Seat} {fanned n : Nat} {x y : Runner}

theorem of_keeps (h : q.Fits fanned x) (hk : x.Keeps y) : q.Fits fanned y where
  placed := h.placed
  touched := h.touched
  opened := fun hq => hk.closed.trans (h.opened hq)
  registered := by
    rw [hk.since, hk.till]
    exact h.registered
  fresh := by
    rw [hk.since, hk.total, hk.till]
    exact h.fresh
  waiting := fun hq => hk.since.trans (h.waiting hq)
  visiting := h.visiting
  account := by
    rw [hk.since, hk.total, hk.till]
    exact h.account
  ordered := hk.ordered _ h.ordered
  settled := hk.settled h.settled

/-- A fan-out begins: the runners in the table are to be visited. -/
theorem fanOut (h : q.Fits fanned x) (howing : q.owing = 0) :
    ({ q with owing := q.table } : Seat).Fits (fanned + 1) x := by
  obtain ⟨hplaced, htouched, hopened, hregistered, hfresh, hwaiting, -, haccount, hordered,
    hsettled⟩ := h
  have hle : fanned - q.owing ≤ fanned + 1 - q.table := by omega
  refine ⟨hplaced, htouched, hopened, hregistered, hfresh, hwaiting, le_refl _, fun a ha => ?_,
    hordered.mono hle, hsettled⟩
  have haccount := haccount a ha
  -- a runner is in the table exactly as long as it has not been removed
  by_cases htable : q.table = 0
  · have htill : x.till ≠ none := by
      intro hnone
      refine hregistered.mpr ⟨?_, hnone⟩ htable
      rw [ha]
      exact Option.some_ne_none a
    obtain ⟨till, htill⟩ := Option.ne_none_iff_exists'.mp htill
    rw [htill, howing] at haccount
    rw [htill, htable]
    exact haccount
  · rw [(hregistered.mp htable).2, Option.getD_none] at haccount ⊢
    show a + x.total + q.table = fanned + 1
    omega

/-- The `Log` call visits the runner, which has one record more afterwards. -/
theorem visited (h : q.Fits (n + 1) x) (howing : q.owing ≠ 0) (htotal : y.total = x.total + 1)
    (hfields : y.since = x.since ∧ y.till = x.till ∧ y.closed = x.closed)
    (hordered : x.Ordered n → y.Ordered (n + 1)) (hsettled : y.Settled) :
    ({ q with owing := q.owing - 1 } : Seat).Fits (n + 1) y := by
  obtain ⟨hsince, htill, hclosed⟩ := hfields
  have hvisiting := h.visiting
  have hplaced := h.placed
  have hone : q.owing = 1 := by omega
  have htable : q.table ≠ 0 := by omega
  refine ⟨h.placed, h.touched, fun hq => hclosed.trans (h.opened hq), ?_, fun hnone => ?_,
    fun hq => hsince.trans (h.waiting hq), (Nat.sub_le _ _).trans hvisiting, fun a ha => ?_, ?_,
    hsettled⟩
  · rw [hsince, htill]
    exact h.registered
  · exact absurd (hsince.symm.trans hnone) (h.registered.mp htable).1
  · have haccount := h.account a (hsince.symm.trans ha)
    rw [← htill] at haccount
    rw [← haccount, htotal]
    show a + (x.total + 1) + (q.owing - 1) = a + x.total + q.owing
    omega
  · have hold := h.ordered
    rw [hone] at hold
    show y.Ordered (n + 1 - (q.owing - 1))
    rw [hone]
    exact hordered hold

theorem make (attempts delay : Int) (paused : Bool) :
    (⟨0, 1, 0, 0, 0⟩ : Seat).Fits fanned (.make attempts delay paused) where
  placed := le_refl 1
  touched := le_refl 0
  opened := fun _ => rfl
  registered := ⟨fun hq => absurd rfl hq, fun hs => absurd rfl hs.1⟩
  fresh := fun _ => ⟨rfl, rfl⟩
  waiting := fun _ => rfl
  visiting := le_refl 0
  account := fun _ ha => nomatch ha
  ordered := Runner.make_ordered attempts delay paused
  settled := fun hf => nomatch hf

/-- A pending runner enters the table. -/
theorem install (h : q.Fits fanned x) (hq : q.pending ≠ 0) :
    (⟨1, 0, 0, 0, 0⟩ : Seat).Fits fanned { x with since := some fanned } := by
  have hsince := h.waiting hq
  have hvisiting := h.visiting
  have hplaced := h.placed
  have howing : q.owing = 0 := by omega
  obtain ⟨htotal, htill⟩ := h.fresh hsince
  have hordered := h.ordered
  rw [howing] at hordered
  refine ⟨le_refl 1, le_refl 0, fun _ => h.opened (by omega), ?_, fun hnone => (nomatch hnone),
    fun hq => absurd rfl hq, Nat.zero_le 1, fun a ha => ?_, { hordered with }, h.settled⟩
  · exact ⟨fun _ => ⟨Option.some_ne_none _, htill⟩, fun _ => Nat.one_ne_zero⟩
  · cases ha
    show fanned + x.total + 0 = x.till.getD fanned
    rw [htotal, htill]
    rfl

/-- A runner leaves the table, and a call begins to close it. -/
theorem retire (h : q.Fits fanned x) (hq : q.table ≠ 0) (howing : q.owing = 0) :
    (⟨0, 0, 1, 1, 0⟩ : Seat).Fits fanned { x with till := some fanned } := by
  obtain ⟨hsince, htill⟩ := h.registered.mp hq
  have hordered := h.ordered
  rw [howing] at hordered
  refine ⟨le_refl 1, le_refl 1, fun _ => h.opened (by omega), ?_, fun hnone => absurd hnone hsince,
    fun hq => absurd rfl hq, le_refl 0, fun a ha => ?_, { hordered with }, h.settled⟩
  · exact ⟨fun hq => absurd rfl hq, fun hs => nomatch hs.2⟩
  · have haccount := h.account a ha
    rw [htill, howing] at haccount
    exact haccount

/-- The runner is marked as closed. -/
theorem close (h : q.Fits fanned x) (hq : q.untouched ≠ 0) :
    ({ q with untouched := 0 } : Seat).Fits fanned { x with closed := true } := by
  have hplaced := h.placed
  have htouched := h.touched
  refine ⟨h.placed, Nat.zero_le _, fun hne => absurd hne ?_, h.registered, h.fresh, h.waiting,
    h.visiting, h.account, { h.ordered with }, fun hf => ⟨(h.settled hf).1, rfl⟩⟩
  show ¬ (q.table + q.pending + 0 ≠ 0)
  omega

/-- The call that closed the runner is done with it. -/
theorem leave (h : q.Fits fanned x) :
    ({ q with leaving := 0, untouched := 0 } : Seat).Fits fanned x := by
  have hplaced := h.placed
  refine ⟨?_, le_refl 0, fun hne => h.opened ?_, h.registered, h.fresh, h.waiting, h.visiting,
    h.account, h.ordered, h.settled⟩
  · show q.table + q.pending + 0 ≤ 1
    omega
  · have hne : q.table + q.pending + 0 ≠ 0 := hne
    omega

end Seat.Fits

/-! ## The system -/

/-- The runners a call that closes has still to mark as closed. -/
def Closer.untouched : Closer → List Rid
  | ⟨todo, .start⟩ => todo
  | ⟨todo, .draining⟩ => todo.tail
  | ⟨todo, .aborting⟩ => todo.tail

namespace Sys

/-- The runners that the `Log` call in its loop has still to visit. -/
def owing (s : Sys) : List Rid :=
  match s.logger with
  | some (.fan _ rest) => rest
  | some (.enqueue _ r rest) => r :: rest
  | _ => []

/-- The record that is sealed and has not begun its fan-out. -/
def unfanned (s : Sys) : Nat :=
  match s.logger with
  | some (.sealed _) => 1
  | _ => 0

/-- The place of the record that is being logged. -/
def logging (s : Sys) : Option Nat :=
  match s.logger with
  | some (.sealed n) => some n
  | some (.fan n _) => some n
  | some (.enqueue n _ _) => some n
  | none => none

def seat (s : Sys) (r : Rid) : Seat where
  table := s.ids.count r
  pending := (s.pending.map Prod.snd).count r
  leaving := (s.closers.flatMap Closer.todo).count r
  untouched := (s.closers.flatMap Closer.untouched).count r
  owing := s.owing.count r

/-- The runner is named somewhere, or its `close` has returned. -/
def Known (s : Sys) (r : Rid) : Prop :=
  (s.seat r).table + (s.seat r).pending + (s.seat r).leaving ≠ 0 ∨ r ∈ s.returned

/-- What holds in every state. -/
structure Inv (s : Sys) : Prop where
  names : (s.table.map Prod.fst).Nodup
  known : ∀ r, s.Known r → r < s.made
  logged : s.fanned + s.unfanned = s.chain.length
  current : ∀ n, s.logging = some n → n + 1 = s.chain.length
  fits : ∀ r, (s.seat r).Fits s.fanned (s.runners r)
  returned : ∀ r ∈ s.returned, (s.runners r).worker = .finished

variable {s : Sys}

theorem init_inv (d : Dispatcher) : (init d).Inv where
  names := nodup_nil
  known := fun _ hr => hr.elim (fun h => absurd rfl h) fun h => absurd h not_mem_nil
  logged := rfl
  current := fun _ h => nomatch h
  fits := fun _ => by
    have hmake : (⟨0, 1, 0, 0, 0⟩ : Seat).Fits 0 (.make 1 0 false) := Seat.Fits.make 1 0 false
    exact ⟨Nat.zero_le 1, le_refl 0, fun _ => rfl, hmake.registered, hmake.fresh, fun _ => rfl,
      le_refl 0, hmake.account, hmake.ordered, hmake.settled⟩
  returned := fun _ h => absurd h not_mem_nil

theorem owing_of_not_reading (h : ¬ s.reading = true) : s.owing = [] := by
  unfold reading at h
  unfold owing
  generalize s.logger = pc at h
  rcases pc with _ | _ | _ | _
  · rfl
  · rfl
  · exact absurd rfl h
  · exact absurd rfl h

theorem update_runners (s : Sys) (r r' : Rid) (f : Runner → Runner) :
    (s.update r f).runners r' = if r' = r then f (s.runners r) else s.runners r' :=
  Function.update_apply s.runners r _ r'

variable {r : Rid}

/-- A step that changes the seats and the state of the runners `rs` only. -/
theorem Inv.of_seats (h : s.Inv) {t : Sys} (rs : List Rid) (hfanned : t.fanned = s.fanned)
    (hmade : s.made ≤ t.made) (hnames : (t.table.map Prod.fst).Nodup)
    (hlogged : t.fanned + t.unfanned = t.chain.length)
    (hcurrent : ∀ n, t.logging = some n → n + 1 = t.chain.length)
    (hrest : ∀ r ∉ rs, t.seat r = s.seat r ∧ t.runners r = s.runners r ∧
      (r ∈ t.returned → r ∈ s.returned))
    (hchanged : ∀ r ∈ rs, ∃ q x, t.seat r = q ∧ t.runners r = x ∧ r < t.made ∧
      q.Fits s.fanned x ∧ (r ∈ t.returned → x.worker = .finished)) : t.Inv := by
  refine ⟨hnames, fun r hr => ?_, hlogged, hcurrent, fun r => ?_, fun r hr => ?_⟩ <;>
    by_cases hmem : r ∈ rs
  · obtain ⟨q, x, -, -, hlt, -⟩ := hchanged r hmem
    exact hlt
  · obtain ⟨hseat, -, hret⟩ := hrest r hmem
    rw [Known, hseat] at hr
    exact (h.known r (hr.imp_right hret)).trans_le hmade
  · obtain ⟨q, x, hseat, hrunner, -, hfits, -⟩ := hchanged r hmem
    rwa [hseat, hrunner, hfanned]
  · obtain ⟨hseat, hrunner, -⟩ := hrest r hmem
    rw [hseat, hrunner, hfanned]
    exact h.fits r
  · obtain ⟨q, x, -, hrunner, -, -, hfinished⟩ := hchanged r hmem
    rw [hrunner]
    exact hfinished hr
  · obtain ⟨-, hrunner, hret⟩ := hrest r hmem
    rw [hrunner]
    exact h.returned r (hret hr)

/-- A step of a runner's own. -/
theorem Inv.update (h : s.Inv) {f : Runner → Runner}
    (hk : (s.runners r).Keeps (f (s.runners r))) : (s.update r f).Inv := by
  have hkeeps : ∀ r', (s.runners r').Keeps ((s.update r f).runners r') := by
    intro r'
    rw [update_runners]
    split_ifs with heq
    · rw [heq]
      exact hk
    · exact Runner.Keeps.refl _
  exact ⟨h.names, h.known, h.logged, h.current, fun r' => (h.fits r').of_keeps (hkeeps r'),
    fun r' hr => (hkeeps r').finished (h.returned r' hr)⟩

/-! ### The `Log` call -/

theorem Inv.log (h : s.Inv) (hnone : s.logger = none) (disp : Dispatcher) (e : Entry) :
    ({ s with disp := disp, chain := s.chain ++ [e], logger := some (.sealed s.chain.length) }
      : Sys).Inv := by
  have howing : s.owing = [] := by rw [owing, hnone]
  have hlogged : s.fanned = s.chain.length := by
    have hlogged := h.logged
    rwa [unfanned, hnone] at hlogged
  refine h.of_seats [] rfl le_rfl h.names ?_ (fun n hn => ?_) (fun r _ => ⟨?_, rfl, id⟩)
    fun _ hr => absurd hr not_mem_nil
  · show s.fanned + 1 = (s.chain ++ [e]).length
    rw [length_append, length_singleton, hlogged]
  · cases hn
    rw [length_append, length_singleton]
  · exact Seat.ext rfl rfl rfl rfl (congrArg (count r) howing).symm

theorem Inv.fanOut (h : s.Inv) {n : Nat} (hsealed : s.logger = some (.sealed n))
    {order : List Rid} (hperm : order.Perm s.ids) :
    ({ s with logger := some (.fan n order), fanned := s.fanned + 1 } : Sys).Inv := by
  have howing : s.owing = [] := by rw [owing, hsealed]
  have hlogged := h.logged
  rw [unfanned, hsealed] at hlogged
  refine ⟨h.names, h.known, hlogged, fun n' hn => ?_, fun r => ?_, h.returned⟩
  · cases hn
    exact h.current n (by rw [logging, hsealed])
  · have hfan := (h.fits r).fanOut (by rw [seat, howing]; rfl)
    unfold seat owing
    rw [show order.count r = s.ids.count r from hperm.count_eq r]
    exact hfan

/-- A step of the `Log` call that leaves the same runners to visit. -/
theorem Inv.of_logger (h : s.Inv) {pc : Option LogPc}
    (howing : ({ s with logger := pc } : Sys).owing = s.owing)
    (hunfanned : ({ s with logger := pc } : Sys).unfanned = s.unfanned)
    (hlogging : ∀ n, ({ s with logger := pc } : Sys).logging = some n → s.logging = some n) :
    ({ s with logger := pc } : Sys).Inv :=
  h.of_seats [] rfl le_rfl h.names (hunfanned ▸ h.logged) (fun n hn => h.current n (hlogging n hn))
    (fun _ _ => ⟨Seat.ext rfl rfl rfl rfl (congrArg (count _) howing), rfl, id⟩)
    fun _ hr => absurd hr not_mem_nil

variable {rest : List Rid}

/-- The `Log` call visits the next runner, which has one record more afterwards. -/
theorem Inv.visited (h : s.Inv) {n : Nat} {f : Runner → Runner}
    (hlogging : s.logging = some n) (hunfanned : s.unfanned = 0) (howing : s.owing = r :: rest)
    (htotal : (f (s.runners r)).total = (s.runners r).total + 1)
    (hfields : ∀ x, (f x).since = x.since ∧ (f x).till = x.till ∧ (f x).closed = x.closed)
    (hworker : ∀ x, (f x).worker = x.worker)
    (hordered : ∀ x : Runner, x.Ordered n → (f x).Ordered (n + 1))
    (hsettled : (f (s.runners r)).Settled) :
    ({ s.update r f with logger := some (.fan n rest) } : Sys).Inv := by
  have hlogged : s.fanned = s.chain.length := by
    have hlogged := h.logged
    rwa [hunfanned] at hlogged
  have hn : s.fanned = n + 1 := hlogged.trans (h.current n hlogging).symm
  refine h.of_seats [r] rfl le_rfl h.names hlogged (fun n' hn' => ?_) (fun r' hr => ?_)
    fun r' hr => ?_
  · cases hn'
    exact h.current n hlogging
  · have hne := mt mem_singleton.2 hr
    have hcount : (s.seat r').owing = rest.count r' := by
      rw [seat, howing, count_cons_of_ne (Ne.symm hne)]
    exact ⟨Seat.ext rfl rfl rfl rfl hcount.symm, Function.update_of_ne hne .., id⟩
  · obtain rfl := mem_singleton.1 hr
    have hcount : (s.seat r').owing = rest.count r' + 1 := by
      rw [seat, howing, count_cons_self]
    have hfits := h.fits r'
    have hvisiting := hfits.visiting
    rw [hn] at hfits ⊢
    refine ⟨{ s.seat r' with owing := (s.seat r').owing - 1 }, _, Seat.ext rfl rfl rfl rfl ?_,
      Function.update_self .., h.known r' (Or.inl (by omega)),
      hfits.visited (by omega) htotal (hfields _) (hordered _) hsettled,
      fun hret => (hworker _).trans (h.returned r' hret)⟩
    show rest.count r' = (s.seat r').owing - 1
    omega

theorem Inv.visit (h : s.Inv) : s.visit.Inv := by
  unfold Sys.visit
  split
  · rename_i n r rest hlogger
    have howing : s.owing = r :: rest := by rw [owing, hlogger]
    have hlogging : s.logging = some n := by rw [logging, hlogger]
    have hunfanned : s.unfanned = 0 := by rw [unfanned, hlogger]
    split_ifs
    · refine h.visited hlogging hunfanned howing ?_ (fun _ => ⟨rfl, rfl, rfl⟩) (fun _ => rfl)
        (fun x hx => ?_) (h.fits r).settled
      · simp only [Runner.skip, Runner.total, Runner.inDelivery]
        omega
      · exact ⟨hx.increasing, (hx.mono (Nat.le_succ n)).below, hx.current, hx.tallied⟩
    · refine h.of_logger howing.symm hunfanned.symm fun n' hn => ?_
      rw [hlogging]
      exact hn
  · rename_i n hlogger
    have howing : s.owing = [] := by rw [owing, hlogger]
    have hunfanned : s.unfanned = 0 := by rw [unfanned, hlogger]
    exact h.of_logger howing.symm hunfanned.symm fun n' hn => (nomatch hn)
  · rename_i n r rest hlogger
    have howing : s.owing = r :: rest := by rw [owing, hlogger]
    -- a runner that is still in the table has not been closed
    have hopen : (s.runners r).closed = false := by
      refine (h.fits r).opened ?_
      have hvisiting := (h.fits r).visiting
      have hcount : (s.seat r).owing = rest.count r + 1 := by
        rw [seat, howing, count_cons_self]
      omega
    refine h.visited (by rw [logging, hlogger]) (by rw [unfanned, hlogger]) howing
      (Runner.enqueue_total hopen) (fun x => ?_) (fun x => (Runner.enqueue_fields n x).2.2.2)
      (fun x hx => Runner.enqueue_ordered hx) fun hf => ?_
    · obtain ⟨hsince, htill, hclosed, -⟩ := Runner.enqueue_fields n x
      exact ⟨hsince, htill, hclosed⟩
    · rw [(Runner.enqueue_fields n _).2.2.2] at hf
      exact absurd ((h.fits r).settled hf).2 (by rw [hopen]; decide)
  · exact h

/-! ### The table of sinks -/

theorem Inv.create (h : s.Inv) (name : Bytes) (attempts delay : Int) (paused : Bool) :
    ({ s.update s.made (fun _ => .make attempts delay paused) with
      made := s.made + 1, pending := s.pending ++ [(name, s.made)] } : Sys).Inv := by
  -- the new place is that of no runner so far
  have hnew : ¬ s.Known s.made := fun hknown => lt_irrefl _ (h.known _ hknown)
  have hpending (r : Rid) : ((s.pending ++ [(name, s.made)]).map Prod.snd).count r =
      (s.seat r).pending + [s.made].count r := by
    rw [map_append, count_append]
    rfl
  refine h.of_seats [s.made] rfl (Nat.le_succ _) h.names h.logged h.current (fun r hr => ?_)
    fun r hr => ?_
  · refine ⟨Seat.ext rfl ((hpending r).trans ?_) rfl rfl rfl,
      Function.update_of_ne (mt mem_singleton.2 hr) .., id⟩
    rw [count_eq_zero.2 hr, Nat.add_zero]
  · obtain rfl := mem_singleton.1 hr
    have htouched := (h.fits s.made).touched
    have hvisiting := (h.fits s.made).visiting
    have hzero : (s.seat s.made).table + (s.seat s.made).pending + (s.seat s.made).leaving = 0 :=
      by_contra fun hne => hnew (Or.inl hne)
    refine ⟨⟨0, 1, 0, 0, 0⟩, _, Seat.ext ?_ ((hpending _).trans ?_) ?_ ?_ ?_,
      Function.update_self .., Nat.lt_succ_self _, .make attempts delay paused,
      fun hret => absurd (Or.inr hret) hnew⟩
    · show (s.seat s.made).table = 0
      omega
    · rw [count_singleton_self]
      show (s.seat s.made).pending + 1 = 1
      omega
    · show (s.seat s.made).leaving = 0
      omega
    · show (s.seat s.made).untouched = 0
      omega
    · show (s.seat s.made).owing = 0
      omega

/-- Runners leave the table, and a call begins to close them. -/
theorem Inv.retire (h : s.Inv) (howing : s.owing = []) {table : List (Bytes × Rid)}
    {rs : List Rid} (hnames : (table.map Prod.fst).Nodup)
    (hids : s.ids.Perm (rs ++ table.map Prod.snd)) :
    (({ s with table := table } : Sys).retire rs).Inv := by
  have hseat (r : Rid) : ∃ kept leaving untouched,
      (({ s with table := table } : Sys).retire rs).seat r =
        ⟨kept, (s.seat r).pending, leaving, untouched, (s.seat r).owing⟩ ∧
      (s.seat r).table = rs.count r + kept ∧ leaving = (s.seat r).leaving + rs.count r ∧
      untouched = (s.seat r).untouched + rs.count r := by
    have hcount (f : Closer → List Rid) (c : Closer) : ((s.closers ++ [c]).flatMap f).count r =
        (s.closers.flatMap f).count r + (f c).count r := by
      rw [flatMap_append, count_append, flatMap_singleton]
    exact ⟨_, _, _, rfl, (hids.count_eq r).trans count_append, hcount _ _, hcount _ _⟩
  refine h.of_seats rs rfl le_rfl hnames h.logged h.current (fun r hr => ?_) fun r hr => ?_
  · obtain ⟨kept, leaving, untouched, heq, hkept, hleaving, huntouched⟩ := hseat r
    rw [count_eq_zero.2 hr] at hkept hleaving huntouched
    exact ⟨heq.trans (Seat.ext (hkept.trans (Nat.zero_add _)).symm rfl hleaving huntouched rfl),
      if_neg hr, id⟩
  · obtain ⟨kept, leaving, untouched, heq, hkept, hleaving, huntouched⟩ := hseat r
    have hpos : 0 < rs.count r := count_pos_iff.mpr hr
    have hfits := h.fits r
    have hplaced := hfits.placed
    have htouched := hfits.touched
    have hzero : (s.seat r).owing = 0 := by rw [seat, howing]; rfl
    refine ⟨⟨0, 0, 1, 1, 0⟩, _, heq.trans (Seat.ext ?_ ?_ ?_ ?_ hzero), if_pos hr,
      h.known r (Or.inl (by omega)), hfits.retire (by omega) hzero, h.returned r⟩ <;>
    dsimp only <;> omega

variable {name : Bytes}

/-- The table without the entry of a name. -/
theorem ids_perm {table : List (Bytes × Rid)}
    (hnames : (table.map Prod.fst).Nodup)
    (hfind : (table.find? fun e => e.1 = name).map Prod.snd = some r) :
    (table.map Prod.snd).Perm (r :: (table.filter fun e => e.1 ≠ name).map Prod.snd) := by
  induction table with
  | nil => exact nomatch hfind
  | cons e table ih =>
    obtain ⟨hnot, hnames⟩ := nodup_cons.mp hnames
    by_cases he : e.1 = name
    · have hall : table.filter (fun e => e.1 ≠ name) = table := by
        refine filter_eq_self.mpr fun e' he' => decide_eq_true fun heq => hnot ?_
        rw [he, ← heq]
        exact mem_map_of_mem he'
      rw [List.find?_cons_of_pos (by simp [he])] at hfind
      rw [filter_cons_of_neg (by simp [he]), hall, ← Option.some.inj hfind]
      rfl
    · rw [List.find?_cons_of_neg (by simp [he])] at hfind
      rw [filter_cons_of_pos (by simp [he])]
      exact ((ih hnames hfind).cons e.2).trans (List.Perm.swap _ _ _)

theorem without_names (hnames : (s.table.map Prod.fst).Nodup) (name : Bytes) :
    ((s.without name).map Prod.fst).Nodup ∧ name ∉ (s.without name).map Prod.fst := by
  constructor
  · exact hnames.sublist (filter_sublist.map _)
  · intro hmem
    obtain ⟨e, he, heq⟩ := mem_map.mp hmem
    exact absurd heq (of_decide_eq_true (mem_filter.mp he).2)

theorem Inv.remove (h : s.Inv) (howing : s.owing = [])
    (hfind : s.find name = some r) : (({ s with table := s.without name } : Sys).retire [r]).Inv :=
  h.retire howing (without_names h.names name).1 (ids_perm h.names hfind)

variable {i : Nat}

theorem Inv.place (h : s.Inv)
    (hpending : s.pending[i]? = some (name, r)) (hname : name ∉ s.table.map Prod.fst) :
    ({ s.update r (fun x => { x with since := some s.fanned }) with
      table := (name, r) :: s.table, pending := s.pending.eraseIdx i } : Sys).Inv := by
  have hperm : (r :: (s.pending.eraseIdx i).map Prod.snd).Perm (s.pending.map Prod.snd) := by
    obtain ⟨hi, heq⟩ := List.getElem?_eq_some_iff.mp hpending
    have hperm := (getElem_cons_eraseIdx_perm hi).map Prod.snd
    rwa [heq, map_cons] at hperm
  refine h.of_seats [r] rfl le_rfl (nodup_cons.mpr ⟨hname, h.names⟩) h.logged h.current
    (fun r' hr => ?_) fun r' hr => ?_
  · have hne := mt mem_singleton.2 hr
    have hcount := hperm.count_eq r'
    rw [count_cons_of_ne (Ne.symm hne)] at hcount
    exact ⟨Seat.ext (count_cons_of_ne (Ne.symm hne)) hcount rfl rfl rfl,
      Function.update_of_ne hne .., id⟩
  · obtain rfl := mem_singleton.1 hr
    have hcount : _ = (s.seat r').pending := hperm.count_eq r'
    rw [count_cons_self] at hcount
    have hfits := h.fits r'
    have hplaced := hfits.placed
    have htouched := hfits.touched
    have hvisiting := hfits.visiting
    refine ⟨⟨1, 0, 0, 0, 0⟩, _, Seat.ext (count_cons_self.trans ?_) ?_ ?_ ?_ ?_,
      Function.update_self .., h.known r' (Or.inl (by omega)),
      hfits.install (by omega), h.returned r'⟩
    · show (s.seat r').table + 1 = 1
      omega
    · show ((s.pending.eraseIdx i).map Prod.snd).count r' = 0
      omega
    · show (s.seat r').leaving = 0
      omega
    · show (s.seat r').untouched = 0
      omega
    · show (s.seat r').owing = 0
      omega

theorem retire_update {rs : List Rid} {f : Runner → Runner} (h : r ∉ rs) :
    ((s.update r f).retire rs).runners = ((s.retire rs).update r f).runners := by
  funext r'
  rw [update_runners]
  unfold Sys.retire
  simp only [update_runners, h, if_false]
  by_cases heq : r' = r
  · rw [if_pos heq, if_pos heq, if_neg (heq ▸ h)]
  · rw [if_neg heq, if_neg heq]
    rfl

theorem Inv.install (h : s.Inv) (howing : s.owing = [])
    (hpending : s.pending[i]? = some (name, r)) : (s.install i name r).Inv := by
  unfold Sys.install
  cases hfind : s.find name with
  | none =>
    have hnot : ∀ e ∈ s.table, e.1 ≠ name := by
      intro e he heq
      unfold find at hfind
      rw [Option.map_eq_none_iff, List.find?_eq_none] at hfind
      exact hfind e he (decide_eq_true heq)
    have hwithout : s.without name = s.table :=
      filter_eq_self.mpr fun e he => decide_eq_true (hnot e he)
    simp only [hwithout]
    refine h.place hpending fun hmem => ?_
    obtain ⟨e, he, heq⟩ := mem_map.mp hmem
    exact hnot e he heq
  | some old =>
    -- the old runner could as well leave the table before the new one enters
    have hplace := (h.remove howing hfind).place hpending (without_names h.names name).2
    have hne : r ≠ old := by
      rintro rfl
      have hplaced := (h.fits r).placed
      have htable : (s.seat r).table ≠ 0 := by
        refine (count_pos_iff.mpr ?_).ne'
        exact (ids_perm h.names hfind).mem_iff.mpr mem_cons_self
      have hpend : (s.seat r).pending ≠ 0 := by
        refine (count_pos_iff.mpr ?_).ne'
        exact mem_map.mpr ⟨_, mem_of_getElem? hpending, rfl⟩
      omega
    -- the rest of the state is the same by definition
    exact (congrArg (fun runners => ({ s with
      table := (name, r) :: s.without name, pending := s.pending.eraseIdx i, runners := runners
      closers := s.closers ++ [⟨[old], .start⟩] } : Sys).Inv)
      (retire_update fun hmem => hne (mem_singleton.mp hmem))).mpr hplace

/-! ### Closing -/

variable {c : Closer}

theorem count_flatMap_set (f : Closer → List Rid) {l : List Closer}
    (h : l[i]? = some c) (c' : Closer) (r : Rid) :
    ((l.set i c').flatMap f).count r + (f c).count r =
      (l.flatMap f).count r + (f c').count r := by
  induction l generalizing i with
  | nil => exact nomatch h
  | cons a l ih =>
    cases i with
    | zero =>
      cases h
      simp only [set_cons_zero, flatMap_cons, count_append]
      omega
    | succ i =>
      have hih := ih h
      simp only [set_cons_succ, flatMap_cons, count_append]
      omega

/-- The seat of a runner after the call at `i` has moved on. -/
theorem seat_set (hc : s.closers[i]? = some c) (c' : Closer) (r : Rid) :
    ({ s with closers := s.closers.set i c' } : Sys).seat r =
      { s.seat r with
        leaving := (s.seat r).leaving + c'.todo.count r - c.todo.count r
        untouched := (s.seat r).untouched + c'.untouched.count r - c.untouched.count r } := by
  have hleaving := count_flatMap_set Closer.todo hc c' r
  have huntouched := count_flatMap_set Closer.untouched hc c' r
  ext
  · rfl
  · rfl
  · exact Nat.eq_sub_of_add_eq hleaving
  · exact Nat.eq_sub_of_add_eq huntouched
  · rfl

/-- The call at `i` marks its next runner as closed. -/
theorem Inv.mark (h : s.Inv)
    (hc : s.closers[i]? = some ⟨r :: rest, .start⟩) :
    ({ s.update r (fun x => { x with closed := true }) with
      closers := s.closers.set i ⟨r :: rest, .draining⟩ } : Sys).Inv := by
  refine h.of_seats [r] rfl le_rfl h.names h.logged h.current (fun r' hr => ?_) fun r' hr => ?_
  · have hne := mt mem_singleton.2 hr
    refine ⟨(seat_set hc _ r').trans (Seat.ext rfl rfl (Nat.add_sub_cancel ..) ?_ rfl),
      Function.update_of_ne hne .., id⟩
    show (s.seat r').untouched + rest.count r' - (r :: rest).count r' = _
    rw [count_cons_of_ne (Ne.symm hne), Nat.add_sub_cancel]
  · obtain rfl := mem_singleton.1 hr
    have hfits := h.fits r'
    have hplaced := hfits.placed
    have htouched := hfits.touched
    have hpos : 0 < (s.seat r').untouched :=
      count_pos_iff.mpr (mem_flatMap.mpr ⟨_, mem_of_getElem? hc, mem_cons_self⟩)
    refine ⟨{ s.seat r' with untouched := 0 }, _,
      (seat_set hc _ r').trans (Seat.ext rfl rfl (Nat.add_sub_cancel ..) ?_ rfl),
      Function.update_self .., h.known r' (Or.inl (by omega)),
      hfits.close hpos.ne', h.returned r'⟩
    show (s.seat r').untouched + rest.count r' - (r' :: rest).count r' = 0
    rw [count_cons_self]
    omega

/-- The call at `i` waits on, for the same runners. -/
theorem Inv.of_closers (h : s.Inv) {c' : Closer} (hc : s.closers[i]? = some c)
    (htodo : c'.todo = c.todo) (huntouched : c'.untouched = c.untouched) :
    ({ s with closers := s.closers.set i c' } : Sys).Inv := by
  refine h.of_seats [] rfl le_rfl h.names h.logged h.current (fun r _ => ⟨?_, rfl, id⟩)
    fun _ hr => absurd hr not_mem_nil
  rw [seat_set hc, htodo, huntouched, Nat.add_sub_cancel, Nat.add_sub_cancel]

/-- The call at `i` is done with its first runner, whose worker has finished. -/
theorem Inv.closedNext (h : s.Inv) {pc : ClosePc}
    (hc : s.closers[i]? = some ⟨r :: rest, pc⟩) (hpc : pc ≠ .start)
    (hfinished : (s.runners r).worker = .finished) : (s.closedNext i r rest).Inv := by
  have huntouched : Closer.untouched ⟨r :: rest, pc⟩ = rest := by
    cases pc with
    | start => exact absurd rfl hpc
    | draining => rfl
    | aborting => rfl
  have hseat (r' : Rid) : (s.closedNext i r rest).seat r' = { s.seat r' with
      leaving := (s.seat r').leaving + rest.count r' - (r :: rest).count r' } := by
    refine (seat_set hc ⟨rest, .start⟩ r').trans ?_
    rw [huntouched]
    exact Seat.ext rfl rfl rfl (Nat.add_sub_cancel ..) rfl
  refine h.of_seats [r] rfl le_rfl h.names h.logged h.current (fun r' hr => ?_) fun r' hr => ?_
  · refine ⟨?_, rfl, fun hret => (mem_append.1 hret).resolve_right hr⟩
    rw [hseat, count_cons_of_ne (Ne.symm (mt mem_singleton.2 hr)), Nat.add_sub_cancel]
  · obtain rfl := mem_singleton.1 hr
    have hfits := h.fits r'
    have hplaced := hfits.placed
    have htouched := hfits.touched
    have hpos : 0 < (s.seat r').leaving :=
      count_pos_iff.mpr (mem_flatMap.mpr ⟨_, mem_of_getElem? hc, mem_cons_self⟩)
    -- the runner is closed, so no call has still to mark it
    have hmarked : (s.seat r').untouched = 0 := by
      by_contra hne
      have hopen := hfits.opened (by omega)
      rw [(hfits.settled hfinished).2] at hopen
      cases hopen
    refine ⟨{ s.seat r' with leaving := 0, untouched := 0 }, _,
      (hseat r').trans (Seat.ext rfl rfl ?_ hmarked rfl), rfl,
      h.known r' (Or.inl (by omega)), hfits.leave, fun _ => hfinished⟩
    show (s.seat r').leaving + rest.count r' - (r' :: rest).count r' = 0
    rw [count_cons_self]
    omega

theorem Inv.close (h : s.Inv) (i : Nat) (timeout : Bool) : (s.close i timeout).Inv := by
  unfold Sys.close
  split
  · rename_i r rest hc
    have hopen : (s.runners r).closed = false := by
      refine (h.fits r).opened ?_
      have hpos : 0 < (s.seat r).untouched :=
        count_pos_iff.mpr (mem_flatMap.mpr ⟨_, mem_of_getElem? hc, mem_cons_self⟩)
      omega
    rw [if_neg (by rw [hopen]; decide)]
    exact h.mark hc
  · rename_i r rest hc
    split_ifs with htimeout hfinished
    · have hstop : (s.update r fun x => { x with stop := true }).Inv :=
        h.update (Runner.keeps_flags _ _ true)
      exact hstop.of_closers hc rfl rfl
    · exact h.closedNext hc (fun hpc => nomatch hpc) hfinished
    · exact h
  · rename_i r rest hc
    split_ifs with hfinished
    · exact h.closedNext hc (fun hpc => nomatch hpc) hfinished
    · exact h
  · exact h

/-! ### Every run -/

theorem Inv.step (sha : Bytes → Bytes) (h : s.Inv) (a : Act) : (s.step sha a).Inv := by
  cases a with
  | log e =>
    unfold Sys.step
    cases hlogger : s.logger with
    | none => exact h.log hlogger _ _
    | some pc => exact h
  | fanOut order =>
    simp only [Sys.step]
    split
    · rename_i n hlogger
      split_ifs with hperm
      · exact h.fanOut hlogger hperm
      · exact h
    · exact h
  | visit => exact h.visit
  | create name attempts delay paused => exact h.create name attempts delay paused
  | install i =>
    simp only [Sys.step]
    split
    · rename_i name r hpending
      split_ifs with hreading
      · exact h
      · exact h.install (owing_of_not_reading hreading) hpending
    · exact h
  | deregister name =>
    simp only [Sys.step]
    split
    · rename_i r hfind
      split_ifs with hreading
      · exact h
      · exact h.remove (owing_of_not_reading hreading) hfind
    · exact h
  | closeAll order =>
    simp only [Sys.step]
    split_ifs with hreading hperm
    · exact h
    · refine h.retire (owing_of_not_reading hreading) nodup_nil ?_
      rw [map_nil, append_nil]
      exact hperm.symm
    · exact h
  | findPaused name paused =>
    simp only [Sys.step]
    split
    · exact { h with }
    · exact h
  | storePaused i =>
    simp only [Sys.step]
    split
    · rename_i r paused hpausing
      have hpaused : (s.update r fun x => { x with paused := paused }).Inv :=
        h.update (Runner.keeps_flags _ paused _)
      exact { hpaused with }
    · exact h
  | close i timeout => exact h.close i timeout
  | work r res => exact h.update (Runner.keeps_work _ res)
  | abort r => exact h.update (Runner.keeps_abort _)

theorem runs_inv (sha : Bytes → Bytes) (d : Dispatcher) (acts : List Act) :
    (runs (Sys.step sha) (init d) acts).Inv := by
  induction acts using List.reverseRecOn with
  | nil => exact init_inv d
  | append_singleton acts a ih =>
    rw [runs_append]
    exact ih.step sha a

end Sys

/-- The records on their way to the sinks, accounted for: every record is fanned out, the last
    one when its `Log` call gets there, and for each runner that was put into the table
    the records given to its sink, retries merged, are an increasing sequence of places in the
    chain; the fan-outs between its registration and its removal are the records sent, failed,
    dropped, skipped, queued and in delivery, and the one that a `Log` call in its loop has
    still to bring; of these, the records sent, failed and in delivery are those given to its
    sink, and the one in hand that it has not been given yet; and once its `close` has
    returned, nothing is queued or in delivery. -/
structure Sys.Accounted (s : Sys) : Prop where
  logged : s.fanned + s.unfanned = s.chain.length
  increasing : ∀ r, (s.runners r).since ≠ none →
    (mergeRetries (s.runners r).handed).Pairwise (· < ·) ∧
      ∀ n ∈ mergeRetries (s.runners r).handed, n < s.chain.length
  counted : ∀ r a, (s.runners r).since = some a →
    (s.runners r).till.getD s.fanned = a + ((s.runners r).sent + (s.runners r).errors +
      (s.runners r).dropped + (s.runners r).skipped + (s.runners r).queue.length +
      (s.runners r).inDelivery) + s.owing.count r
  tallied : ∀ r, (mergeRetries (s.runners r).handed).length + (s.runners r).ahead.length =
    (s.runners r).sent + (s.runners r).errors + (s.runners r).inDelivery
  drained : ∀ r ∈ s.returned, (s.runners r).queue = [] ∧ (s.runners r).inDelivery = 0

/-- No record is lost without being counted, whatever the interleaving. -/
theorem fanout_accounted (sha : Bytes → Bytes) (d : Dispatcher) (acts : List Act) :
    (runs (Sys.step sha) (Sys.init d) acts).Accounted := by
  have hinv := Sys.runs_inv sha d acts
  refine ⟨hinv.logged, fun r _ => ⟨?_, fun n hn => ?_⟩, fun r a hr => ?_,
    fun r => (hinv.fits r).ordered.tallied, fun r hmem => ?_⟩
  · exact (pairwise_append.mp (hinv.fits r).ordered.increasing).1
  · have hbelow := (hinv.fits r).ordered.below n (mem_append_left _ hn)
    have hlogged := hinv.logged
    omega
  · exact ((hinv.fits r).account a hr).symm
  · have hfinished := hinv.returned r hmem
    refine ⟨((hinv.fits r).settled hfinished).1, ?_⟩
    rw [Runner.inDelivery, hfinished]

end Tuck.Audit
