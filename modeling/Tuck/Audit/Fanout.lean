/-
  The fan-out of sealed records to the sinks, under every interleaving.

  A machine with one action for each step that can interleave with others: the steps of the
  `Log` call that holds the chain lock, of the workers, of the calls that change the table of
  sinks, and of the calls that close a runner. A mutex is where its holder stands: there is at
  most one `Log` call between locking and unlocking, and while it is in its loop (`fan`,
  `enqueue`) it reads the table, so no call can write it. An action that is not possible in a
  state leaves the state as it is.

  Records are named by their place in the chain. The counters `since` and `till`, the number
  of fan-outs when a runner entered and left the table, and the list `handed` are not in the
  source: they say what happened.
-/
import Tuck.Audit.Chain
import Tuck.Base.Machine

namespace Tuck.Audit

open Tuck.Base

/-! ## One runner -/

def sinkQueueSize : Nat := 2048

def failFast : Nat := 3

/-- Where a worker stands in `run` and `deliver`. -/
inductive Worker where
  | idle
  | taken (n : Nat)
  /-- About to make attempt `a` of `m`. -/
  | trying (n a m : Nat)
  /-- Waiting after attempt `a` of `m`. -/
  | waiting (n a m : Nat)
  | recording (n : Nat) (ok : Bool)
  /-- The queue is closed and drained; `done` is closed. -/
  | finished
  deriving DecidableEq

/-- What `send` returns. -/
inductive SendResult where
  | ok
  | transient
  | permanent
  deriving DecidableEq

/-- `sinkRunner`. -/
structure Runner where
  /-- `RetryPolicy`; one attempt for a sink without one. -/
  attempts : Int
  delay : Int
  paused : Bool
  closed : Bool
  stop : Bool
  queue : List Nat
  worker : Worker
  sent : Nat
  errors : Nat
  retries : Nat
  dropped : Nat
  skipped : Nat
  failing : Nat
  /-- The records given to the sink, one for each attempt. -/
  handed : List Nat
  since : Option Nat
  till : Option Nat
  deriving DecidableEq

namespace Runner

/-- `newSinkRunner`. -/
def make (attempts delay : Int) (paused : Bool) : Runner :=
  ⟨attempts, delay, paused, false, false, [], .idle, 0, 0, 0, 0, 0, 0, [], none, none⟩

/-- The number of attempts `deliver` makes. -/
def limit (r : Runner) : Nat :=
  if failFast ≤ r.failing then 1 else if r.attempts < 1 then 1 else r.attempts.toNat

/-- The next step of the worker; `res` is what the sink returns if it is called. -/
def work (res : SendResult) (r : Runner) : Runner :=
  match r.worker with
  | .idle =>
      match r.queue with
      | n :: queue => { r with queue := queue, worker := .taken n }
      | [] => if r.closed = true then { r with worker := .finished } else r
  | .taken n => { r with worker := .trying n 1 r.limit }
  | .trying n a m =>
      let r := { r with handed := r.handed ++ [n] }
      match res with
      | .ok => { r with worker := .recording n true }
      | .permanent => { r with worker := .recording n false }
      | .transient =>
          if a = m then { r with worker := .recording n false }
          else { r with retries := r.retries + 1, worker := .waiting n a m }
  | .waiting n a m => { r with worker := .trying n (a + 1) m }
  | .recording _ true => { r with sent := r.sent + 1, failing := 0, worker := .idle }
  | .recording _ false =>
      { r with errors := r.errors + 1, failing := r.failing + 1, worker := .idle }
  | .finished => r

/-- The worker leaves a backoff because it was told to stop. -/
def abort (r : Runner) : Runner :=
  match r.worker with
  | .waiting n _ _ =>
      if r.stop = true ∧ 0 < r.delay then { r with worker := .recording n false } else r
  | _ => r

/-- `enqueue` of a runner that is paused. -/
def skip (r : Runner) : Runner := { r with skipped := r.skipped + 1 }

/-- `enqueue` after the runner was seen not to be paused. -/
def enqueue (n : Nat) (r : Runner) : Runner :=
  if r.closed = true then r
  else if r.queue.length < sinkQueueSize then { r with queue := r.queue ++ [n] }
  else { r with dropped := r.dropped + 1 }

/-- The record the worker has in hand. -/
def inDelivery (r : Runner) : Nat :=
  match r.worker with
  | .idle => 0
  | .finished => 0
  | _ => 1

end Runner

/-! ## The system -/

/-- The place of a runner in memory. -/
abbrev Rid := Nat

/-- Where the `Log` call that holds the chain lock stands. -/
inductive LogPc where
  | sealed (n : Nat)
  /-- In the loop over the sinks, with these left. -/
  | fan (n : Nat) (rest : List Rid)
  /-- In `enqueue` for `r`, which was not paused. -/
  | enqueue (n : Nat) (r : Rid) (rest : List Rid)
  deriving DecidableEq

/-- Where a call of `sinkRunner.close` stands. -/
inductive ClosePc where
  | start
  | draining
  | aborting
  deriving DecidableEq

/-- A call that closes runners one after another. -/
structure Closer where
  todo : List Rid
  pc : ClosePc
  deriving DecidableEq

/-- The dispatcher, its sinks and the calls in progress. -/
structure Sys where
  disp : Dispatcher
  chain : List Entry
  /-- The number of fan-outs begun. -/
  fanned : Nat
  logger : Option LogPc
  table : List (Bytes × Rid)
  runners : Rid → Runner
  made : Nat
  /-- `RegisterWith` calls that have made their runner. -/
  pending : List (Bytes × Rid)
  /-- `SetPaused` calls that have found their runner. -/
  pausing : List (Rid × Bool)
  closers : List Closer
  /-- The runners whose `close` has returned. -/
  returned : List Rid

namespace Sys

/-- A dispatcher without sinks. -/
def init (d : Dispatcher) : Sys :=
  ⟨d, [], 0, none, [], fun _ => .make 1 0 false, 0, [], [], [], []⟩

variable (s : Sys)

def update (r : Rid) (f : Runner → Runner) : Sys :=
  { s with runners := Function.update s.runners r (f (s.runners r)) }

/-- The runners in the table. -/
def ids : List Rid := s.table.map Prod.snd

/-- `d.sinks[name]`. -/
def find (name : Bytes) : Option Rid := (s.table.find? fun e => e.1 = name).map Prod.snd

/-- `delete(d.sinks, name)`. -/
def without (name : Bytes) : List (Bytes × Rid) := s.table.filter fun e => e.1 ≠ name

/-- The read lock on the table is held. -/
def reading : Bool :=
  match s.logger with
  | some (.fan _ _) => true
  | some (.enqueue _ _ _) => true
  | _ => false

/-- The runners leave the table, and a call begins to close them. -/
def retire (rs : List Rid) : Sys :=
  { s with
    runners := fun r => if r ∈ rs then { s.runners r with till := some s.fanned } else s.runners r
    closers := s.closers ++ [⟨rs, .start⟩] }

/-- The call at `i` has closed its first runner. -/
def closedNext (i : Nat) (r : Rid) (rest : List Rid) : Sys :=
  { s with closers := s.closers.set i ⟨rest, .start⟩, returned := s.returned ++ [r] }

/-- One step of `sinkRunner.close`; `timeout` is the timer firing first. -/
def close (i : Nat) (timeout : Bool) : Sys :=
  match s.closers[i]? with
  | some ⟨r :: rest, .start⟩ =>
      if (s.runners r).closed = true then s.closedNext i r rest
      else { s.update r (fun x => { x with closed := true }) with
        closers := s.closers.set i ⟨r :: rest, .draining⟩ }
  | some ⟨r :: rest, .draining⟩ =>
      if timeout = true then
        { s.update r (fun x => { x with stop := true }) with
          closers := s.closers.set i ⟨r :: rest, .aborting⟩ }
      else if (s.runners r).worker = .finished then s.closedNext i r rest
      else s
  | some ⟨r :: rest, .aborting⟩ =>
      if (s.runners r).worker = .finished then s.closedNext i r rest else s
  | _ => s

end Sys

/-- A step of one of the calls or workers. -/
inductive Act where
  /-- `Log` takes the chain lock and seals its entry. -/
  | log (e : Entry)
  /-- `Log` takes the read lock and starts to visit the sinks, in this order. -/
  | fanOut (order : List Rid)
  /-- The next step of `Log` in its loop. -/
  | visit
  /-- `RegisterWith` makes its runner. -/
  | create (name : Bytes) (attempts delay : Int) (paused : Bool)
  /-- `RegisterWith` puts its runner into the table. -/
  | install (i : Nat)
  /-- `Deregister` removes the sink from the table. -/
  | deregister (name : Bytes)
  /-- `Close` takes the table, whose runners it will close in this order. -/
  | closeAll (order : List Rid)
  /-- `SetPaused` finds its runner. -/
  | findPaused (name : Bytes) (paused : Bool)
  /-- `SetPaused` stores the flag. -/
  | storePaused (i : Nat)
  | close (i : Nat) (timeout : Bool)
  | work (r : Rid) (res : SendResult)
  | abort (r : Rid)

namespace Sys

variable (sha : Bytes → Bytes) (s : Sys)

/-- The next step of the loop of `Log`. -/
def visit : Sys :=
  match s.logger with
  | some (.fan n (r :: rest)) =>
      if (s.runners r).paused = true then
        { s.update r Runner.skip with logger := some (.fan n rest) }
      else { s with logger := some (.enqueue n r rest) }
  | some (.fan _ []) => { s with logger := none }
  | some (.enqueue n r rest) =>
      { s.update r (Runner.enqueue n) with logger := some (.fan n rest) }
  | _ => s

/-- `RegisterWith` writes the table; the runner it replaces is closed. -/
def install (i : Nat) (name : Bytes) (r : Rid) : Sys :=
  let t : Sys := { s.update r (fun x => { x with since := some s.fanned }) with
    table := (name, r) :: s.without name, pending := s.pending.eraseIdx i }
  match s.find name with
  | some old => t.retire [old]
  | none => t

/-- One action. -/
def step : Act → Sys
  | .log e =>
      match s.logger with
      | none =>
          { s with disp := s.disp.log sha e, chain := s.chain ++ [s.disp.seal sha e],
                   logger := some (.sealed s.chain.length) }
      | some _ => s
  | .fanOut order =>
      match s.logger with
      | some (.sealed n) =>
          if order.Perm s.ids then
            { s with logger := some (.fan n order), fanned := s.fanned + 1 }
          else s
      | _ => s
  | .visit => s.visit
  | .create name attempts delay paused =>
      { s.update s.made (fun _ => .make attempts delay paused) with
        made := s.made + 1, pending := s.pending ++ [(name, s.made)] }
  | .install i =>
      match s.pending[i]? with
      | some (name, r) => if s.reading = true then s else s.install i name r
      | none => s
  | .deregister name =>
      match s.find name with
      | some r => if s.reading = true then s else { s with table := s.without name }.retire [r]
      | none => s
  | .closeAll order =>
      if s.reading = true then s
      else if order.Perm s.ids then { s with table := [] }.retire order
      else s
  | .findPaused name paused =>
      match s.find name with
      | some r => { s with pausing := s.pausing ++ [(r, paused)] }
      | none => s
  | .storePaused i =>
      match s.pausing[i]? with
      | some (r, paused) =>
          { s.update r (fun x => { x with paused := paused }) with
            pausing := s.pausing.eraseIdx i }
      | none => s
  | .close i timeout => s.close i timeout
  | .work r res => s.update r (Runner.work res)
  | .abort r => s.update r Runner.abort

end Sys

end Tuck.Audit
