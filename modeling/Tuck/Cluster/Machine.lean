/-
  A cluster: nodes over one replicated store, each with its own barrier memory. One step is one
  backend call: an operation is what is left of its program, any number of them run side by
  side, and between two calls of one anything else may happen.

  A node reads the state it has applied so far, which may be behind the committed one, and
  writes only while it is the leader. A write can be committed although its caller is told
  that it failed. On each node the barrier's mutex lets writes of entries run together, and
  unsealing and rotating alone.

  The root key of the last successful rekeying is kept beside the state. It is what an
  operator has; no node reads it.
-/
import Tuck.Base.Threads
import Tuck.Barrier.Init

namespace Tuck.Cluster

open Tuck.Base Host Tuck.Barrier Prog

/-! ## Operations -/

/-- The keys the core reads and writes through the barrier are outside `barrier/`. -/
abbrev UserKey := { k : Bytes // ¬ Reserved k }

inductive Op where
  | unsealWith (rootKey : Bytes)
  | put (key : UserKey) (value : Bytes)
  | delete (key : UserKey)
  | rotateDataKey (reenc : Bool)
  | rekey (newRootKey : Bytes)
  | publishSealMeta (wrapped : Bytes)

/-- What an operation sets when it returns: the memory of its node, the root key. -/
structure Result where
  memory : Option Memory
  root : Option Bytes

def Op.code (E : Env) (m : Memory) : Op → Code Result
  | .unsealWith rootKey => (Barrier.unsealWith E rootKey m).bind fun r => ret ⟨some r.1, none⟩
  | .put key value => (Barrier.put E key.1 value m).bind fun _ => ret ⟨none, none⟩
  | .delete key => (Barrier.delete E key.1 m).bind fun _ => ret ⟨none, none⟩
  | .rotateDataKey reenc => (Barrier.rotateDataKey reenc m).bind fun r => ret ⟨some r.1, none⟩
  | .rekey newRootKey => (Barrier.rekey newRootKey m).bind fun r =>
      ret ⟨some r.1, if r.2 = .ok () then some newRootKey else none⟩
  | .publishSealMeta wrapped =>
      (backendPut Err.backend sealMetaKey wrapped).bind fun _ => ret ⟨none, none⟩

/-- The operations that write the keyring. -/
def Op.rewrites : Op → Bool
  | .rotateDataKey _ | .rekey _ => true
  | _ => false

def Op.unseals : Op → Bool
  | .unsealWith _ => true
  | _ => false

/-- How an operation takes the barrier's mutex: `Lock` (true), `RLock`, or not at all. -/
def Op.lock : Op → Option Bool
  | .unsealWith _ | .rotateDataKey _ | .rekey _ => some true
  | .put _ _ | .delete _ => some false
  | .publishSealMeta _ => none

/-- The two cannot have the mutex at one time. -/
def excludes : Option Bool → Option Bool → Bool
  | some a, some b => a || b
  | _, _ => false

/-- An operation of a node, with what is left of its program. -/
structure Task (ι : Type) where
  node : ι
  op : Op
  code : Code Result

def Task.running {ι : Type} (t : Task ι) : Bool :=
  match t.code with
  | .ret _ => false
  | .call _ _ => true

/-! ## The machine -/

variable {ι : Type} [DecidableEq ι]

/-- The state of a cluster with nodes `ι`: the committed store with the random source, the
    committed states before it that a node has still to go through, and the operations. -/
structure System (ι : Type) where
  world : World
  behind : ι → List Store
  leader : Option ι
  mem : ι → Memory
  tasks : List (Task ι)
  root : Bytes

/-- How a call ends; a lost write is committed, and its caller gets an error. -/
inductive Outcome where
  | ok | failed | lost
  deriving DecidableEq

/-- What can happen: a change of leader, a node applies one more write, seals, stops dead,
    starts an operation, or one of the operations makes its next call. -/
inductive Event (ι : Type) where
  | elect (leader : Option ι)
  | catchUp (i : ι)
  | sealNode (i : ι)
  | stop (i : ι)
  | start (i : ι) (op : Op)
  | call (n : Nat) (outcome : Outcome)

namespace System

variable (E : Env) (c : System ι)

/-- The store as node `i` reads it. -/
def view (i : ι) : Store := (c.behind i).headD c.world.store

/-- The call of a node: its reply, and the state it leaves. -/
def request (i : ι) (o : Outcome) (q : Call) : Option q.Reply × System ι :=
  if q.isWrite then
    if o = .failed ∨ c.leader ≠ some i then (none, c)
    else
      let r := handle E q c.world
      let behind j := c.behind j ++ [c.world.store]
      if o = .lost then (none, { c with world := r.2, behind := behind })
      else (some r.1, { c with world := r.2, behind := Function.update behind i [] })
  else if o = .ok then
    let r := handle E q ⟨c.view i, c.world.rng⟩
    (some r.1, { c with world := ⟨c.world.store, r.2.rng⟩ })
  else (none, c)

/-- Whoever wants the mutex of node `i` has to wait. -/
def blocked (i : ι) (lock : Option Bool) : Bool :=
  c.tasks.any fun t => t.running && t.node = i && excludes t.op.lock lock

/-- The effect of an operation that has returned. -/
def settle (t : Task ι) : System ι :=
  match t.code with
  | .ret r =>
      { c with mem := r.memory.elim c.mem (Function.update c.mem t.node)
               root := r.root.getD c.root }
  | .call _ _ => c

/-- An operation starts, or goes on as the task `t` after its call. -/
def launch (t : Task ι) : System ι := settle { c with tasks := c.tasks ++ [t] } t

def resume (n : Nat) (t : Task ι) : System ι := settle { c with tasks := c.tasks.set n t } t

/-- One event. -/
def step : Event ι → System ι
  | .elect l => { c with leader := l }
  | .catchUp i => { c with behind := Function.update c.behind i (c.behind i).tail }
  | .sealNode i =>
      if c.blocked i (some true) then c else { c with mem := Function.update c.mem i none }
  | .stop i =>
      { c with mem := Function.update c.mem i none
               tasks := c.tasks.map fun t =>
                 if t.node = i then { t with code := ret ⟨none, none⟩ } else t }
  | .start i op =>
      if c.blocked i op.lock then c else c.launch ⟨i, op, op.code E (c.mem i)⟩
  | .call n o =>
      match c.tasks[n]? with
      | some ⟨i, op, .call q k⟩ =>
          (c.request E i o q).2.resume n ⟨i, op, k (c.request E i o q).1⟩
      | _ => c

end System

/-! ## What has to hold -/

/-- The entries that carry data: not the barrier's own, not the replicated wrapped root key. -/
def secretKeys : DataKeys := ⟨fun k => ¬ Reserved k ∧ k ≠ sealMetaKey, And.left⟩

instance : DecidablePred secretKeys.mem := fun k =>
  inferInstanceAs (Decidable (¬ Reserved k ∧ k ≠ sealMetaKey))

/-- No rotation or rekeying is running, on the node `i` or at all. -/
def System.Unlocked (c : System ι) (i : ι) : Prop :=
  ∀ t ∈ c.tasks, t.running = true → t.op.rewrites = true → t.node ≠ i

def System.Steady (c : System ι) : Prop :=
  ∀ t ∈ c.tasks, t.running = true → t.op.rewrites = false

/-- Nothing is running, and the node has applied every committed write. -/
def System.Quiet (c : System ι) (i : ι) : Prop :=
  (∀ t ∈ c.tasks, t.running = false) ∧ c.behind i = []

/-- The stored keyring opens under the root key of the last successful rekeying and decrypts
    every data entry, and so does every unsealed node, in the committed store and in its own;
    a node that is rotating answers no reads. -/
def Coherent (E : Env) (c : System ι) : Prop :=
  (∃ d, loadStore E c.root c.world.store = .ok d ∧ Readable secretKeys d c.world.store) ∧
    ∀ i m, c.mem i = some m → c.Unlocked i →
      ∀ s ∈ c.world.store :: c.behind i, Readable secretKeys m s

/-- When an operation may start: unsealing on a node that has applied every write, a rotation
    while nothing else is running. For a data-key rotation no other node is unsealed, the node
    holds the current root key, and no entry is sealed under the next version. -/
def Op.Fit (c : System ι) (i : ι) : Op → Prop
  | .unsealWith _ => c.mem i = none → c.behind i = []
  | .rekey _ => ∀ m ∈ c.mem i, c.Quiet i
  | .rotateDataKey _ => ∀ m ∈ c.mem i, c.Quiet i ∧ (∀ j, j ≠ i → c.mem j = none) ∧
      m.rootKey = c.root ∧ Unused c.world.store (m.active + 1)
  | _ => True

/-- When an event keeps the cluster coherent: nothing starts while a rotation is running, and
    no write of a rotation is lost. -/
def Event.Safe (c : System ι) : Event ι → Prop
  | .start i op => c.blocked i op.lock = false → c.Steady ∧ op.Fit c i
  | .call n .lost => ∀ t ∈ c.tasks[n]?, t.op.rewrites = false
  | _ => True

/-! ## Both can be evaluated -/

instance (c : System ι) (i : ι) : Decidable (c.Unlocked i) :=
  inferInstanceAs (Decidable (∀ t ∈ c.tasks, _ → _ → _))

instance (c : System ι) : Decidable c.Steady :=
  inferInstanceAs (Decidable (∀ t ∈ c.tasks, _ → _))

instance (c : System ι) (i : ι) : Decidable (c.Quiet i) := inferInstanceAs (Decidable (_ ∧ _))

instance [Fintype ι] (E : Env) (c : System ι) : Decidable (Coherent E c) :=
  decidable_of_iff
    (((loadStore E c.root c.world.store).toOption.any
        fun d => decide (Readable secretKeys d c.world.store)) ∧
      ∀ i, ∀ m ∈ c.mem i, c.Unlocked i →
        ∀ s ∈ c.world.store :: c.behind i, Readable secretKeys m s) <| by
    unfold Coherent
    refine and_congr ?_ Iff.rfl
    cases loadStore E c.root c.world.store <;> simp [Except.toOption]

instance [Fintype ι] (c : System ι) (i : ι) (op : Op) : Decidable (op.Fit c i) := by
  cases op <;> unfold Op.Fit <;> infer_instance

instance [Fintype ι] (c : System ι) (ev : Event ι) : Decidable (ev.Safe c) :=
  match ev with
  | .start _ _ => inferInstanceAs (Decidable (_ → _ ∧ _))
  | .call _ .lost => inferInstanceAs (Decidable (∀ t ∈ _, _))
  | .elect _ | .catchUp _ | .sealNode _ | .stop _ | .call _ .ok | .call _ .failed => isTrue trivial

end Tuck.Cluster
