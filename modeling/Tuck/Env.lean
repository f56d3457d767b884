/-
  What the code asks of its surroundings: the storage backend and the random source. Each is
  a call of `Code`, and `handle` is what the call does to the world when it does not fail.

  The backend is a map from keys to values. It lists keys in no particular order, which is
  the parameter `order`.
-/
import Tuck.Base.Prog
import Tuck.Barrier.Suite

namespace Tuck.Host

open Tuck.Base Prog Barrier

/-- `sealMetaKey`: the wrapped root key, which the core writes straight to the backend. -/
def sealMetaKey : Bytes := ascii "core/seal-meta"

/-- The physical store. -/
abbrev Store := AList (fun _ : Bytes => Bytes)

/-- The random source: a stream of bytes. -/
abbrev Rng := Nat → UInt8

/-- The world of one process: the backend and its random source. -/
structure World where
  store : Store
  rng : Rng

/-- What lies outside the repository. -/
structure Env where
  /-- The registered cipher suites. -/
  suites : List Suite
  /-- HMAC-SHA-256: key and message. -/
  hmac : Bytes → Bytes → Bytes
  /-- The order in which the backend lists keys. -/
  order : List Bytes → List Bytes
  hmac_length : ∀ k m, (hmac k m).length = 32
  order_perm : ∀ l, (order l).Perm l

/-- A call to the surroundings. -/
inductive Call where
  | get (key : Bytes)
  | put (key value : Bytes)
  | delete (key : Bytes)
  | list (pre : Bytes)
  | rand (n : Nat)
  /-- Bytes drawn one at a time until one is not zero. -/
  | randNonzero
  deriving DecidableEq

/-- The calls that change the backend. -/
def Call.isWrite : Call → Bool
  | .put _ _ => true
  | .delete _ => true
  | _ => false

/-- What a call returns; an absent entry is `none`. -/
def Call.Reply : Call → Type
  | .get _ => Option Bytes
  | .put _ _ => Unit
  | .delete _ => Unit
  | .list _ => List Bytes
  | .rand _ => Bytes
  | .randNonzero => UInt8

abbrev Code (α : Type) := Prog Call Call.Reply α

section

variable {ε : Type} (e : ε)

/-- `backend.Get`, with its error. -/
def backendGet (k : Bytes) : Code (Except ε (Option Bytes)) := attempt e (Call.get k)

def backendPut (k v : Bytes) : Code (Except ε Unit) := attempt e (Call.put k v)

def backendDelete (k : Bytes) : Code (Except ε Unit) := attempt e (Call.delete k)

def backendList (pre : Bytes) : Code (Except ε (List Bytes)) := attempt e (Call.list pre)

/-- `n` bytes of `rand.Reader`. -/
def randBytes (n : Nat) : Code (Except ε Bytes) := attempt e (Call.rand n)

def randNonzero : Code (Except ε UInt8) := attempt e Call.randNonzero

end

/-- The next `n` bytes. -/
def Rng.take (r : Rng) (n : Nat) : Bytes := (List.range n).map r

/-- The byte a loop that draws until it has a non-zero one ends with. -/
def Rng.nonzero (r : Rng) : UInt8 := if r 0 = 0 then 1 else r 0

def Rng.skip (r : Rng) (n : Nat) : Rng := fun i => r (n + i)

/-- The keys that start with a prefix. -/
def listPrefix (s : Store) (pre : Bytes) : List Bytes := s.keys.filter fun k => hasPrefix k pre

/-- The effect of a call that succeeds. -/
def handle (E : Env) : (c : Call) → World → c.Reply × World
  | .get k, w => (w.store.lookup k, w)
  | .put k v, w => ((), { w with store := w.store.insert k v })
  | .delete k, w => ((), { w with store := w.store.erase k })
  | .list pre, w => (E.order (listPrefix w.store pre), w)
  | .rand n, w => (w.rng.take n, { w with rng := w.rng.skip n })
  | .randNonzero, w => (w.rng.nonzero, { w with rng := w.rng.skip 1 })

section

variable {ε : Type} (E : Env) (e : ε) (w : World)

@[simp] theorem run_backendGet (k : Bytes) :
    run (handle E) (backendGet e k) w = (.ok (w.store.lookup k), w) := rfl

@[simp] theorem run_backendList (pre : Bytes) :
    run (handle E) (backendList e pre) w = (.ok (E.order (listPrefix w.store pre)), w) := rfl

@[simp] theorem run_randBytes (n : Nat) :
    run (handle E) (randBytes e n) w = (.ok (w.rng.take n), { w with rng := w.rng.skip n }) := rfl

end

@[simp] theorem Rng.take_length (r : Rng) (n : Nat) : (r.take n).length = n := by
  simp [Rng.take]

theorem mem_order {E : Env} {k : Bytes} {l : List Bytes} : k ∈ E.order l ↔ k ∈ l :=
  (E.order_perm l).mem_iff

theorem mem_listPrefix {s : Store} {k pre : Bytes} :
    k ∈ listPrefix s pre ↔ (s.lookup k).isSome = true ∧ pre <+: k := by
  unfold listPrefix
  rw [List.mem_filter, hasPrefix_iff, AList.lookup_isSome, ← AList.mem_keys]

/-! ## The calls in the program logic -/

section

variable {E : Env} {faulty : Prop} {inv : World → Prop} {w : World} {ε : Type} {e : ε}

theorem safe_randBytes {n : Nat} {post : Except ε Bytes → World → Prop}
    (hinv : inv w) (herr : faulty → post (.error e) w)
    (hok : ∀ bs r, bs.length = n → post (.ok bs) { w with rng := r }) :
    Safe (handle E) faulty inv post (randBytes e n) w :=
  Safe.attempt hinv herr (hok _ _ (Rng.take_length w.rng n))

theorem safe_backendGet {k : Bytes} {post : Except ε (Option Bytes) → World → Prop}
    (hinv : inv w) (herr : faulty → post (.error e) w) (hok : post (.ok (w.store.lookup k)) w) :
    Safe (handle E) faulty inv post (backendGet e k) w :=
  Safe.attempt hinv herr hok

theorem safe_backendPut {k v : Bytes} {post : Except ε Unit → World → Prop}
    (hinv : inv w) (herr : faulty → post (.error e) w)
    (hok : post (.ok ()) { w with store := w.store.insert k v }) :
    Safe (handle E) faulty inv post (backendPut e k v) w :=
  Safe.attempt hinv herr hok

theorem safe_backendList {pre : Bytes} {post : Except ε (List Bytes) → World → Prop}
    (hinv : inv w) (herr : faulty → post (.error e) w)
    (hok : post (.ok (E.order (listPrefix w.store pre))) w) :
    Safe (handle E) faulty inv post (backendList e pre) w :=
  Safe.attempt hinv herr hok

end

/-- Surroundings for runs on concrete inputs: the clear suite, keys listed as they stand. -/
def plainEnv : Env where
  suites := [plainSuite]
  hmac _ _ := List.replicate 32 0
  order l := l
  hmac_length _ _ := rfl
  order_perm _ := List.Perm.refl _

end Tuck.Host
