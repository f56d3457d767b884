/-
  Response wrapping: a JSON payload is stored under a random ID and handed out once. The
  store keeps lifetime counters, in memory after their first use and persisted at each
  change; `mem` is the copy in memory, `none` before the first use.

  Each reading of the clock is a parameter. All operations of one store run under one mutex,
  so that each is a program of its own.
-/
import Tuck.Core.Record
import Tuck.Base.Compact
import Tuck.Base.Base64

namespace Tuck.Wrapping

open Tuck.Base

def storagePrefix : Bytes := ascii "sys/wrapping/"

def statsKey : Bytes := ascii "sys/wrapping-stats"

def tokenPrefix : Bytes := ascii "tuck_wrap_"

def accessorPrefix : Bytes := ascii "tuck_wacc_"

/-- Five minutes, in nanoseconds as all times. -/
def defaultTTL : Int := 300000000000

/-- A day. -/
def maxTTL : Int := 86400000000000

def maxCreationPathLen : Nat := 256

/-- `Meta`: who wrapped a response. -/
structure Creator where
  creatorAccessor : Bytes
  creatorFingerprint : Bytes
  creatorName : Bytes
  ns : Bytes
  creationPath : Bytes

/-- `Capsule`: what is shown of a wrapped response. -/
structure Capsule where
  accessor : Bytes
  createdAt : Int
  expiresAt : Int
  /-- In seconds. -/
  creationTTL : Int
  size : Nat
  ns : Bytes
  creatorAccessor : Bytes
  creatorFingerprint : Bytes
  creatorName : Bytes
  creationPath : Bytes
  deriving DecidableEq

structure TokenInfo where
  createdAt : Int
  expiresAt : Int
  creationTTL : Int
  deriving DecidableEq

/-- Whole seconds of a duration. -/
def seconds (d : Int) : Int := d.tdiv 1000000000

section

variable (sha256 : Bytes → Bytes)

def accessorOf (id : Bytes) : Bytes :=
  accessorPrefix ++ rawURLEncode ((sha256 (ascii "tuck-wrapping-accessor/" ++ id)).take 16)

def capsuleOf (id : Bytes) (r : WrapRecord) : Capsule where
  accessor := accessorOf sha256 id
  createdAt := r.createdAt
  expiresAt := r.expiresAt
  creationTTL := seconds (r.expiresAt - r.createdAt)
  size := r.payload.length
  ns := if r.ns = [] then Namespace.rootNamespace else r.ns
  creatorAccessor := r.creatorAccessor
  creatorFingerprint := r.creatorFingerprint
  creatorName := r.creatorName
  creationPath := r.creationPath

end

/-- `tokenID`: empty if the token does not have the prefix. -/
def tokenID (token : Bytes) : Bytes :=
  if hasPrefix token tokenPrefix then trimPrefix token tokenPrefix else []

/-- `json.Marshal` of the payload; `none` is the nil message. -/
def marshalPayload : Option Bytes → Option Bytes
  | none => some (ascii "null")
  | some text => compact text

/-- `json.Unmarshal` of a record. The payload is nested one deeper here than where it was
    marshalled. -/
def unmarshal : Record → Option WrapRecord
  | .wrapped r =>
      match Json.parse r.payload with
      | some j => if j.depth < maxNestingDepth then some r else none
      | none => none
  | _ => none

/-! ## Counters -/

/-- The counters, each incremented by some operation. -/
inductive Tally where
  | wrapped
  | unwrapped
  | expired
  | revoked
  deriving DecidableEq

def Stats.count : Tally → Stats → Stats
  | .wrapped, st => { st with wrapped := st.wrapped + 1 }
  | .unwrapped, st => { st with unwrapped := st.unwrapped + 1 }
  | .expired, st => { st with expired := st.expired + 1 }
  | .revoked, st => { st with revoked := st.revoked + 1 }

/-- `loadStats`: the counters in memory, or those that are stored. -/
def loadStats (now : Int) : Option Stats → Logical Stats
  | some st => .ret (.ok st)
  | none =>
      (KV.get .storage statsKey).andThen fun
        | none => .ret (.ok ⟨0, 0, 0, 0, some now⟩)
        | some r =>
            match r.wrapStats? with
            | some st => .ret (.ok { st with since := st.since.or (some now) })
            | none => .ret (.error .decode)

/-- `bump`: the counters in memory afterwards. A failure to store them is not reported. -/
def bump (t : Tally) (now : Int) (mem : Option Stats) : KV.Code Record (Option Stats) :=
  (loadStats now mem).bind fun
    | .error _ => .ret mem
    | .ok st =>
        (KV.put Err.storage statsKey (.wrapStats (st.count t))).bind fun _ =>
          .ret (some (st.count t))

/-! ## Operations -/

/-- An operation: its result, and the counters in memory. -/
abbrev Act (α : Type) := Option Stats → KV.Code Record (Except Err α × Option Stats)

/-- The lifetime that `WrapWithMeta` makes of the one asked for. -/
def effectiveTTL (ttl : Int) : Int :=
  let ttl := if ttl = 0 then defaultTTL else ttl
  if maxTTL < ttl then maxTTL else ttl

/-- The record of a wrapped response. -/
def wrapRecord (text : Bytes) (ttl : Int) (m : Creator) (now : Int) : WrapRecord where
  payload := text
  createdAt := now
  expiresAt := now + effectiveTTL ttl
  creatorAccessor := m.creatorAccessor
  creatorFingerprint := m.creatorFingerprint
  creatorName := m.creatorName
  ns := if m.ns = Namespace.rootNamespace then [] else m.ns
  creationPath := m.creationPath.take maxCreationPathLen

/-- `WrapWithMeta`: the token and its expiry. -/
def wrapWithMeta (payload : Option Bytes) (ttl : Int) (m : Creator) (now : Int) :
    Act (Bytes × Int) :=
  fun mem =>
    (KV.rand Err.rand 32).bind fun
      | .error e => .ret (.error e, mem)
      | .ok raw =>
          let id := rawURLEncode raw
          match marshalPayload payload with
          | none => .ret (.error .encode, mem)
          | some text =>
              (KV.put Err.storage (storagePrefix ++ id)
                (.wrapped (wrapRecord text ttl m now))).bind fun
                | .error e => .ret (.error e, mem)
                | .ok _ =>
                    (bump .wrapped now mem).bind fun mem =>
                      .ret (.ok (tokenPrefix ++ id, now + effectiveTTL ttl), mem)

/-- `Unwrap`: the record is deleted before its expiry is looked at. -/
def unwrap (token : Bytes) (now : Int) : Act Bytes := fun mem =>
  let id := tokenID token
  if id = [] then .ret (.error .notFound, mem)
  else
    (getAs unmarshal (storagePrefix ++ id)).bind fun
      | .error e => .ret (.error e, mem)
      | .ok r =>
          (KV.delete Err.storage (storagePrefix ++ id)).bind fun
            | .error e => .ret (.error e, mem)
            | .ok _ =>
                if r.expiresAt < now then
                  (bump .expired now mem).bind fun mem => .ret (.error .expired, mem)
                else (bump .unwrapped now mem).bind fun mem => .ret (.ok r.payload, mem)

def lookup (token : Bytes) (now : Int) : Act TokenInfo := fun mem =>
  let id := tokenID token
  if id = [] then .ret (.error .notFound, mem)
  else
    (getAs unmarshal (storagePrefix ++ id)).bind fun
      | .error e => .ret (.error e, mem)
      | .ok r =>
          if r.expiresAt < now then
            (KV.delete Err.storage (storagePrefix ++ id)).bind fun
              | .error _ => .ret (.error .expired, mem)
              | .ok _ => (bump .expired now mem).bind fun mem => .ret (.error .expired, mem)
          else
            .ret (.ok ⟨r.createdAt, r.expiresAt, seconds (r.expiresAt - r.createdAt)⟩, mem)

/-- `revokeKey`: an unreadable record is removed all the same, an expired one counts as
    expired and is reported as not found. -/
def revokeKey (key : Bytes) (now : Int) : Act Unit := fun mem =>
  (KV.get Err.storage key).bind fun
    | .error e => .ret (.error e, mem)
    | .ok none => .ret (.error .notFound, mem)
    | .ok (some e) =>
        (KV.delete Err.storage key).bind fun
          | .error e => .ret (.error e, mem)
          | .ok _ =>
              match unmarshal e with
              | none => (bump .revoked now mem).bind fun mem => .ret (.ok (), mem)
              | some r =>
                  if r.expiresAt < now then
                    (bump .expired now mem).bind fun mem => .ret (.error .notFound, mem)
                  else (bump .revoked now mem).bind fun mem => .ret (.ok (), mem)

def revoke (token : Bytes) (now : Int) : Act Unit := fun mem =>
  let id := tokenID token
  if id = [] then .ret (.error .notFound, mem) else revokeKey (storagePrefix ++ id) now mem

/-- The loop of `scan`: the live records, by their keys. -/
def scanKeys (now : Int) : List Bytes → Option Stats →
    KV.Code Record (List (Bytes × WrapRecord) × Option Stats)
  | [], mem => .ret ([], mem)
  | k :: ks, mem =>
      (getAs unmarshal k).bind fun
        | .error _ => scanKeys now ks mem
        | .ok r =>
            if r.expiresAt < now then
              (KV.delete Err.storage k).bind fun
                | .error _ => scanKeys now ks mem
                | .ok _ => (bump .expired now mem).bind fun mem => scanKeys now ks mem
            else
              (scanKeys now ks mem).bind fun res => .ret ((k, r) :: res.1, res.2)

def scan (now : Int) : Act (List (Bytes × WrapRecord)) := fun mem =>
  (KV.list Err.storage storagePrefix).bind fun
    | .error e => .ret (.error e, mem)
    | .ok keys => (scanKeys now keys mem).bind fun res => .ret (.ok res.1, res.2)

def revokeExpired (now : Int) : Act Unit := fun mem =>
  (scan now mem).bind fun res => .ret (res.1.map fun _ => (), res.2)

/-- The order of `List`: newest first, then by accessor. -/
def Capsule.before (a b : Capsule) : Bool :=
  if a.createdAt = b.createdAt then a.accessor ≤ b.accessor else b.createdAt < a.createdAt

def stats (now : Int) : Act Stats := fun mem =>
  (loadStats now mem).bind fun
    | .error e => .ret (.error e, mem)
    | .ok st => .ret (.ok st, some st)

section

variable (sha256 : Bytes → Bytes)

def list (keep : Option (Capsule → Bool)) (now : Int) : Act (List Capsule) := fun mem =>
  (scan now mem).bind fun res =>
    .ret (res.1.map fun live =>
      ((live.map fun e => capsuleOf sha256 (trimPrefix e.1 storagePrefix) e.2).filter fun c =>
        keep.all fun f => f c).mergeSort Capsule.before, res.2)

/-- `RevokeByAccessor`; the clock is read again for the record that is removed. -/
def revokeByAccessor (accessor : Bytes) (allow : Option (Capsule → Bool)) (now later : Int) :
    Act Unit := fun mem =>
  if !hasPrefix accessor accessorPrefix then .ret (.error .notFound, mem)
  else
    (scan now mem).bind fun
      | (.error e, mem) => .ret (.error e, mem)
      | (.ok live, mem) =>
          match live.find? fun e => accessorOf sha256 (trimPrefix e.1 storagePrefix) = accessor with
          | none => .ret (.error .notFound, mem)
          | some (key, r) =>
              if allow.all fun f => f (capsuleOf sha256 (trimPrefix key storagePrefix) r) then
                revokeKey key later mem
              else .ret (.error .notFound, mem)

end

end Tuck.Wrapping
