/-
  The Shamir seal: the shares received so far. `acceptShard` is the only operation that grows
  them; the share that completes the threshold gives the root key back.
-/
import Tuck.Seal.Shamir
import Tuck.Base.Base64
import Tuck.Base.Json

namespace Tuck.Seal

open Tuck.Base Host Prog Shamir

/-- The errors of `AcceptShard`. -/
inductive Err where
  | alreadyUnsealed
  | decodeShare
  | shareTooShort (n : Nat)
  | duplicateShard (x : UInt8)
  | combine (e : Shamir.Err)
  deriving DecidableEq

/-- The numbers of a Shamir seal, as `NewShamir` accepts them. -/
structure ShamirConfig where
  n : Nat
  k : Nat
  two_le_k : 2 ≤ k
  k_le_n : k ≤ n
  n_le : n ≤ 255
  deriving DecidableEq

/-! ## Collecting shards -/

/-- The state of a Shamir seal. -/
structure ShamirSeal extends ShamirConfig where
  received : List Bytes
  done : Bool

namespace ShamirSeal

def reset (s : ShamirSeal) : ShamirSeal := { s with received := [], done := false }

/-- `AcceptShard` with a share that passed the first checks. -/
def collect (s : ShamirSeal) (raw : Bytes) : ShamirSeal × Except Err (Option Bytes) :=
  if (s.received ++ [raw]).length < s.k then ({ s with received := s.received ++ [raw] }, .ok none)
  else
    match Shamir.combine ((s.received ++ [raw]).take s.k) with
    -- the buffer keeps the shares that did not combine
    | .error e => ({ s with received := s.received ++ [raw] }, .error (.combine e))
    | .ok key => ({ s with received := [], done := true }, .ok (some key))

/-- `AcceptShard`: the key once the threshold is reached. -/
def acceptShard (s : ShamirSeal) (share : Bytes) : ShamirSeal × Except Err (Option Bytes) :=
  if s.done then (s, .error .alreadyUnsealed)
  else
    match rawURLDecode share with
    | none => (s, .error .decodeShare)
    | some raw =>
        if raw.length < 2 then (s, .error (.shareTooShort raw.length))
        else if xCoord raw ∈ s.received.map xCoord then
          (s, .error (.duplicateShard (xCoord raw)))
        else s.collect raw

end ShamirSeal

end Tuck.Seal
