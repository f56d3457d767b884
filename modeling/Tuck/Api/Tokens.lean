/-
  The requests to the token endpoints.
-/
import Tuck.Core.Tokens

namespace Tuck.Api

open Tuck.Base Tuck.Core

/-- `createTokenReq`, with the durations parsed. -/
structure CreateTokenReq where
  displayName : Bytes
  policies : List Bytes
  ttl : Int
  renewable : Bool
  maxTTL : Int
  maxUses : Int
  period : Int
  orphan : Bool
  noParent : Bool

/-- The options of `createToken`, in the order in which the handler adds them. -/
def CreateTokenReq.opts (req : CreateTokenReq) (creator ns : Bytes) : List TokenOpt :=
  (if req.renewable then [withRenewable req.maxTTL] else []) ++
    (if 0 < req.maxUses then [withMaxUses req.maxUses] else []) ++
    (if 0 < req.period then [withPeriod req.period] else []) ++
    (if req.orphan || req.noParent then [withOrphan] else [withParent creator]) ++
    (if ns ≠ [] then [withNamespace ns] else [])

end Tuck.Api
