/-
  The handlers of the token endpoints.
-/
import Tuck.Api.Server
import Tuck.Api.Tokens

namespace Tuck.Api

open Tuck.Base Tuck.Core

/-- A request body: it cannot be read, it is not the JSON that is expected, or it is. -/
inductive Body (α : Type) where
  | unreadable
  | invalid
  | decoded (a : α)

/-- `createTokenReq`, as it is decoded. -/
structure CreateTokenBody where
  displayName : Bytes
  policies : List Bytes
  ttl : Bytes
  renewable : Bool
  maxTTL : Bytes
  maxUses : Int
  period : Bytes
  orphan : Bool
  noParent : Bool

section

variable (parseDuration : Bytes → Except Bytes Int)

/-- A duration of a request; none given is zero. `parseDuration` is `time.ParseDuration`. -/
def durationField (name : String) (text : Bytes) : Except Refusal Int :=
  if text = [] then .ok 0
  else
    match parseDuration text with
    | .ok d => .ok d
    | .error e => .error ⟨400, .text (ascii "invalid " ++ ascii name ++ ascii ": " ++ e)⟩

/-- The durations of the request, in the order in which the handler parses them. -/
def CreateTokenBody.parse (b : CreateTokenBody) : Except Refusal CreateTokenReq := do
  let ttl ← durationField parseDuration "ttl" b.ttl
  let maxTTL ← durationField parseDuration "max_ttl" b.maxTTL
  let period ← durationField parseDuration "period" b.period
  return ⟨b.displayName, b.policies, ttl, b.renewable, maxTTL, b.maxUses, period,
    b.orphan, b.noParent⟩

variable (sha256 : Bytes → Bytes) (ctx : Ctx) (clock : Nat → Int)

def createToken (body : Body CreateTokenBody) : Answer (Nat × Token) :=
  (enforce sha256 ctx (ascii "auth/token") Policy.capWrite (clock 0)).andThen fun _ =>
    match body with
    | .unreadable => .ret (.error (refuse 400 "read body"))
    | .invalid => .ret (.error (refuse 400 "invalid JSON"))
    | .decoded b =>
        match b.parse parseDuration with
        | .error e => .ret (.error e)
        | .ok req =>
            (orRefuse writeErr (Core.createToken sha256 req.displayName req.policies req.ttl
              (clock 1) (req.opts ctx.token ctx.ns))).andThen fun tok => .ret (.ok (201, tok))

end

end Tuck.Api
