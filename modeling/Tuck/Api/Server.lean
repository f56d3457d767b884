/-
  What the handlers share: the responses, the mapping of errors, and the gate that every
  authenticated request passes (`requireToken`).

  A handler is a program that ends with a refusal (a status and a reason) or with a status and
  a body. The gate decides which token and which namespace the handler sees: a token that is
  bound to a namespace is only let in there, and the namespace has to exist.
-/
import Tuck.Core.Access
import Tuck.Core.Namespaces

namespace Tuck.Api

open Tuck.Base Tuck.Core

/-- The "error" of a response: a text of the handler, or the text of an error. -/
inductive Reason where
  | text (msg : Bytes)
  | err (e : Err)
  deriving DecidableEq

structure Refusal where
  status : Nat
  reason : Reason
  deriving DecidableEq

/-- A refusal with a text of its own. -/
def refuse (status : Nat) (msg : String) : Refusal := ⟨status, .text (ascii msg)⟩

/-- What a handler ends with. -/
abbrev Answer (α : Type) := KV.Code Record (Except Refusal α)

def writeErr : Err → Refusal
  | .tokenInvalid => refuse 401 "invalid token"
  | .unauthorized => refuse 403 "permission denied"
  | .notRenewable => refuse 400 "token is not renewable"
  | e => ⟨500, .err e⟩

/-- A call to the core whose error becomes a refusal. -/
def orRefuse {α : Type} (refusal : Err → Refusal) (p : Logical α) : Answer α :=
  p.bind fun
    | .ok a => .ret (.ok a)
    | .error e => .ret (.error (refusal e))

/-- The headers of a request that the gate reads. -/
structure Headers where
  token : Bytes
  ns : Bytes

/-- What the gate leaves for the handler: `tokenFromCtx` and `nsFromCtx`. -/
structure Ctx where
  token : Bytes
  ns : Bytes
  deriving DecidableEq

section

variable (sha256 : Bytes → Bytes)

/-- The namespace of a request; `none` if the header asks for another one than the token's. -/
def requestNamespace (tok : Token) (header : Bytes) : Option Bytes :=
  if Namespace.isRoot tok.ns then some header
  else if header ≠ [] ∧ header ≠ tok.ns then none
  else some tok.ns

def requireToken (h : Headers) (now : Int) : Answer Ctx :=
  if h.token = [] then .ret (.error (refuse 401 "missing X-Tuck-Token header"))
  else
    (authenticate sha256 h.token now).bind fun
      | .error _ => .ret (.error (refuse 401 "invalid or expired token"))
      | .ok tok =>
          (trackUse sha256 h.token).bind fun
            | .error _ => .ret (.error (refuse 401 "token has exceeded its use limit"))
            | .ok _ =>
                match requestNamespace tok h.ns with
                | none => .ret (.error (refuse 403 "permission denied"))
                | some ns =>
                    if Namespace.isRoot ns then .ret (.ok ⟨h.token, []⟩)
                    else
                      (getNamespace ns).bind fun
                        | .error _ => .ret (.error (refuse 404 "namespace not found"))
                        | .ok _ => .ret (.ok ⟨h.token, ns⟩)

/-- `EnforceAccess` in a handler. -/
def enforce (ctx : Ctx) (path : Bytes) (cap : Policy.Capability) (now : Int) : Answer Unit :=
  orRefuse writeErr (enforceAccess sha256 ctx.token path cap now)

end

theorem calls_orRefuse {α : Type} {reply : (c : KV.Call Record) → c.Reply → Prop}
    {P : KV.Call Record → Prop} {refusal : Err → Refusal} {p : Logical α}
    (h : Prog.Calls reply P p) :
    Prog.Calls reply P (orRefuse refusal p) := by
  refine h.bind ?_
  rintro (e | a) <;> trivial

/-- A root token and nothing else. -/
def rootTokenWorld : LogicalWorld where
  store := (∅ : LogicalStore).insert (Token.tokenKey (fun m => m) (ascii "t"))
    (.token (plainToken (ascii "t") [] [Policy.rootPolicyName]))
  rng := Stream'.const 0

end Tuck.Api
