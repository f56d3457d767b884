/-
  The token operations of the core. Each reading of the clock is a parameter `now`.

  Every operation that changes a token reads the whole record, changes a field and writes the
  whole record back, with nothing in between that would keep others away.
-/
import Tuck.Token.Store

namespace Tuck.Core

open Tuck.Base

variable (sha256 : Bytes → Bytes)

/-! ## Identity -/

def authenticate (id : Bytes) (now : Int) : Logical Token :=
  (Token.get sha256 id).bind fun
    | .ok tok => .ret (if tok.isExpired now then .error .tokenInvalid else .ok tok)
    | .error _ => .ret (.error .tokenInvalid)

def trackUse (id : Bytes) : Logical Unit :=
  (Token.get sha256 id).bind fun
    | .error _ => .ret (.error .tokenInvalid)
    | .ok tok =>
        if tok.maxUses = 0 then .ret (.ok ())
        else if tok.maxUses < tok.useCount + 1 then
          (Token.delete sha256 tok.id).ignore.bind fun _ => .ret (.error .tokenInvalid)
        else
          (Token.put sha256 { tok with useCount := tok.useCount + 1 }).ignore.bind fun _ =>
            .ret (.ok ())

/-! ## Creation -/

abbrev TokenOpt := Token → Token

def withRenewable (maxTTL : Int) : TokenOpt :=
  fun t => { t with renewable := true, maxTTL := maxTTL }

def withMaxUses (n : Int) : TokenOpt := fun t => { t with maxUses := n }

def withNamespace (ns : Bytes) : TokenOpt := fun t => { t with ns := ns }

def withPeriod (period : Int) : TokenOpt := fun t => { t with period := period, renewable := true }

def withOrphan : TokenOpt := fun t => { t with orphan := true, parentID := [] }

def withParent (parentID : Bytes) : TokenOpt := fun t =>
  if t.orphan then t else { t with parentID := parentID }

/-- The option that a login through LDAP adds. -/
def withAuthMethod (method : Bytes) : TokenOpt := fun t => { t with authMethod := method }

def loginTokenOpts (ns : Bytes) : List TokenOpt :=
  withRenewable 0 :: if ns ≠ [] then [withNamespace ns] else []

def createToken (displayName : Bytes) (policies : List Bytes) (ttl now : Int)
    (opts : List TokenOpt) :
    Logical Token :=
  (Token.generate displayName policies ttl now).andThen fun tok =>
    let tok := opts.foldl (fun t o => o t) tok
    (Token.put sha256 tok).andThen fun _ => .ret (.ok tok)

def tokenRolePrefix : Bytes := ascii "auth/token-role/"

/-- `CreateTokenFromRole`. The role's own options come first; none of them sets a parent. -/
def createTokenFromRole (roleName displayName : Bytes) (now : Int) (extra : List TokenOpt) :
    Logical Token :=
  (getAs Record.tokenRole? (tokenRolePrefix ++ roleName)).andThen fun role =>
    createToken sha256 (if displayName = [] then ascii "role:" ++ roleName else displayName)
      role.policies role.ttl now
      ((if role.renewable then [withRenewable role.maxTTL] else []) ++
        (if 0 < role.maxUses then [withMaxUses role.maxUses] else []) ++ extra)

/-! ## Renewal -/

/-- The expiry that `RenewToken` sets. -/
def renewedExpiry (tok : Token) (ttl now : Int) : Int :=
  if 0 < tok.period then now + tok.period
  else
    let newExpiry := now + if ttl ≤ 0 then 3600000000000 else ttl
    if 0 < tok.maxTTL ∧ tok.createdAt + tok.maxTTL < newExpiry then tok.createdAt + tok.maxTTL
    else newExpiry

/-- `RenewToken`; the clock is read again for the new expiry. -/
def renewToken (id : Bytes) (ttl now now' : Int) : Logical Token :=
  (Token.get sha256 id).bind fun
    | .error _ => .ret (.error .tokenInvalid)
    | .ok tok =>
        if tok.isExpired now then .ret (.error .tokenInvalid)
        else if !tok.renewable then .ret (.error .notRenewable)
        else
          let tok := { tok with expiresAt := some (renewedExpiry tok ttl now') }
          (Token.put sha256 tok).andThen fun _ => .ret (.ok tok)

/-! ## Narrowing and entities -/

def intersect (have' allowed : List Bytes) : List Bytes := have'.filter fun p => p ∈ allowed

/-- `narrowToken`: whether the token was written with fewer policies. -/
def narrowToken (id : Bytes) (allowed : List Bytes) (now : Int) : KV.Code Record Bool :=
  (Token.get sha256 id).bind fun
    | .error _ => .ret false
    | .ok tok =>
        if tok.isExpired now then .ret false
        else
          let keep := intersect tok.policies allowed
          if keep.length = 0 ∨ keep.length = tok.policies.length then .ret false
          else (Token.put sha256 { tok with policies := keep }).bind fun r => .ret r.isOk

/-- `mergePolicies`, on what was collected so far. -/
def mergePolicies (result : List Bytes) : List Bytes → List Bytes
  | [] => result
  | p :: ps => mergePolicies (if p ∈ result then result else result ++ [p]) ps

/-- `attachEntityToToken`: it writes the copy of the token that the login holds. What the
    identity store answers is a parameter: the entity and the policies it adds. -/
def attachEntityToToken (tok : Token) (entity : Option (Bytes × List Bytes)) :
    KV.Code Record Unit :=
  match entity with
  | none => .ret ()
  | some (entityID, extra) =>
      (Token.put sha256
        { tok with
          entityID := entityID
          policies := mergePolicies [] (tok.policies ++ extra) }).ignore

/-! ## Revocation -/

def cubbyholePrefix : Bytes := ascii "cubbyhole/"

def purgeToken (id : Bytes) : Logical Unit :=
  (KV.list .storage (cubbyholePrefix ++ (id ++ [0x2F]))).andThen fun keys =>
    (Prog.each (fun k => (KV.delete Err.storage k : Logical Unit)) keys).bind fun _ => .ret (.ok ())

def revokeToken (id : Bytes) : Logical Unit :=
  (purgeToken id).ignore.bind fun _ => Token.delete sha256 id

def revokeTokenByAccessor (acc : Bytes) : Logical Unit :=
  (Token.getByAccessor sha256 acc).bind fun r =>
    (match r with
      | .ok tok => (purgeToken tok.id).ignore
      | .error _ => .ret ()).bind fun _ =>
      Token.deleteByAccessor sha256 acc

/-- The loop over the children: errors are ignored, but a call that does not return ends it. -/
def treeLoop (f : Bytes → KV.Code Record (Option (Except Err Unit))) :
    List Bytes → KV.Code Record (Option Unit)
  | [] => .ret (some ())
  | c :: cs => (f c).bind fun
      | none => .ret none
      | some _ => treeLoop f cs

/-- `RevokeTokenTree`, with a bound on the depth of the recursion; `none` is a call that does
    not return within it. -/
def revokeTokenTree : Nat → Bytes → KV.Code Record (Option (Except Err Unit))
  | 0, _ => .ret none
  | depth + 1, id =>
      (Token.children sha256 id).bind fun r =>
        (match r with
          | .ok children => treeLoop (revokeTokenTree depth) children
          | .error _ => .ret (some ())).bind fun
          | none => .ret none
          | some _ =>
              (purgeToken id).ignore.bind fun _ =>
                (Token.delete sha256 id).bind fun r => .ret (some r)

/-- `runGC`, as far as tokens go. -/
def runGC (now : Int) : KV.Code Record Unit :=
  (Token.listExpired now).bind fun
    | .error _ => .ret ()
    | .ok expired =>
        Prog.each (fun id => (Token.delete sha256 id).ignore.bind fun _ => (purgeToken id).ignore)
          expired

end Tuck.Core
