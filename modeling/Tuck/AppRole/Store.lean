/-
  AppRole: logins with a role ID and a SecretID. A SecretID with a limited number of uses
  carries the number of uses left; a login reads the record, takes one off and writes it back,
  or deletes the record at the last use, and drops the error of that call.

  Which addresses a CIDR contains is a parameter.
-/
import Tuck.Core.Record
import Tuck.Base.Base64
import Tuck.Base.Paths

namespace Tuck.AppRole

open Tuck.Base

def rolesPrefix : Bytes := ascii "auth/approle/roles/"

def secretIDsPrefix : Bytes := ascii "auth/approle/secret-ids/"

def roleKey (name : Bytes) : Bytes := rolesPrefix ++ name

def secretKey (id : Bytes) : Bytes := secretIDsPrefix ++ id

def generateID : Logical Bytes :=
  (KV.rand .rand 32).andThen fun raw => .ret (.ok (rawURLEncode raw))

/-! ## Roles -/

/-- `PutRole`: a role without a role ID gets a random one. -/
def putRole (r : Role) : Logical Unit :=
  let withID : Logical Role :=
    if r.roleID = [] then generateID.andThen fun id => .ret (.ok { r with roleID := id })
    else .ret (.ok r)
  withID.andThen fun r => KV.put .storage (roleKey r.name) (.appRole r)

def getRole (name : Bytes) : Logical Role := getAs Record.appRole? (roleKey name)

def deleteRole (name : Bytes) : Logical Unit := KV.delete .storage (roleKey name)

def listRoles : Logical (List Bytes) :=
  (KV.list .storage rolesPrefix).andThen fun keys =>
    .ret (.ok (keys.map fun k => trimPrefix k rolesPrefix))

/-! ## SecretIDs -/

/-- `time.Now().After(sid.ExpiresAt)`, unless the expiry is the zero time. -/
def SecretID.isExpired (sid : SecretID) (now : Int) : Bool := sid.expiresAt.any fun t => t < now

def lookupSecretID (id : Bytes) : Logical SecretID := getAs Record.secretID? (secretKey id)

def destroySecretID (id : Bytes) : Logical Unit := KV.delete .storage (secretKey id)

/-! ## Login -/

structure LoginResult where
  subject : Bytes
  policies : List Bytes
  ttl : Int
  tuckNamespace : Bytes
  deriving DecidableEq

/-- One hour. -/
def defaultTTL : Int := 3600000000000

def loginResult (role : Role) : LoginResult where
  subject := ascii "approle:" ++ role.name
  policies := role.policies
  ttl := if role.tokenTTL ≤ 0 then defaultTTL else role.tokenTTL
  tuckNamespace := role.tuckNamespace

/-- The first of the roles that has the role ID; roles that cannot be read are skipped. -/
def findRole (roleID : Bytes) : List Bytes → KV.Code Record (Option Role)
  | [] => .ret none
  | k :: ks =>
      (getAs Record.appRole? k).bind fun
        | .error _ => findRole roleID ks
        | .ok r => if r.roleID = roleID then .ret (some r) else findRole roleID ks

/-- Take one use; the error of the call is dropped. -/
def consume (secretIDVal : Bytes) (sid : SecretID) : KV.Code Record Unit :=
  if 0 < sid.numUses then
    let left := sid.usesLeft - 1
    if left ≤ 0 then (KV.delete Err.storage (secretKey secretIDVal)).bind fun _ => .ret ()
    else
      (KV.put Err.storage (secretKey secretIDVal) (.secretID { sid with usesLeft := left })).bind
        fun _ => .ret ()
  else .ret ()

section

variable (cidrContains : List Bytes → Bytes → Bool)

/-- The address is not in the CIDRs of the SecretID or, if it has none, of the role. -/
def outsideCIDRs (role : Role) (sid : SecretID) (remoteIP : Bytes) : Bool :=
  let cidrs := if sid.boundCIDRs = [] then role.boundCIDRs else sid.boundCIDRs
  !cidrs.isEmpty && !remoteIP.isEmpty && !cidrContains cidrs remoteIP

/-- The checks of `Login` on the SecretID that was read, and the use. -/
def loginWith (role : Role) (secretIDVal remoteIP : Bytes) (now : Int) (sid : SecretID) :
    Logical LoginResult :=
  if sid.roleName ≠ role.name then .ret (.error .invalidCredentials)
  else if sid.isExpired now then
    (KV.delete Err.storage (secretKey secretIDVal)).bind fun _ => .ret (.error .invalidCredentials)
  else if outsideCIDRs cidrContains role sid remoteIP then .ret (.error .invalidCredentials)
  else (consume secretIDVal sid).bind fun _ => .ret (.ok (loginResult role))

def login (roleID secretIDVal remoteIP : Bytes) (now : Int) : Logical LoginResult :=
  (KV.list .storage rolesPrefix).andThen fun names =>
    (findRole roleID names).bind fun
      | none => .ret (.error .invalidCredentials)
      | some role =>
          (getAs Record.secretID? (secretKey secretIDVal)).bind fun
            | .error _ => .ret (.error .invalidCredentials)
            | .ok sid => loginWith cidrContains role secretIDVal remoteIP now sid

end

end Tuck.AppRole
