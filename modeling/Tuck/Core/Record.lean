/-
  The records of the logical store, under the barrier's encryption. The stores keep them as
  JSON; here a value is the record itself, and a key that holds a record of another kind is
  one that does not decode.

  `getAs` is the shape of every typed read: a storage error, an absent entry and an entry
  that does not decode are told apart.
-/
import Tuck.Base.KV
import Tuck.Policy.Policy
import Tuck.Namespace.Namespace
import Tuck.Secrets.Entry

namespace Tuck

open Tuck.Base Prog

/-- `Token`. An expiry of `none` is the zero time: the token never expires. -/
structure Token where
  id : Bytes
  accessor : Bytes
  displayName : Bytes
  policies : List Bytes
  /-- The namespace the token is bound to; empty is the root. -/
  ns : Bytes
  entityID : Bytes
  authMethod : Bytes
  createdAt : Int
  expiresAt : Option Int
  renewable : Bool
  maxTTL : Int
  maxUses : Int
  useCount : Int
  period : Int
  parentID : Bytes
  orphan : Bool
  deriving DecidableEq

def Token.isExpired (t : Token) (now : Int) : Bool := t.expiresAt.any fun e => e < now

/-- `token.Role`: a named template for tokens. -/
structure TokenRole where
  name : Bytes
  policies : List Bytes
  ttl : Int
  maxTTL : Int
  maxUses : Int
  renewable : Bool
  period : Int
  deriving DecidableEq

/-- `wrapping.record`: a wrapped response. -/
structure Wrapping.WrapRecord where
  /-- The JSON text of the payload. -/
  payload : Bytes
  createdAt : Int
  expiresAt : Int
  creatorAccessor : Bytes
  creatorFingerprint : Bytes
  creatorName : Bytes
  /-- The namespace the response was wrapped in; empty is the root. -/
  ns : Bytes
  creationPath : Bytes
  deriving DecidableEq

/-- `wrapping.Stats`: lifetime counters. `since` is `none` for the zero time. -/
structure Wrapping.Stats where
  wrapped : UInt64
  unwrapped : UInt64
  expired : UInt64
  revoked : UInt64
  since : Option Int
  deriving DecidableEq

structure AppRole.Role where
  name : Bytes
  roleID : Bytes
  policies : List Bytes
  secretIDTTL : Int
  secretIDNumUses : Int
  tokenTTL : Int
  boundCIDRs : List Bytes
  tuckNamespace : Bytes
  deriving DecidableEq

/-- `approle.SecretID`, without its metadata. An expiry of `none` is the zero time. -/
structure AppRole.SecretID where
  id : Bytes
  roleName : Bytes
  createdAt : Int
  expiresAt : Option Int
  numUses : Int
  usesLeft : Int
  boundCIDRs : List Bytes
  deriving DecidableEq

/-- `identity.Entity`, without metadata and times. -/
structure Identity.Entity where
  id : Bytes
  name : Bytes
  policies : List Bytes
  disabled : Bool
  deriving DecidableEq

/-- `identity.EntityAlias`, without metadata and times. -/
structure Identity.EntityAlias where
  id : Bytes
  entityID : Bytes
  mountAccessor : Bytes
  name : Bytes
  deriving DecidableEq

/-- `identity.Group`, without metadata and times. -/
structure Identity.Group where
  id : Bytes
  name : Bytes
  policies : List Bytes
  memberEntityIDs : List Bytes
  memberGroupIDs : List Bytes
  deriving DecidableEq

/-- `identity.GroupAlias`, without metadata and times. -/
structure Identity.GroupAlias where
  id : Bytes
  groupID : Bytes
  mountAccessor : Bytes
  name : Bytes
  deriving DecidableEq

/-- `ldap.Config`: what searches and binds use. -/
structure LDAP.Config where
  bindDN : Bytes
  bindPassword : Bytes
  userDN : Bytes
  userAttr : Bytes
  groupDN : Bytes
  groupAttr : Bytes
  groupFilter : Bytes
  deriving DecidableEq

structure LDAP.Role where
  name : Bytes
  groups : List Bytes
  users : List Bytes
  policies : List Bytes
  ttl : Int
  tuckNamespace : Bytes
  deriving DecidableEq

structure K8s.K8sRole where
  cluster : Bytes
  ns : Bytes
  serviceAccount : Bytes
  policies : List Bytes
  ttl : Int
  tuckNamespace : Bytes
  deriving DecidableEq

structure JWT.Role where
  name : Bytes
  boundSubject : Bytes
  boundClaims : List (Bytes × Bytes)
  boundAudiences : List Bytes
  boundGroups : List Bytes
  policies : List Bytes
  ttl : Int
  tuckNamespace : Bytes
  deriving DecidableEq

/-- A stored value. -/
inductive Record where
  | token (t : Token)
  /-- `accessorRecord`: the token of an accessor. -/
  | accessor (tokenID : Bytes)
  /-- An entry of the children index. -/
  | child (tokenID : Bytes)
  | policy (p : Policy)
  | namespace' (ns : Namespace)
  | mountConfig (maxVersions : Int) (casRequired : Bool)
  | secret (e : Entry)
  | kvMeta (m : KVv2.KVMeta)
  | tokenRole (r : TokenRole)
  | raw (value : Bytes)
  | wrapped (r : Wrapping.WrapRecord)
  | wrapStats (st : Wrapping.Stats)
  | appRole (r : AppRole.Role)
  | secretID (sid : AppRole.SecretID)
  | entity (e : Identity.Entity)
  | entityAlias (a : Identity.EntityAlias)
  | group (g : Identity.Group)
  | groupAlias (a : Identity.GroupAlias)
  | ldapConfig (cfg : LDAP.Config)
  | ldapRole (r : LDAP.Role)
  | k8sRole (r : K8s.K8sRole)
  | jwtRole (r : JWT.Role)

namespace Record

def token? : Record → Option Token
  | .token t => some t
  | _ => none

def accessor? : Record → Option Bytes
  | .accessor id => some id
  | _ => none

def child? : Record → Option Bytes
  | .child id => some id
  | _ => none

def policy? : Record → Option Policy
  | .policy p => some p
  | _ => none

def namespace? : Record → Option Namespace
  | .namespace' ns => some ns
  | _ => none

def kvMeta? : Record → Option KVv2.KVMeta
  | .kvMeta m => some m
  | _ => none

def tokenRole? : Record → Option TokenRole
  | .tokenRole r => some r
  | _ => none

def wrapStats? : Record → Option Wrapping.Stats
  | .wrapStats st => some st
  | _ => none

def appRole? : Record → Option AppRole.Role
  | .appRole r => some r
  | _ => none

def secretID? : Record → Option AppRole.SecretID
  | .secretID sid => some sid
  | _ => none

def entity? : Record → Option Identity.Entity
  | .entity e => some e
  | _ => none

def entityAlias? : Record → Option Identity.EntityAlias
  | .entityAlias a => some a
  | _ => none

def group? : Record → Option Identity.Group
  | .group g => some g
  | _ => none

def groupAlias? : Record → Option Identity.GroupAlias
  | .groupAlias a => some a
  | _ => none

def ldapRole? : Record → Option LDAP.Role
  | .ldapRole r => some r
  | _ => none

def k8sRole? : Record → Option K8s.K8sRole
  | .k8sRole r => some r
  | _ => none

def jwtRole? : Record → Option JWT.Role
  | .jwtRole r => some r
  | _ => none

/-- The bytes of a value that is stored as it is; the JSON text of the other records is not
    part of the model. -/
def bytes : Record → Bytes
  | .raw value => value
  | _ => []

end Record

/-- The errors of the stores and of the core. -/
inductive Err where
  | storage
  | notFound
  | decode
  | rand
  | tokenInvalid
  | unauthorized
  | notRenewable
  | invalidName
  | invalidMetadata
  | alreadyExists
  | rootNamespace
  /-- `ErrCASRequired`. -/
  | casRequired
  /-- `ErrCASMismatch`: the version expected and the current one. -/
  | casMismatch (expected current : Int)
  /-- Version data that cannot be read: unknown, destroyed, or absent from the storage. -/
  | versionNotFound (version : Int)
  | versionDestroyed (version : Int)
  | versionMissing (version : Int)
  /-- `wrapping.ErrExpired`. -/
  | expired
  /-- A payload that is not JSON. -/
  | encode
  /-- `approle.ErrInvalidCredentials`. -/
  | invalidCredentials
  | invalidCIDR
  | notConfigured
  | userNotFound
  /-- `ldap.ErrUnavailable`. -/
  | unavailable
  | onboardInvalid
  | onboardConflict
  /-- `ErrK8sUnknownCluster`. -/
  | unknownCluster
  deriving DecidableEq

abbrev Logical (α : Type) := KV.Code Record (Except Err α)

abbrev LogicalStore := KV.Store Record

abbrev LogicalWorld := KV.World Record

/-- What a store makes of an entry it has read. -/
def decodeAs {α : Type} (decode : Record → Option α) : Option Record → Except Err α
  | none => .error .notFound
  | some r =>
      match decode r with
      | some a => .ok a
      | none => .error .decode

/-- The typed read: `Get` of a store. -/
def getAs {α : Type} (decode : Record → Option α) (k : Bytes) : Logical α :=
  (KV.get .storage k).andThen fun e => .ret (decodeAs decode e)

section

variable {α : Type} {decode : Record → Option α} {k : Bytes}

theorem decodeAs_eq_ok {e : Option Record} {a : α} :
    decodeAs decode e = .ok a ↔ e.bind decode = some a := by
  cases e with
  | none => simp [decodeAs]
  | some r => cases h : decode r <;> simp [decodeAs, h]

@[simp] theorem decodeAs_toOption (e : Option Record) :
    (decodeAs decode e).toOption = e.bind decode := by
  cases e with
  | none => rfl
  | some r => cases h : decode r <;> simp [decodeAs, h, Except.toOption]

@[simp] theorem run_getAs (L : KV.Listing) (w : LogicalWorld) :
    run (KV.handle L) (getAs decode k) w = (decodeAs decode (w.store.lookup k), w) := rfl

/-- A loop that reads keys and leaves out those that cannot be decoded. -/
theorem run_collect_getAs (L : KV.Listing) (w : LogicalWorld) (ks : List Bytes) :
    run (KV.handle L)
        (collect (fun k => (getAs decode k).bind fun r => .ret r.toOption) ks) w =
      (ks.filterMap fun k => (w.store.lookup k).bind decode, w) :=
  run_collect _ (fun k => by simp) ks

/-- A typed read that may fail: the storage error, or what is there. -/
theorem can_getAs {L : KV.Listing} {w w' : LogicalWorld} {r : Except Err α} :
    Can (KV.handle L) (getAs decode k) w r w' ↔
      w = w' ∧ (r = .error .storage ∨ r = decodeAs decode (w.store.lookup k)) := by
  have outcomes : Can (KV.handle L) (getAs decode k) w r w' ↔
      (.error .storage = r ∧ w = w') ∨ (decodeAs decode (w.store.lookup k) = r ∧ w = w') := Iff.rfl
  rw [outcomes, ← or_and_right, and_comm, @eq_comm _ _ r, @eq_comm _ _ r]

theorem calls_getAs {P : KV.Call Record → Prop} (h : P (.get k)) :
    Calls KV.Call.Plausible P (getAs decode k) :=
  Calls.andThen (Calls.attempt h) fun _ => trivial

end

end Tuck
