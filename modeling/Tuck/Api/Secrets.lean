/-
  The handlers of KV v1 and KV v2 below a path: read, write, delete, undelete, destroy and
  metadata. Requests that ask for a listing go elsewhere.

  Every handler first asks for a capability on "secret/" followed by the cleaned path, and then
  calls its engine with the path as it came, which the engine cleans again. So what is
  authorised is what is touched, whatever the spelling (`authorised_path_is_touched`). Beside
  the keys of the path a request reads the records that decide about it (the caller's token
  and policies) and the options of the mount.
-/
import Tuck.Api.Server
import Tuck.Secrets.KVv1
import Tuck.Secrets.KVv2

namespace Tuck.Api

open Tuck.Base Tuck.Core

/-! ## Parameters -/

def atoi (s : Bytes) : Option Int := (parseInt s).filter fun n => -2 ^ 63 ≤ n ∧ n < 2 ^ 63

/-- `parseVersionList`: parts that are not numbers are left out. -/
def parseVersionList (s : Bytes) : List Int := ((s.splitOn 0x2C).filter (· ≠ [])).filterMap atoi

/-- The body of a KV v1 write: unreadable, with a duration that does not parse, structured, or
    raw. -/
inductive PutBody where
  | unreadable
  | badTTL
  | structured (value : Bytes) (metadata : List (Bytes × Bytes)) (ttl : Int)
  | raw (body : Bytes)

/-- `strings.ToValidUTF8(s, "")`. -/
def toValidUTF8 (s : Bytes) : Bytes :=
  (chunks s).flatMap fun
    | .rune r => r
    | .bad _ => []

def fingerprint (sha256 : Bytes → Bytes) (id : Bytes) : Bytes :=
  if id = [] then [] else hexEncode ((sha256 id).take 6)

/-- The author of a version, as `withKVAuthor` makes it of the caller's token. -/
def authorOf (sha256 : Bytes → Bytes) (id : Bytes) (tok : Token) : KVv2.Author where
  displayName := if 128 < tok.displayName.length then toValidUTF8 (tok.displayName.take 128)
    else tok.displayName
  accessor := tok.accessor
  fingerprint := fingerprint sha256 id
  entityID := tok.entityID

/-- `authorFrom`: an author without any field is none. -/
def authorFrom (a : KVv2.Author) : Option KVv2.Author :=
  if a = ⟨[], [], [], []⟩ then none else some a

/-! ## The handlers -/

/-- What a handler answers. -/
inductive SecretBody where
  | empty
  | secret (path : Bytes) (e : Entry)
  | version (version : Int) (path : Bytes)
  | value (path : Bytes) (value : Option Bytes) (vm : KVv2.VerMeta)
  | metadata (path : Bytes) (m : KVv2.KVMeta) (casRequiredEffective : Bool) (mount : KVv2.Defaults)

def secretEnforcePath (p : Bytes) : Bytes := ascii "secret/" ++ clean p

def v2EnforcePath (p : Bytes) : Bytes := ascii "secret/" ++ clean p

section

variable (sha256 : Bytes → Bytes) (ctx : Ctx) (clock : Nat → Int)

def getSecret (p : Bytes) : Answer (Nat × SecretBody) :=
  (enforce sha256 ctx (secretEnforcePath p) Policy.capRead (clock 0)).andThen fun _ =>
    (orRefuse writeErr (Secrets.getSecretEntry ctx.ns p (clock 1))).andThen fun
      | none => .ret (.error (refuse 404 "not found"))
      | some e => .ret (.ok (200, .secret p e))

def putSecret (p : Bytes) (body : PutBody) : Answer (Nat × SecretBody) :=
  (enforce sha256 ctx (secretEnforcePath p) Policy.capWrite (clock 0)).andThen fun _ =>
    match body with
    | .unreadable => .ret (.error (refuse 400 "read body"))
    | .badTTL => .ret (.error (refuse 400 "invalid ttl"))
    | .structured value metadata ttl =>
        (orRefuse writeErr (Secrets.putSecretWithMeta ctx.ns p value
          metadata ttl (clock 1))).andThen fun _ => .ret (.ok (204, .empty))
    | .raw body =>
        (orRefuse writeErr (Secrets.putSecretWithMeta ctx.ns p body [] 0 (clock 1))).andThen
          fun _ => .ret (.ok (204, .empty))

def deleteSecret (p : Bytes) : Answer (Nat × SecretBody) :=
  (enforce sha256 ctx (secretEnforcePath p) Policy.capDelete (clock 0)).andThen fun _ =>
    (orRefuse writeErr (Secrets.deleteSecret ctx.ns p)).andThen fun _ => .ret (.ok (204, .empty))

/-- The refusals of a KV v2 write. -/
def writeRefusal : Err → Refusal
  | .casMismatch expected current => ⟨409, .err (.casMismatch expected current)⟩
  | .casRequired => ⟨400, .err .casRequired⟩
  | e => writeErr e

def withKVAuthor : KV.Code Record (Option KVv2.Author) :=
  (authenticate sha256 ctx.token (clock 1)).bind fun
    | .ok tok => .ret (authorFrom (authorOf sha256 ctx.token tok))
    | .error _ => .ret none

/-- `v2WriteSecret`; an empty `cas` is an absent one. -/
def v2WriteSecret (p : Bytes) (body : Option Bytes) (cas : Bytes) : Answer (Nat × SecretBody) :=
  (enforce sha256 ctx (v2EnforcePath p) Policy.capWrite (clock 0)).andThen fun _ =>
    match body with
    | none => .ret (.error (refuse 400 "read body"))
    | some body =>
        if cas ≠ [] ∧ atoi cas = none then .ret (.error (refuse 400 "invalid cas parameter"))
        else
          (withKVAuthor sha256 ctx clock).bind fun author =>
            (orRefuse writeRefusal (KVv2.write ctx.ns p body (atoi cas) author (clock 2))).andThen
              fun v => .ret (.ok (200, .version v p))

/-- `v2ReadSecret`; an empty `version` is an absent one. -/
def v2ReadSecret (p version : Bytes) : Answer (Nat × SecretBody) :=
  (enforce sha256 ctx (v2EnforcePath p) Policy.capRead (clock 0)).andThen fun _ =>
    if version ≠ [] ∧ (atoi version).all (· < 0) then
      .ret (.error (refuse 400 "invalid version parameter"))
    else
      (orRefuse (fun e => ⟨404, .err e⟩)
        (KVv2.read ctx.ns p ((atoi version).getD 0))).andThen fun
        | none => .ret (.error (refuse 404 "not found"))
        | some (value, vm) => .ret (.ok (200, .value p value vm))

/-- `v2DeleteSecret`: without versions, the current one. -/
def v2DeleteSecret (p versions : Bytes) : Answer (Nat × SecretBody) :=
  (enforce sha256 ctx (v2EnforcePath p) Policy.capDelete (clock 0)).andThen fun _ =>
    (if (parseVersionList versions).isEmpty then
        (KVv2.getMeta ctx.ns p).bind fun
          | .ok (some m) => .ret (.ok [m.currentVersion])
          | _ => .ret (.error (refuse 404 "not found"))
      else .ret (.ok (parseVersionList versions))).andThen fun vs =>
      (orRefuse writeErr (KVv2.softDelete ctx.ns p vs (clock 1))).andThen fun _ =>
        .ret (.ok (204, .empty))

/-- `v2Undelete`; the versions are the decoded body. -/
def v2Undelete (p : Bytes) (versions : Option (List Int)) : Answer (Nat × SecretBody) :=
  (enforce sha256 ctx (v2EnforcePath p) Policy.capWrite (clock 0)).andThen fun _ =>
    match versions with
    | none => .ret (.error (refuse 400 "invalid body"))
    | some vs =>
        (orRefuse writeErr (KVv2.undelete ctx.ns p vs)).andThen fun _ => .ret (.ok (204, .empty))

def v2Destroy (p : Bytes) (versions : Option (List Int)) : Answer (Nat × SecretBody) :=
  (enforce sha256 ctx (v2EnforcePath p) Policy.capDelete (clock 0)).andThen fun _ =>
    match versions with
    | none => .ret (.error (refuse 400 "invalid body"))
    | some vs =>
        (orRefuse writeErr (KVv2.destroy ctx.ns p vs)).andThen fun _ => .ret (.ok (204, .empty))

def v2GetMeta (p : Bytes) : Answer (Nat × SecretBody) :=
  (enforce sha256 ctx (v2EnforcePath p) Policy.capRead (clock 0)).andThen fun _ =>
    (orRefuse writeErr (KVv2.getMeta ctx.ns p)).andThen fun
      | none => .ret (.error (refuse 404 "not found"))
      | some m =>
          KVv2.kv2MountDefaults.bind fun d =>
            .ret (.ok (200, .metadata p m (m.casRequired || d.casRequired) d))

/-- The refusals of a metadata update. -/
def metaRefusal : Err → Refusal
  | .invalidMetadata => ⟨400, .err .invalidMetadata⟩
  | e => writeErr e

/-- `v2WriteMeta`: `v2UpdateMeta` and `v2PatchMeta`; the update is the decoded body. -/
def v2WriteMeta (p : Bytes) (update : Option KVv2.MetaUpdate) : Answer (Nat × SecretBody) :=
  (enforce sha256 ctx (v2EnforcePath p) Policy.capWrite (clock 0)).andThen fun _ =>
    match update with
    | none => .ret (.error (refuse 400 "invalid body"))
    | some u =>
        (orRefuse metaRefusal (KVv2.updateMetadata ctx.ns p u (clock 1))).andThen fun _ =>
          .ret (.ok (204, .empty))

def v2DeleteMeta (p : Bytes) : Answer (Nat × SecretBody) :=
  (enforce sha256 ctx (v2EnforcePath p) Policy.capDelete (clock 0)).andThen fun _ =>
    (orRefuse writeErr (KVv2.deleteAll ctx.ns p)).andThen fun _ => .ret (.ok (204, .empty))

end

/-- A request to one of the handlers. -/
inductive SecretRequest where
  | getSecret (p : Bytes)
  | putSecret (p : Bytes) (body : PutBody)
  | deleteSecret (p : Bytes)
  | v2WriteSecret (p : Bytes) (body : Option Bytes) (cas : Bytes)
  | v2ReadSecret (p version : Bytes)
  | v2DeleteSecret (p versions : Bytes)
  | v2Undelete (p : Bytes) (versions : Option (List Int))
  | v2Destroy (p : Bytes) (versions : Option (List Int))
  | v2GetMeta (p : Bytes)
  | v2WriteMeta (p : Bytes) (update : Option KVv2.MetaUpdate)
  | v2DeleteMeta (p : Bytes)

namespace SecretRequest

def handle (sha256 : Bytes → Bytes) (ctx : Ctx) (clock : Nat → Int) :
    SecretRequest → Answer (Nat × SecretBody)
  | getSecret p => Api.getSecret sha256 ctx clock p
  | putSecret p body => Api.putSecret sha256 ctx clock p body
  | deleteSecret p => Api.deleteSecret sha256 ctx clock p
  | v2WriteSecret p body cas => Api.v2WriteSecret sha256 ctx clock p body cas
  | v2ReadSecret p version => Api.v2ReadSecret sha256 ctx clock p version
  | v2DeleteSecret p versions => Api.v2DeleteSecret sha256 ctx clock p versions
  | v2Undelete p versions => Api.v2Undelete sha256 ctx clock p versions
  | v2Destroy p versions => Api.v2Destroy sha256 ctx clock p versions
  | v2GetMeta p => Api.v2GetMeta sha256 ctx clock p
  | v2WriteMeta p update => Api.v2WriteMeta sha256 ctx clock p update
  | v2DeleteMeta p => Api.v2DeleteMeta sha256 ctx clock p

/-- The path of the request, as it came. -/
def path : SecretRequest → Bytes
  | getSecret p | putSecret p _ | deleteSecret p | v2WriteSecret p _ _ | v2ReadSecret p _
  | v2DeleteSecret p _ | v2Undelete p _ | v2Destroy p _ | v2GetMeta p | v2WriteMeta p _
  | v2DeleteMeta p => p

/-- The capability that the handler asks for. -/
def cap : SecretRequest → Policy.Capability
  | getSecret _ | v2ReadSecret _ _ | v2GetMeta _ => Policy.capRead
  | putSecret _ _ | v2WriteSecret _ _ _ | v2Undelete _ _ | v2WriteMeta _ _ => Policy.capWrite
  | deleteSecret _ | v2DeleteSecret _ _ | v2Destroy _ _ | v2DeleteMeta _ => Policy.capDelete

end SecretRequest

/-! ## The keys of a path -/

/-- What is stored for a path: the KV v1 entry, the KV v2 metadata, the data of a version. -/
inductive DataKey where
  | secret
  | metadata
  | data (version : Int)
  deriving DecidableEq

/-- The namespace prefix, the engine prefix and the path, with the version for version data. -/
def DataKey.key (ns q : Bytes) : DataKey → Bytes
  | .secret => Namespace.storagePrefix ns ++ (Secrets.secretPrefix ++ q)
  | .metadata => Namespace.storagePrefix ns ++ (KVv2.metaPrefix ++ q)
  | .data version =>
      Namespace.storagePrefix ns ++ (KVv2.dataPrefix ++ (q ++ slash :: decimalInt version))

def pathKeys (ns q : Bytes) : Set Bytes := {k | ∃ d : DataKey, k = d.key ns q}

/-- Different paths, and different versions of a path, have different keys. -/
theorem DataKey.key_inj {ns q q' : Bytes} {d d' : DataKey} (h : d.key ns q = d'.key ns q') :
    q = q' ∧ d = d' := by
  have other {pre pre' : Bytes} (hpre : overlaps pre pre' = false) (x y : Bytes) :
      Namespace.storagePrefix ns ++ (pre ++ x) ≠ Namespace.storagePrefix ns ++ (pre' ++ y) :=
    fun heq => append_ne_append hpre x y (List.append_cancel_left heq)
  cases d <;> cases d'
  case secret.secret => exact ⟨List.append_cancel_left (List.append_cancel_left h), rfl⟩
  case metadata.metadata => exact ⟨List.append_cancel_left (List.append_cancel_left h), rfl⟩
  case data.data v v' =>
    obtain ⟨rfl, rfl⟩ :=
      KVv2.append_version_inj (List.append_cancel_left (List.append_cancel_left h))
    exact ⟨rfl, rfl⟩
  all_goals exact absurd h (other (by decide) _ _)

/-! ## Authorised and touched -/

section

variable {sha256 : Bytes → Bytes} {ctx : Ctx} {clock : Nat → Int} {A : Set Bytes} {p : Bytes}

theorem confined_withKVAuthor (h : Token.tokenKey sha256 ctx.token ∈ A) :
    KV.Confined A (withKVAuthor sha256 ctx clock) := by
  have hauth : KV.Confined A (authenticate sha256 ctx.token (clock 1)) := by
    refine (calls_getAs h).bind ?_
    rintro (e | tok) <;> trivial
  refine hauth.bind ?_
  rintro (e | tok) <;> trivial

/-- An answer without a body, after a call to an engine. -/
theorem confined_noContent {α : Type} {refusal : Err → Refusal} {op : Logical α}
    (h : KV.Confined A op) :
    KV.Confined A ((orRefuse refusal op).andThen fun _ =>
      (.ret (.ok (204, .empty)) : Answer (Nat × SecretBody))) :=
  (calls_orRefuse h).andThen fun _ => trivial

variable (clock) in
/-- A handler asks for its capability on the cleaned path, and what follows is confined to the
    keys of that path, the mount options and the caller's token. -/
theorem handle_eq_enforce (r : SecretRequest) (hp : r.path = p)
    (hsecret : Namespace.storagePrefix ctx.ns ++ Secrets.secretKey p ∈ A)
    (hcov : KVv2.Covers A ctx.ns p) (htok : Token.tokenKey sha256 ctx.token ∈ A) :
    ∃ rest : Answer (Nat × SecretBody),
      r.handle sha256 ctx clock =
          (enforce sha256 ctx (ascii "secret/" ++ clean p) r.cap (clock 0)).andThen
            (fun _ => rest) ∧
        KV.Confined A rest := by
  subst hp
  cases r with
  | getSecret p =>
    refine ⟨_, rfl, (calls_orRefuse (Secrets.confined_getSecretEntry hsecret _)).andThen ?_⟩
    rintro (_ | e) <;> trivial
  | putSecret p body =>
    refine ⟨_, rfl, ?_⟩
    cases body with
    | unreadable => trivial
    | badTTL => trivial
    | structured value metadata ttl =>
      exact confined_noContent (Secrets.confined_putSecretWithMeta hsecret ..)
    | raw body => exact confined_noContent (Secrets.confined_putSecretWithMeta hsecret ..)
  | deleteSecret p => exact ⟨_, rfl, confined_noContent (Secrets.confined_deleteSecret hsecret)⟩
  | v2WriteSecret p body cas =>
    refine ⟨_, rfl, ?_⟩
    cases body with
    | none => trivial
    | some body =>
      dsimp only
      split_ifs
      · trivial
      · refine (confined_withKVAuthor htok).bind fun author => ?_
        exact (calls_orRefuse (hcov.write ..)).andThen fun _ => trivial
  | v2ReadSecret p version =>
    refine ⟨_, rfl, ?_⟩
    split_ifs
    · trivial
    · refine (calls_orRefuse (hcov.read _)).andThen ?_
      rintro (_ | ⟨value, vm⟩) <;> trivial
  | v2DeleteSecret p versions =>
    refine ⟨_, rfl, Prog.Calls.andThen ?_ fun vs => confined_noContent (hcov.permits.softDelete ..)⟩
    split_ifs
    · refine Prog.Calls.bind (KVv2.calls_getMeta hcov.metadata) fun r => ?_
      split <;> trivial
    · trivial
  | v2Undelete p versions =>
    refine ⟨_, rfl, ?_⟩
    cases versions with
    | none => trivial
    | some vs => exact confined_noContent (hcov.permits.undelete vs)
  | v2Destroy p versions =>
    refine ⟨_, rfl, ?_⟩
    cases versions with
    | none => trivial
    | some vs => exact confined_noContent (hcov.permits.destroy vs)
  | v2GetMeta p =>
    refine ⟨_, rfl, Prog.Calls.andThen (calls_orRefuse (KVv2.calls_getMeta hcov.metadata)) ?_⟩
    rintro (_ | m)
    · trivial
    · exact Prog.Calls.bind (KVv2.calls_kv2MountDefaults hcov.options) fun _ => trivial
  | v2WriteMeta p update =>
    refine ⟨_, rfl, ?_⟩
    cases update with
    | none => trivial
    | some u => exact confined_noContent (hcov.permits.updateMetadata u _)
  | v2DeleteMeta p => exact ⟨_, rfl, confined_noContent hcov.deleteAll⟩

end

/-- What is authorised is what is touched. For every request with a path that cleans to `q`:
    `q` has no empty, "." or ".." segment; the handler asks for its capability on "secret/" and
    `q`; what it calls after that are keys of `q`, the mount options and the caller's token;
    different paths and versions have different keys; and where the policies do not grant the
    capability, the request is refused and nothing is changed. -/
theorem authorised_path_is_touched (sha256 : Bytes → Bytes) (ctx : Ctx) (clock : Nat → Int)
    (r : SecretRequest) :
    (∀ seg ∈ segments (clean r.path), IsName seg) ∧
      (∃ rest : Answer (Nat × SecretBody),
        r.handle sha256 ctx clock =
            (enforce sha256 ctx (ascii "secret/" ++ clean r.path) r.cap (clock 0)).andThen
              (fun _ => rest) ∧
          KV.Confined (pathKeys ctx.ns (clean r.path) ∪
            {KVv2.mountConfigKey, Token.tokenKey sha256 ctx.token}) rest) ∧
      (∀ (d d' : DataKey) (q q' : Bytes), d.key ctx.ns q = d'.key ctx.ns q' → q = q' ∧ d = d') ∧
      ∀ (L : KV.Listing) (w : LogicalWorld),
        (¬∃ tok, validToken sha256 w.store ctx.token (clock 0) = some tok ∧
          Grants w.store tok (ascii "secret/" ++ clean r.path) r.cap) →
        ∃ e, Prog.run (KV.handle L) (r.handle sha256 ctx clock) w = (.error (writeErr e), w) := by
  have hkey (d : DataKey) : d.key ctx.ns (clean r.path) ∈ pathKeys ctx.ns (clean r.path) ∪
      {KVv2.mountConfigKey, Token.tokenKey sha256 ctx.token} := .inl ⟨d, rfl⟩
  have hcov : KVv2.Covers (pathKeys ctx.ns (clean r.path) ∪
      {KVv2.mountConfigKey, Token.tokenKey sha256 ctx.token}) ctx.ns r.path :=
    ⟨hkey .metadata, fun v => hkey (.data v), .inr (.inl rfl)⟩
  obtain ⟨rest, heq, hconf⟩ := handle_eq_enforce clock r rfl (hkey .secret) hcov
    (.inr (.inr rfl))
  refine ⟨fun seg hseg => isName_of_mem_clean hseg, ⟨rest, heq, hconf⟩,
    fun d d' q q' h => DataKey.key_inj h, fun L w hdeny => ?_⟩
  have hworld := KV.run_of_reads L
    (reads_enforceAccess sha256 ctx.token (ascii "secret/" ++ clean r.path) r.cap (clock 0)) w
  rw [← run_enforceAccess (L := L)] at hdeny
  rw [heq, Prog.run_andThen, enforce, orRefuse, Prog.run_bind, hworld]
  cases hrun : (Prog.run (KV.handle L)
      (enforceAccess sha256 ctx.token (ascii "secret/" ++ clean r.path) r.cap (clock 0)) w).1 with
  | ok u => exact absurd hrun hdeny
  | error e => exact ⟨e, rfl⟩

/-- Another spelling of "x", with a valid token whose policy denies "secret/x". -/
theorem denied_spelling_refused :
    (validToken (fun m => m) shadowedWorld.store (ascii "t") 0).isSome = true ∧
      ∃ e, Prog.run (KV.handle KV.sorted)
        ((SecretRequest.getSecret (ascii "y/../x")).handle (fun m => m) ⟨ascii "t", ascii "a"⟩
          fun _ => 0) shadowedWorld = (.error (writeErr e), shadowedWorld) := by
  refine ⟨by decide +kernel, (authorised_path_is_touched (fun m => m) ⟨ascii "t", ascii "a"⟩
    (fun _ => 0) _).2.2.2 KV.sorted _ fun hgranted => ?_⟩
  exact absurd ((run_enforceAccess (L := KV.sorted)).2 hgranted) (by decide +kernel)

/-! ## The mount options -/

/-- A KV v2 write of the path "a" in the root namespace. -/
def writeOfA : Answer (Nat × SecretBody) :=
  v2WriteSecret (fun m => m) ⟨ascii "t", []⟩ (fun _ => 0) (ascii "a") (some (ascii "v")) []

def readsMountOptions : KV.Call Record → Bool
  | .get k => k = KVv2.mountConfigKey
  | _ => false

/-- A KV v2 write that is served reads the mount options, which is no key of its path. -/
theorem served_write_reads_mount_options :
    (Prog.run (KV.handle KV.sorted) writeOfA rootTokenWorld).1.toOption.map Prod.fst = some 200 ∧
      (Prog.trace (KV.handle KV.sorted) writeOfA rootTokenWorld).any readsMountOptions = true ∧
      KVv2.mountConfigKey ∉ pathKeys [] (clean (ascii "a")) := by
  refine ⟨by decide +kernel, by decide +kernel, ?_⟩
  rintro ⟨d, hd⟩
  have other {pre : Bytes} (hpre : overlaps KVv2.mountConfigKey pre = false) (x : Bytes) :
      KVv2.mountConfigKey ≠ Namespace.storagePrefix [] ++ (pre ++ x) := by
    rw [Namespace.storagePrefix_root rfl, ← List.append_nil KVv2.mountConfigKey]
    exact append_ne_append hpre [] x
  cases d with
  | secret => exact other (by decide) _ hd
  | metadata => exact other (by decide) _ hd
  | data version => exact other (by decide) _ hd

end Tuck.Api
