/-
  The handlers of one SecretID: `GET` and `DELETE /v1/auth/approle/role/{name}/secret-id/{id}`.

  Access is decided on the role name of the URL. The SecretID is then addressed by its value
  alone, in one table for all roles, and neither handler compares the role of the record with
  the role of the URL, as a login does (`AppRole.loginWith`). So a role's SecretIDs are out of
  reach under the name of another role exactly as long as access is denied there anyway
  (`staysWithin_iff`).
-/
import Tuck.Api.Server
import Tuck.AppRole.Store

namespace Tuck.Api

open Tuck.Base Tuck.Core AppRole Prog KV

/-- The policy path of both handlers. -/
def secretIDPath (name : Bytes) : Bytes := ascii "auth/approle/role/" ++ name ++ ascii "/secret-id"

/-- The error of `LookupSecretID` in the handler. -/
def secretIDRefusal : Err → Refusal
  | .notFound => refuse 404 "secret_id not found"
  | e => writeErr e

section

variable (sha256 : Bytes → Bytes) (ctx : Ctx) (name id : Bytes) (now : Int)

def lookupSecretID : Answer (Nat × SecretID) :=
  (enforce sha256 ctx (secretIDPath name) Policy.capRead now).andThen fun _ =>
    (orRefuse secretIDRefusal (AppRole.lookupSecretID id)).andThen fun sid => .ret (.ok (200, sid))

def destroySecretID : Answer Nat :=
  (enforce sha256 ctx (secretIDPath name) Policy.capDelete now).andThen fun _ =>
    (orRefuse writeErr (AppRole.destroySecretID id)).andThen fun _ => .ret (.ok 204)

/-- The SecretIDs of roles other than the named one that are stored. -/
def Foreign (name : Bytes) (s : LogicalStore) (k : Bytes) (sid : SecretID) : Prop :=
  s.lookup k = some (.secretID sid) ∧ sid.roleName ≠ name

/-- What belongs to another role is not returned, and is stored afterwards as it was. -/
structure StaysWithin (L : Listing) (w : LogicalWorld) : Prop where
  returned : ∀ status sid,
    (run (handle L) (lookupSecretID sha256 ctx name id now) w).1 = .ok (status, sid) →
      sid.roleName = name
  looked : ∀ k sid, Foreign name w.store k sid →
    Foreign name (run (handle L) (lookupSecretID sha256 ctx name id now) w).2.store k sid
  destroyed : ∀ k sid, Foreign name w.store k sid →
    Foreign name (run (handle L) (destroySecretID sha256 ctx name id now) w).2.store k sid

/-- The token of the request has the capability on the SecretIDs of the named role. -/
def RoleAccess (s : LogicalStore) (cap : Policy.Capability) : Prop :=
  ∃ tok, validToken sha256 s ctx.token now = some tok ∧ Grants s tok (secretIDPath name) cap

end

section

variable {sha256 : Bytes → Bytes} {ctx : Ctx} {name id : Bytes} {now : Int}
variable {L : Listing} {w : LogicalWorld}

theorem run_enforce_of_access {cap : Policy.Capability}
    (h : RoleAccess sha256 ctx name now w.store cap) :
    run (handle L) (enforce sha256 ctx (secretIDPath name) cap now) w = (.ok (), w) := by
  have hworld := run_of_reads L (reads_enforceAccess sha256 ctx.token (secretIDPath name) cap now) w
  rw [enforce, orRefuse, run_bind, hworld, run_enforceAccess.2 h]
  rfl

theorem run_enforce_of_not_access {cap : Policy.Capability}
    (h : ¬RoleAccess sha256 ctx name now w.store cap) :
    ∃ e, run (handle L) (enforce sha256 ctx (secretIDPath name) cap now) w = (.error e, w) := by
  have hworld := run_of_reads L (reads_enforceAccess sha256 ctx.token (secretIDPath name) cap now) w
  rw [enforce, orRefuse, run_bind, hworld]
  cases hrun : (run (handle L)
      (enforceAccess sha256 ctx.token (secretIDPath name) cap now) w).1 with
  | ok u => exact absurd (run_enforceAccess.1 hrun) h
  | error e => exact ⟨writeErr e, rfl⟩

/-- A lookup changes nothing, and returns a SecretID exactly with access and if it is stored. -/
theorem run_lookupSecretID :
    (run (handle L) (lookupSecretID sha256 ctx name id now) w).2 = w ∧
      ∀ status sid,
        (run (handle L) (lookupSecretID sha256 ctx name id now) w).1 = .ok (status, sid) ↔
          RoleAccess sha256 ctx name now w.store Policy.capRead ∧ status = 200 ∧
            w.store.lookup (secretKey id) = some (.secretID sid) := by
  rw [lookupSecretID, run_andThen]
  by_cases h : RoleAccess sha256 ctx name now w.store Policy.capRead
  · rw [run_enforce_of_access h]
    dsimp only
    rw [run_andThen, orRefuse, run_bind, AppRole.lookupSecretID, run_getAs]
    rcases hs : w.store.lookup (secretKey id) with _ | r
    · simp [decodeAs]
    · cases r <;> simp [decodeAs, Record.secretID?, h, eq_comm]
  · obtain ⟨e, he⟩ := run_enforce_of_not_access (L := L) h
    rw [he]
    simp [h]

/-- With access the SecretID is deleted, whichever role it belongs to. -/
theorem run_destroySecretID :
    (RoleAccess sha256 ctx name now w.store Policy.capDelete →
        (run (handle L) (destroySecretID sha256 ctx name id now) w).2.store =
          w.store.erase (secretKey id)) ∧
      (¬RoleAccess sha256 ctx name now w.store Policy.capDelete →
        (run (handle L) (destroySecretID sha256 ctx name id now) w).2 = w) := by
  rw [destroySecretID, run_andThen]
  constructor
  · intro h
    rw [run_enforce_of_access h]
    rfl
  · intro h
    obtain ⟨e, he⟩ := run_enforce_of_not_access (L := L) h
    rw [he]

end

/-- The handlers stay within the role exactly if the SecretID of the URL is no stored SecretID of
    another role, or the token may neither read nor delete the SecretIDs of the role it names. -/
theorem staysWithin_iff (sha256 : Bytes → Bytes) (ctx : Ctx) (name id : Bytes) (now : Int)
    (L : Listing) (w : LogicalWorld) :
    StaysWithin sha256 ctx name id now L w ↔
      ∀ sid, Foreign name w.store (secretKey id) sid →
        ¬RoleAccess sha256 ctx name now w.store Policy.capRead ∧
          ¬RoleAccess sha256 ctx name now w.store Policy.capDelete := by
  obtain ⟨hlooked, hreturned⟩ := @run_lookupSecretID sha256 ctx name id now L w
  constructor
  · intro h sid hsid
    constructor
    · intro hread
      exact hsid.2 (h.returned 200 sid ((hreturned 200 sid).2 ⟨hread, rfl, hsid.1⟩))
    · intro hdelete
      have hkept := (h.destroyed _ sid hsid).1
      rw [run_destroySecretID.1 hdelete, lookup_erase, if_pos rfl] at hkept
      cases hkept
  · intro h
    refine ⟨fun status sid hrun => ?_, fun k sid hsid => ?_, fun k sid hsid => ?_⟩
    · obtain ⟨hread, -, hstored⟩ := (hreturned status sid).1 hrun
      by_contra hne
      exact (h sid ⟨hstored, hne⟩).1 hread
    · rw [hlooked]
      exact hsid
    · by_cases hdelete : RoleAccess sha256 ctx name now w.store Policy.capDelete
      · rw [run_destroySecretID.1 hdelete]
        refine ⟨?_, hsid.2⟩
        rw [lookup_erase, if_neg, hsid.1]
        -- Under the key of the URL there would be a SecretID that the condition excludes.
        rintro rfl
        exact (h sid hsid).2 hdelete
      · rw [run_destroySecretID.2 hdelete]
        exact hsid

/-- A SecretID of the role "b", and a token whose policy covers the role "a" alone. -/
def secretOfB : LogicalWorld where
  store :=
    (((∅ : LogicalStore).insert (Token.tokenKey (fun m => m) (ascii "t"))
      (.token (plainToken (ascii "t") [] [ascii "p"]))).insert
      (policyKey [] (ascii "p"))
      (.policy
        ⟨ascii "p", [⟨secretIDPath (ascii "a"), Policy.capRead ||| Policy.capDelete⟩],
          false, []⟩)).insert
      (secretKey (ascii "s")) (.secretID
        { id := ascii "s", roleName := ascii "b", createdAt := 0, expiresAt := none
          numUses := 0, usesLeft := 0, boundCIDRs := [] })
  rng := Stream'.const 0

/-- Under the name of the role "a" the SecretID of "b" is returned, and deleted. -/
theorem foreign_secretID_reached :
    ((run (handle sorted)
        (lookupSecretID (fun m => m) ⟨ascii "t", []⟩ (ascii "a") (ascii "s") 0)
          secretOfB).1.toOption.map
          fun r => (r.1, r.2.roleName)) = some (200, ascii "b") ∧
      (run (handle sorted)
        (destroySecretID (fun m => m) ⟨ascii "t", []⟩ (ascii "a") (ascii "s") 0) secretOfB).1 =
          .ok 204 ∧
      (run (handle sorted)
        (destroySecretID (fun m => m) ⟨ascii "t", []⟩ (ascii "a") (ascii "s") 0)
          secretOfB).2.store.lookup (secretKey (ascii "s")) = none := by
  decide +kernel

end Tuck.Api
