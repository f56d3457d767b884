/-
  The tokens for nodes that join the cluster (`POST /v1/sys/cluster/join-token`).

  The seconds of the request become a duration in 64-bit arithmetic before the cap of one hour
  is applied, and a duration that is not positive means "never expires" to `Generate`. So the
  token is short-lived exactly if the product does not leave the positive half of the range
  (`shortLived_iff`); from 9223372037 seconds on it may be a standing credential
  (`standing_join_token`).
-/
import Tuck.Api.TokenHandlers
import Tuck.Core.TokenSpecs

namespace Tuck.Api

open Tuck.Base Tuck.Core Prog
open Tuck.Token hiding id

/-! ## The handler -/

/-- The nanoseconds of a second. -/
def second : Int64 := 1000000000

def defaultJoinTokenTTL : Int64 := 600 * second

def maxJoinTokenTTL : Int64 := 3600 * second

def defaultJoinTokenNumUses : Int64 := 1

def maxJoinTokenNumUses : Int64 := 10

structure ClusterJoinTokenReq where
  ttlSeconds : Int64 := 0
  numUses : Int64 := 0

/-- The duration of the token: the default, or the seconds of the request, at most the cap. -/
def ClusterJoinTokenReq.ttl (req : ClusterJoinTokenReq) : Int64 :=
  let ttl := if 0 < req.ttlSeconds then req.ttlSeconds * second else defaultJoinTokenTTL
  if maxJoinTokenTTL < ttl then maxJoinTokenTTL else ttl

/-- The uses of the token: the default, or those of the request, at most the cap. -/
def ClusterJoinTokenReq.uses (req : ClusterJoinTokenReq) : Int64 :=
  let numUses := if 0 < req.numUses then req.numUses else defaultJoinTokenNumUses
  if maxJoinTokenNumUses < numUses then maxJoinTokenNumUses else numUses

def clusterJoinPolicyName : Bytes := ascii "cluster-join"

section

variable (sha256 : Bytes → Bytes) (ctx : Ctx) (clock : Nat → Int)

/-- The rest of `postClusterJoinToken`, once the body is decoded. -/
def mintJoinToken (req : ClusterJoinTokenReq) : Answer (Nat × Token) :=
  if req.ttlSeconds < 0 ∨ req.numUses < 0 then
    .ret (.error (refuse 400 "ttl_seconds and num_uses must be >= 0"))
  else
    (orRefuse writeErr (Core.createToken sha256 (ascii "cluster-join-token") [clusterJoinPolicyName]
      req.ttl.toInt (clock 1) [withMaxUses req.uses.toInt, withParent ctx.token])).andThen
        fun tok => .ret (.ok (201, tok))

/-- `postClusterJoinToken`: `leader` is whether this node is the leader, `none` without a cluster;
    `none` for a body is an empty one. -/
def postClusterJoinToken (leader : Option Bool) (body : Option (Body ClusterJoinTokenReq)) :
    Answer (Nat × Token) :=
  (enforce sha256 ctx (ascii "sys/cluster/join-token") Policy.capWrite (clock 0)).andThen fun _ =>
    match leader with
    | none => .ret (.error (refuse 501 "cluster mode not enabled"))
    | some false => .ret (.error (refuse 503 "not leader"))
    | some true =>
        match body with
        | none => mintJoinToken sha256 ctx clock {}
        | some .unreadable => .ret (.error (refuse 400 "read body"))
        | some .invalid => .ret (.error (refuse 400 "invalid JSON"))
        | some (.decoded req) => mintJoinToken sha256 ctx clock req

end

/-- The request that a body stands for. -/
def joinRequest : Option (Body ClusterJoinTokenReq) → ClusterJoinTokenReq
  | some (.decoded req) => req
  | _ => {}

/-! ## The limits -/

/-- What the endpoint promises of a token: it expires within an hour of its creation, not before
    it is created, and has at most ten uses. -/
structure ShortLived (tok : Token) : Prop where
  expires : ∃ e, tok.expiresAt = some e ∧ e ≤ tok.createdAt + 3600000000000
  alive : tok.isExpired tok.createdAt = false
  uses : 1 ≤ tok.maxUses ∧ tok.maxUses ≤ 10

/-- The seconds are left out, or their nanoseconds, reduced to 64 bits with a sign, are positive. -/
def Fits (req : ClusterJoinTokenReq) : Prop :=
  req.ttlSeconds.toInt = 0 ∨ 0 < (req.ttlSeconds.toInt * 1000000000).bmod (2 ^ 64)

theorem uses_bounds (req : ClusterJoinTokenReq) : 1 ≤ req.uses.toInt ∧ req.uses.toInt ≤ 10 := by
  have h0 : (0 : Int64).toInt = 0 := rfl
  have hd : defaultJoinTokenNumUses.toInt = 1 := rfl
  have hm : maxJoinTokenNumUses.toInt = 10 := rfl
  simp only [ClusterJoinTokenReq.uses, Int64.lt_iff_toInt_lt, h0, hm]
  split_ifs with hpos hcap hcap
  · omega
  · omega
  · omega
  · omega

theorem ttl_le (req : ClusterJoinTokenReq) : req.ttl.toInt ≤ 3600000000000 := by
  have hm : maxJoinTokenTTL.toInt = 3600000000000 := rfl
  simp only [ClusterJoinTokenReq.ttl, Int64.lt_iff_toInt_lt, hm]
  generalize (if (0 : Int64).toInt < req.ttlSeconds.toInt then req.ttlSeconds * second
    else defaultJoinTokenTTL) = ttl
  split_ifs with hcap
  · omega
  · omega

/-- The duration is positive exactly if the product is, where there is one. -/
theorem ttl_pos_iff {req : ClusterJoinTokenReq} (hreq : ¬req.ttlSeconds < 0) :
    0 < req.ttl.toInt ↔ Fits req := by
  have h0 : (0 : Int64).toInt = 0 := rfl
  have hd : defaultJoinTokenTTL.toInt = 600000000000 := rfl
  have hm : maxJoinTokenTTL.toInt = 3600000000000 := rfl
  have hmul : (req.ttlSeconds * second).toInt =
      (req.ttlSeconds.toInt * 1000000000).bmod (2 ^ 64) := Int64.toInt_mul ..
  rw [Int64.lt_iff_toInt_lt, h0] at hreq
  unfold Fits
  rw [← hmul]
  simp only [ClusterJoinTokenReq.ttl, Int64.lt_iff_toInt_lt, h0, hm]
  split_ifs with hpos hcap hcap
  · omega
  · omega
  · omega
  · omega

/-! ## The created token -/

section

variable {sha256 : Bytes → Bytes} {L : KV.Listing} {ctx : Ctx} {clock : Nat → Int}
  {leader : Option Bool} {body : Option (Body ClusterJoinTokenReq)} {status : Nat} {tok : Token}
  {w : LogicalWorld}

/-- What an accepted request leaves of its numbers in the token. -/
structure Minted (req : ClusterJoinTokenReq) (now : Int) (tok : Token) : Prop where
  ttlSeconds : ¬req.ttlSeconds < 0
  createdAt : tok.createdAt = now
  expiresAt : tok.expiresAt = if 0 < req.ttl.toInt then some (now + req.ttl.toInt) else none
  maxUses : tok.maxUses = req.uses.toInt

theorem minted_of_mintJoinToken {req : ClusterJoinTokenReq} (hcreated : (run (KV.handle L)
    (mintJoinToken sha256 ctx clock req) w).1 = .ok (status, tok)) :
    Minted req (clock 1) tok ∧ storedToken sha256 (run (KV.handle L)
      (mintJoinToken sha256 ctx clock req) w).2.store tok.id = some tok := by
  revert hcreated
  unfold mintJoinToken
  split_ifs with hneg
  · exact nofun
  rw [not_or] at hneg
  have hrun := run_createToken_drawn sha256 L w (ascii "cluster-join-token") [clusterJoinPolicyName]
    req.ttl.toInt (clock 1) [withMaxUses req.uses.toInt, withParent ctx.token] rfl
  simp only [orRefuse, run_andThen, run_bind, hrun, run_ret]
  rintro ⟨⟩
  exact ⟨⟨hneg.1, rfl, rfl, rfl⟩, storedToken_putStore_self _ _⟩

/-- An accepted request has passed the checks and was minted. -/
theorem minted_of_created (hcreated : (run (KV.handle L)
    (postClusterJoinToken sha256 ctx clock leader body) w).1 = .ok (status, tok)) :
    Minted (joinRequest body) (clock 1) tok ∧ storedToken sha256 (run (KV.handle L)
      (postClusterJoinToken sha256 ctx clock leader body) w).2.store tok.id = some tok := by
  revert hcreated
  unfold postClusterJoinToken
  rw [run_andThen]
  obtain ⟨r, w₁⟩ := run (KV.handle L)
    (enforce sha256 ctx (ascii "sys/cluster/join-token") Policy.capWrite (clock 0)) w
  cases r with
  | error e => exact nofun
  | ok _ =>
    match leader, body with
    | none, _ => exact nofun
    | some false, _ => exact nofun
    | some true, none => exact minted_of_mintJoinToken
    | some true, some .unreadable => exact nofun
    | some true, some .invalid => exact nofun
    | some true, some (.decoded req) => exact minted_of_mintJoinToken

theorem Minted.lived_iff {req : ClusterJoinTokenReq} {now : Int} (h : Minted req now tok) :
    ShortLived tok ↔ 0 < req.ttl.toInt := by
  obtain ⟨-, hcreatedAt, hexpires, huses⟩ := h
  constructor
  · rintro ⟨⟨e, he, -⟩, -, -⟩
    rw [hexpires] at he
    split_ifs at he with hpos
    exact hpos
  · intro hpos
    rw [if_pos hpos] at hexpires
    have hle := ttl_le req
    refine ⟨⟨_, hexpires, by omega⟩, ?_, huses ▸ uses_bounds req⟩
    have hlt : ¬now + req.ttl.toInt < tok.createdAt := by omega
    simp [Token.isExpired, hexpires, hlt]

/-- The token of an accepted request is stored, and it is short-lived exactly if the seconds of
    the request fit. -/
theorem shortLived_iff (hcreated : (run (KV.handle L)
    (postClusterJoinToken sha256 ctx clock leader body) w).1 = .ok (status, tok)) :
    storedToken sha256 (run (KV.handle L)
        (postClusterJoinToken sha256 ctx clock leader body) w).2.store tok.id = some tok ∧
      (ShortLived tok ↔ Fits (joinRequest body)) := by
  obtain ⟨hminted, hstored⟩ := minted_of_created hcreated
  exact ⟨hstored, hminted.lived_iff.trans (ttl_pos_iff hminted.ttlSeconds)⟩

end

/-! ### Requests of a root token to the leader -/

def joinTokenFor (ttlSeconds numUses : Int64) : Except Refusal (Nat × Token) × LogicalWorld :=
  run (KV.handle KV.sorted) (postClusterJoinToken (fun m => m) ⟨ascii "t", []⟩ (fun _ => 0)
    (some true) (some (.decoded ⟨ttlSeconds, numUses⟩))) rootTokenWorld

theorem created_joinTokenFor {ttlSeconds numUses : Int64}
    (hok : (joinTokenFor ttlSeconds numUses).1.isOk = true) :
    ∃ status tok, (joinTokenFor ttlSeconds numUses).1 = .ok (status, tok) := by
  cases h : (joinTokenFor ttlSeconds numUses).1 with
  | error e =>
    rw [h] at hok
    cases hok
  | ok r => exact ⟨r.1, r.2, rfl⟩

theorem shortLived_fiveMinutes :
    ∃ status tok, (joinTokenFor 300 2).1 = .ok (status, tok) ∧ ShortLived tok := by
  obtain ⟨status, tok, hcreated⟩ := @created_joinTokenFor 300 2
    (by decide +kernel)
  exact ⟨status, tok, hcreated, (shortLived_iff hcreated).2.2 (.inr (by decide))⟩

/-- A request for 9223372037 seconds is accepted and gives a token that never expires. -/
theorem standing_join_token : ∃ status tok, (joinTokenFor 9223372037 1).1 = .ok (status, tok) ∧
    tok.expiresAt = none ∧ ¬ShortLived tok := by
  obtain ⟨status, tok, hcreated⟩ := @created_joinTokenFor 9223372037 1
    (by decide +kernel)
  obtain ⟨hminted, -⟩ := minted_of_created hcreated
  have hpos : ¬0 < (ClusterJoinTokenReq.mk 9223372037 1).ttl.toInt := by decide
  exact ⟨status, tok, hcreated, hminted.expiresAt.trans (if_neg hpos),
    fun h => hpos (hminted.lived_iff.1 h)⟩

end Tuck.Api
