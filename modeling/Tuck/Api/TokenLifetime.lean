/-
  How long a created token lives, whatever its durations and however often it is renewed.

  A token with a `ttl` and no period is meant to expire, and a renewable one with a `max_ttl`
  not to live longer than that (`KeepsLifetime`). `Generate` takes a `ttl` that is not positive
  for "never expires" and does not look at `max_ttl`, which only renewals respect. So the two
  hold after every series of renewals exactly for the requests of `Timely`
  (`token_lifetime_iff`); the others are accepted as well (`lifetime_overrun`).
-/
import Tuck.Api.TokenHandlers
import Tuck.Core.TokenSpecs

namespace Tuck.Api

open Tuck.Base Tuck.Core Prog
open Tuck.Token hiding id

/-- One call of `RenewToken`, with the two readings of the clock. -/
structure Renewal where
  ttl : Int
  now : Int
  now' : Int

section

variable (sha256 : Bytes → Bytes) (L : KV.Listing)

def renewOnce (id : Bytes) (w : LogicalWorld) (r : Renewal) : LogicalWorld :=
  (run (KV.handle L) (renewToken sha256 id r.ttl r.now r.now') w).2

/-- The token does not authenticate at `now`. -/
def Refused (w : LogicalWorld) (id : Bytes) (now : Int) : Prop :=
  (run (KV.handle L) (authenticate sha256 id now) w).1 = .error .tokenInvalid

/-- What the durations of the request promise of the token. -/
structure KeepsLifetime (b : CreateTokenBody) (req : CreateTokenReq) (tok : Token)
    (w : LogicalWorld) : Prop where
  expires : b.ttl ≠ [] → req.period ≤ 0 → ∃ e, ∀ now, e < now → Refused sha256 L w tok.id now
  capped : req.renewable = true → 0 < req.maxTTL → req.period ≤ 0 →
    ∀ now, tok.createdAt + req.maxTTL < now → Refused sha256 L w tok.id now

/-- The request has a period, or its `ttl`, if it has one, is positive, and for a renewable token
    with a `max_ttl` there is one and it is not longer. -/
def Timely (b : CreateTokenBody) (req : CreateTokenReq) : Prop :=
  0 < req.period ∨ (b.ttl ≠ [] → 0 < req.ttl) ∧
    (req.renewable = true → 0 < req.maxTTL → 0 < req.ttl ∧ req.ttl ≤ req.maxTTL)

end

/-! ## The stored expiry -/

section

variable {sha256 : Bytes → Bytes} {L : KV.Listing} {w : LogicalWorld}

theorem refused_iff {id : Bytes} {tok : Token} (h : storedToken sha256 w.store id = some tok)
    (now : Int) : Refused sha256 L w id now ↔ ∃ e, tok.expiresAt = some e ∧ e < now := by
  have hvalid : validToken sha256 w.store id now = (some tok).filter fun t => !t.isExpired now :=
    congrArg (Option.filter _) h
  unfold Refused
  rw [run_authenticate, hvalid]
  cases hexp : tok.expiresAt with
  | none => simp [Option.filter, Token.isExpired, hexp]
  | some e =>
    by_cases hlt : e < now
    · simp [Option.filter, Token.isExpired, hexp, hlt]
    · simp [Option.filter, Token.isExpired, hexp, hlt]

/-- The token with the expiry it has by now: the first one or one that a renewal set. -/
def Renewed (sha256 : Bytes → Bytes) (tok : Token) (w : LogicalWorld) : Prop :=
  ∃ e, storedToken sha256 w.store tok.id = some { tok with expiresAt := e } ∧
    (e = tok.expiresAt ∨ tok.renewable = true ∧ ∃ ttl now', e = some (renewedExpiry tok ttl now'))

theorem Renewed.renew {tok : Token} (h : Renewed sha256 tok w) (r : Renewal) :
    Renewed sha256 tok (renewOnce sha256 L tok.id w r) := by
  obtain ⟨e, hst, he⟩ := h
  unfold renewOnce renewToken
  obtain ⟨tok', hst', hget⟩ | ⟨hst', -⟩ := run_get_cases L w tok.id
  · obtain rfl : tok' = { tok with expiresAt := e } := by
      rw [hst] at hst'
      exact (Option.some.inj hst').symm
    rw [run_bind, hget]
    dsimp only
    split_ifs with hexp hren
    · exact ⟨e, hst, he⟩
    · exact ⟨e, hst, he⟩
    · rw [run_andThen, run_put]
      refine ⟨_, storedToken_putStore_self _ _, .inr ⟨?_, r.ttl, r.now', rfl⟩⟩
      simpa using hren
  · rw [hst] at hst'
    cases hst'

theorem Renewed.foldl_renew {tok : Token} (h : Renewed sha256 tok w) (rs : List Renewal) :
    Renewed sha256 tok (rs.foldl (renewOnce sha256 L tok.id) w) := by
  induction rs generalizing w with
  | nil => exact h
  | cons r rs ih => exact ih (h.renew r)

/-- Without a period no renewal goes beyond the cap. -/
theorem renewedExpiry_le {tok : Token} (hperiod : tok.period ≤ 0) (hmax : 0 < tok.maxTTL)
    (ttl now : Int) : renewedExpiry tok ttl now ≤ tok.createdAt + tok.maxTTL := by
  unfold renewedExpiry
  rw [if_neg (by omega)]
  generalize (now + if ttl ≤ 0 then 3600000000000 else ttl) = newExpiry
  dsimp only
  split_ifs with h
  · exact le_rfl
  · simp only [hmax, true_and, not_lt] at h
    exact h

/-! ## Creation -/

/-- What the options of a request make of the durations. -/
theorem opts_durations (req : CreateTokenReq) (creator ns : Bytes) (t : Token) :
    ((req.opts creator ns).foldl (fun t o => o t) t).createdAt = t.createdAt ∧
      ((req.opts creator ns).foldl (fun t o => o t) t).expiresAt = t.expiresAt ∧
      ((req.opts creator ns).foldl (fun t o => o t) t).maxTTL =
        (if req.renewable = true then req.maxTTL else t.maxTTL) ∧
      ((req.opts creator ns).foldl (fun t o => o t) t).period =
        (if 0 < req.period then req.period else t.period) := by
  have hparent (t : Token) :
      withParent creator t = { t with parentID := if t.orphan then t.parentID else creator } := by
    unfold withParent
    split_ifs <;> rfl
  unfold CreateTokenReq.opts
  simp only [List.foldl_append, apply_ite (List.foldl _ _), List.foldl_cons, List.foldl_nil,
    withNamespace, withOrphan, hparent, withMaxUses, withPeriod, withRenewable]
  refine ⟨?_, ?_, ?_, ?_⟩
  · simp only [apply_ite Token.createdAt, ite_self]
  · simp only [apply_ite Token.expiresAt, ite_self]
  · simp only [apply_ite Token.maxTTL, ite_self]
  · simp only [apply_ite Token.period, ite_self]

variable {parseDuration : Bytes → Except Bytes Int} {ctx : Ctx} {clock : Nat → Int}
  {b : CreateTokenBody} {req : CreateTokenReq} {status : Nat} {tok : Token}

/-- The token of an accepted request has the durations of the request. -/
structure Created (req : CreateTokenReq) (now : Int) (tok : Token) : Prop where
  createdAt : tok.createdAt = now
  expiresAt : tok.expiresAt = if 0 < req.ttl then some (now + req.ttl) else none
  maxTTL : tok.maxTTL = if req.renewable = true then req.maxTTL else 0
  period : tok.period = if 0 < req.period then req.period else 0

theorem created_stored (hparse : b.parse parseDuration = .ok req)
    (hcreated : (run (KV.handle L) (createToken parseDuration sha256 ctx clock (.decoded b)) w).1 =
      .ok (status, tok)) :
    Created req (clock 1) tok ∧ storedToken sha256 (run (KV.handle L)
      (createToken parseDuration sha256 ctx clock (.decoded b)) w).2.store tok.id = some tok := by
  revert hcreated
  unfold createToken
  rw [run_andThen]
  obtain ⟨r, w₁⟩ := run (KV.handle L)
    (enforce sha256 ctx (ascii "auth/token") Policy.capWrite (clock 0)) w
  cases r with
  | error e => exact nofun
  | ok _ =>
    have hrun := run_createToken_drawn sha256 L w₁ req.displayName req.policies req.ttl (clock 1)
      (req.opts ctx.token ctx.ns) rfl
    simp only [hparse, orRefuse, run_andThen, run_bind, hrun, run_ret]
    rintro ⟨⟩
    obtain ⟨hcreatedAt, hexpires, hmaxTTL, hperiod⟩ := opts_durations req ctx.token ctx.ns
      (drawnToken w₁.rng req.displayName req.policies req.ttl (clock 1))
    exact ⟨⟨hcreatedAt, hexpires, hmaxTTL, hperiod⟩, storedToken_putStore_self _ _⟩

/-- The promise of the durations is kept after every series of renewals exactly if the request
    is timely. -/
theorem token_lifetime_iff (hparse : b.parse parseDuration = .ok req)
    (hcreated : (run (KV.handle L) (createToken parseDuration sha256 ctx clock (.decoded b)) w).1 =
      .ok (status, tok)) :
    (∀ rs : List Renewal, KeepsLifetime sha256 L b req tok
        (rs.foldl (renewOnce sha256 L tok.id) (run (KV.handle L)
          (createToken parseDuration sha256 ctx clock (.decoded b)) w).2)) ↔
      Timely b req := by
  obtain ⟨⟨hcreatedAt, hexpires, hmaxTTL, hperiod⟩, hstored⟩ := created_stored hparse hcreated
  generalize (run (KV.handle L)
    (createToken parseDuration sha256 ctx clock (.decoded b)) w).2 = w₁ at hstored ⊢
  constructor
  · -- the token as it was created, before any renewal
    intro h
    obtain ⟨hexp, hcap⟩ := h []
    by_cases hp : 0 < req.period
    · exact .inl hp
    refine .inr ⟨fun httl => ?_, fun hren hmax => ?_⟩
    · obtain ⟨e, he⟩ := hexp httl (by omega)
      obtain ⟨e', he', -⟩ := (refused_iff hstored _).1 (he (e + 1) (by omega))
      rw [hexpires] at he'
      split_ifs at he' with hpos
      exact hpos
    · obtain ⟨e, he, hlt⟩ := (refused_iff hstored _).1
        (hcap hren hmax (by omega) (tok.createdAt + req.maxTTL + 1) (by omega))
      rw [hexpires] at he
      split_ifs at he with hpos
      obtain rfl := Option.some.inj he
      exact ⟨hpos, by omega⟩
  · intro htimely rs
    obtain ⟨e, hst, he⟩ := Renewed.foldl_renew (L := L)
      ⟨tok.expiresAt, hstored, .inl rfl⟩ rs
    refine ⟨fun httl hp => ?_, fun hren hmax hp now hnow => ?_⟩
    · obtain hp' | ⟨hpos, -⟩ := htimely
      · omega
      obtain ⟨e', rfl⟩ : ∃ e', e = some e' := by
        obtain rfl | ⟨-, ttl, now', rfl⟩ := he
        · exact ⟨_, hexpires.trans (if_pos (hpos httl))⟩
        · exact ⟨_, rfl⟩
      exact ⟨e', fun now hnow => (refused_iff hst now).2 ⟨e', rfl, hnow⟩⟩
    · obtain hp' | ⟨-, hpos⟩ := htimely
      · omega
      obtain ⟨httl, hle⟩ := hpos hren hmax
      rw [if_pos hren] at hmaxTTL
      rw [if_neg (by omega)] at hperiod
      refine (refused_iff hst now).2 ?_
      obtain rfl | ⟨-, ttl, now', rfl⟩ := he
      · exact ⟨_, hexpires.trans (if_pos httl), by omega⟩
      · have hcap : renewedExpiry tok ttl now' ≤ tok.createdAt + tok.maxTTL :=
          renewedExpiry_le hperiod.le (by omega) ttl now'
        exact ⟨_, rfl, by omega⟩

end

/-! ### Requests with durations of hours -/

/-- `time.ParseDuration` on whole hours. -/
def parseHours (text : Bytes) : Except Bytes Int :=
  if text = ascii "1h" then .ok 3600000000000
  else if text = ascii "2h" then .ok 7200000000000
  else if text = ascii "-1h" then .ok (-3600000000000)
  else .error (ascii "time: invalid duration")

/-- A request for a renewable token. -/
def renewableFor (ttl maxTTL : String) : CreateTokenBody :=
  ⟨ascii "ci", [], ascii ttl, true, ascii maxTTL, 0, [], true, false⟩

def createdFor (ttl maxTTL : String) : Except Refusal (Nat × Token) × LogicalWorld :=
  run (KV.handle KV.sorted) (createToken parseHours (fun m => m) ⟨ascii "t", []⟩ (fun _ => 0)
    (.decoded (renewableFor ttl maxTTL))) rootTokenWorld

theorem token_lifetime_oneHour : ∃ status tok, (createdFor "1h" "2h").1 = .ok (status, tok) ∧
    ∀ rs : List Renewal, KeepsLifetime (fun m => m) KV.sorted (renewableFor "1h" "2h")
      ⟨ascii "ci", [], 3600000000000, true, 7200000000000, 0, 0, true, false⟩ tok
      (rs.foldl (renewOnce (fun m => m) KV.sorted tok.id) (createdFor "1h" "2h").2) := by
  have hok : (createdFor "1h" "2h").1.isOk = true := by decide +kernel
  cases hcreated : (createdFor "1h" "2h").1 with
  | error e =>
    rw [hcreated] at hok
    cases hok
  | ok r =>
    refine ⟨r.1, r.2, rfl, (token_lifetime_iff rfl hcreated).2 (.inr ⟨fun _ => ?_, fun _ _ => ?_⟩)⟩
    · decide
    · decide

/-- Right after its creation the token is refused from its first expiry on. -/
theorem refused_createdFor (ttl maxTTL : String) {req : CreateTokenReq}
    (hparse : (renewableFor ttl maxTTL).parse parseHours = .ok req)
    (hok : (createdFor ttl maxTTL).1.isOk = true) :
    ∃ status tok, (createdFor ttl maxTTL).1 = .ok (status, tok) ∧
      ∀ now, Refused (fun m => m) KV.sorted (createdFor ttl maxTTL).2 tok.id now ↔
        0 < req.ttl ∧ req.ttl < now := by
  cases hcreated : (createdFor ttl maxTTL).1 with
  | error e =>
    rw [hcreated] at hok
    cases hok
  | ok r =>
    obtain ⟨hdurations, hstored⟩ := created_stored hparse hcreated
    refine ⟨r.1, r.2, rfl, fun now => (refused_iff hstored now).trans ?_⟩
    rw [hdurations.expiresAt]
    split_ifs with hpos
    · simp [hpos]
    · simp [hpos]

/-- Accepted requests whose tokens outlive them: a `ttl` of "-1h" never expires, a `max_ttl` of
    "1h" without a `ttl` still authenticates after two hours, and with a `ttl` of "2h" after
    more than one. -/
theorem lifetime_overrun :
    (∃ status tok, (createdFor "-1h" "").1 = .ok (status, tok) ∧
      ∀ now, ¬Refused (fun m => m) KV.sorted (createdFor "-1h" "").2 tok.id now) ∧
    (∃ status tok, (createdFor "" "1h").1 = .ok (status, tok) ∧
      ¬Refused (fun m => m) KV.sorted (createdFor "" "1h").2 tok.id 7200000000000) ∧
    ∃ status tok, (createdFor "2h" "1h").1 = .ok (status, tok) ∧
      ¬Refused (fun m => m) KV.sorted (createdFor "2h" "1h").2 tok.id 3600000000001 := by
  refine ⟨?_, ?_, ?_⟩
  · obtain ⟨status, tok, hcreated, hrefused⟩ := refused_createdFor "-1h" "" rfl (by decide +kernel)
    refine ⟨status, tok, hcreated, fun now h => ?_⟩
    exact absurd ((hrefused now).1 h).1 (by decide)
  · obtain ⟨status, tok, hcreated, hrefused⟩ := refused_createdFor "" "1h" rfl (by decide +kernel)
    exact ⟨status, tok, hcreated, fun h => absurd ((hrefused _).1 h).1 (by decide)⟩
  · obtain ⟨status, tok, hcreated, hrefused⟩ := refused_createdFor "2h" "1h" rfl (by decide +kernel)
    exact ⟨status, tok, hcreated, fun h => absurd ((hrefused _).1 h).2 (by decide)⟩

end Tuck.Api
