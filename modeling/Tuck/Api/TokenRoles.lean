/-
  Tokens created from a role, over their uses and renewals.

  "Tokens created from a role inherit its settings": a period sets every renewed expiry, a
  `max_ttl` without a period ends the token's life, and `max_uses` bounds its uses
  (`FollowsRole`). `CreateTokenFromRole` never reads the role's period, and hands `max_ttl` on
  to renewals alone. So only the bound on uses always holds; the settings are followed in all
  series of uses and renewals exactly for the roles of `Inherited` (`followsRole_iff`).
-/
import Tuck.Api.TokenLifetime

namespace Tuck.Api

open Tuck.Base Tuck.Core Prog
open Tuck.Token hiding id

/-- What is done with a token. -/
inductive TokenAct
  | use
  | renew (r : Renewal)

section

variable (sha256 : Bytes → Bytes) (L : KV.Listing)

/-- One use or renewal; the number counts the uses that `TrackUse` let pass. -/
def actOn (id : Bytes) (s : LogicalWorld × Nat) : TokenAct → LogicalWorld × Nat
  | .use =>
      let out := run (KV.handle L) (trackUse sha256 id) s.1
      (out.2, s.2 + if out.1.isOk then 1 else 0)
  | .renew r => (renewOnce sha256 L id s.1 r, s.2)

/-- The token keeps to the settings of its role. -/
structure FollowsRole (role : TokenRole) (tok : Token) (s : LogicalWorld × Nat) : Prop where
  period : 0 < role.period → role.renewable = true → ∀ (r : Renewal) (tok' : Token),
    (run (KV.handle L) (renewToken sha256 tok.id r.ttl r.now r.now') s.1).1 = .ok tok' →
      tok'.expiresAt = some (r.now' + role.period)
  capped : 0 < role.maxTTL → role.period ≤ 0 →
    ∀ now, tok.createdAt + role.maxTTL < now → Refused sha256 L s.1 tok.id now
  counted : 0 < role.maxUses → (s.2 : Int) ≤ role.maxUses

/-- The role has no period that a renewal would have to respect, and a `max_ttl` without a period
    comes with a `ttl` that is not longer. -/
def Inherited (role : TokenRole) : Prop :=
  (0 < role.period → role.renewable = false) ∧
    (0 < role.maxTTL → role.period ≤ 0 → 0 < role.ttl ∧ role.ttl ≤ role.maxTTL)

/-- The token that the handler creates in a namespace. -/
def createdFromRole (roleName displayName ns : Bytes) (now : Int) (w : LogicalWorld) :
    Except Err Token × LogicalWorld :=
  run (KV.handle L) (createTokenFromRole sha256 roleName displayName now
    (if ns ≠ [] then [withNamespace ns] else [])) w

/-- What is left of the token: nothing after a use too many, before that the token with the expiry
    of the last renewal and the uses so far. -/
def Kept (tok : Token) (s : LogicalWorld × Nat) : Prop :=
  (0 < tok.maxUses → (s.2 : Int) ≤ tok.maxUses) ∧
    (storedToken sha256 s.1.store tok.id = none ∨
      ∃ n, Renewed sha256 { tok with useCount := n } s.1 ∧ (0 < tok.maxUses → n = s.2))

end

section

variable {sha256 : Bytes → Bytes} {L : KV.Listing} {tok : Token} {s : LogicalWorld × Nat}

theorem storedToken_deleteStore_self (st : LogicalStore) (id : Bytes) :
    storedToken sha256 (deleteStore sha256 st id) id = none := by
  unfold storedToken
  cases h : (deleteStore sha256 st id).lookup (tokenKey sha256 id) with
  | none => rfl
  | some r => exact absurd rfl (lookup_deleteStore_eq_some.1 h).2.1

/-- Without a record nothing changes. -/
theorem actOn_none (h : storedToken sha256 s.1.store tok.id = none) (a : TokenAct) :
    actOn sha256 L tok.id s a = s := by
  obtain ⟨tok', hst, -⟩ | ⟨-, e, hget⟩ := run_get_cases L s.1 tok.id
  · rw [h] at hst
    cases hst
  cases a with
  | use =>
    unfold actOn trackUse
    rw [run_bind, hget]
    rfl
  | renew r =>
    unfold actOn
    dsimp only
    unfold renewOnce renewToken
    rw [run_bind, hget]
    rfl

theorem run_trackUse {w : LogicalWorld} {id : Bytes}
    (h : storedToken sha256 w.store id = some tok) :
    run (KV.handle L) (trackUse sha256 id) w =
      if tok.maxUses = 0 then (.ok (), w)
      else if tok.maxUses < tok.useCount + 1 then
        (.error .tokenInvalid, { w with store := deleteStore sha256 w.store tok.id })
      else (.ok (), ⟨putStore sha256 w.store { tok with useCount := tok.useCount + 1 },
        w.rng⟩) := by
  obtain ⟨tok', hst, hget⟩ | ⟨hst, -⟩ := run_get_cases L w id
  · obtain rfl : tok' = tok := by
      rw [h] at hst
      exact (Option.some.inj hst).symm
    unfold trackUse
    rw [run_bind, hget]
    dsimp only
    split_ifs
    · rfl
    · rw [run_bind, run_ignore, run_delete]
      rfl
    · rw [run_bind, run_ignore, run_put]
      rfl
  · rw [h] at hst
    cases hst

/-- A use of a stored token. -/
theorem Kept.use {n : Int} (hcount : 0 < tok.maxUses → (s.2 : Int) ≤ tok.maxUses)
    (hst : Renewed sha256 { tok with useCount := n } s.1) (hn : 0 < tok.maxUses → n = s.2)
    (hmax : 0 ≤ tok.maxUses) : Kept sha256 tok (actOn sha256 L tok.id s .use) := by
  obtain ⟨e, hst, he⟩ := hst
  have hrun := run_trackUse (L := L) hst
  unfold actOn
  dsimp only at hrun ⊢
  by_cases hun : tok.maxUses = 0
  · -- no limit
    rw [hrun, if_pos hun]
    exact ⟨fun hpos => by omega, .inr ⟨n, ⟨e, hst, he⟩, fun hpos => by omega⟩⟩
  have hn := hn (by omega)
  rw [if_neg hun] at hrun
  by_cases hlt : tok.maxUses < n + 1
  · -- one use too many
    rw [hrun, if_pos hlt]
    exact ⟨hcount, .inl (storedToken_deleteStore_self _ _)⟩
  · rw [hrun, if_neg hlt]
    refine ⟨fun _ => ?_, .inr ⟨n + 1, ⟨e, storedToken_putStore_self _ _, he⟩, fun _ => ?_⟩⟩
    · change ((s.2 + 1 : Nat) : Int) ≤ tok.maxUses
      omega
    · change n + 1 = ((s.2 + 1 : Nat) : Int)
      omega

theorem Kept.act (h : Kept sha256 tok s) (hmax : 0 ≤ tok.maxUses) (a : TokenAct) :
    Kept sha256 tok (actOn sha256 L tok.id s a) := by
  obtain ⟨hcount, hnone | ⟨n, hst, hn⟩⟩ := h
  · rw [actOn_none hnone]
    exact ⟨hcount, .inl hnone⟩
  cases a with
  | use => exact .use hcount hst hn hmax
  | renew r => exact ⟨hcount, .inr ⟨n, hst.renew r, hn⟩⟩

theorem Kept.foldl (h : Kept sha256 tok s) (hmax : 0 ≤ tok.maxUses) (acts : List TokenAct) :
    Kept sha256 tok (acts.foldl (actOn sha256 L tok.id) s) := by
  induction acts generalizing s with
  | nil => exact h
  | cons a acts ih => exact ih (h.act hmax a)

/-! ## Creation -/

/-- The token of a role has the role's durations, but for the period, which is not read. -/
structure FromRole (role : TokenRole) (now : Int) (tok : Token) : Prop where
  createdAt : tok.createdAt = now
  expiresAt : tok.expiresAt = if 0 < role.ttl then some (now + role.ttl) else none
  renewable : tok.renewable = role.renewable
  maxTTL : tok.maxTTL = if role.renewable = true then role.maxTTL else 0
  maxUses : tok.maxUses = if 0 < role.maxUses then role.maxUses else 0
  useCount : tok.useCount = 0
  period : tok.period = 0

variable {roleName displayName ns : Bytes} {now : Int} {w w' : LogicalWorld} {role : TokenRole}

theorem fromRole_stored
    (hrole : (w.store.lookup (tokenRolePrefix ++ roleName)).bind Record.tokenRole? = some role)
    (hcreated : createdFromRole sha256 L roleName displayName ns now w = (.ok tok, w')) :
    FromRole role now tok ∧ storedToken sha256 w'.store tok.id = some tok := by
  revert hcreated
  unfold createdFromRole createTokenFromRole
  rw [run_andThen, run_getAs, decodeAs_eq_ok.2 hrole]
  dsimp only
  rw [run_createToken_drawn sha256 L w _ _ _ _ _ rfl]
  rintro ⟨⟩
  refine ⟨?_, storedToken_putStore_self _ _⟩
  simp only [List.foldl_append, apply_ite (List.foldl _ _), List.foldl_cons, List.foldl_nil,
    withNamespace, withMaxUses, withRenewable]
  constructor <;> split_ifs <;> simp_all [drawnToken]

/-- Some renewal of a token without a period does not set the expiry a given time from now. -/
theorem renewedExpiry_ne (hperiod : tok.period = 0) {period : Int} (hpos : 0 < period) :
    ∃ ttl now', renewedExpiry tok ttl now' ≠ now' + period := by
  refine ⟨period + 1, tok.createdAt + tok.maxTTL, ?_⟩
  unfold renewedExpiry
  rw [if_neg (by omega)]
  dsimp only
  split_ifs <;> omega

theorem run_renewToken_ok {id : Bytes} (h : storedToken sha256 w.store id = some tok)
    (hvalid : tok.isExpired now = false) (hren : tok.renewable = true) (ttl now' : Int) :
    (run (KV.handle L) (renewToken sha256 id ttl now now') w).1 =
      .ok { tok with expiresAt := some (renewedExpiry tok ttl now') } := by
  obtain ⟨tok', hst, hget⟩ | ⟨hst, -⟩ := run_get_cases L w id
  · rw [h] at hst
    obtain rfl := Option.some.inj hst
    unfold renewToken
    rw [run_bind, hget]
    dsimp only
    rw [hvalid, hren, if_neg (by decide), if_neg (by decide), run_andThen, run_put]
    rfl
  · rw [h] at hst
    cases hst

theorem FromRole.not_expired (h : FromRole role now tok) : tok.isExpired now = false := by
  unfold Token.isExpired
  rw [h.expiresAt]
  split_ifs with httl
  · simp [httl.le]
  · rfl

/-- With a `ttl` up to the `max_ttl` and no period, what is left of the token has expired then. -/
theorem Kept.refused (h : Kept sha256 tok s) (hfrom : FromRole role now tok)
    (hmax : 0 < role.maxTTL) (httl : 0 < role.ttl) (hle : role.ttl ≤ role.maxTTL) {now' : Int}
    (hnow : tok.createdAt + role.maxTTL < now') : Refused sha256 L s.1 tok.id now' := by
  obtain ⟨-, hnone | ⟨n, ⟨e, hst, he⟩, -⟩⟩ := h
  · unfold Refused
    have hinvalid : validToken sha256 s.1.store tok.id now' = none :=
      congrArg (Option.filter _) hnone
    rw [run_authenticate, hinvalid]
  · refine (refused_iff hst now').2 ?_
    obtain rfl | ⟨hren, ttl, now'', rfl⟩ := he
    · refine ⟨_, hfrom.expiresAt.trans (if_pos httl), ?_⟩
      have := hfrom.createdAt
      omega
    · have hcap : tok.maxTTL = role.maxTTL := by
        rw [hfrom.maxTTL, if_pos (hfrom.renewable.symm.trans hren)]
      have hexpiry := @renewedExpiry_le { tok with useCount := n } hfrom.period.le
        (by exact hcap.symm ▸ hmax) ttl now''
      refine ⟨_, rfl, ?_⟩
      dsimp only at hexpiry
      omega

/-- A token follows its role through all uses and renewals exactly if the role is one of those whose
    settings it inherits. -/
theorem followsRole_iff
    (hrole : (w.store.lookup (tokenRolePrefix ++ roleName)).bind Record.tokenRole? = some role)
    (hcreated : createdFromRole sha256 L roleName displayName ns now w = (.ok tok, w')) :
    (∀ acts : List TokenAct, FollowsRole sha256 L role tok
      (acts.foldl (actOn sha256 L tok.id) (w', 0))) ↔ Inherited role := by
  obtain ⟨hfrom, hstored⟩ := fromRole_stored hrole hcreated
  constructor
  · -- the token as it was created
    intro h
    obtain ⟨hperiod, hcap, -⟩ := h []
    refine ⟨fun hpos => ?_, fun hmax hno => ?_⟩
    · by_contra hren
      rw [Bool.not_eq_false] at hren
      obtain ⟨ttl, now', hne⟩ := renewedExpiry_ne hfrom.period hpos
      have hrenewed := run_renewToken_ok (L := L) hstored hfrom.not_expired
        (hfrom.renewable.trans hren) ttl now'
      exact hne (Option.some.inj (hperiod hpos hren ⟨ttl, now, now'⟩ _ hrenewed))
    · obtain ⟨e, he, hlt⟩ := (refused_iff hstored _).1
        (hcap hmax hno (tok.createdAt + role.maxTTL + 1) (by omega))
      rw [hfrom.expiresAt] at he
      split_ifs at he with hpos
      have hexpiry := Option.some.inj he
      have hcreatedAt := hfrom.createdAt
      exact ⟨hpos, by omega⟩
  · intro ⟨hperiod, hcap⟩ acts
    have hmaxUses : 0 ≤ tok.maxUses := by
      rw [hfrom.maxUses]
      split_ifs <;> omega
    have hstart : Kept sha256 tok (w', 0) := by
      refine ⟨fun h => h.le, .inr ⟨0, ⟨tok.expiresAt, ?_, .inl rfl⟩, fun _ => rfl⟩⟩
      rw [← hfrom.useCount]
      exact hstored
    have hkept := hstart.foldl (L := L) hmaxUses acts
    refine ⟨fun hpos hren => ?_, fun hmax hno now' hnow => ?_, fun hpos => ?_⟩
    · exact absurd hren (by rw [hperiod hpos]; decide)
    · obtain ⟨httl, hle⟩ := hcap hmax hno
      exact hkept.refused hfrom hmax httl hle hnow
    · have hcount := hkept.1
      rw [hfrom.maxUses, if_pos hpos] at hcount
      exact hcount hpos

end

/-! ### Two roles -/

/-- A renewable role with a `ttl` of an hour. -/
def hourRole (maxTTL period : Int) : TokenRole :=
  ⟨ascii "ci", [], 3600000000000, maxTTL, 3, true, period⟩

def roleWorld (role : TokenRole) : LogicalWorld :=
  ⟨Finmap.singleton (tokenRolePrefix ++ ascii "ci") (.tokenRole role), fun _ => 0⟩

def createdHour (role : TokenRole) : Except Err Token × LogicalWorld :=
  createdFromRole (fun m => m) KV.sorted (ascii "ci") [] [] 0 (roleWorld role)

theorem followsRole_twoHours : ∃ tok w', createdHour (hourRole 7200000000000 0) = (.ok tok, w') ∧
    ∀ acts : List TokenAct, FollowsRole (fun m => m) KV.sorted (hourRole 7200000000000 0) tok
      (acts.foldl (actOn (fun m => m) KV.sorted tok.id) (w', 0)) := by
  obtain ⟨tok, w', hcreated⟩ : ∃ tok w', createdHour (hourRole 7200000000000 0) = (.ok tok, w') :=
    ⟨_, _, rfl⟩
  exact ⟨tok, w', hcreated, (followsRole_iff rfl hcreated).2 ⟨by decide, by decide⟩⟩

/-- A token of a role with a period of a minute: a renewal at its creation sets its expiry to an
    hour later. -/
theorem period_ignored : ∃ tok w' tok', createdHour (hourRole 0 60000000000) = (.ok tok, w') ∧
    (run (KV.handle KV.sorted) (renewToken (fun m => m) tok.id 0 0 0) w').1 = .ok tok' ∧
      tok'.expiresAt = some 3600000000000 ∧
      ¬FollowsRole (fun m => m) KV.sorted (hourRole 0 60000000000) tok (w', 0) := by
  obtain ⟨tok, w', hcreated⟩ : ∃ tok w', createdHour (hourRole 0 60000000000) = (.ok tok, w') :=
    ⟨_, _, rfl⟩
  obtain ⟨hfrom, hstored⟩ := fromRole_stored rfl hcreated
  have hrenewed := run_renewToken_ok (L := KV.sorted) hstored hfrom.not_expired hfrom.renewable 0 0
  have hexpiry : renewedExpiry tok 0 0 = 3600000000000 := by
    unfold renewedExpiry
    rw [hfrom.period, hfrom.maxTTL, hfrom.createdAt]
    decide
  rw [hexpiry] at hrenewed
  refine ⟨tok, w', _, hcreated, hrenewed, rfl, fun h => ?_⟩
  have hminute := Option.some.inj (h.period (by decide) rfl ⟨0, 0, 0⟩ _ hrenewed)
  exact absurd hminute (by decide)

end Tuck.Api
