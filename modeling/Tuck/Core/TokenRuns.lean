/-
  Runs of the token operations, one after the other and without storage errors. The state
  carries the history of creations, which no operation reads: who was created, with which
  accessor, and by whom, unless it was created as an orphan.
-/
import Tuck.Core.TokenTree
import Tuck.Api.Tokens
import Tuck.Base.Machine

namespace Tuck.Core

open Tuck.Base Tuck.Api Prog List
open Tuck.Token hiding id

/-- A creation, as the history keeps it. -/
structure Created where
  id : Bytes
  accessor : Bytes
  creator : Option Bytes
  deriving DecidableEq

/-- How a token comes about that no other token created. -/
inductive Origin where
  | root
  | login (ns : Bytes)
  | ldap (ns : Bytes)

/-- The options of `Start` and of the logins. -/
def Origin.opts : Origin → List TokenOpt
  | .root => []
  | .login ns => loginTokenOpts ns
  | .ldap ns => loginTokenOpts ns ++ [withAuthMethod (ascii "ldap")]

inductive Op where
  | issue (origin : Origin) (displayName : Bytes) (policies : List Bytes) (ttl now : Int)
      (entity : Option (Bytes × List Bytes))
  | create (creator : Bytes) (req : CreateTokenReq) (ns : Bytes) (now now' : Int)
  | createFromRole (creator roleName displayName ns : Bytes) (now now' : Int)
  | renew (id : Bytes) (ttl now now' : Int)
  | use (id : Bytes) (now : Int)
  | narrow (id : Bytes) (allowed : List Bytes) (now : Int)
  | gc (now : Int)
  | revoke (id : Bytes)
  | revokeTree (id : Bytes)
  | revokeByAccessor (acc : Bytes)

/-- The operation may create a token. -/
def Op.creates : Op → Bool
  | .issue .. => true
  | .create .. => true
  | .createFromRole .. => true
  | _ => false

structure State where
  world : LogicalWorld
  created : List Created

section

variable (sha256 : Bytes → Bytes)

/-- What `requireToken` does with the token of a request. -/
def useToken (id : Bytes) (now : Int) : Logical Unit :=
  (authenticate sha256 id now).andThen fun _ => trackUse sha256 id

/-- The history's entry for what a creation returned. -/
def entryOf (creator : Option Bytes) : Except Err Token → Option Created
  | .ok tok => some ⟨tok.id, tok.accessor, creator⟩
  | .error _ => none

/-- The code of an operation, and what it adds to the history. -/
def Op.code (depth : Nat) : Op → KV.Code Record (Option Created)
  | .issue origin displayName policies ttl now entity =>
      (createToken sha256 displayName policies ttl now origin.opts).bind fun r =>
        (match r with
          | .ok tok => attachEntityToToken sha256 tok entity
          | .error _ => .ret ()).bind fun _ => .ret (entryOf none r)
  | .create creator req ns now now' =>
      ((useToken sha256 creator now).andThen fun _ =>
        createToken sha256 req.displayName req.policies req.ttl now' (req.opts creator ns)).bind
          fun r =>
          .ret (entryOf (if req.orphan || req.noParent then none else some creator) r)
  | .createFromRole creator roleName displayName ns now now' =>
      ((useToken sha256 creator now).andThen fun _ =>
        createTokenFromRole sha256 roleName displayName now'
          (if ns ≠ [] then [withNamespace ns] else [])).bind fun r =>
          .ret (entryOf (some creator) r)
  | .renew id ttl now now' => (renewToken sha256 id ttl now now').bind fun _ => .ret none
  | .use id now => (useToken sha256 id now).bind fun _ => .ret none
  | .narrow id allowed now => (narrowToken sha256 id allowed now).bind fun _ => .ret none
  | .gc now => (runGC sha256 now).bind fun _ => .ret none
  | .revoke id => (revokeToken sha256 id).bind fun _ => .ret none
  | .revokeTree id => (revokeTokenTree sha256 depth id).bind fun _ => .ret none
  | .revokeByAccessor acc => (revokeTokenByAccessor sha256 acc).bind fun _ => .ret none

variable (L : KV.Listing)

/-- One operation. The depth allowed to `revokeTokenTree` is enough (`revokeTree_returns`). -/
def stepOp (s : State) (op : Op) : State :=
  let out := run (KV.handle L) (op.code sha256 (s.created.length + 1)) s.world
  ⟨out.2, out.1.toList ++ s.created⟩

end

/-! ## The invariant of all runs -/

/-- The IDs created so far, the newest first. -/
def State.ids (s : State) : List Bytes := s.created.map Created.id

/-- The next ID and accessor were never drawn before. -/
def State.DrawsFresh (s : State) : Prop :=
  drawnID s.world.rng ∉ s.ids ∧ drawnAccessor s.world.rng ∉ s.created.map Created.accessor

/-- Generated IDs and accessors are fresh. -/
def Fresh (s : State) (op : Op) : Prop := op.creates = true → s.DrawsFresh

/-- What every state satisfies. The last field ranks the children index: a child is newer than
    its parent. -/
structure Inv (sha256 : Bytes → Bytes) (s : State) : Prop where
  wf : Wf sha256 s.world.store
  known : ∀ t, Stored sha256 s.world.store t →
    ∃ c ∈ s.created, c.id = t.id ∧ c.accessor = t.accessor
  named : ∀ c ∈ s.created, c.id ≠ [] ∧ c.accessor ≠ []
  ranked : ∀ p c, IsChild sha256 s.world.store p c → p ∈ s.ids ∧ s.ids.idxOf c < s.ids.idxOf p

/-- What an operation deletes, in terms of the state before and, for a tree, after it. -/
def Op.Removes (sha256 : Bytes → Bytes) (s s' : LogicalStore) (R : Set Bytes) : Op → Prop
  | .create id _ _ _ _ => R = ∅ ∨ R = {id} ∧ exhausted sha256 s id = true
  | .createFromRole id _ _ _ _ _ => R = ∅ ∨ R = {id} ∧ exhausted sha256 s id = true
  | .use id _ => R = ∅ ∨ R = {id} ∧ exhausted sha256 s id = true
  | .gc now => R = {x | ∃ t, Stored sha256 s t ∧ t.isExpired now = true ∧ t.id = x}
  | .revoke id => R = {id}
  | .revokeTree id => (∀ x ∈ R, Below sha256 s id x) ∧ ∀ u, Below sha256 s id u → Absent sha256 s' u
  | .revokeByAccessor acc =>
      (∃ t, Stored sha256 s t ∧ t.accessor = acc ∧ R = {t.id}) ∨
        R = ∅ ∧ ∀ t, Stored sha256 s t → t.accessor ≠ acc
  | _ => R = ∅

/-- Everything an operation can do. -/
inductive OpCase (sha256 : Bytes → Bytes) (P : Token → Prop) (s : State) (op : Op)
    (s' : State) : Prop
  | change (R : Set Bytes) (hch : Changes sha256 P s.world.store R s'.world.store)
      (hcreated : s'.created = s.created)
      (hR : op.Removes sha256 s.world.store s'.world.store R)
  | create (hop : op.creates = true) (s₁ : LogicalStore) (tok : Token) (creator : Option Bytes)
      (hch : Changes sha256 P s.world.store ∅ s₁)
      (hput : Changes sha256 P (putStore sha256 s₁ tok) ∅ s'.world.store)
      (hid : tok.id = drawnID s.world.rng) (hacc : tok.accessor = drawnAccessor s.world.rng)
      (hcreated : s'.created = ⟨tok.id, tok.accessor, creator⟩ :: s.created)
      (hparent : hasParent tok = true →
        creator = some tok.parentID ∧ ∃ p, Stored sha256 s.world.store p ∧ p.id = tok.parentID)
      (horphan : hasParent tok = false →
        creator = none ∨ ∃ c r d ns now now', op = .createFromRole c r d ns now now')

section

variable {sha256 : Bytes → Bytes} {L : KV.Listing} {P : Token → Prop}

variable {op : Op}

theorem stepOp_eq {s : State} {w : LogicalWorld} {c : Option Created}
    (h : run (KV.handle L) (op.code sha256 (s.created.length + 1)) s.world = (c, w)) :
    stepOp sha256 L s op = ⟨w, c.toList ++ s.created⟩ := by
  unfold stepOp
  rw [h]

/-- A run that creates nothing. -/
theorem OpCase.of_did {s : State} {α : Type} {p : KV.Code Record α} {a : α} {R : Set Bytes}
    (hcode : op.code sha256 (s.created.length + 1) = p.bind fun _ => .ret none)
    (hdid : Did sha256 L P p s.world a R)
    (hR : ∀ s', run (KV.handle L) p s.world = (a, { s.world with store := s' }) →
      op.Removes sha256 s.world.store s' R) :
    OpCase sha256 P s op (stepOp sha256 L s op) := by
  obtain ⟨s', hrun, hch⟩ := hdid
  rw [stepOp_eq (w := { s.world with store := s' }) (c := none)
    (by rw [hcode, run_bind, hrun]; rfl)]
  exact .change R hch rfl (hR s' hrun)

variable (hsha : Function.Injective sha256) {s : State} (hinv : Inv sha256 s)

include hsha hinv

theorem did_useToken (id : Bytes) (now : Int) :
    ∃ r R, Did sha256 L P (useToken sha256 id now) s.world r R ∧
      (R = ∅ ∨ R = {id} ∧ exhausted sha256 s.world.store id = true) ∧
      (r = .ok () → R = ∅ ∧ ∃ tok, Stored sha256 s.world.store tok ∧ tok.id = id) := by
  have hauth := run_authenticate (L := L) (w := s.world) sha256 id now
  cases hv : validToken sha256 s.world.store id now with
  | none =>
    rw [hv] at hauth
    exact ⟨.error .tokenInvalid, ∅, Did.read (.ret _) hauth, .inl rfl, fun h => by cases h⟩
  | some tok =>
    rw [hv] at hauth
    obtain ⟨r, hdid, hr⟩ := did_trackUse (L := L) (P := P) hsha hinv.wf id
    refine ⟨r, _, Did.readOk hdid hauth, ?_, fun hok => ⟨?_, tok, ?_⟩⟩
    · split_ifs with hex
      · exact .inr ⟨rfl, hex⟩
      · exact .inl rfl
    · rw [hr hok]
      rfl
    · exact (storedToken_eq_some hsha hinv.wf).1 (Option.filter_eq_some_iff.1 hv).1

/-- A token that another one creates. -/
theorem OpCase.of_creator {c : Bytes} {now : Int} {mk : Logical Token} {creator : Option Bytes}
    (hop : op.creates = true)
    (hcode : op.code sha256 (s.created.length + 1) =
      ((useToken sha256 c now).andThen fun _ => mk).bind fun r => .ret (entryOf creator r))
    (hR : ∀ s' R, R = ∅ ∨ R = {c} ∧ exhausted sha256 s.world.store c = true →
      op.Removes sha256 s.world.store s' R)
    (hmk : ∀ w' : LogicalWorld, w'.rng = s.world.rng →
      (∃ e, run (KV.handle L) mk w' = (.error e, w')) ∨
        ∃ tok rng', run (KV.handle L) mk w' = (.ok tok, ⟨putStore sha256 w'.store tok, rng'⟩) ∧
          tok.id = drawnID w'.rng ∧ tok.accessor = drawnAccessor w'.rng ∧
          (hasParent tok = true → creator = some tok.parentID ∧ tok.parentID = c) ∧
          (hasParent tok = false →
            creator = none ∨ c = [] ∨
              ∃ c r d ns now now', op = .createFromRole c r d ns now now')) :
    OpCase sha256 P s op (stepOp sha256 L s op) := by
  obtain ⟨r, R, ⟨s', hrun, hch⟩, hRc, hok⟩ := did_useToken (L := L) (P := P) hsha hinv c now
  have hbegun := congrArg (run (KV.handle L) · s.world) hcode
  simp only [run_bind, run_andThen, hrun] at hbegun
  cases r with
  | error e =>
    rw [stepOp_eq hbegun]
    exact .change R hch rfl (hR s' R hRc)
  | ok _ =>
    obtain ⟨rfl, creatorTok, hstored, hcid⟩ := hok rfl
    obtain ⟨e, hmk⟩ | ⟨tok, rng', hmk, hid, hacc, hpar, horph⟩ :=
      hmk { s.world with store := s' } rfl
    · rw [hmk] at hbegun
      rw [stepOp_eq hbegun]
      exact .change ∅ hch rfl (hR s' ∅ (.inl rfl))
    · rw [hmk] at hbegun
      rw [stepOp_eq hbegun]
      refine .create hop s' tok creator hch (.refl _) hid hacc rfl (fun h => ?_) (fun h => ?_)
      · exact ⟨(hpar h).1, creatorTok, hstored, hcid.trans (hpar h).2.symm⟩
      · -- the creator is a stored token, so its ID is not empty
        obtain hnone | hempty | hrole := horph h
        · exact .inl hnone
        · obtain ⟨entry, hmem, hentry, -⟩ := hinv.known creatorTok hstored
          exact absurd (hentry.trans (hcid.trans hempty)) (hinv.named entry hmem).1
        · exact .inr hrole

omit hsha hinv in
theorem kin_loginTokenOpts (ns : Bytes) : ∀ o ∈ loginTokenOpts ns, ∀ t, Kin t (o t) := by
  intro o ho t
  unfold loginTokenOpts at ho
  split_ifs at ho
  · obtain rfl | rfl : o = withRenewable 0 ∨ o = withNamespace ns := by simpa using ho
    · exact ⟨rfl, rfl, rfl, rfl⟩
    · exact ⟨rfl, rfl, rfl, rfl⟩
  · obtain rfl : o = withRenewable 0 := by simpa using ho
    exact ⟨rfl, rfl, rfl, rfl⟩

omit hsha hinv in
theorem kin_roleOpts (role : TokenRole) (ns : Bytes) :
    ∀ o ∈ (if role.renewable then [withRenewable role.maxTTL] else []) ++
      (if 0 < role.maxUses then [withMaxUses role.maxUses] else []) ++
      (if ns ≠ [] then [withNamespace ns] else []), ∀ t, Kin t (o t) := by
  intro o ho t
  simp only [mem_append, mem_ite_nil_right, mem_singleton] at ho
  obtain (⟨-, rfl⟩ | ⟨-, rfl⟩) | ⟨-, rfl⟩ := ho <;> exact ⟨rfl, rfl, rfl, rfl⟩

omit hsha hinv in
theorem Origin.kin_opts (origin : Origin) : ∀ o ∈ origin.opts, ∀ t, Kin t (o t) := by
  cases origin with
  | root => exact fun o ho => absurd ho not_mem_nil
  | login ns => exact kin_loginTokenOpts ns
  | ldap ns =>
    intro o ho t
    obtain ho | ho := mem_append.1 ho
    · exact kin_loginTokenOpts ns o ho t
    · obtain rfl := mem_singleton.1 ho
      exact ⟨rfl, rfl, rfl, rfl⟩

variable {tok : Token}

omit hsha hinv in
theorem kin_parentOpt {t : Token} (hkin : Kin tok t) (horphan : tok.orphan = false) (b : Bool)
    (creator : Bytes) :
    Kin { tok with parentID := if b then [] else creator, orphan := b }
      ((if b then [withOrphan] else [withParent creator]).foldl (fun t o => o t) t) := by
  cases b with
  | true => exact ⟨hkin.id, hkin.accessor, rfl, rfl⟩
  | false =>
    have ht : t.orphan = false := hkin.orphan.symm.trans horphan
    have hset : withParent creator t = { t with parentID := creator } := by
      unfold withParent
      rw [ht]
      rfl
    change Kin _ (withParent creator t)
    rw [hset]
    exact ⟨hkin.id, hkin.accessor, rfl, ht.symm⟩

omit hsha hinv in
/-- The place in the indexes of a token that a request creates. -/
theorem kin_createTokenReq (req : CreateTokenReq) (creator ns : Bytes)
    (horphan : tok.orphan = false) :
    Kin { tok with
        parentID := if req.orphan || req.noParent then [] else creator
        orphan := req.orphan || req.noParent }
      ((req.opts creator ns).foldl (fun t o => o t) tok) := by
  unfold CreateTokenReq.opts
  simp only [foldl_append]
  have hlast (t : Token) :
      Kin t ((if ns ≠ [] then [withNamespace ns] else []).foldl (fun t o => o t) t) := by
    split_ifs <;> exact ⟨rfl, rfl, rfl, rfl⟩
  refine Kin.trans ?_ (hlast _)
  refine kin_parentOpt ?_ horphan _ creator
  split_ifs <;> exact ⟨rfl, rfl, rfl, rfl⟩

omit hsha hinv in
theorem did_attachEntityToToken {w : LogicalWorld} (hstored : Stored sha256 w.store tok)
    (entity : Option (Bytes × List Bytes)) :
    Did sha256 L P (attachEntityToToken sha256 tok entity) w () ∅ := by
  unfold attachEntityToToken
  cases entity with
  | none => exact .ret ()
  | some e => exact (did_put hstored (by exact ⟨rfl, rfl, rfl, rfl⟩)).ignore

/-- The inversion of a step. -/
theorem op_cases (op : Op)
    (hP : ∀ acc t, op = .revokeByAccessor acc → Stored sha256 s.world.store t →
      t.accessor = acc → P t) :
    OpCase sha256 P s op (stepOp sha256 L s op) := by
  cases op with
  | issue origin displayName policies ttl now entity =>
    obtain ⟨tok₀, hid, hacc, hpar, -, rng', hrun⟩ :=
      run_createToken sha256 L s.world displayName policies ttl now origin.opts
    have hkin := kin_foldl origin.kin_opts tok₀
    generalize origin.opts.foldl (fun t o => o t) tok₀ = tok at hrun hkin
    obtain ⟨s', hrun', hch⟩ := did_attachEntityToToken (L := L) (P := P)
      (w := ⟨putStore sha256 s.world.store tok, rng'⟩) ((stored_putStore hsha).2 (.inl rfl)) entity
    have hrun : run (KV.handle L) (Op.code sha256 (s.created.length + 1)
        (.issue origin displayName policies ttl now entity)) s.world =
          (some ⟨tok.id, tok.accessor, none⟩, ⟨s', rng'⟩) := by
      rw [Op.code, run_bind, hrun, run_bind, hrun']
      rfl
    have horphan : hasParent tok = false := by
      rw [← hkin.hasParent, hasParent, hpar]
      rfl
    rw [stepOp_eq hrun]
    exact .create rfl _ tok none (.refl _) hch (hkin.id ▸ hid) (hkin.accessor ▸ hacc) rfl
      (fun h => by rw [horphan] at h; cases h) fun _ => .inl rfl
  | create creator req ns now now' =>
    refine .of_creator hsha hinv rfl rfl (fun _ _ hR => hR) fun w' hrng => .inr ?_
    obtain ⟨tok₀, hid, hacc, -, horph, rng', hrun⟩ := run_createToken sha256 L w'
      req.displayName req.policies req.ttl now' (req.opts creator ns)
    have hkin := kin_createTokenReq req creator ns horph
    refine ⟨_, rng', hrun, hkin.id ▸ hid, hkin.accessor ▸ hacc, ?_, ?_⟩
    · rw [← hkin.hasParent, ← hkin.parentID, hasParent]
      cases ho : (req.orphan || req.noParent) <;> simp
    · rw [← hkin.hasParent, hasParent]
      cases ho : (req.orphan || req.noParent) <;> simp
  | createFromRole creator roleName displayName ns now now' =>
    refine .of_creator hsha hinv rfl rfl (fun _ _ hR => hR) fun w' hrng => ?_
    unfold createTokenFromRole
    rw [run_andThen, run_getAs]
    cases decodeAs Record.tokenRole? (w'.store.lookup (tokenRolePrefix ++ roleName)) with
    | error e => exact .inl ⟨e, rfl⟩
    | ok role =>
      right
      obtain ⟨tok₀, hid, hacc, hpar, -, rng', hrun⟩ := run_createToken sha256 L w'
        (if displayName = [] then ascii "role:" ++ roleName else displayName) role.policies
        role.ttl now' ((if role.renewable then [withRenewable role.maxTTL] else []) ++
          (if 0 < role.maxUses then [withMaxUses role.maxUses] else []) ++
          (if ns ≠ [] then [withNamespace ns] else []))
      have hkin := kin_foldl (kin_roleOpts role ns) tok₀
      refine ⟨_, rng', hrun, hkin.id ▸ hid, hkin.accessor ▸ hacc, ?_, fun _ => ?_⟩
      · rw [← hkin.hasParent, hasParent, hpar]
        exact fun h => by cases h
      · exact .inr (.inr ⟨creator, roleName, displayName, ns, now, now', rfl⟩)
  | renew id ttl now now' =>
    obtain ⟨r, hdid⟩ := did_renewToken (L := L) (P := P) hsha hinv.wf id ttl now now'
    exact .of_did rfl hdid fun _ _ => rfl
  | use id now =>
    obtain ⟨r, R, hdid, hR, -⟩ := did_useToken (L := L) (P := P) hsha hinv id now
    exact .of_did rfl hdid fun _ _ => hR
  | narrow id allowed now =>
    obtain ⟨r, hdid⟩ := did_narrowToken (L := L) (P := P) hsha hinv.wf id allowed now
    exact .of_did rfl hdid fun _ _ => rfl
  | gc now => exact .of_did rfl (did_runGC hinv.wf now) fun _ _ => rfl
  | revoke id => exact .of_did rfl (did_revokeToken id) fun _ _ => rfl
  | revokeTree id =>
    obtain ⟨r, R, s', hrun, hch, -, hR, hgone⟩ := revokeTokenTree_spec (L := L) (P := P) hsha
      (s.created.length + 1) id s.world (Cut.refl hinv.wf)
    have hret := revokeTokenTree_returns (L := L) hsha (fun p c hc => (hinv.ranked p c hc).2)
      (s.created.length + 1) id s.world (Cut.refl hinv.wf)
      (Nat.lt_succ_of_le (idxOf_le_length.trans_eq (length_map _)))
    rw [hrun] at hret
    obtain rfl : r = some (.ok ()) := hret
    refine .of_did rfl ⟨s', hrun, hch⟩ fun s'' hrun' => ⟨fun x hx => ?_, fun u hu => ?_⟩
    · obtain ⟨t, rfl, hbelow⟩ := hR x hx
      exact hbelow
    · obtain rfl : s' = s'' := congrArg (fun out => out.2.store) (hrun.symm.trans hrun')
      exact hgone rfl id rfl u hu
  | revokeByAccessor acc =>
    obtain ⟨t, ht, hacc, hdid⟩ | ⟨hnone, hdid⟩ :=
      did_revokeTokenByAccessor (L := L) (P := P) hinv.wf acc
      fun t ht hacc => hP acc t rfl ht hacc
    · exact .of_did rfl hdid fun _ _ => .inl ⟨t, ht, hacc, rfl⟩
    · refine .of_did rfl hdid fun _ _ => .inr ⟨rfl, fun t ht => hnone t ht ?_⟩
      obtain ⟨c, hc, -, hacc⟩ := hinv.known t ht
      exact hacc ▸ (hinv.named c hc).2

/-- The token that a creation writes is new to the store. -/
theorem writable_of_fresh {s₁ : LogicalStore} (hfresh : s.DrawsFresh)
    (hch : Changes sha256 P s.world.store ∅ s₁) (hid : tok.id = drawnID s.world.rng)
    (hacc : tok.accessor = drawnAccessor s.world.rng) : Writable sha256 s₁ tok := by
  refine .fresh (fun u hu heq => hfresh.1 ?_) (fun u hu heq => hfresh.2 ?_)
  · obtain ⟨-, u', hu', hkin⟩ := hch.back hsha hu
    obtain ⟨c, hc, hcid, -⟩ := hinv.known u' hu'
    rw [← hid, ← heq, ← hkin.id, ← hcid]
    exact mem_map_of_mem hc
  · obtain ⟨-, u', hu', hkin⟩ := hch.back hsha hu
    obtain ⟨c, hc, -, hcacc⟩ := hinv.known u' hu'
    rw [← hacc, ← heq, ← hkin.accessor, ← hcacc]
    exact mem_map_of_mem hc

omit hinv in
/-- The tokens stored after a creation. -/
theorem stored_of_create {s₁ s' : LogicalStore} {t : Token}
    (hch : Changes sha256 P s.world.store ∅ s₁)
    (hput : Changes sha256 P (putStore sha256 s₁ tok) ∅ s') (ht : Stored sha256 s' t) :
    Kin tok t ∨ t.id ≠ tok.id ∧ ∃ u, Stored sha256 s.world.store u ∧ Kin u t := by
  obtain ⟨-, u, hu, hkin⟩ := hput.back hsha ht
  obtain rfl | ⟨hne, hu⟩ := (stored_putStore hsha).1 hu
  · exact .inl hkin
  · obtain ⟨-, v, hv, hkin'⟩ := hch.back hsha hu
    exact .inr ⟨hkin.id ▸ hne, v, hv, hkin'.trans hkin⟩

/-- One operation keeps the invariant. -/
theorem Inv.of_case {s' : State} (hfresh : Fresh s op) (hcase : OpCase sha256 P s op s') :
    Inv sha256 s' := by
  cases hcase with
  | change R hch hcreated hR =>
    refine ⟨hch.wf hsha hinv.wf, fun t ht => ?_, ?_, fun p c hc => ?_⟩
    · obtain ⟨-, u, hu, hkin⟩ := hch.back hsha ht
      rw [hcreated, ← hkin.id, ← hkin.accessor]
      exact hinv.known u hu
    · rw [hcreated]
      exact hinv.named
    · rw [State.ids, hcreated]
      exact hinv.ranked p c (hch.isChild hsha hinv.wf hc)
  | create hop s₁ tok creator hch hput hid hacc hcreated hparent horphan =>
    have hnew := hfresh hop
    have hwf₁ := hch.wf hsha hinv.wf
    have hwf₂ := hwf₁.put hsha (writable_of_fresh hsha hinv hnew hch hid hacc)
    refine ⟨hput.wf hsha hwf₂, fun t ht => ?_, ?_, fun p c hc => ?_⟩
    · rw [hcreated]
      obtain hkin | ⟨-, u, hu, hkin⟩ := stored_of_create hsha hch hput ht
      · exact ⟨_, mem_cons_self .., hkin.id, hkin.accessor⟩
      · obtain ⟨e, he, heid, heacc⟩ := hinv.known u hu
        exact ⟨e, mem_cons_of_mem _ he, heid.trans hkin.id, heacc.trans hkin.accessor⟩
    · rw [hcreated]
      rintro e (_ | ⟨_, he⟩)
      · rw [hid, hacc]
        exact ⟨append_ne_nil_of_left_ne_nil (by decide) _,
          append_ne_nil_of_left_ne_nil (by decide) _⟩
      · exact hinv.named e he
    · have hids : s'.ids = tok.id :: s.ids := by rw [State.ids, hcreated]; rfl
      have hfreshID : tok.id ∉ s.ids := hid ▸ hnew.1
      have hmem : ∀ p, p ∈ s.ids → p ≠ tok.id := fun p hp heq => hfreshID (heq ▸ hp)
      rw [hids]
      have hc := hput.isChild hsha hwf₂ hc
      unfold IsChild at hc
      rw [lookup_putStore] at hc
      split_ifs at hc with h1 h2 h3
      · -- the new entry: the parent was there before
        obtain ⟨rfl, rfl⟩ := (childKey_inj hsha).1 h1.2
        obtain ⟨-, par, hpar, hparid⟩ := hparent h1.1
        obtain ⟨e, he, heid, -⟩ := hinv.known par hpar
        have hp : tok.parentID ∈ s.ids := hparid ▸ heid ▸ mem_map_of_mem he
        refine ⟨mem_cons_of_mem _ hp, ?_⟩
        rw [idxOf_cons_self, idxOf_cons_ne _ (hmem _ hp).symm]
        exact Nat.succ_pos _
      · cases hc
      · cases hc
      · obtain ⟨hp, hlt⟩ := hinv.ranked p c (hch.isChild hsha hinv.wf hc)
        have hcmem : c ∈ s.ids :=
          idxOf_lt_length_iff.1 (hlt.trans (idxOf_lt_length_iff.2 hp))
        refine ⟨mem_cons_of_mem _ hp, ?_⟩
        rw [idxOf_cons_ne _ (hmem _ hp).symm, idxOf_cons_ne _ (hmem _ hcmem).symm]
        exact Nat.succ_lt_succ hlt

end

/-! ## The indexes -/

/-- The state at the start: no tokens, no index entries. -/
structure Start (s : State) : Prop where
  created : s.created = []
  blank : ∀ k r, s.world.store.lookup k = some r →
    r.token? = none ∧ r.accessor? = none ∧ r.child? = none

/-- Both indexes hold exactly what the stored tokens say. -/
structure IndexesMatch (sha256 : Bytes → Bytes) (s : LogicalStore) : Prop where
  accessors : ∀ acc id, s.lookup (accessorKey acc) = some (.accessor id) ↔
    ∃ t, Stored sha256 s t ∧ t.accessor = acc ∧ t.id = id
  children : ∀ k c, s.lookup k = some (.child c) ↔
    ∃ t, Stored sha256 s t ∧ hasParent t = true ∧ k = childKey sha256 t.parentID t.id ∧ t.id = c

/-- The token that the accessor index finds. -/
def byAccessor (sha256 : Bytes → Bytes) (s : LogicalStore) (acc : Bytes) : Option Token :=
  ((s.lookup (accessorKey acc)).bind Record.accessor?).bind (storedToken sha256 s)

/-- A deletion by accessor is of a token without a parent. -/
def Op.sparesChildren (sha256 : Bytes → Bytes) (s : LogicalStore) : Op → Bool
  | .revokeByAccessor acc => (byAccessor sha256 s acc).all fun t => !hasParent t
  | _ => true

instance (s : State) : Decidable s.DrawsFresh := inferInstanceAs (Decidable (_ ∧ _))

instance (s : State) (op : Op) : Decidable (Fresh s op) := inferInstanceAs (Decidable (_ → _))

section

variable {sha256 : Bytes → Bytes} {L : KV.Listing}

variable {s : State}

theorem Start.inv (h : Start s) : Inv sha256 s := by
  have token {k : Bytes} {t : Token} (hk : s.world.store.lookup k = some (.token t)) : False :=
    Option.some_ne_none _ (h.blank k _ hk).1
  refine ⟨⟨?_, ?_, ?_, ?_⟩, ?_, ?_, ?_⟩
  · exact fun k t hk => (token hk).elim
  · refine fun k id => ⟨fun hk => absurd (h.blank k _ hk).2.1 (Option.some_ne_none id), ?_⟩
    rintro ⟨t, ht, -⟩
    exact (token ht).elim
  · exact fun t ht => (token ht).elim
  · exact fun k c hk => absurd (h.blank k _ hk).2.2 (Option.some_ne_none c)
  · exact fun t ht => (token ht).elim
  · rw [h.created]
    exact fun c hc => absurd hc not_mem_nil
  · exact fun p c hc => absurd (h.blank _ _ hc).2.2 (Option.some_ne_none c)

theorem Start.noStale (h : Start s) : NoStale sha256 s.world.store := by
  intro p c hc
  exact absurd (h.blank _ _ hc).2.2 (Option.some_ne_none c)

theorem Inv.indexesMatch (hinv : Inv sha256 s) (hns : NoStale sha256 s.world.store) :
    IndexesMatch sha256 s.world.store where
  accessors acc id := by
    rw [hinv.wf.accessor_iff]
    constructor
    · rintro ⟨t, ht, -, hkey, hid⟩
      exact ⟨t, ht, (accessorKey_inj.1 hkey).symm, hid⟩
    · rintro ⟨t, ht, rfl, hid⟩
      obtain ⟨c, hc, -, hacc⟩ := hinv.known t ht
      exact ⟨t, ht, hacc ▸ (hinv.named c hc).2, rfl, hid⟩
  children k c := by
    constructor
    · intro hk
      obtain ⟨p, rfl⟩ := hinv.wf.child_key k c hk
      obtain ⟨t, ht, hp, rfl, rfl⟩ := hns p c hk
      exact ⟨t, ht, hp, rfl, rfl⟩
    · rintro ⟨t, ht, hp, rfl, rfl⟩
      exact hinv.wf.child_of_stored t ht hp

variable (hsha : Function.Injective sha256)

include hsha

theorem byAccessor_of_stored (hinv : Inv sha256 s) {t : Token}
    (ht : Stored sha256 s.world.store t) : byAccessor sha256 s.world.store t.accessor = some t := by
  obtain ⟨c, hc, -, hacc⟩ := hinv.known t ht
  have hentry := (hinv.wf.accessor_iff _ _).2 ⟨t, ht, hacc ▸ (hinv.named c hc).2, rfl, rfl⟩
  unfold byAccessor
  rw [hentry]
  exact (storedToken_eq_some hsha hinv.wf).2 ⟨ht, rfl⟩

/-- The indexes match the tokens in every state of a run that deletes by accessor only tokens
    without a parent. -/
theorem indexes_match (hstart : Start s) {ops : List Op}
    (hops : Meets (stepOp sha256 L)
      (fun s op => Fresh s op ∧ op.sparesChildren sha256 s.world.store = true) s ops) :
    IndexesMatch sha256 (runs (stepOp sha256 L) s ops).world.store := by
  have hrun := hops.holds (P := fun s => Inv sha256 s ∧ NoStale sha256 s.world.store)
    ⟨hstart.inv, hstart.noStale⟩ fun s op hok hs => ?_
  · exact hrun.1.indexesMatch hrun.2
  · have hcase := op_cases (L := L) (P := fun t => hasParent t = false) hsha hs.1 op ?_
    · refine ⟨hs.1.of_case hsha hok.1 hcase, ?_⟩
      cases hcase with
      | change R hch _ _ => exact hch.noStale hsha (fun _ h => h) hs.1.wf hs.2
      | create hop s₁ tok creator hch hput hid hacc =>
        have hw := writable_of_fresh hsha hs.1 (hok.1 hop) hch hid hacc
        have hwf₁ := hch.wf hsha hs.1.wf
        have hns₁ := hch.noStale hsha (fun _ h => h) hs.1.wf hs.2
        exact hput.noStale hsha (fun _ h => h) (hwf₁.put hsha hw) (hns₁.put hsha hw)
    · rintro acc t rfl ht rfl
      have := hok.2
      rw [Op.sparesChildren, byAccessor_of_stored hsha hs.1 ht] at this
      simpa using this

end

/-! ### Two runs -/

/-- A source that counts. -/
def counting : Stream' UInt8 := fun n => UInt8.ofNat n

def emptyState : State := ⟨⟨∅, counting⟩, []⟩

/-- A request for a token with nothing special. -/
def plainReq : CreateTokenReq := ⟨ascii "app", [], 0, false, 0, 0, 0, false, false⟩

/-- The root token, and one that it creates. -/
def rootAndChild : List Op :=
  [.issue .root (ascii "Root Token") [Policy.rootPolicyName] 0 0 none,
    .create (drawnID counting) plainReq [] 0 0]

theorem start_emptyState : Start emptyState := ⟨rfl, fun _ _ h => by cases h⟩

/-- Both kinds of deletion on a tree of two: the child by its ID, the root by its accessor. -/
theorem indexes_match_rootAndChild :
    IndexesMatch (fun b => b) (runs (stepOp (fun b => b) KV.sorted) emptyState
      (rootAndChild ++ [.revoke (drawnID (counting.drop 48)),
        .revokeByAccessor (drawnAccessor counting)])).world.store :=
  indexes_match (fun _ _ h => h) start_emptyState (by decide +kernel)

/-- The child is deleted by its accessor. -/
def childByAccessor : List Op :=
  rootAndChild ++ [.revokeByAccessor (drawnAccessor (counting.drop 48))]

/-- The child's entry among the children of the root stays. -/
theorem deleteByAccessor_leaves_child :
    Meets (stepOp (fun b => b) KV.sorted) Fresh emptyState childByAccessor ∧
      ¬IndexesMatch (fun b => b)
        (runs (stepOp (fun b => b) KV.sorted) emptyState childByAccessor).world.store := by
  refine ⟨by decide +kernel, fun h => ?_⟩
  have hentry :
      ((runs (stepOp (fun b => b) KV.sorted) emptyState childByAccessor).world.store.lookup
      (childKey (fun b => b) (drawnID counting) (drawnID (counting.drop 48)))).bind Record.child? =
        some (drawnID (counting.drop 48)) := by decide +kernel
  have hgone : storedToken (fun b => b)
      (runs (stepOp (fun b => b) KV.sorted) emptyState childByAccessor).world.store
      (drawnID (counting.drop 48)) = none := by decide +kernel
  obtain ⟨r, hr, hdec⟩ := Option.bind_eq_some_iff.1 hentry
  cases r with
  | child c =>
    obtain rfl := Option.some.inj hdec
    obtain ⟨t, ht, -, -, hid⟩ := (h.children _ _).1 hr
    unfold storedToken at hgone
    rw [← hid, ht] at hgone
    cases hgone
  | _ => cases hdec

end Tuck.Core
