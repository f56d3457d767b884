/-
  Access control: the policies of a token are resolved by name and asked for the path.

  A name is built in, or defined in the token's namespace, or, in a child namespace, an
  inheritable policy of the root. `candidates` lists these in order of precedence; the first
  is the definition (`resolved`). The code tries them one after the other and goes on to the
  next whatever the error was, so a failed read of the first gives the second. What the check
  can then grant is exactly what some choice among the candidates grants
  (`can_resolvePolicies`), and it fails closed exactly when no choice grants what the
  definitions do not (`enforceAccess_fails_closed_iff`).
-/
import Tuck.Core.Tokens

namespace Tuck.Core

open Tuck.Base Prog KV

/-! ## The policies of a token -/

/-- The key of a policy in a namespace. -/
def policyKey (ns name : Bytes) : Bytes :=
  Namespace.storagePrefix ns ++ (ascii "auth/policy/" ++ name)

/-- `policy.Store.Get` of the store of a namespace. -/
def getPolicy (ns name : Bytes) : Logical Policy := getAs Record.policy? (policyKey ns name)

/-- `policy.Store.Put`. -/
def putPolicy (ns : Bytes) (p : Policy) : Logical Unit :=
  KV.put .storage (policyKey ns p.name) (.policy p)

/-- `policy.Store.Delete`. -/
def deletePolicy (ns name : Bytes) : Logical Unit := KV.delete .storage (policyKey ns name)

/-- `policy.Store.List`: the names, relative to the view of the namespace. -/
def listPolicies (ns : Bytes) : Logical (List Bytes) :=
  (KV.list .storage (policyKey ns [])).andThen fun keys =>
    .ret (.ok (keys.map fun k =>
      trimPrefix (trimPrefix k (Namespace.storagePrefix ns)) (ascii "auth/policy/")))

/-- The fallback of `resolvePolicies`: an inheritable policy of the root, else the error of
    the first read. -/
def inheritedPolicy (name : Bytes) (e : Err) : Logical Policy :=
  (getPolicy [] name).bind fun
    | .ok rp => .ret (if rp.inheritable then .ok rp else .error e)
    | .error _ => .ret (.error e)

/-- `resolvePolicies`, for one name. -/
def resolvePolicy (ns name : Bytes) : Logical Policy :=
  if name = Policy.rootPolicyName then .ret (.ok Policy.rootPolicy)
  else if name = Policy.clusterJoinPolicyName then .ret (.ok Policy.clusterJoinPolicy)
  else
    (getPolicy ns name).bind fun
      | .ok p => .ret (.ok p)
      | .error e => if Namespace.isRoot ns then .ret (.error e) else inheritedPolicy name e

def resolvePolicies (ns : Bytes) : List Bytes → Logical (List Policy)
  | [] => .ret (.ok [])
  | name :: names =>
      (resolvePolicy ns name).andThen fun p =>
        (resolvePolicies ns names).andThen fun ps => .ret (.ok (p :: ps))

def enforceAccess (sha256 : Bytes → Bytes) (id path : Bytes) (cap : Policy.Capability) (now : Int) :
    Logical Unit :=
  (authenticate sha256 id now).andThen fun tok =>
    (resolvePolicies tok.ns tok.policies).bind fun
      | .error _ => .ret (.error .unauthorized)
      | .ok policies =>
          .ret (if Policy.allowed policies path cap then .ok () else .error .unauthorized)

/-! ## What is stored -/

/-- The policy stored in a namespace under a name. -/
def storedPolicy (s : LogicalStore) (ns name : Bytes) : Option Policy :=
  (s.lookup (policyKey ns name)).bind Record.policy?

/-- The definitions of a name for a token of the namespace, by precedence. -/
def candidates (s : LogicalStore) (ns name : Bytes) : List Policy :=
  if name = Policy.rootPolicyName then [Policy.rootPolicy]
  else if name = Policy.clusterJoinPolicyName then [Policy.clusterJoinPolicy]
  else
    (storedPolicy s ns name).toList ++
      if Namespace.isRoot ns then []
      else ((storedPolicy s [] name).filter Policy.inheritable).toList

/-- The definition of a name: a policy of the namespace takes the place of the root's. -/
def resolved (s : LogicalStore) (ns name : Bytes) : Option Policy := (candidates s ns name).head?

/-- The token of an ID, if it is valid. -/
def validToken (sha256 : Bytes → Bytes) (s : LogicalStore) (id : Bytes) (now : Int) :
    Option Token :=
  ((s.lookup (Token.tokenKey sha256 id)).bind Record.token?).filter fun t => !t.isExpired now

/-- The decision on the stored policies: every name is defined, no matching rule denies and
    one grants. -/
def Grants (s : LogicalStore) (tok : Token) (path : Bytes) (cap : Policy.Capability) : Prop :=
  (∀ name ∈ tok.policies, ∃ p, resolved s tok.ns name = some p ∧
      p.hits path Policy.capDeny = false) ∧
    ∃ name ∈ tok.policies, ∃ p, resolved s tok.ns name = some p ∧ p.hits path cap = true

/-- Some choice of one candidate for each name grants: every name has a candidate that does
    not deny, and one of these grants. -/
def ChoiceGrants (s : LogicalStore) (tok : Token) (path : Bytes) (cap : Policy.Capability) : Prop :=
  (∀ name ∈ tok.policies, ∃ p ∈ candidates s tok.ns name, p.hits path Policy.capDeny = false) ∧
    ∃ name ∈ tok.policies, ∃ p ∈ candidates s tok.ns name,
      p.hits path Policy.capDeny = false ∧ p.hits path cap = true

/-! ## Outcomes of the resolution -/

section

variable {L : Listing} {w w' : LogicalWorld}

variable {ns name : Bytes} {p : Policy}

theorem storedPolicy_eq_some {s : LogicalStore} :
    storedPolicy s ns name = some p ↔
      decodeAs Record.policy? (s.lookup (policyKey ns name)) = .ok p := decodeAs_eq_ok.symm

theorem storedPolicy_eq_none {s : LogicalStore} :
    storedPolicy s ns name = none ↔
      ∃ e, decodeAs Record.policy? (s.lookup (policyKey ns name)) = .error e := by
  rw [Option.eq_none_iff_forall_ne_some]
  simp only [ne_eq, storedPolicy_eq_some]
  cases decodeAs Record.policy? (s.lookup (policyKey ns name)) <;> simp

theorem can_authenticate {sha256 : Bytes → Bytes} {id : Bytes} {now : Int} {tok : Token} :
    Can (handle L) (authenticate sha256 id now) w (.ok tok) w' ↔
      w = w' ∧ validToken sha256 w.store id now = some tok := by
  unfold authenticate Token.get validToken
  rw [can_bind]
  simp only [can_getAs, Option.filter_eq_some_iff, ← decodeAs_eq_ok]
  constructor
  · rintro ⟨r, v, ⟨rfl, hr⟩, hret⟩
    match r, hr with
    | .error _, _ => exact absurd hret.1 (by simp)
    | .ok t, .inr hr =>
      obtain ⟨heq, rfl⟩ := hret
      split_ifs at heq with hexp
      obtain rfl := Except.ok.inj heq
      exact ⟨rfl, hr.symm, by simpa using hexp⟩
  · rintro ⟨rfl, hr, hexp⟩
    exact ⟨.ok tok, w, ⟨rfl, .inr hr.symm⟩, by simpa [Can] using hexp⟩

theorem can_inheritedPolicy {e : Err} :
    Can (handle L) (inheritedPolicy name e) w (.ok p) w' ↔
      w = w' ∧ (storedPolicy w.store [] name).filter Policy.inheritable = some p := by
  unfold inheritedPolicy getPolicy
  rw [can_bind]
  simp only [can_getAs, Option.filter_eq_some_iff, storedPolicy_eq_some]
  constructor
  · rintro ⟨r, v, ⟨rfl, hr⟩, hret⟩
    match r, hr with
    | .error _, _ => exact absurd hret.1 (by simp)
    | .ok rp, .inr hr =>
      obtain ⟨heq, rfl⟩ := hret
      split_ifs at heq with hinh
      obtain rfl := Except.ok.inj heq
      exact ⟨rfl, hr.symm, hinh⟩
  · rintro ⟨rfl, hr, hinh⟩
    exact ⟨.ok p, w, ⟨rfl, .inr hr.symm⟩, by simp [Can, hinh]⟩

/-- Resolving a name can give each of its candidates, and nothing else. -/
theorem can_resolvePolicy :
    Can (handle L) (resolvePolicy ns name) w (.ok p) w' ↔
      w = w' ∧ p ∈ candidates w.store ns name := by
  unfold resolvePolicy candidates
  by_cases hroot : name = Policy.rootPolicyName
  · simp [hroot, Can, and_comm, eq_comm]
  by_cases hjoin : name = Policy.clusterJoinPolicyName
  · rw [if_neg hroot, if_pos hjoin, if_neg hroot, if_pos hjoin]
    simp [Can, and_comm, eq_comm]
  rw [if_neg hroot, if_neg hjoin, if_neg hroot, if_neg hjoin, can_bind, List.mem_append,
    Option.mem_toList, storedPolicy_eq_some]
  constructor
  · rintro ⟨r, v, hget, hrest⟩
    obtain ⟨rfl, hr⟩ := can_getAs.1 hget
    cases r with
    | ok q =>
      replace hr := hr.resolve_left fun h => by cases h
      obtain ⟨heq, rfl⟩ := hrest
      obtain rfl := Except.ok.inj heq
      exact ⟨rfl, .inl hr.symm⟩
    | error e =>
      by_cases hns : Namespace.isRoot ns = true
      · simp [hns, Can] at hrest
      · simp only [hns, Bool.false_eq_true, if_false] at hrest
        obtain ⟨rfl, hp⟩ := can_inheritedPolicy.1 hrest
        exact ⟨rfl, .inr (by simp [hns, hp])⟩
  · rintro ⟨rfl, hp | hp⟩
    · exact ⟨.ok p, w, can_getAs.2 ⟨rfl, .inr hp.symm⟩, rfl, rfl⟩
    · -- the read of the local policy fails
      refine ⟨.error .storage, w, can_getAs.2 ⟨rfl, .inl rfl⟩, ?_⟩
      by_cases hns : Namespace.isRoot ns = true
      · simp [hns] at hp
      · simp only [hns, Bool.false_eq_true, if_false, Option.mem_toList] at hp ⊢
        exact can_inheritedPolicy.2 ⟨rfl, hp⟩

/-- Resolving a list of names can give every choice of candidates. -/
theorem can_resolvePolicies {names : List Bytes} {ps : List Policy} :
    Can (handle L) (resolvePolicies ns names) w (.ok ps) w' ↔
      w = w' ∧ List.Forall₂ (fun name p => p ∈ candidates w.store ns name) names ps := by
  induction names generalizing ps w w' with
  | nil => simp [resolvePolicies, Can, and_comm, eq_comm]
  | cons name names ih =>
    unfold resolvePolicies
    simp only [can_andThen, can_resolvePolicy, ih, Can]
    constructor
    · rintro ⟨p, v, ⟨rfl, hp⟩, qs, v', ⟨rfl, hqs⟩, heq, rfl⟩
      obtain rfl := Except.ok.inj heq
      exact ⟨rfl, .cons hp hqs⟩
    · rintro ⟨rfl, hps⟩
      cases hps with
      | cons hp hqs => exact ⟨_, w, ⟨rfl, hp⟩, _, w, ⟨rfl, hqs⟩, rfl, rfl⟩

end

/-! ## Without faults -/

section

variable (L : Listing) (w : LogicalWorld)

theorem reads_resolvePolicy (ns name : Bytes) :
    Calls Call.Plausible Call.Reads (resolvePolicy ns name) := by
  have inherited (e : Err) :
      Calls Call.Plausible Call.Reads (inheritedPolicy name e) := by
    refine (calls_getAs trivial).bind fun r => ?_
    match r with
    | .ok rp => trivial
    | .error _ => trivial
  unfold resolvePolicy
  split_ifs with hroot hjoin hns
  · trivial
  · trivial
  all_goals
    refine (calls_getAs trivial).bind fun r => ?_
    match r with
    | .ok p => trivial
    | .error e => first | trivial | exact inherited e

theorem reads_resolvePolicies (ns : Bytes) (names : List Bytes) :
    Calls Call.Plausible Call.Reads (resolvePolicies ns names) := by
  induction names with
  | nil => trivial
  | cons name names ih =>
    exact (reads_resolvePolicy ns name).andThen fun _ => ih.andThen fun _ => trivial

theorem reads_authenticate (sha256 : Bytes → Bytes) (id : Bytes) (now : Int) :
    Calls Call.Plausible Call.Reads (authenticate sha256 id now) := by
  refine (calls_getAs trivial).bind fun r => ?_
  match r with
  | .ok tok => trivial
  | .error _ => trivial

theorem reads_enforceAccess (sha256 : Bytes → Bytes) (id path : Bytes) (cap : Policy.Capability)
    (now : Int) : Calls Call.Plausible Call.Reads (enforceAccess sha256 id path cap now) := by
  refine (reads_authenticate sha256 id now).andThen fun tok => ?_
  refine (reads_resolvePolicies tok.ns tok.policies).bind fun r => ?_
  match r with
  | .ok ps => trivial
  | .error _ => trivial

theorem run_authenticate (sha256 : Bytes → Bytes) (id : Bytes) (now : Int) :
    run (handle L) (authenticate sha256 id now) w =
      ((match validToken sha256 w.store id now with
        | some tok => .ok tok
        | none => .error .tokenInvalid), w) := by
  rw [authenticate, run_bind, Token.get, run_getAs, validToken]
  cases w.store.lookup (Token.tokenKey sha256 id) with
  | none => rfl
  | some r =>
    cases h : Record.token? r with
    | none => simp [decodeAs, h]
    | some tok => cases hexp : tok.isExpired now <;> simp [decodeAs, h, hexp, Option.filter_some]

theorem toOption_run_resolvePolicy (ns name : Bytes) :
    (run (handle L) (resolvePolicy ns name) w).1.toOption = resolved w.store ns name := by
  unfold resolvePolicy resolved candidates
  by_cases hroot : name = Policy.rootPolicyName
  · rw [if_pos hroot, if_pos hroot]
    rfl
  by_cases hjoin : name = Policy.clusterJoinPolicyName
  · rw [if_neg hroot, if_pos hjoin, if_neg hroot, if_pos hjoin]
    rfl
  rw [if_neg hroot, if_neg hjoin, if_neg hroot, if_neg hjoin, run_bind, getPolicy, run_getAs]
  cases hloc : decodeAs Record.policy? (w.store.lookup (policyKey ns name)) with
  | ok q =>
    rw [storedPolicy_eq_some.2 hloc]
    rfl
  | error e =>
    rw [storedPolicy_eq_none.2 ⟨e, hloc⟩]
    by_cases hns : Namespace.isRoot ns = true
    · simp [hns, Except.toOption]
    simp only [hns, Bool.false_eq_true, if_false, Option.toList_none, List.nil_append]
    rw [inheritedPolicy, run_bind, getPolicy, run_getAs]
    cases hinh : decodeAs Record.policy? (w.store.lookup (policyKey [] name)) with
    | ok rp =>
      rw [storedPolicy_eq_some.2 hinh]
      cases hi : rp.inheritable <;> simp [hi, Except.toOption, Option.filter_some]
    | error e' =>
      rw [storedPolicy_eq_none.2 ⟨e', hinh⟩]
      rfl

theorem run_resolvePolicies {ns : Bytes} {names : List Bytes} {ps : List Policy} :
    (run (handle L) (resolvePolicies ns names) w).1 = .ok ps ↔
      List.Forall₂ (fun name p => resolved w.store ns name = some p) names ps := by
  induction names generalizing ps with
  | nil => simp [resolvePolicies, eq_comm]
  | cons name names ih =>
    have hworld := run_of_reads L (reads_resolvePolicy ns name) w
    have hone := toOption_run_resolvePolicy L w ns name
    rw [resolvePolicies, run_andThen, hworld, List.forall₂_cons_left_iff]
    simp only [← ih, ← hone]
    cases (run (handle L) (resolvePolicy ns name) w).1 with
    | error e => simp [Except.toOption]
    | ok p =>
      dsimp only
      rw [run_andThen]
      cases (run (handle L) (resolvePolicies ns names) w).1 with
      | error e => simp
      | ok qs => simp [Except.toOption, eq_comm]

/-! ## The decision -/

theorem exists_of_forall₂ {α β : Type} {R : α → β → Prop} {l : List α} {m : List β}
    (h : List.Forall₂ R l m) {a : α} (ha : a ∈ l) : ∃ b ∈ m, R a b := by
  induction h with
  | nil => cases ha
  | cons hab _ ih =>
    obtain rfl | ha := List.mem_cons.1 ha
    · exact ⟨_, List.mem_cons_self .., hab⟩
    · obtain ⟨b, hb, hR⟩ := ih ha
      exact ⟨b, List.mem_cons_of_mem _ hb, hR⟩

/-- A list of policies, one for each name, can be chosen so that it grants exactly if every
    name has a choice that does not deny, and one of these grants. -/
theorem exists_allowed_iff {R : Bytes → Policy → Prop} {names : List Bytes} {path : Bytes}
    {cap : Policy.Capability} :
    (∃ ps, List.Forall₂ R names ps ∧ Policy.allowed ps path cap = true) ↔
      (∀ name ∈ names, ∃ p, R name p ∧ p.hits path Policy.capDeny = false) ∧
        ∃ name ∈ names, ∃ p, R name p ∧ p.hits path Policy.capDeny = false ∧
          p.hits path cap = true := by
  constructor
  · rintro ⟨ps, hps, hallowed⟩
    obtain ⟨hdeny, q, hq, hit⟩ := Policy.allowed_eq_true_iff.1 hallowed
    constructor
    · intro name hname
      obtain ⟨p, hp, hR⟩ := exists_of_forall₂ hps hname
      exact ⟨p, hR, hdeny p hp⟩
    · obtain ⟨name, hname, hR⟩ := exists_of_forall₂ hps.flip hq
      exact ⟨name, hname, q, hR, hdeny q hq, hit⟩
  · rintro ⟨hall, name, hname, hgrant⟩
    -- at each name the choice that grants, where there is one
    have hchoice : ∀ n ∈ names, ∃ p, R n p ∧ p.hits path Policy.capDeny = false ∧
        (n = name → p.hits path cap = true) := by
      intro n hn
      by_cases heq : n = name
      · obtain ⟨p, hR, hdeny, hit⟩ := hgrant
        exact ⟨p, heq ▸ hR, hdeny, fun _ => hit⟩
      · obtain ⟨p, hR, hdeny⟩ := hall n hn
        exact ⟨p, hR, hdeny, fun h => absurd h heq⟩
    have : Nonempty Policy := ⟨Policy.rootPolicy⟩
    choose! f hf using hchoice
    refine ⟨names.map f, ?_, Policy.allowed_eq_true_iff.2 ⟨?_, f name, ?_, (hf name hname).2.2 rfl⟩⟩
    · rw [List.forall₂_map_right_iff, List.forall₂_same]
      exact fun n hn => (hf n hn).1
    · rw [List.forall_mem_map]
      exact fun n hn => (hf n hn).2.1
    · exact List.mem_map_of_mem hname

variable {L w} {sha256 : Bytes → Bytes} {id path : Bytes} {cap : Policy.Capability} {now : Int}

/-- With calls that fail, access can be granted exactly when some choice of candidates
    grants it. -/
theorem can_enforceAccess {w' : LogicalWorld} :
    Can (handle L) (enforceAccess sha256 id path cap now) w (.ok ()) w' ↔
      w = w' ∧ ∃ tok, validToken sha256 w.store id now = some tok ∧
        ChoiceGrants w.store tok path cap := by
  have hret (ps : List Policy) (v : LogicalWorld) : Can (handle L)
      (.ret (if Policy.allowed ps path cap then Except.ok () else .error Err.unauthorized))
        v (.ok ()) w' ↔ Policy.allowed ps path cap = true ∧ v = w' := by
    rw [Can]
    split_ifs with h <;> simp [h]
  unfold enforceAccess ChoiceGrants
  simp only [can_andThen, can_authenticate, ← exists_allowed_iff]
  constructor
  · rintro ⟨tok, v, ⟨rfl, htok⟩, hrest⟩
    obtain ⟨r, v', hres, hend⟩ := can_bind.1 hrest
    cases r with
    | error e => exact absurd hend.1 (by simp)
    | ok ps =>
      obtain ⟨rfl, hps⟩ := can_resolvePolicies.1 hres
      obtain ⟨hallowed, rfl⟩ := (hret ps _).1 hend
      exact ⟨rfl, tok, htok, ps, hps, hallowed⟩
  · rintro ⟨rfl, tok, htok, ps, hps, hallowed⟩
    refine ⟨tok, w, ⟨rfl, htok⟩, can_bind.2 ⟨.ok ps, w, can_resolvePolicies.2 ⟨rfl, hps⟩, ?_⟩⟩
    exact (hret ps w).2 ⟨hallowed, rfl⟩

theorem grants_iff {s : LogicalStore} {tok : Token} :
    Grants s tok path cap ↔
      ∃ ps, List.Forall₂ (fun name p => resolved s tok.ns name = some p) tok.policies ps ∧
        Policy.allowed ps path cap = true := by
  unfold Grants
  rw [exists_allowed_iff]
  refine and_congr_right fun hall => exists_congr fun name => and_congr_right fun hname => ?_
  obtain ⟨q, hq, hdeny⟩ := hall name hname
  constructor
  · rintro ⟨p, hp, hit⟩
    obtain rfl := Option.some.inj (hq.symm.trans hp)
    exact ⟨q, hq, hdeny, hit⟩
  · rintro ⟨p, hp, -, hit⟩
    exact ⟨p, hp, hit⟩

/-- Without faults, access is granted exactly when the definitions grant it. -/
theorem run_enforceAccess :
    (run (handle L) (enforceAccess sha256 id path cap now) w).1 = .ok () ↔
      ∃ tok, validToken sha256 w.store id now = some tok ∧ Grants w.store tok path cap := by
  unfold enforceAccess
  rw [run_andThen, run_authenticate]
  simp only [grants_iff, ← run_resolvePolicies L w]
  cases validToken sha256 w.store id now with
  | none => simp
  | some tok =>
    dsimp only
    rw [run_bind]
    cases hr : (run (handle L) (resolvePolicies tok.ns tok.policies) w).1 with
    | error e => simp [hr]
    | ok ps =>
      simp only [Option.some.injEq, Except.ok.injEq, exists_eq_left', hr, run_ret]
      split_ifs with h <;> simp [h]

/-- The check fails closed exactly when no choice between a policy of the token's namespace
    and the inheritable policy of the same name grants what the definitions deny. The decision
    without faults is that of the definitions. -/
theorem enforceAccess_fails_closed_iff (L : Listing) (w : LogicalWorld) (sha256 : Bytes → Bytes)
    (id path : Bytes) (cap : Policy.Capability) (now : Int) :
    ((∀ allow, (runAllowed (handle L) allow 0 (enforceAccess sha256 id path cap now) w).1 = .ok () →
        (run (handle L) (enforceAccess sha256 id path cap now) w).1 = .ok ()) ∧
      ((run (handle L) (enforceAccess sha256 id path cap now) w).1 = .ok () ↔
        ∃ tok, validToken sha256 w.store id now = some tok ∧ Grants w.store tok path cap)) ↔
      ∀ tok, validToken sha256 w.store id now = some tok →
        ChoiceGrants w.store tok path cap → Grants w.store tok path cap := by
  have hgranted (allow : Nat → Call Record → Bool) :
      (runAllowed (handle L) allow 0 (enforceAccess sha256 id path cap now) w).1 = .ok () →
        ∃ tok, validToken sha256 w.store id now = some tok ∧ ChoiceGrants w.store tok path cap := by
    intro h
    exact (can_enforceAccess.1 ((can_iff _ 0).2 ⟨allow, Prod.ext h rfl⟩)).2
  rw [and_iff_left run_enforceAccess]
  constructor
  · intro hclosed tok htok hchoice
    obtain ⟨allow, hallow⟩ := (can_iff (handle L) 0).1
      (can_enforceAccess.2 ⟨rfl, tok, htok, hchoice⟩)
    obtain ⟨tok', htok', hgrants⟩ := run_enforceAccess.1 (hclosed allow (congrArg Prod.fst hallow))
    obtain rfl := Option.some.inj (htok.symm.trans htok')
    exact hgrants
  · intro hcond allow h
    obtain ⟨tok, htok, hchoice⟩ := hgranted allow h
    exact run_enforceAccess.2 ⟨tok, htok, hcond tok htok hchoice⟩

/-- A token with no expiry and no limits. -/
def plainToken (id ns : Bytes) (policies : List Bytes) : Token where
  id := id
  accessor := ascii "acc_" ++ id
  displayName := []
  policies := policies
  ns := ns
  entityID := []
  authMethod := []
  createdAt := 0
  expiresAt := none
  renewable := false
  maxTTL := 0
  maxUses := 0
  useCount := 0
  period := 0
  parentID := []
  orphan := false

/-- A namespace whose policy "p" denies what the root's inheritable "p" grants. -/
def shadowedWorld : LogicalWorld where
  store :=
    (((∅ : LogicalStore).insert (Token.tokenKey (fun m => m) (ascii "t"))
      (.token (plainToken (ascii "t") (ascii "a") [ascii "p"]))).insert
      (policyKey (ascii "a") (ascii "p"))
      (.policy ⟨ascii "p", [⟨ascii "secret/**", Policy.capDeny⟩], false, []⟩)).insert
      (policyKey [] (ascii "p"))
      (.policy ⟨ascii "p", [⟨ascii "secret/**", Policy.capRead⟩], true, []⟩)
  rng := Stream'.const 0

/-- The read of the local policy fails, and access is granted that is denied otherwise. -/
theorem failed_read_grants :
    (runAllowed (handle sorted) (fun n _ => n ≠ 1) 0
        (enforceAccess (fun m => m) (ascii "t") (ascii "secret/x") Policy.capRead 0)
          shadowedWorld).1 = .ok () ∧
      (run (handle sorted)
        (enforceAccess (fun m => m) (ascii "t") (ascii "secret/x") Policy.capRead 0)
          shadowedWorld).1 = .error .unauthorized := by
  decide +kernel

end

end Tuck.Core
