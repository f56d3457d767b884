/-
  Team onboarding: the namespace of a team, policies in it, an LDAP role for each access level
  with groups, and roles for Kubernetes service accounts.

  A request is normalised to a `Team`, which can only be built from a valid name, valid metadata
  and at least one group. `PlanTeam` reads what exists; `OnboardTeam` then does the steps of the
  team as a saga, and undoes them when one fails.
-/
import Tuck.Base.Saga
import Tuck.Base.Text
import Tuck.Core.Access
import Tuck.Core.Namespaces
import Tuck.LDAP.Store
import Tuck.K8s.Roles

namespace Tuck.Onboarding

open Tuck.Base Tuck.Core

/-! ## Access levels -/

inductive Access where
  | admin
  | developer
  | reader
  deriving DecidableEq

def Access.text : Access → Bytes
  | .admin => ascii "admin"
  | .developer => ascii "developer"
  | .reader => ascii "reader"

def accessLevels : List Access := [.admin, .developer, .reader]

/-- The access level of a text. -/
def Access.ofText (s : Bytes) : Option Access := accessLevels.find? fun a => a.text = s

def teamPolicyName (a : Access) : Bytes := ascii "team-" ++ a.text

/-- `TeamLDAPRoleName`: the role table is global, so the name carries the namespace. -/
def teamLDAPRoleName (ns : Bytes) (a : Access) : Bytes :=
  (ns.flatMap fun b => if b = 0x2F then [0x2D, 0x2D] else [b]) ++ 0x2D :: a.text

/-- `teamPolicies`. -/
def teamPolicy (a : Access) : Policy where
  name := teamPolicyName a
  rules := match a with
    | .admin =>
        [⟨ascii "secret/**",
            Policy.capRead ||| Policy.capWrite ||| Policy.capDelete ||| Policy.capList⟩,
          ⟨ascii "auth/policy", Policy.capList⟩,
          ⟨ascii "auth/policy/**", Policy.capRead ||| Policy.capList⟩]
    | .developer => [⟨ascii "secret/**", Policy.capRead ||| Policy.capWrite ||| Policy.capList⟩]
    | .reader => [⟨ascii "secret/**", Policy.capRead ||| Policy.capList⟩]
  inheritable := false
  template := ascii "team/v1"

/-! ## Requests -/

/-- `TeamK8sBinding`, as it is submitted. -/
structure TeamK8sBinding where
  cluster : Bytes
  ns : Bytes
  serviceAccount : Bytes
  access : Bytes

/-- `TeamSpec`: the groups are a map from access levels. -/
structure TeamSpec where
  name : Bytes
  description : Bytes
  owner : Bytes
  labels : List (Bytes × Bytes)
  groups : List (Bytes × List Bytes)
  ttl : Int
  k8s : List TeamK8sBinding

/-- The groups of a level: trimmed, without empty ones and without repetitions. -/
def TeamSpec.groupsOf (spec : TeamSpec) (a : Access) : List Bytes :=
  ((spec.groups.lookup a.text).getD []).foldl (fun gs g =>
    if trimSpace g = [] ∨ trimSpace g ∈ gs then gs else gs ++ [trimSpace g]) []

def TeamSpec.metadata (spec : TeamSpec) : Namespace.Metadata :=
  ⟨spec.description, spec.owner, spec.labels⟩

/-! ## Teams -/

/-- A binding with its access level. -/
structure Binding where
  cluster : Bytes
  ns : Bytes
  serviceAccount : Bytes
  access : Access
  deriving DecidableEq

/-- A normalised request. -/
structure Team where
  name : Bytes
  metadata : Namespace.Metadata
  groups : Access → List Bytes
  ttl : Int
  k8s : List Binding
  name_valid : Namespace.validateName name = true
  metadata_valid : metadata.validate = true
  grouped : ∃ a ∈ accessLevels, groups a ≠ []

/-- The access level of a binding: a reader, if it is not given. -/
def bindingAccess (s : Bytes) : Option Access :=
  if s = [] then some .reader
  else if s = Access.reader.text then some .reader
  else if s = Access.developer.text then some .developer
  else none

/-- The bindings, unless one is incomplete, invalid or repeats another; `seen` are the keys of the
    ones before. -/
def normalizeBindings (seen : List Bytes) : List TeamK8sBinding → Option (List Binding)
  | [] => some []
  | b :: bs =>
      let key := b.cluster ++ 0 :: b.ns ++ 0 :: b.serviceAccount
      if b.ns = [] ∨ b.serviceAccount = [] then none
      else if b.cluster ≠ [] ∧ K8s.validClusterName b.cluster = false then none
      else if key ∈ seen then none
      else
        (bindingAccess b.access).bind fun a =>
          (normalizeBindings (key :: seen) bs).map fun rest =>
            ⟨b.cluster, b.ns, b.serviceAccount, a⟩ :: rest

/-- `normalizeTeamSpec`; every refusal is `ErrOnboardInvalid`. -/
def normalizeTeamSpec (spec : TeamSpec) : Option Team :=
  if hname : Namespace.validateName spec.name = true then
    if hmeta : spec.metadata.validate = true then
      if spec.groups.all fun g => (Access.ofText g.1).isSome then
        if hgroups : ∃ a ∈ accessLevels, spec.groupsOf a ≠ [] then
          (normalizeBindings [] spec.k8s).map fun k8s =>
            ⟨spec.name, spec.metadata, spec.groupsOf, spec.ttl, k8s, hname, hmeta, hgroups⟩
        else none
      else none
    else none
  else none

theorem normalize_name {spec : TeamSpec} {t : Team} (h : normalizeTeamSpec spec = some t) :
    t.name = spec.name := by
  unfold normalizeTeamSpec at h
  split_ifs at h
  obtain ⟨k8s, -, rfl⟩ := Option.map_eq_some_iff.1 h
  rfl

/-! ## What a team needs -/

namespace Team

variable (t : Team)

/-- The access levels that have groups. -/
def groupLevels : List Access := accessLevels.filter fun a => t.groups a ≠ []

/-- The access levels that groups or bindings use. -/
def levels : List Access :=
  accessLevels.filter fun a => t.groups a ≠ [] ∨ a ∈ t.k8s.map Binding.access

/-- The record of the namespace. -/
def namespaceRecord (now : Int) : Namespace :=
  (⟨t.name, now, [], [], [], none⟩ : Namespace).apply t.metadata

def ldapRole (a : Access) : LDAP.Role where
  name := teamLDAPRoleName t.name a
  groups := t.groups a
  users := []
  policies := [teamPolicyName a]
  ttl := t.ttl
  tuckNamespace := t.name

def k8sRole (b : Binding) : K8s.K8sRole where
  cluster := b.cluster
  ns := b.ns
  serviceAccount := b.serviceAccount
  policies := [teamPolicyName b.access]
  ttl := t.ttl
  tuckNamespace := t.name

end Team

/-! ## The plan -/

inductive Kind where
  | space
  | policy
  | ldapRole
  | k8sRole
  deriving DecidableEq

inductive Action where
  | create
  | conflict
  deriving DecidableEq

structure PlanItem where
  kind : Kind
  name : Bytes
  action : Action
  detail : Bytes
  deriving DecidableEq

structure K8sHint where
  cluster : Bytes
  ns : Bytes
  annotation : Bytes
  deriving DecidableEq

structure OnboardResult where
  ns : Bytes
  dryRun : Bool
  items : List PlanItem
  k8sHints : List K8sHint
  deriving DecidableEq

def OnboardResult.conflicts (r : OnboardResult) : List PlanItem :=
  r.items.filter fun it => it.action = .conflict

/-- An item that conflicts if the object exists already. -/
def PlanItem.of (kind : Kind) (name detail conflictDetail : Bytes) (existing : Bool) : PlanItem :=
  if existing then ⟨kind, name, .conflict, conflictDetail⟩ else ⟨kind, name, .create, detail⟩

def k8sRoleLabel (b : Binding) : Bytes :=
  if b.cluster = [] then b.ns ++ 0x2F :: b.serviceAccount
  else b.cluster ++ 0x2F :: b.ns ++ 0x2F :: b.serviceAccount

def policyItem (a : Access) : PlanItem := .of .policy (teamPolicyName a) [] [] false

def k8sItem (b : Binding) (existing : Bool) : PlanItem :=
  .of .k8sRole (k8sRoleLabel b) b.access.text
    (ascii "role for this ServiceAccount already exists") existing

namespace Team

variable (t : Team)

def namespaceItem (existing : Bool) : PlanItem :=
  .of .space t.name [] (ascii "namespace already exists") existing

def ldapItem (a : Access) (existing : Bool) : PlanItem :=
  .of .ldapRole (teamLDAPRoleName t.name a) ((t.groups a).intersperse (ascii ", ")).flatten
    (ascii "LDAP role with this name already exists") existing

/-- One hint for each namespace of a cluster. -/
def hints : List K8sHint :=
  t.k8s.foldl (fun hs b =>
    let hint : K8sHint := ⟨b.cluster, b.ns, ascii "tuck.io/tuck-namespace: " ++ t.name⟩
    if hint ∈ hs then hs else hs ++ [hint]) []

end Team

section

-- `reviewed` says for which clusters there is a reviewer (`k8sReviewerFor`).
variable (reviewed : Bytes → Bool)

/-- The Kubernetes items; only `ErrRoleNotFound` means that there is no role. -/
def planK8s : List Binding → Logical (List PlanItem)
  | [] => .ret (.ok [])
  | b :: bs =>
      if reviewed b.cluster then
        (K8s.getRole b.cluster b.ns b.serviceAccount).bind fun
          | .ok _ => (planK8s bs).andThen fun items => .ret (.ok (k8sItem b true :: items))
          | .error .notFound =>
              (planK8s bs).andThen fun items => .ret (.ok (k8sItem b false :: items))
          | .error e => .ret (.error e)
      else .ret (.error .onboardInvalid)

/-- The plan of a team; any error of the read of the namespace means that there is none. -/
def planOf (t : Team) : Logical OnboardResult :=
  (getNamespace t.name).bind fun existing =>
    LDAP.listRoles.andThen fun names =>
      (planK8s reviewed t.k8s).andThen fun k8sItems =>
        .ret (.ok
          { ns := t.name
            dryRun := true
            items := t.namespaceItem existing.isOk :: t.levels.map policyItem ++
              t.groupLevels.map (fun a => t.ldapItem a (teamLDAPRoleName t.name a ∈ names)) ++
              k8sItems
            k8sHints := t.hints })

/-! ## Onboarding -/

def ldapRoleExists (name : Bytes) : Logical Bool :=
  LDAP.listRoles.andThen fun names => .ret (.ok (name ∈ names))

def createK8sRole (r : K8s.K8sRole) : Logical Unit :=
  if r.cluster ≠ [] ∧ reviewed r.cluster = false then .ret (.error .unknownCluster)
  else K8s.putRole r

/-- What is done for a team. -/
inductive Task where
  | space
  | policy (a : Access)
  | ldapRole (a : Access)
  | k8sRole (b : Binding)

namespace Team

variable (t : Team)

def tasks : List Task :=
  .space :: (t.levels.map .policy ++ (t.groupLevels.map .ldapRole ++ t.k8s.map .k8sRole))

/-- How each task is done and undone. Policies live in the namespace, so they go with it. -/
def step (now : Int) : Task → SagaStep (KV.Call Record) KV.Call.Reply Err
  | .space =>
      { forward := (createNamespaceWithMetadata t.name t.metadata now).andThen
          fun _ => .ret (.ok ())
        undo := some (deleteNamespace t.name) }
  | .policy a => { forward := putPolicy t.name (teamPolicy a), undo := none }
  | .ldapRole a =>
      { forward := (ldapRoleExists (teamLDAPRoleName t.name a)).andThen fun existing =>
          if existing then .ret (.error .onboardConflict) else LDAP.putRole (t.ldapRole a)
        undo := some (LDAP.deleteRole (teamLDAPRoleName t.name a)) }
  | .k8sRole b =>
      { forward := (K8s.getRole b.cluster b.ns b.serviceAccount).bind fun
          | .ok _ => .ret (.error .onboardConflict)
          | .error .notFound => createK8sRole reviewed (t.k8sRole b)
          | .error e => .ret (.error e)
        undo := some (K8s.deleteRole b.cluster b.ns b.serviceAccount) }

/-- `OnboardTeam`, for a normalised request. -/
def onboard (now : Int) : Logical OnboardResult :=
  (planOf reviewed t).andThen fun plan =>
    if plan.conflicts ≠ [] then .ret (.error .onboardConflict)
    else
      (saga (t.step reviewed now) t.tasks []).andThen fun _ =>
        .ret (.ok { plan with dryRun := false })

end Team

def onboardTeam (spec : TeamSpec) (now : Int) : Logical OnboardResult :=
  match normalizeTeamSpec spec with
  | none => .ret (.error .onboardInvalid)
  | some t => t.onboard reviewed now

end

end Tuck.Onboarding
