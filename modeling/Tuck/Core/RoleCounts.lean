/-
  The inventory of auth roles: `ListRoles` of the AppRole, JWT and LDAP stores, and
  `AuthRoleCounts`, which loads the listed roles and counts them by namespace.

  `ListRoles` of the JWT store returns keys and not names, so no listed name can be loaded. With
  a JWT role in the store its list is wrong and the counts miss it; without one, the inventory
  is complete after all series of creations and deletions (`inventoryComplete_iff`).
-/
import Tuck.AppRole.Store
import Tuck.JWT.Store
import Tuck.LDAP.Store
import Tuck.Namespace.Namespace

namespace Tuck.Core

open Tuck.Base Prog List KV

/-! ## `AuthRoleCounts` -/

def maxRoleScan : Nat := 2000

def nsKey (ns : Bytes) : Bytes := if ns = Namespace.rootNamespace then [] else ns

/-- The counters of `AuthRoleCounts`; a key that is not in the map counts nothing. -/
abbrev Counts := Bytes → Nat

def Counts.add (out : Counts) (ns : Bytes) : Counts :=
  Function.update out (nsKey ns) (out (nsKey ns) + 1)

section

variable {α : Type} (get : Bytes → Logical α) (tuckNamespace : α → Bytes)

/-- The loop over the names; a role that cannot be loaded is skipped. -/
def addRoles : List Bytes → Counts → Code Record Counts
  | [], out => .ret out
  | n :: names, out =>
      (get n).bind fun
        | .ok r => addRoles names (out.add (tuckNamespace r))
        | .error _ => addRoles names out

/-- The part of `AuthRoleCounts` for one store; `break` at the limit is the `take`. -/
def countRoles (list : Logical (List Bytes)) (out : Counts) : Code Record Counts :=
  list.bind fun
    | .ok names => addRoles get tuckNamespace (names.take maxRoleScan) out
    | .error _ => .ret out

end

/-- `AuthRoleCounts`, freshly computed. -/
def authRoleCounts : Code Record Counts :=
  (countRoles AppRole.getRole (·.tuckNamespace) AppRole.listRoles fun _ => 0).bind fun out =>
    (countRoles JWT.getRole (·.tuckNamespace) JWT.listRoles out).bind fun out =>
      countRoles LDAP.getRole (·.tuckNamespace) LDAP.listRoles out

/-! ## Roles of the three kinds -/

inductive RoleKind
  | appRole | jwt | ldap
  deriving DecidableEq

namespace RoleKind

def rolesKey : RoleKind → Bytes
  | appRole => AppRole.rolesPrefix
  | jwt => JWT.rolesKey
  | ldap => LDAP.rolesKey

/-- The namespace of the role that a record holds. -/
def ns? : RoleKind → Record → Option Bytes
  | appRole, r => r.appRole?.map (·.tuckNamespace)
  | jwt, r => r.jwtRole?.map (·.tuckNamespace)
  | ldap, r => r.ldapRole?.map (·.tuckNamespace)

/-- There is a role of the kind under the key, and it is bound to the namespace. -/
def boundTo (kind : RoleKind) (s : LogicalStore) (ns k : Bytes) : Bool :=
  ((s.lookup k).bind kind.ns?).map nsKey = some (nsKey ns)

/-- The roles of a kind that are bound to a namespace. -/
def bound (kind : RoleKind) (s : LogicalStore) (ns : Bytes) : Finset Bytes :=
  (under s kind.rolesKey).filter fun k => kind.boundTo s ns k

theorem key_inj {kind kind' : RoleKind} {x y : Bytes}
    (h : kind.rolesKey ++ x = kind'.rolesKey ++ y) :
    kind = kind' ∧ x = y := by
  by_cases hk : kind = kind'
  · subst hk
    exact ⟨rfl, append_cancel_left h⟩
  · refine absurd h (append_ne_append ?_ x y)
    revert hk
    cases kind <;> cases kind' <;> decide

end RoleKind

/-- Under the prefix of a kind there are roles of that kind only. -/
def RolesTyped (s : LogicalStore) : Prop :=
  ∀ (kind : RoleKind) name r, s.lookup (kind.rolesKey ++ name) = some r → (kind.ns? r).isSome = true

/-- One operation on a role. -/
inductive RoleOp
  | putAppRole (r : AppRole.Role)
  | deleteAppRole (name : Bytes)
  | putJWTRole (r : JWT.Role)
  | deleteJWTRole (name : Bytes)
  | putLDAPRole (r : LDAP.Role)
  | deleteLDAPRole (name : Bytes)

def RoleOp.prog : RoleOp → Logical Unit
  | putAppRole r => AppRole.putRole r
  | deleteAppRole name => AppRole.deleteRole name
  | putJWTRole r => JWT.putRole r
  | deleteJWTRole name => JWT.deleteRole name
  | putLDAPRole r => LDAP.putRole r
  | deleteLDAPRole name => LDAP.deleteRole name

/-- The store after a series of operations. -/
def afterOps (L : Listing) (ops : List RoleOp) (w : LogicalWorld) : LogicalWorld :=
  ops.foldl (fun w op => (run (handle L) op.prog w).2) w

section

variable (L : Listing) (w : LogicalWorld)

/-- The list names exactly the roles that can be loaded. -/
def ListsRoles {α : Type} (list : Logical (List Bytes)) (get : Bytes → Logical α) : Prop :=
  ∃ names, (run (handle L) list w).1 = .ok names ∧
    ∀ n, n ∈ names ↔ ∃ r, (run (handle L) (get n) w).1 = .ok r

structure InventoryComplete : Prop where
  appRole : ListsRoles L w AppRole.listRoles AppRole.getRole
  jwt : ListsRoles L w JWT.listRoles JWT.getRole
  ldap : ListsRoles L w LDAP.listRoles LDAP.getRole
  counts : (∀ kind : RoleKind, (under w.store kind.rolesKey).card < maxRoleScan) →
    ∀ ns, (run (handle L) authRoleCounts w).1 (nsKey ns) =
      (RoleKind.appRole.bound w.store ns).card + (RoleKind.jwt.bound w.store ns).card +
        (RoleKind.ldap.bound w.store ns).card

end

/-! ## The series of operations -/

/-- An operation deletes the key of a role or writes a role of its kind there. -/
theorem store_roleOp (L : Listing) (w : LogicalWorld) (op : RoleOp) :
    ∃ (kind : RoleKind) (name : Bytes),
      (run (handle L) op.prog w).2.store = w.store.erase (kind.rolesKey ++ name) ∨
        ∃ r, (kind.ns? r).isSome = true ∧
          (run (handle L) op.prog w).2.store = w.store.insert (kind.rolesKey ++ name) r := by
  cases op with
  | putAppRole r =>
    refine ⟨.appRole, r.name, .inr ?_⟩
    rw [RoleOp.prog, AppRole.putRole]
    split_ifs
    · exact ⟨_, rfl, rfl⟩
    · exact ⟨_, rfl, rfl⟩
  | deleteAppRole name => exact ⟨.appRole, name, .inl rfl⟩
  | putJWTRole r => exact ⟨.jwt, r.name, .inr ⟨_, rfl, rfl⟩⟩
  | deleteJWTRole name => exact ⟨.jwt, name, .inl rfl⟩
  | putLDAPRole r => exact ⟨.ldap, r.name, .inr ⟨_, rfl, rfl⟩⟩
  | deleteLDAPRole name => exact ⟨.ldap, name, .inl rfl⟩

theorem rolesTyped_roleOp (L : Listing) {w : LogicalWorld} (h : RolesTyped w.store) (op : RoleOp) :
    RolesTyped (run (handle L) op.prog w).2.store := by
  intro kind name r hr
  obtain ⟨kind', name', heq | ⟨r', hr', heq⟩⟩ := store_roleOp L w op
  · rw [heq, lookup_erase] at hr
    split_ifs at hr
    exact h kind name r hr
  · rw [heq, lookup_insert] at hr
    split_ifs at hr with hk
    · obtain ⟨rfl, -⟩ := RoleKind.key_inj hk
      rwa [← Option.some.inj hr]
    · exact h kind name r hr

theorem rolesTyped_afterOps (L : Listing) (ops : List RoleOp) {w : LogicalWorld}
    (h : RolesTyped w.store) : RolesTyped (afterOps L ops w).store := by
  induction ops generalizing w with
  | nil => exact h
  | cons op ops ih => exact ih (rolesTyped_roleOp L h op)

/-! ## Lists and counts -/

section

variable {L : Listing} {w : LogicalWorld} {α : Type} {decode : Record → Option α}
variable {tuckNamespace : α → Bytes}

theorem length_order (L : Listing) (keys : Finset Bytes) : (L.order keys).length = keys.card := by
  rw [← toFinset_card_of_nodup (L.nodup keys)]
  congr 1
  ext k
  rw [mem_toFinset, L.mem_order]

/-- `ListRoles` as the AppRole and LDAP stores have it. -/
theorem run_listTrimmed (pre : Bytes) :
    run (handle L) ((KV.list (V := Record) Err.storage pre).andThen fun keys =>
        .ret (.ok (keys.map fun k => trimPrefix k pre))) w =
      (.ok ((L.order (under w.store pre)).map fun k => trimPrefix k pre), w) := rfl

/-- A list that cuts the prefix off names the roles that can be loaded. -/
theorem listsRoles_of_trim (kind : RoleKind) (h : RolesTyped w.store)
    (hns : ∀ r, kind.ns? r = (decode r).map tuckNamespace) :
    ListsRoles L w
      ((KV.list .storage kind.rolesKey).andThen fun keys =>
        .ret (.ok (keys.map fun k => trimPrefix k kind.rolesKey)))
      fun n => getAs decode (kind.rolesKey ++ n) := by
  refine ⟨_, congrArg Prod.fst (run_listTrimmed kind.rolesKey), fun n => ?_⟩
  simp only [mem_names, run_getAs, decodeAs_eq_ok]
  constructor
  · intro hn
    obtain ⟨r, hr⟩ := Option.isSome_iff_exists.1 hn
    have hsome := h kind n r hr
    rw [hns, Option.isSome_map] at hsome
    obtain ⟨a, ha⟩ := Option.isSome_iff_exists.1 hsome
    exact ⟨a, by rw [hr]; exact ha⟩
  · intro ⟨a, ha⟩
    obtain ⟨r, hr, -⟩ := Option.bind_eq_some_iff.1 ha
    rw [hr]
    rfl

/-- The loop changes nothing and counts the names under which a role is bound to the namespace. -/
theorem run_addRoles (kind : RoleKind) (hns : ∀ r, kind.ns? r = (decode r).map tuckNamespace)
    (ns : Bytes) (names : List Bytes) (out : Counts) :
    let res := run (handle L)
      (addRoles (fun n => getAs decode (kind.rolesKey ++ n)) tuckNamespace names out) w
    res.2 = w ∧ res.1 (nsKey ns) =
      out (nsKey ns) + names.countP fun n => kind.boundTo w.store ns (kind.rolesKey ++ n) := by
  induction names generalizing out with
  | nil => exact ⟨rfl, rfl⟩
  | cons n names ih =>
    have hbind : (w.store.lookup (kind.rolesKey ++ n)).bind kind.ns? =
        (decodeAs decode (w.store.lookup (kind.rolesKey ++ n))).toOption.map tuckNamespace := by
      rw [decodeAs_toOption, Option.map_bind, funext hns]
      rfl
    simp only [addRoles, run_bind, run_getAs, countP_cons, RoleKind.boundTo] at ih ⊢
    rw [hbind]
    cases decodeAs decode (w.store.lookup (kind.rolesKey ++ n)) with
    | error e => simpa [Except.toOption] using ih out
    | ok a =>
      obtain ⟨hw, hcount⟩ := ih (out.add (tuckNamespace a))
      refine ⟨hw, hcount.trans ?_⟩
      rw [Counts.add, Function.update_apply]
      by_cases hkey : nsKey ns = nsKey (tuckNamespace a)
      · simp [hkey, Except.toOption]
        omega
      · simp [hkey, Ne.symm hkey, Except.toOption]

/-- One store's part of the counts, if the list cuts the prefix off and is shorter than
    the limit. -/
theorem run_countRoles (kind : RoleKind) (hns : ∀ r, kind.ns? r = (decode r).map tuckNamespace)
    (hsmall : (under w.store kind.rolesKey).card < maxRoleScan) (ns : Bytes) (out : Counts) :
    let res := run (handle L)
      (countRoles (fun n => getAs decode (kind.rolesKey ++ n)) tuckNamespace
        ((KV.list .storage kind.rolesKey).andThen fun keys =>
          .ret (.ok (keys.map fun k => trimPrefix k kind.rolesKey))) out) w
    res.2 = w ∧ res.1 (nsKey ns) = out (nsKey ns) + (kind.bound w.store ns).card := by
  intro res
  have hres : res = run (handle L)
      (addRoles (fun n => getAs decode (kind.rolesKey ++ n)) tuckNamespace
        ((L.order (under w.store kind.rolesKey)).map fun k => trimPrefix k kind.rolesKey)
          out) w := by
    rw [← take_of_length_le (i := maxRoleScan) (l := List.map _ _)]
    · rfl
    · rw [length_map, length_order]
      exact hsmall.le
  obtain ⟨hw, hcount⟩ := run_addRoles (L := L) (w := w) kind hns ns
    ((L.order (under w.store kind.rolesKey)).map fun k => trimPrefix k kind.rolesKey) out
  rw [← hres] at hw hcount
  refine ⟨hw, hcount.trans (congrArg _ ?_)⟩
  rw [countP_map, countP_eq_length_filter, RoleKind.bound,
    ← toFinset_card_of_nodup ((L.nodup _).filter _)]
  congr 1
  ext k
  simp only [mem_toFinset, mem_filter, L.mem_order, Finset.mem_filter, Function.comp_apply]
  refine and_congr_right fun hk => ?_
  obtain ⟨n, rfl⟩ := (mem_under.1 hk).2
  rw [trimPrefix_append]

/-- The JWT store lists the names of its roles only if it has none: the longest listed key would
    be the name of a role whose key is longer. -/
theorem listsRoles_jwt_iff :
    ListsRoles L w JWT.listRoles JWT.getRole ↔ under w.store JWT.rolesKey = ∅ := by
  have hlist : run (handle L) JWT.listRoles w =
      (.ok (L.order (under w.store JWT.rolesKey)), w) := rfl
  unfold ListsRoles
  simp only [hlist, Except.ok.injEq, exists_eq_left', L.mem_order, JWT.getRole, run_getAs,
    decodeAs_eq_ok]
  constructor
  · intro h
    by_contra hne
    obtain ⟨k, hk, hmax⟩ :=
      Finset.exists_max_image _ List.length (Finset.nonempty_iff_ne_empty.2 hne)
    obtain ⟨r, hr⟩ := (h k).1 hk
    obtain ⟨v, hv, -⟩ := Option.bind_eq_some_iff.1 hr
    have hlonger := hmax (JWT.roleKey k)
      (mem_under.2 ⟨by rw [hv]; rfl, prefix_append JWT.rolesKey k⟩)
    have hpre : JWT.rolesKey.length = 15 := by decide
    rw [JWT.roleKey, length_append, hpre] at hlonger
    omega
  · intro hnone n
    rw [hnone]
    refine iff_of_false (Finset.notMem_empty n) ?_
    rintro ⟨r, hr⟩
    obtain ⟨v, hv, -⟩ := Option.bind_eq_some_iff.1 hr
    have hmem : JWT.roleKey n ∈ under w.store JWT.rolesKey :=
      mem_under.2 ⟨by rw [hv]; rfl, prefix_append JWT.rolesKey n⟩
    rw [hnone] at hmem
    exact Finset.notMem_empty _ hmem

/-- Without JWT roles the counts are those of the other two stores, and these are right. -/
theorem run_authRoleCounts (hnone : under w.store JWT.rolesKey = ∅)
    (hsmall : ∀ kind : RoleKind, (under w.store kind.rolesKey).card < maxRoleScan) (ns : Bytes) :
    (run (handle L) authRoleCounts w).1 (nsKey ns) =
      (RoleKind.appRole.bound w.store ns).card + (RoleKind.jwt.bound w.store ns).card +
        (RoleKind.ldap.bound w.store ns).card := by
  have hjwt (out : Counts) :
      run (handle L) (countRoles JWT.getRole (·.tuckNamespace) JWT.listRoles out) w =
        (out, w) := by
    have hnil : L.order (under w.store JWT.rolesKey) = [] := by
      rw [eq_nil_iff_forall_not_mem]
      intro k hk
      rw [L.mem_order, hnone] at hk
      exact Finset.notMem_empty k hk
    rw [countRoles, run_bind, JWT.listRoles, run_list, hnil]
    rfl
  have hbound : (RoleKind.jwt.bound w.store ns).card = 0 := by
    rw [RoleKind.bound, RoleKind.rolesKey, hnone]
    rfl
  have happ :
      let res := run (handle L)
        (countRoles AppRole.getRole (·.tuckNamespace) AppRole.listRoles fun _ => 0) w
      res.2 = w ∧ res.1 (nsKey ns) = 0 + (RoleKind.appRole.bound w.store ns).card :=
    run_countRoles .appRole (fun r => rfl) (hsmall _) ns fun _ => 0
  have hldap (out : Counts) : (run (handle L)
        (countRoles LDAP.getRole (·.tuckNamespace) LDAP.listRoles out) w).1 (nsKey ns) =
      out (nsKey ns) + (RoleKind.ldap.bound w.store ns).card :=
    (run_countRoles .ldap (fun r => rfl) (hsmall _) ns out).2
  rw [authRoleCounts, run_bind, happ.1, run_bind, hjwt, hldap, happ.2, hbound, Nat.zero_add,
    Nat.add_zero]

end

/-- After any series of creations and deletions the inventory is complete exactly if no JWT role
    is stored. -/
theorem inventoryComplete_iff (L : Listing) (ops : List RoleOp) (w : LogicalWorld)
    (h : RolesTyped w.store) :
    InventoryComplete L (afterOps L ops w) ↔
      ∀ name, (afterOps L ops w).store.lookup (JWT.roleKey name) = none := by
  have htyped := rolesTyped_afterOps L ops h
  generalize afterOps L ops w = w' at htyped
  have hempty : under w'.store JWT.rolesKey = ∅ ↔
      ∀ name, w'.store.lookup (JWT.roleKey name) = none := by
    rw [Finset.eq_empty_iff_forall_notMem]
    constructor
    · intro hnone name
      by_contra hname
      exact hnone _ (mem_under.2
        ⟨Option.isSome_iff_ne_none.2 hname, prefix_append JWT.rolesKey name⟩)
    · intro hnone k hk
      obtain ⟨hsome, name, rfl⟩ := mem_under.1 hk
      exact Option.isSome_iff_ne_none.1 hsome (hnone name)
  rw [← hempty]
  constructor
  · intro hc
    exact listsRoles_jwt_iff.1 hc.jwt
  · intro hnone
    exact ⟨listsRoles_of_trim .appRole htyped fun r => rfl, listsRoles_jwt_iff.2 hnone,
      listsRoles_of_trim .ldap htyped fun r => rfl, run_authRoleCounts hnone⟩

theorem rolesTyped_empty : RolesTyped ∅ := by
  intro kind name r hr
  cases hr

/-- A JWT role of the root namespace. -/
def ciRole : JWT.Role where
  name := ascii "ci"
  boundSubject := []
  boundClaims := []
  boundAudiences := []
  boundGroups := []
  policies := []
  ttl := 0
  tuckNamespace := []

/-- One JWT role is created: the list has its key, under which no role is found, and the counts
    have no role. -/
theorem jwt_role_missed :
    let w := afterOps sorted [.putJWTRole ciRole] ⟨∅, Stream'.const 0⟩
    (run (handle sorted) JWT.listRoles w).1 = .ok [ascii "auth/jwt/roles/ci"] ∧
      (run (handle sorted) (JWT.getRole (ascii "auth/jwt/roles/ci")) w).1 =
        .error .notFound ∧
      (run (handle sorted) (JWT.getRole (ascii "ci")) w).1 = .ok ciRole ∧
      (run (handle sorted) authRoleCounts w).1 [] = 0 := by
  decide +kernel

def webRole : AppRole.Role := ⟨ascii "web", ascii "id", [], 0, 0, 0, [], []⟩

def devRole : LDAP.Role := ⟨ascii "dev", [], [], [], 0, []⟩

/-- A role of each kind is created, and the JWT role is deleted again. -/
def deletedJWT : List RoleOp :=
  [.putAppRole webRole, .putLDAPRole devRole, .putJWTRole ciRole, .deleteJWTRole (ascii "ci")]

theorem inventoryComplete_deleted :
    InventoryComplete sorted (afterOps sorted deletedJWT ⟨∅, Stream'.const 0⟩) ∧
      (run (handle sorted) authRoleCounts
        (afterOps sorted deletedJWT ⟨∅, Stream'.const 0⟩)).1 [] = 2 := by
  refine ⟨(inventoryComplete_iff sorted _ _ rolesTyped_empty).2 fun name => ?_, by decide +kernel⟩
  have hstore : (afterOps sorted deletedJWT ⟨∅, Stream'.const 0⟩).store =
      ((((∅ : LogicalStore).insert (AppRole.roleKey (ascii "web")) (.appRole webRole)).insert
        (LDAP.roleKey (ascii "dev")) (.ldapRole devRole)).insert
        (JWT.roleKey (ascii "ci")) (.jwtRole ciRole)).erase (JWT.roleKey (ascii "ci")) := rfl
  have happ : JWT.roleKey name ≠ AppRole.roleKey (ascii "web") := append_ne_append (by decide) _ _
  have hldap : JWT.roleKey name ≠ LDAP.roleKey (ascii "dev") := append_ne_append (by decide) _ _
  rw [hstore, lookup_erase, lookup_insert, lookup_insert, if_neg hldap, lookup_insert, if_neg happ]
  split_ifs <;> rfl

end Tuck.Core
