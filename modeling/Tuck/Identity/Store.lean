/-
  The identity store: entities, their aliases, groups and group aliases. Each object is kept
  under its ID, and an index entry under its name (for an alias, its mount and name) holds the
  ID. The four kinds differ in their keys only; the operations are written once for a kind.
  The keys are made of the texts as they are given, while the JSON of an object has U+FFFD in
  the place of what is not UTF-8 in them.

  `EnsureAlias` finds the entity of a login, or makes one; the two resolvers collect the
  policies of the groups that an entity or an external group belongs to, directly or through
  other groups.
-/
import Tuck.Core.Record
import Tuck.Base.Json
import Tuck.Base.Worklist

namespace Tuck.Identity

open Tuck.Base

/-- A kind of objects: `Label` is what an object is looked up by besides its ID. -/
structure Kind (α Label : Type) where
  idPrefix : Bytes
  indexPrefix : Bytes
  /-- The index key of a label, behind the prefix. -/
  labelKey : Label → Bytes
  id : α → Bytes
  label : α → Label
  /-- The object as it is read back from its JSON. -/
  clean : α → α
  record : α → Record
  decode : Record → Option α

section

variable {α Label : Type} (K : Kind α Label)

def Kind.idKey (id : Bytes) : Bytes := K.idPrefix ++ id

def Kind.indexKey (n : Label) : Bytes := K.indexPrefix ++ K.labelKey n

/-- Store an object and its index entry. -/
def Kind.put (a : α) : Logical Unit :=
  (KV.put .storage (K.idKey (K.id a)) (K.record (K.clean a))).andThen fun _ =>
    KV.put .storage (K.indexKey (K.label a)) (.raw (K.id a))

def newID : Logical Bytes := (KV.rand .rand 16).andThen fun raw => .ret (.ok (rawURLEncode raw))

/-- Store a new object under a random ID. -/
def Kind.create (mk : Bytes → α) : Logical α :=
  newID.andThen fun id => (K.put (mk id)).andThen fun _ => .ret (.ok (mk id))

def Kind.getByID (id : Bytes) : Logical α := getAs K.decode (K.idKey id)

/-- Look an object up through its index entry. -/
def Kind.getByLabel (n : Label) : Logical α :=
  (KV.get .storage (K.indexKey n)).andThen fun
    | none => .ret (.error .notFound)
    | some r => K.getByID r.bytes

/-- Remove an object and the index entry of its label. -/
def Kind.delete (id : Bytes) : Logical Unit :=
  (K.getByID id).andThen fun a =>
    (KV.delete Err.storage (K.indexKey (K.label a))).bind fun _ => KV.delete .storage (K.idKey id)

end

/-! ## The four kinds -/

def Entity.clean (e : Entity) : Entity :=
  { e with id := sanitize e.id, name := sanitize e.name, policies := e.policies.map sanitize }

def EntityAlias.clean (a : EntityAlias) : EntityAlias :=
  ⟨sanitize a.id, sanitize a.entityID, sanitize a.mountAccessor, sanitize a.name⟩

def Group.clean (g : Group) : Group where
  id := sanitize g.id
  name := sanitize g.name
  policies := g.policies.map sanitize
  memberEntityIDs := g.memberEntityIDs.map sanitize
  memberGroupIDs := g.memberGroupIDs.map sanitize

def GroupAlias.clean (a : GroupAlias) : GroupAlias :=
  ⟨sanitize a.id, sanitize a.groupID, sanitize a.mountAccessor, sanitize a.name⟩

def entities : Kind Entity Bytes where
  idPrefix := ascii "identity/entity/id/"
  indexPrefix := ascii "identity/entity/name/"
  labelKey := fun name => name
  id := Entity.id
  label := Entity.name
  clean := Entity.clean
  record := .entity
  decode := Record.entity?

/-- Mount and name, as they stand in an index key. -/
def mountKey (n : Bytes × Bytes) : Bytes := n.1 ++ 0x2F :: n.2

def entityAliases : Kind EntityAlias (Bytes × Bytes) where
  idPrefix := ascii "identity/alias/id/"
  indexPrefix := ascii "identity/alias/mount/"
  labelKey := mountKey
  id := EntityAlias.id
  label := fun a => (a.mountAccessor, a.name)
  clean := EntityAlias.clean
  record := .entityAlias
  decode := Record.entityAlias?

def groups : Kind Group Bytes where
  idPrefix := ascii "identity/group/id/"
  indexPrefix := ascii "identity/group/name/"
  labelKey := fun name => name
  id := Group.id
  label := Group.name
  clean := Group.clean
  record := .group
  decode := Record.group?

def groupAliases : Kind GroupAlias (Bytes × Bytes) where
  idPrefix := ascii "identity/group-alias/id/"
  indexPrefix := ascii "identity/group-alias/mount/"
  labelKey := mountKey
  id := GroupAlias.id
  label := fun a => (a.mountAccessor, a.name)
  clean := GroupAlias.clean
  record := .groupAlias
  decode := Record.groupAlias?

def putEntity (e : Entity) : Logical Unit := entities.put e

def createEntity (name : Bytes) (policies : List Bytes) : Logical Entity :=
  entities.create fun id => ⟨id, name, policies, false⟩

def getEntityByID (id : Bytes) : Logical Entity := entities.getByID id

def getEntityByName (name : Bytes) : Logical Entity := entities.getByLabel name

def deleteEntity (id : Bytes) : Logical Unit := entities.delete id

def putAlias (a : EntityAlias) : Logical Unit := entityAliases.put a

def createAlias (entityID mount name : Bytes) : Logical EntityAlias :=
  entityAliases.create fun id => ⟨id, entityID, mount, name⟩

def getAliasByID (id : Bytes) : Logical EntityAlias := entityAliases.getByID id

def getAliasByMount (mount name : Bytes) : Logical EntityAlias :=
  entityAliases.getByLabel (mount, name)

def deleteAlias (id : Bytes) : Logical Unit := entityAliases.delete id

def putGroup (g : Group) : Logical Unit := groups.put g

def createGroup (name : Bytes) (policies memberEntityIDs memberGroupIDs : List Bytes) :
    Logical Group :=
  groups.create fun id => ⟨id, name, policies, memberEntityIDs, memberGroupIDs⟩

def getGroupByID (id : Bytes) : Logical Group := groups.getByID id

def getGroupByName (name : Bytes) : Logical Group := groups.getByLabel name

def deleteGroup (id : Bytes) : Logical Unit := groups.delete id

def putGroupAlias (a : GroupAlias) : Logical Unit := groupAliases.put a

def createGroupAlias (groupID mount name : Bytes) : Logical GroupAlias :=
  groupAliases.create fun id => ⟨id, groupID, mount, name⟩

def getGroupAliasByID (id : Bytes) : Logical GroupAlias := groupAliases.getByID id

def getGroupAliasByMount (mount name : Bytes) : Logical GroupAlias :=
  groupAliases.getByLabel (mount, name)

def deleteGroupAlias (id : Bytes) : Logical Unit := groupAliases.delete id

/-! ## Logins -/

/-- `EnsureAlias`: any error of the lookup makes a new entity and alias. -/
def ensureAlias (mount name : Bytes) : Logical Entity :=
  (getAliasByMount mount name).bind fun
    | .ok a => getEntityByID a.entityID
    | .error _ =>
        let autoName := mount ++ 0x3A :: name
        let named : Logical Bytes :=
          (getEntityByName autoName).bind fun
            | .ok _ => newID.andThen fun suffix => .ret (.ok (autoName ++ 0x2D :: suffix.take 6))
            | .error _ => .ret (.ok autoName)
        named.andThen fun autoName =>
          (createEntity autoName []).andThen fun e =>
            (createAlias e.id mount name).andThen fun _ => .ret (.ok e)

/-! ## Policies -/

/-- Append the policies that are not there yet. -/
def addPolicies (result policies : List Bytes) : List Bytes :=
  policies.foldl (fun r p => if p ∈ r then r else r ++ [p]) result

def listGroupIDs : Logical (List Bytes) :=
  (KV.list .storage groups.idPrefix).andThen fun keys =>
    .ret (.ok (keys.map fun k => trimPrefix k groups.idPrefix))

/-- The groups that can be read. -/
def loadGroups (ids : List Bytes) : KV.Code Record (List Group) :=
  Prog.collect (fun id => (getGroupByID id).bind fun r => .ret r.toOption) ids

/-- The IDs of the groups that list the group `gid`, in the order of the list. -/
def parentsOf (all : List Group) (gid : Bytes) : List Bytes :=
  (all.filter fun pg => gid ∈ pg.memberGroupIDs).map Group.id

/-- The upward search; the fuel is enough for every graph (`walkUp_isSome`). -/
def walkUp (all : List Group) (queue : List Bytes) : Option (Finset Bytes) :=
  walk (parentsOf all) (queue.length + (queue.length + all.length) * all.length) queue ∅

/-- The policies of the first group with the ID. -/
def addGroup (all : List Group) (result : List Bytes) (gid : Bytes) : List Bytes :=
  match all.find? fun g => g.id = gid with
  | some g => addPolicies result g.policies
  | none => result

/-- The policies of the groups of a set, for any order of the set. -/
def groupPolicies (order : Finset Bytes → List Bytes) (all : List Group) (result : List Bytes)
    (found : Finset Bytes) : List Bytes :=
  (order found).foldl (addGroup all) result

/-- `ResolveEntityPolicies`; `none` would be a search that does not end. `order` is the order
    in which the map of the groups found is read. -/
def resolveEntityPolicies (order : Finset Bytes → List Bytes) (entityID : Bytes) :
    KV.Code Record (Option (List Bytes)) :=
  (getEntityByID entityID).bind fun
    | .error _ => .ret (some [])
    | .ok entity =>
        if entity.disabled then .ret (some [])
        else
          let result := addPolicies [] entity.policies
          listGroupIDs.bind fun
            | .error _ => .ret (some result)
            | .ok ids =>
                (loadGroups ids).bind fun all =>
                  let queue := (all.filter fun g => entityID ∈ g.memberEntityIDs).map Group.id
                  .ret ((walkUp all queue).map (groupPolicies order all result))

/-- The group IDs that are aliased to external groups, each once. -/
def matchedGroupIDs (mount : Bytes) (externalGroups : List Bytes) : KV.Code Record (List Bytes) :=
  (Prog.collect (fun ext => (getGroupAliasByMount mount ext).bind fun r =>
    .ret (r.toOption.map GroupAlias.groupID)) externalGroups).bind fun ids => .ret ids.dedup

def resolveExternalGroupPolicies (order : Finset Bytes → List Bytes) (mount : Bytes)
    (externalGroups : List Bytes) : KV.Code Record (Option (List Bytes)) :=
  if externalGroups = [] then .ret (some [])
  else
    (matchedGroupIDs mount externalGroups).bind fun matched =>
      if matched = [] then .ret (some [])
      else
        listGroupIDs.bind fun
          | .error _ => .ret (some [])
          | .ok ids =>
              (loadGroups ids).bind fun all =>
                .ret ((walkUp all (order matched.toFinset)).map (groupPolicies order all []))

end Tuck.Identity
