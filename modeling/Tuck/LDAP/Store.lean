/-
  The LDAP store: the roles that map directory groups to policies.
-/
import Tuck.Core.Record
import Tuck.Base.Paths

namespace Tuck.LDAP

open Tuck.Base

def rolesKey : Bytes := ascii "auth/ldap/roles/"

def roleKey (name : Bytes) : Bytes := rolesKey ++ name

def getRole (name : Bytes) : Logical Role := getAs Record.ldapRole? (roleKey name)

def putRole (r : Role) : Logical Unit := KV.put .storage (roleKey r.name) (.ldapRole r)

def deleteRole (name : Bytes) : Logical Unit := KV.delete .storage (roleKey name)

def listRoles : Logical (List Bytes) :=
  (KV.list .storage rolesKey).andThen fun keys =>
    .ret (.ok (keys.map fun k => trimPrefix k rolesKey))

end Tuck.LDAP
