/-
  The roles of the JWT store. `ListRoles` hands the listed keys on as they are.
-/
import Tuck.Core.Record
import Tuck.Base.Paths

namespace Tuck.JWT

open Tuck.Base

def rolesKey : Bytes := ascii "auth/jwt/roles/"

def roleKey (name : Bytes) : Bytes := rolesKey ++ name

def getRole (name : Bytes) : Logical Role := getAs Record.jwtRole? (roleKey name)

def putRole (r : Role) : Logical Unit := KV.put .storage (roleKey r.name) (.jwtRole r)

def deleteRole (name : Bytes) : Logical Unit := KV.delete .storage (roleKey name)

def listRoles : Logical (List Bytes) := KV.list .storage rolesKey

end Tuck.JWT
