/-
  The roles of Kubernetes service accounts. The roles of the default cluster, whose name is
  empty, keep a key layout of their own.
-/
import Tuck.Core.Record

namespace Tuck.K8s

open Tuck.Base

def validClusterName (name : Bytes) : Bool :=
  let alnum : UInt8 → Bool := fun b => (0x61 ≤ b && b ≤ 0x7A) || (0x30 ≤ b && b ≤ 0x39)
  match name with
  | [] => false
  | b :: bs =>
      name.length ≤ 63 && alnum b &&
        bs.all fun c => alnum c || c = 0x2D || c = 0x5F || c = 0x2E

def roleKey (cluster ns sa : Bytes) : Bytes :=
  if cluster = [] then ascii "auth/k8s/role/" ++ ns ++ 0x2F :: sa
  else ascii "auth/k8s/cluster/" ++ cluster ++ ascii "/role/" ++ ns ++ 0x2F :: sa

/-- `RoleStore.Put`. -/
def putRole (r : K8sRole) : Logical Unit :=
  KV.put .storage (roleKey r.cluster r.ns r.serviceAccount) (.k8sRole r)

/-- `RoleStore.Get`. -/
def getRole (cluster ns sa : Bytes) : Logical K8sRole :=
  getAs Record.k8sRole? (roleKey cluster ns sa)

/-- `RoleStore.Delete`. -/
def deleteRole (cluster ns sa : Bytes) : Logical Unit := KV.delete .storage (roleKey cluster ns sa)

end Tuck.K8s
