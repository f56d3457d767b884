/-
  The token store: tokens under the hash of their ID, and two indexes that it keeps by hand.

    auth/token/<hash of ID>                          the token
    auth/accessor/<accessor>                         its ID
    auth/children/<hash of parent>/<hash of child>   the child's ID

  The hash is a parameter, `sha256`. The three families of keys never meet, whatever the
  hash; within a family keys are told apart by the hash and the accessor.
-/
import Tuck.Core.Record
import Tuck.Base.Base64

namespace Tuck.Token

open Tuck.Base

variable (sha256 : Bytes → Bytes)

/-! ## Keys -/

def tokenPrefix : Bytes := ascii "auth/token/"

def accessorPrefix : Bytes := ascii "auth/accessor/"

def childrenPrefix : Bytes := ascii "auth/children/"

def tokenKeyHash (id : Bytes) : Bytes := hexEncode (sha256 id)

def tokenKey (id : Bytes) : Bytes := tokenPrefix ++ tokenKeyHash sha256 id

/-- The keys of the children of a token start so. -/
def childrenOf (parentID : Bytes) : Bytes :=
  childrenPrefix ++ (tokenKeyHash sha256 parentID ++ [0x2F])

def childKey (parentID childID : Bytes) : Bytes :=
  childrenOf sha256 parentID ++ tokenKeyHash sha256 childID

def accessorKey (acc : Bytes) : Bytes := accessorPrefix ++ acc

/-! ## The operations -/

/-- `Generate`: 32 random bytes for the ID, 16 for the accessor. -/
def generate (displayName : Bytes) (policies : List Bytes) (ttl now : Int) : Logical Token :=
  (KV.rand .rand 32).andThen fun raw =>
    (KV.rand .rand 16).andThen fun acc =>
      .ret (.ok
        { id := ascii "tuck_" ++ rawURLEncode raw
          accessor := ascii "tuck_acc_" ++ rawURLEncode acc
          displayName := displayName
          policies := policies
          ns := []
          entityID := []
          authMethod := []
          createdAt := now
          expiresAt := if 0 < ttl then some (now + ttl) else none
          renewable := false
          maxTTL := 0
          maxUses := 0
          useCount := 0
          period := 0
          parentID := []
          orphan := false })

/-- `Store.Put`: the token, then its two index entries, whose errors are ignored. -/
def put (t : Token) : Logical Unit :=
  (KV.put .storage (tokenKey sha256 t.id) (.token t)).andThen fun _ =>
    (Prog.only (t.accessor ≠ [])
      (KV.put Err.storage (accessorKey t.accessor) (.accessor t.id)).ignore).bind fun _ =>
      (Prog.only (t.parentID ≠ [] && !t.orphan)
        (KV.put Err.storage (childKey sha256 t.parentID t.id) (.child t.id)).ignore).bind fun _ =>
        .ret (.ok ())

/-- `Store.Children`: entries that cannot be read are left out. -/
def children (parentID : Bytes) : Logical (List Bytes) :=
  (KV.list .storage (childrenOf sha256 parentID)).andThen fun keys =>
    (Prog.collect (fun k => (getAs Record.child? k).bind fun r => .ret r.toOption) keys).bind
      fun ids => .ret (.ok ids)

def get (id : Bytes) : Logical Token := getAs Record.token? (tokenKey sha256 id)

def getByAccessor (acc : Bytes) : Logical Token :=
  (getAs Record.accessor? (accessorKey acc)).bind fun
    | .ok id => get sha256 id
    | .error .decode => .ret (.error .notFound)
    | .error e => .ret (.error e)

/-- `Store.Delete`: the index entries first, if the token can be read. -/
def delete (id : Bytes) : Logical Unit :=
  (get sha256 id).bind fun r =>
    (match r with
      | .ok tok =>
          (Prog.only (tok.accessor ≠ [])
            (KV.delete Err.storage (accessorKey tok.accessor)).ignore).bind fun _ =>
            Prog.only (tok.parentID ≠ [])
              (KV.delete Err.storage (childKey sha256 tok.parentID id)).ignore
      | .error _ => .ret ()).bind fun _ =>
      KV.delete .storage (tokenKey sha256 id)

/-- `Store.DeleteByAccessor`. It does not touch the children index. -/
def deleteByAccessor (acc : Bytes) : Logical Unit :=
  (getAs Record.accessor? (accessorKey acc)).bind fun
    | .ok id =>
        (KV.delete Err.storage (accessorKey acc)).ignore.bind fun _ =>
          KV.delete .storage (tokenKey sha256 id)
    | .error .decode => .ret (.error .notFound)
    | .error e => .ret (.error e)

/-- The tokens that can be read, of all keys listed. -/
def readAll : Logical (List Token) :=
  (KV.list .storage tokenPrefix).andThen fun keys =>
    (Prog.collect (fun k => (getAs Record.token? k).bind fun r => .ret r.toOption) keys).bind
      fun toks => .ret (.ok toks)

def listExpired (now : Int) : Logical (List Bytes) :=
  readAll.andThen fun toks => .ret (.ok ((toks.filter fun t => t.isExpired now).map Token.id))

end Tuck.Token
