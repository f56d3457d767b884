/-
  The barrier: the encryption boundary between the core and the backend. It is sealed
  (`none`) or holds the keyring it read at unseal time (`some`). Every function is the code
  of the source as a program over backend and random calls; the memory is passed along.
-/
import Tuck.Barrier.Keyring
import Tuck.Barrier.Paths

namespace Tuck.Barrier

open Tuck.Base Host Prog

/-- The errors of the barrier. -/
inductive Err where
  | sealed
  | alreadyInit
  | notInitialized
  | unsealFailed
  | notVersioned
  | backend
  | rand
  | newCipher
  | unknownSuite (name : Bytes)
  | rootKeySize (n : Nat)
  | parseMeta
  | decrypt (key : Bytes)
  | reencrypt (key : Bytes)
  | list (pre : Bytes)
  deriving DecidableEq

def keyringPath : Bytes := ascii "barrier/keyring"

def metaPath : Bytes := ascii "barrier/meta"

/-- What an unsealed barrier holds in memory. -/
structure Unsealed where
  keys : KeyMap
  active : UInt32
  rootKey : Bytes
  suite : Suite
  bindAAD : Bool
  versioned : Bool
  pathKey : Bytes
  paths : Option PathCodec

/-- Sealed, or unsealed with its memory. -/
abbrev Memory := Option Unsealed

/-! ## Entries -/

/-- `Suite.seal`: draws its nonce. -/
def Suite.seal (s : Suite) (key plain aad : Bytes) : Code (Except Err Bytes) :=
  if s.newOK key then
    (randBytes .rand s.nonceSize).andThen fun n => ret (.ok (s.sealWith key n plain aad))
  else ret (.error .newCipher)

namespace Unsealed

variable (m : Unsealed)

def aadFor (key : Bytes) : Bytes := if m.bindAAD then key else []

/-- `b.keys[b.active]`; a missing key is the nil slice. -/
def activeKey : Bytes := (m.keys.lookup m.active).getD []

/-- `phys`: the stored form of a logical key. -/
def phys (E : Env) (key : Bytes) : Bytes :=
  match m.paths with
  | none => key
  | some c => c.encode E key

def entryVersion (data : Bytes) : Option (UInt32 × Bytes) :=
  if m.versioned then takeBe32 data else some (m.active, data)

/-- `openEntry`: the key is the one whose version the entry names. -/
def openEntry (key data : Bytes) : Option Bytes :=
  match m.entryVersion data with
  | none => none
  | some (ver, body) =>
      match m.keys.lookup ver with
      | none => none
      | some k => m.suite.openData k body (m.aadFor key)

/-- An entry as `sealEntry` frames it. -/
def frame (ct : Bytes) : Bytes := if m.versioned then be32 m.active ++ ct else ct

def sealEntry (key value : Bytes) : Code (Except Err Bytes) :=
  (m.suite.seal m.activeKey value (m.aadFor key)).andThen fun ct => ret (.ok (m.frame ct))

/-- The keyring as it is written: the document, or the bare key of an older store. -/
def keyringPlain : Bytes :=
  if m.versioned then marshalKeyring m.active m.keys m.pathKey else m.activeKey

def persistKeyring (rootKey : Bytes) : Code (Except Err Unit) :=
  (m.suite.seal rootKey m.keyringPlain (m.aadFor keyringPath)).andThen fun wrapped =>
    backendPut .backend keyringPath wrapped

end Unsealed

/-! ## Store metadata -/

/-- `storeMeta` as JSON. -/
def metaJson (version : Int64) (cipher : Bytes) : Json :=
  .obj [(ascii "version", .num (decimalInt version.toInt)), (ascii "cipher", .str cipher)]

def setMeta (m : Int64 × Bytes) (kv : Bytes × Json) : Option (Int64 × Bytes) :=
  if foldName kv.1 = ascii "VERSION" then (kv.2.toInt64 m.1).map fun v => (v, m.2)
  else if foldName kv.1 = ascii "CIPHER" then (kv.2.toStr m.2).map fun c => (m.1, c)
  else some m

/-- Version and cipher of a metadata record. -/
def parseMeta (raw : Bytes) : Option (Int64 × Bytes) :=
  match Json.parse raw with
  | some .null => some (0, [])
  | some (.obj ms) => ms.foldlM setMeta (0, [])
  | _ => none

/-- `storeFlags`. -/
structure Flags where
  bindAAD : Bool
  versioned : Bool
  encPaths : Bool
  deriving DecidableEq

def flagsOf (version : Int64) : Flags := ⟨1 ≤ version, 2 ≤ version, 3 ≤ version⟩

/-- What a metadata record, or its absence, says about the store. -/
def metaOf (E : Env) : Option Bytes → Except Err (Suite × Flags)
  | none =>
      match lookupSuite E.suites suiteAES256GCM with
      | some s => .ok (s, ⟨false, false, false⟩)
      | none => .error (.unknownSuite suiteAES256GCM)
  | some raw =>
      match parseMeta raw with
      | none => .error .parseMeta
      | some (version, cipher) =>
          match lookupSuite E.suites cipher with
          | some s => .ok (s, flagsOf version)
          | none => .error (.unknownSuite cipher)

section

variable (E : Env)

def loadMeta : Code (Except Err (Suite × Flags)) :=
  (backendGet .backend metaPath).andThen fun raw => ret (metaOf E raw)

/-! ## Initialising and unsealing -/

def initialized : Code (Except Err Bool) :=
  (backendGet .backend keyringPath).andThen fun e => ret (.ok e.isSome)

/-- `initialize` at a metadata version: the metadata is written first, the keyring marks the
    store initialised. -/
def initializeAt (rootKey suiteName : Bytes) (metaVersion : Int64) : Code (Except Err Unit) :=
  match lookupSuite E.suites suiteName with
  | none => ret (.error (.unknownSuite suiteName))
  | some suite =>
      if rootKey.length ≠ keySize then ret (.error (.rootKeySize rootKey.length))
      else initialized.andThen fun inited =>
        if inited then ret (.error .alreadyInit)
        else (randBytes .rand keySize).andThen fun barrierKey =>
          (if 3 ≤ metaVersion then randBytes .rand keySize else ret (.ok [])).andThen fun pathKey =>
            (suite.seal rootKey (marshalKeyring 1 (AList.singleton 1 barrierKey) pathKey)
              keyringPath).andThen fun wrapped =>
              (backendPut .backend metaPath (metaJson metaVersion suite.name).encode).andThen
                fun _ => backendPut .backend keyringPath wrapped

/-- The keyring of an opened keyring record. -/
def readKeyring (versioned : Bool) (plain : Bytes) : Option (KeyMap × UInt32 × Bytes) :=
  if versioned then parseKeyring plain else some (AList.singleton 0 plain, 0, [])

/-- The memory of a barrier unsealed from a keyring record. -/
def openKeyring (rootKey wrapped : Bytes) (suite : Suite) (flags : Flags) : Except Err Unsealed :=
  match suite.openData rootKey wrapped (if flags.bindAAD then keyringPath else []) with
  | none => .error .unsealFailed
  | some plain =>
      match readKeyring flags.versioned plain with
      | none => .error .unsealFailed
      | some (keys, active, pathKey) =>
          if flags.encPaths then
            if pathKey.length ≠ keySize then .error .unsealFailed
            else
              match newPathCodec E suite pathKey with
              | none => .error .newCipher
              | some c => .ok
                  ⟨keys, active, rootKey, suite, flags.bindAAD, flags.versioned, pathKey, some c⟩
          else .ok ⟨keys, active, rootKey, suite, flags.bindAAD, flags.versioned, pathKey, none⟩

/-- `Unseal` of a sealed barrier. -/
def load (rootKey : Bytes) : Code (Except Err Unsealed) :=
  (backendGet .backend keyringPath).andThen fun e =>
    match e with
    | none => ret (.error .notInitialized)
    | some wrapped => (loadMeta E).andThen fun sf => ret (openKeyring E rootKey wrapped sf.1 sf.2)

/-- `Unseal`: nothing to do when already unsealed. -/
def unsealWith (rootKey : Bytes) : Memory → Code (Memory × Except Err Unit)
  | some m => ret (some m, .ok ())
  | none =>
      (load E rootKey).bind fun
        | .ok m => ret (some m, .ok ())
        | .error e => ret (none, .error e)

/-! ## Reading and writing -/

def get (key : Bytes) : Memory → Code (Except Err (Option Bytes))
  | none => ret (.error .sealed)
  | some m =>
      (backendGet .backend (m.phys E key)).andThen fun e =>
        match e with
        | none => ret (.ok none)
        | some data =>
            match m.openEntry (m.phys E key) data with
            | none => ret (.error (.decrypt key))
            | some plain => ret (.ok (some plain))

def put (key value : Bytes) : Memory → Code (Except Err Unit)
  | none => ret (.error .sealed)
  | some m =>
      (m.sealEntry (m.phys E key) value).andThen fun ct =>
        backendPut .backend (m.phys E key) ct

def delete (key : Bytes) : Memory → Code (Except Err Unit)
  | none => ret (.error .sealed)
  | some m => backendDelete .backend (m.phys E key)

/-- The directory part of a prefix: up to and including its last slash. -/
def dirOf (pre : Bytes) : Bytes := pre.rdropWhile fun b => b != 0x2F

/-- The stored prefix `listKeys` scans. -/
def scanPrefix (c : PathCodec) (pre : Bytes) : Bytes :=
  if Reserved pre then pre else if dirOf pre ≠ [] then c.encode E (dirOf pre) else []

/-- The logical keys of a listing that start with the prefix, in order; one key that does
    not decode spoils the listing. -/
def decodeKeys (c : PathCodec) (pre : Bytes) (stored : List Bytes) : Option (List Bytes) :=
  (stored.mapM c.decode).map fun ks =>
    (ks.filter fun k => hasPrefix k pre).insertionSort fun a b => bytesLe a b = true

def list (pre : Bytes) : Memory → Code (Except Err (List Bytes))
  | none => ret (.error .sealed)
  | some m =>
      match m.paths with
      | none => backendList .backend pre
      | some c =>
          (backendList .backend (scanPrefix E c pre)).andThen fun stored =>
            match decodeKeys c pre stored with
            | none => ret (.error (.list pre))
            | some ks => ret (.ok ks)

end

/-! ## Rotating keys -/

def rekey (newRootKey : Bytes) : Memory → Code (Memory × Except Err Unit)
  | none => ret (none, .error .sealed)
  | some m =>
      (m.persistKeyring newRootKey).bind fun
        | .error e => ret (some m, .error e)
        | .ok () => ret (some { m with rootKey := newRootKey }, .ok ())

/-- The loop of `reencryptLocked` over the listed keys: the entries rewritten so far, and the
    error that stopped it. -/
def reencrypt (m : Unsealed) : List Bytes → Nat → Code (Nat × Option Err)
  | [], n => ret (n, none)
  | k :: ks, n =>
      if Reserved k then reencrypt m ks n
      else (backendGet .backend k).bind fun
        | .error e => ret (n, some e)
        | .ok e =>
            match e with
            | none => reencrypt m ks n
            | some data =>
                match m.entryVersion data with
                | none => ret (n, some (.reencrypt k))
                | some (ver, _) =>
                    if ver = m.active then reencrypt m ks n
                    else
                      match m.openEntry k data with
                      | none => ret (n, some (.reencrypt k))
                      | some plain =>
                          ((m.sealEntry k plain).andThen fun ct =>
                            backendPut .backend k ct).bind fun
                            | .error e => ret (n, some e)
                            | .ok () => reencrypt m ks (n + 1)

def reencryptLocked (m : Unsealed) : Code (Nat × Option Err) :=
  (backendList .backend []).bind fun
    | .error e => ret (0, some e)
    | .ok keys => reencrypt m keys 0

/-- What `RotateDataKey` returns. -/
structure Rotated where
  version : UInt32
  rewritten : Nat
  err : Option Err
  deriving DecidableEq

/-- The keys without any but the active one. -/
def onlyActive (m : Unsealed) : KeyMap := AList.singleton m.active m.activeKey

/-- `RotateDataKey` once the new key is drawn. -/
def rotateTo (reenc : Bool) (m : Unsealed) (nk : Bytes) : Code (Memory × Rotated) :=
  let newVer := m.active + 1
  let m1 := { m with keys := m.keys.insert newVer nk, active := newVer }
  (m1.persistKeyring m1.rootKey).bind fun
    | .error e =>
        ret (some { m1 with keys := m1.keys.erase newVer, active := m.active }, ⟨0, 0, some e⟩)
    | .ok () =>
        if reenc = false then ret (some m1, ⟨newVer, 0, none⟩)
        else (reencryptLocked m1).bind fun
          | (n, some e) => ret (some m1, ⟨newVer, n, some e⟩)
          | (n, none) =>
              let m2 := { m1 with keys := onlyActive m1 }
              (m2.persistKeyring m2.rootKey).bind fun
                | .error e => ret (some m2, ⟨newVer, n, some e⟩)
                | .ok () => ret (some m2, ⟨newVer, n, none⟩)

def rotateDataKey (reenc : Bool) : Memory → Code (Memory × Rotated)
  | none => ret (none, ⟨0, 0, some .sealed⟩)
  | some m =>
      if m.versioned = false then ret (some m, ⟨0, 0, some .notVersioned⟩)
      else (randBytes .rand keySize).bind fun
        | .error e => ret (some m, ⟨0, 0, some e⟩)
        | .ok nk => rotateTo reenc m nk

end Tuck.Barrier
