/-
  Initialising a store: the metadata record, then the keyring. The specification says what
  the store holds wherever the call can stop. A store initialised at a version with keys by
  version (2 and later) unseals to the memory with its first key.
-/
import Tuck.Barrier.Rotate

namespace Tuck.Barrier

open Tuck.Base Host Prog

/-! ## The metadata record read back -/

theorem parseMeta_metaJson (version : Int64) {name : Bytes} (hname : Utf8Valid name) :
    parseMeta (metaJson version name).encode = some (version, name) := by
  have hint : (metaJson version name).IntNums := by
    simp [metaJson, Json.IntNums, IntMembers]
  have hsan : (metaJson version name).sanitize = metaJson version name := by
    have h1 : sanitize (ascii "version") = ascii "version" := by decide
    have h2 : sanitize (ascii "cipher") = ascii "cipher" := by decide
    simp only [metaJson, Json.sanitize, sanitizeMembers, h1, h2, sanitize_of_valid hname]
  have h1 : ∀ m : Int64 × Bytes, setMeta m (ascii "version", .num (decimalInt version.toInt)) =
      some (version, m.2) := by
    intro m
    rw [setMeta, if_pos (show foldName (ascii "version") = ascii "VERSION" by decide),
      toInt64_decimalInt, Option.map_some]
  have h2 : ∀ m : Int64 × Bytes, setMeta m (ascii "cipher", .str name) = some (m.1, name) := by
    intro m
    rw [setMeta, if_neg (show foldName (ascii "cipher") ≠ ascii "VERSION" by decide),
      if_pos (show foldName (ascii "cipher") = ascii "CIPHER" by decide)]
    rfl
  unfold parseMeta
  rw [parse_encode hint, hsan]
  simp only [metaJson, List.foldlM_cons, h1, h2, Option.bind_eq_bind, Option.bind_some,
    List.foldlM_nil]
  rfl

theorem metaOf_metaJson {E : Env} {suite : Suite} (h : lookupSuite E.suites suite.name = some suite)
    (version : Int64) :
    metaOf E (some (metaJson version suite.name).encode) = .ok (suite, flagsOf version) := by
  simp only [metaOf, parseMeta_metaJson version suite.name_valid, h]

/-! ## The specification of `initialize` -/

/-- The random values of an initialisation. -/
structure InitDraw (suite : Suite) (version : Int64) where
  barrierKey : Bytes
  pathKey : Bytes
  nonce : Bytes
  barrierKey_length : barrierKey.length = keySize
  pathKey_length : if 3 ≤ version then pathKey.length = keySize else pathKey = []
  nonce_length : nonce.length = suite.nonceSize

section

variable {suite : Suite} {version : Int64}

/-- The store once the metadata is written. -/
def withMeta (suite : Suite) (version : Int64) (s : Store) : Store :=
  s.insert metaPath (metaJson version suite.name).encode

/-- The store once the keyring is written. -/
def InitDraw.store (d : InitDraw suite version) (rootKey : Bytes) (s : Store) : Store :=
  (withMeta suite version s).insert keyringPath (suite.sealWith rootKey d.nonce
    (marshalKeyring 1 (AList.singleton 1 d.barrierKey) d.pathKey) keyringPath)

/-- The specification of `initialize` on a store without a keyring. -/
theorem run_initializeAt {E : Env} {rootKey name : Bytes} {w : World}
    (hsuite : lookupSuite E.suites name = some suite) (hroot : rootKey.length = keySize)
    (hnone : w.store.lookup keyringPath = none) :
    ∃ (d : InitDraw suite version) (w' : World),
      run (handle E) (initializeAt E rootKey name version) w = (.ok (), w') ∧
        w'.store = d.store rootKey w.store := by
  have hnewOK := suite.newOK_of_length _ hroot
  unfold initializeAt initialized Suite.seal
  simp only [hsuite, hroot, hnewOK, hnone, ne_eq, not_true_eq_false, if_false, if_true,
    run_andThen, run_backendGet, run_randBytes, run_ret, Option.isSome_none, Bool.false_eq_true]
  split_ifs with h3
  · exact ⟨⟨_, _, _, Rng.take_length .., by rw [if_pos h3]; exact Rng.take_length ..,
      Rng.take_length ..⟩, _, rfl, rfl⟩
  · exact ⟨⟨_, [], _, Rng.take_length .., by rw [if_neg h3], Rng.take_length ..⟩, _, rfl, rfl⟩

/-! ## The store it leaves -/

/-- The memory of a new store. -/
def InitDraw.memory (E : Env) (d : InitDraw suite version) (rootKey : Bytes) : Unsealed where
  keys := AList.singleton 1 d.barrierKey
  active := 1
  rootKey := rootKey
  suite := suite
  bindAAD := 1 ≤ version
  versioned := 2 ≤ version
  pathKey := d.pathKey
  paths := if 3 ≤ version then newPathCodec E suite d.pathKey else none

theorem lookup_metaPath_withMeta (s : Store) :
    (withMeta suite version s).lookup metaPath = some (metaJson version suite.name).encode :=
  AList.lookup_insert _

/-- Nothing outside `barrier/` is touched. -/
theorem InitDraw.lookup_store (d : InitDraw suite version) {rootKey q : Bytes} {s : Store}
    (hq : ¬ Reserved q) : (d.store rootKey s).lookup q = s.lookup q := by
  rw [InitDraw.store, withMeta,
    AList.lookup_insert_ne (by rintro rfl; exact hq reserved_keyringPath),
    AList.lookup_insert_ne (by rintro rfl; exact hq reserved_metaPath)]

/-- With keys by version, the new memory fits the new store. -/
theorem InitDraw.fits {E : Env} (d : InitDraw suite version) {rootKey : Bytes} (s : Store)
    (hsuite : lookupSuite E.suites suite.name = some suite) (hroot : rootKey.length = keySize)
    (h2 : 2 ≤ version) : Fits E (d.memory E rootKey) (withMeta suite version s) where
  versioned := decide_eq_true h2
  storeMeta := by
    rw [lookup_metaPath_withMeta, metaOf_metaJson hsuite]
    simp only [flagsOf, InitDraw.memory, decide_eq_true h2, newPathCodec_isSome]
    split_ifs with h3 <;> simp [h3]
  paths := by
    intro c hc
    have hpk := d.pathKey_length
    simp only [InitDraw.memory] at hc
    split_ifs at hc hpk with h3
    exact ⟨hpk, hc⟩
  keyLength := by
    intro v k hk
    rw [InitDraw.memory, lookup_singleton] at hk
    split_ifs at hk
    cases hk
    exact d.barrierKey_length
  active := by
    rw [InitDraw.memory, lookup_singleton, if_pos rfl]
    rfl
  root := suite.newOK_of_length _ hroot

theorem InitDraw.store_eq {E : Env} (d : InitDraw suite version) (rootKey : Bytes) (s : Store)
    (h2 : 2 ≤ version) : d.store rootKey s = (withMeta suite version s).insert keyringPath
      (keyringRecord (d.memory E rootKey) rootKey d.nonce) := by
  have h1 : 1 ≤ version := Int64.le_trans (by decide) h2
  simp only [InitDraw.store, keyringRecord, Unsealed.keyringPlain, Unsealed.aadFor, InitDraw.memory,
    decide_eq_true h1, decide_eq_true h2, if_true]

/-- A store initialised with keys by version unseals to its first key. -/
theorem InitDraw.load {E : Env} (d : InitDraw suite version) {rootKey : Bytes} (s : Store)
    (hsuite : lookupSuite E.suites suite.name = some suite) (hroot : rootKey.length = keySize)
    (h2 : 2 ≤ version) :
    ∃ m, loadStore E rootKey (d.store rootKey s) = .ok m ∧ Equiv (d.memory E rootKey) m := by
  rw [d.store_eq rootKey s h2]
  exact load_keyringRecord (d.fits s hsuite hroot h2) (suite.newOK_of_length _ hroot) d.nonce_length

end

end Tuck.Barrier
