/-
  What the barrier's functions do, stated once: how a stored keyring is read, when a memory
  fits a store, and one specification for each program (sealing, writing the keyring,
  re-encrypting, rotating). The proofs about runs cite these and never unfold the code.

  Everything here is about versioned stores, whose entries name the key they are sealed
  under. Values are compared through `valueAt`: what a memory reads at a stored key.
-/
import Tuck.Barrier.Barrier

namespace Tuck.Barrier

open Tuck.Base Host Prog

/-! ## Reading the keyring of a store -/

/-- What `Unseal` reads: it depends on the store alone. -/
def loadStore (E : Env) (rootKey : Bytes) (s : Store) : Except Err Unsealed :=
  match s.lookup keyringPath with
  | none => .error .notInitialized
  | some wrapped =>
      match metaOf E (s.lookup metaPath) with
      | .error e => .error e
      | .ok sf => openKeyring E rootKey wrapped sf.1 sf.2

theorem run_load (E : Env) (rootKey : Bytes) (w : World) :
    run (handle E) (load E rootKey) w = (loadStore E rootKey w.store, w) := by
  unfold load loadStore loadMeta
  rw [run_andThen, run_backendGet]
  cases w.store.lookup keyringPath with
  | none => rfl
  | some wrapped =>
    simp only [run_andThen, run_backendGet, run_ret]
    cases metaOf E (w.store.lookup metaPath) <;> rfl

variable {rootKey : Bytes} {E : Env} {m : Unsealed} {w : World}

theorem run_unsealWith_ok
    (h : loadStore E rootKey w.store = .ok m) :
    run (handle E) (unsealWith E rootKey none) w = ((some m, .ok ()), w) := by
  rw [unsealWith, run_bind, run_load, h]
  rfl

theorem run_unsealWith_error {e : Err}
    (h : loadStore E rootKey w.store = .error e) :
    run (handle E) (unsealWith E rootKey none) w = ((none, .error e), w) := by
  rw [unsealWith, run_bind, run_load, h]
  rfl

theorem reserved_keyringPath : Reserved keyringPath := by decide

theorem reserved_metaPath : Reserved metaPath := by decide

/-! ## Memories that read alike -/

/-- The same memory up to the order of its key map. -/
structure Equiv (m d : Unsealed) : Prop where
  keys : ∀ v, d.keys.lookup v = m.keys.lookup v
  active : d.active = m.active
  rootKey : d.rootKey = m.rootKey
  suite : d.suite = m.suite
  bindAAD : d.bindAAD = m.bindAAD
  versioned : d.versioned = m.versioned
  pathKey : d.pathKey = m.pathKey
  paths : d.paths = m.paths

/-- Two memories of one store format. -/
structure SameFormat (m d : Unsealed) : Prop where
  suite : d.suite = m.suite
  bindAAD : d.bindAAD = m.bindAAD
  versioned : d.versioned = m.versioned
  pathKey : d.pathKey = m.pathKey
  paths : d.paths = m.paths

variable {d : Unsealed}

theorem Equiv.sameFormat (h : Equiv m d) : SameFormat m d :=
  ⟨h.suite, h.bindAAD, h.versioned, h.pathKey, h.paths⟩

theorem SameFormat.trans {e : Unsealed} (h1 : SameFormat m d) (h2 : SameFormat d e) :
    SameFormat m e :=
  ⟨h2.suite.trans h1.suite, h2.bindAAD.trans h1.bindAAD, h2.versioned.trans h1.versioned,
    h2.pathKey.trans h1.pathKey, h2.paths.trans h1.paths⟩

theorem SameFormat.symm (h : SameFormat m d) : SameFormat d m :=
  ⟨h.suite.symm, h.bindAAD.symm, h.versioned.symm, h.pathKey.symm, h.paths.symm⟩

theorem SameFormat.phys (h : SameFormat m d) (E : Env) (key : Bytes) :
    d.phys E key = m.phys E key := by
  simp only [Unsealed.phys, h.paths]

variable {k data : Bytes}

/-- In a versioned store an entry is opened by the key it names. -/
theorem openEntry_congr (h : SameFormat m d) (hv : m.versioned = true)
    (hkeys : ∀ ver body, takeBe32 data = some (ver, body) →
      d.keys.lookup ver = m.keys.lookup ver) : d.openEntry k data = m.openEntry k data := by
  simp only [Unsealed.openEntry, Unsealed.entryVersion, Unsealed.aadFor, h.versioned, h.bindAAD,
    h.suite, hv, if_true]
  cases hd : takeBe32 data with
  | none => rfl
  | some p =>
    obtain ⟨ver, body⟩ := p
    simp only [hkeys ver body hd]

/-- A memory that fits the format of a store and whose keys are whole. -/
structure Fits (E : Env) (m : Unsealed) (s : Store) : Prop where
  versioned : m.versioned = true
  storeMeta : metaOf E (s.lookup metaPath) = .ok (m.suite, ⟨m.bindAAD, true, m.paths.isSome⟩)
  paths : ∀ c, m.paths = some c →
    m.pathKey.length = keySize ∧ newPathCodec E m.suite m.pathKey = some c
  keyLength : ∀ v k, m.keys.lookup v = some k → k.length = keySize
  active : (m.keys.lookup m.active).isSome = true
  root : m.suite.newOK m.rootKey = true

/-- The stored keys whose entries matter; none is a key of the barrier itself. -/
structure DataKeys where
  mem : Bytes → Prop
  not_reserved : ∀ {k}, mem k → ¬ Reserved k

/-- Everything outside `barrier/`. -/
def DataKeys.all : DataKeys := ⟨fun k => ¬ Reserved k, id⟩

/-- Every data entry opens. -/
def Readable (D : DataKeys) (m : Unsealed) (s : Store) : Prop :=
  ∀ k data, D.mem k → s.lookup k = some data → (m.openEntry k data).isSome = true

instance (D : DataKeys) [DecidablePred D.mem] (m : Unsealed) (s : Store) :
    Decidable (Readable D m s) :=
  decidable_of_iff (∀ e ∈ s.entries, D.mem e.1 → (m.openEntry e.1 e.2).isSome = true)
    ⟨fun h k data hk hdata => h ⟨k, data⟩ (AList.mem_lookup_iff.mp hdata) hk,
      fun h e he hk => h e.1 e.2 hk (AList.mem_lookup_iff.mpr he)⟩

instance : DecidablePred DataKeys.all.mem := fun k => inferInstanceAs (Decidable (¬ Reserved k))

/-- What a memory reads at a stored key: nothing there, or an entry that opens or does not. -/
def valueAt (m : Unsealed) (s : Store) (k : Bytes) : Option (Option Bytes) :=
  (s.lookup k).map (m.openEntry k)

/-- At every data key, `d` reads in `t` what `m` reads in `s`. -/
def SameValues (D : DataKeys) (m : Unsealed) (s : Store) (d : Unsealed) (t : Store) : Prop :=
  ∀ k, D.mem k → valueAt d t k = valueAt m s k

section

variable {D : DataKeys}

theorem SameValues.refl (m : Unsealed) (s : Store) : SameValues D m s m s := fun _ _ => rfl

variable {s t : Store} {m d : Unsealed}

theorem SameValues.trans {e : Unsealed} {u : Store} (h1 : SameValues D m s d t)
    (h2 : SameValues D d t e u) : SameValues D m s e u :=
  fun k hk => (h2 k hk).trans (h1 k hk)

theorem SameValues.symm (h : SameValues D m s d t) :
    SameValues D d t m s :=
  fun k hk => (h k hk).symm

theorem SameValues.of_all (h : SameValues .all m s d t) :
    SameValues D m s d t :=
  fun k hk => h k (D.not_reserved hk)

theorem SameValues.readable (h : SameValues D m s d t)
    (hr : Readable D m s) : Readable D d t := by
  intro k data hk hdata
  have hv := h k hk
  unfold valueAt at hv
  rw [hdata] at hv
  cases hs : s.lookup k with
  | none => rw [hs] at hv; cases hv
  | some data' =>
    rw [hs] at hv
    rw [Option.some.inj hv]
    exact hr k data' hk hs

end

variable {s : Store}

theorem Fits.activeKey (h : Fits E m s) :
    m.keys.lookup m.active = some m.activeKey ∧ m.activeKey.length = keySize := by
  obtain ⟨k, hk⟩ := Option.isSome_iff_exists.mp h.active
  have ha : m.activeKey = k := by rw [Unsealed.activeKey, hk]; rfl
  rw [ha]
  exact ⟨hk, h.keyLength _ _ hk⟩

variable {t : Store}

/-- Only the metadata of the store matters to `Fits`. -/
theorem Fits.of_meta (h : Fits E m s)
    (ht : t.lookup metaPath = s.lookup metaPath) : Fits E m t :=
  { h with storeMeta := by rw [ht]; exact h.storeMeta }

/-- What `Unseal` reads from a versioned store fits it. -/
theorem Fits.of_loadStore
    (h : loadStore E rootKey s = .ok m) (hv : m.versioned = true) : Fits E m s := by
  unfold loadStore at h
  split at h
  · cases h
  split at h
  · cases h
  rename_i wrapped hw sf hmeta
  obtain ⟨suite, flags⟩ := sf
  unfold openKeyring at h
  split at h
  · cases h
  rename_i plain hplain
  split at h
  · cases h
  rename_i keys active pathKey hread
  have hflag : flags.versioned = true := by
    split_ifs at h
    · split at h
      · cases h
      · cases h; exact hv
    · cases h; exact hv
  rw [readKeyring, if_pos hflag] at hread
  obtain ⟨hlen, hact⟩ := parseKeyring_ok hread
  have hflags : ∀ b, flags.encPaths = b → flags = ⟨flags.bindAAD, true, b⟩ := by
    rintro b rfl
    rw [← hflag]
  have hroot := Suite.newOK_of_openData hplain
  split_ifs at h with henc hpk
  · split at h
    · cases h
    · rename_i c hc
      cases h
      refine ⟨hv, by rw [hmeta, hflags true henc]; rfl, fun c' hc' => ?_, hlen, hact, hroot⟩
      cases hc'
      exact ⟨by simpa using hpk, hc⟩
  · cases h
    exact ⟨hv, by rw [hmeta, hflags false (by simpa using henc)]; rfl, fun _ h => (by cases h),
      hlen, hact, hroot⟩

theorem Equiv.sameValues {D : DataKeys} (e : Equiv m d) (hv : m.versioned = true)
    (s : Store) : SameValues D m s d s := by
  intro k _
  unfold valueAt
  congr 1
  funext data
  exact openEntry_congr e.sameFormat hv fun ver _ _ => e.keys ver

/-! ## What the operations read -/

/-- What `Get` makes of the value at the stored key. -/
def getResult (key : Bytes) : Option (Option Bytes) → Except Err (Option Bytes)
  | none => .ok none
  | some none => .error (.decrypt key)
  | some (some v) => .ok (some v)

theorem run_get (E : Env) (m : Unsealed) (key : Bytes) (w : World) :
    run (handle E) (get E key (some m)) w =
      (getResult key (valueAt m w.store (m.phys E key)), w) := by
  unfold get valueAt
  rw [run_andThen, run_backendGet]
  cases w.store.lookup (m.phys E key) with
  | none => rfl
  | some data =>
    simp only [Option.map_some]
    cases m.openEntry (m.phys E key) data <;> rfl

theorem not_reserved_phys {key : Bytes} (h : ¬ Reserved key) :
    ¬ Reserved (m.phys E key) := by
  unfold Unsealed.phys
  split
  · exact h
  · exact PathCodec.not_reserved_encode h

/-- The memory of a barrier unsealed afresh; `none` when it stays sealed. -/
def fresh (E : Env) (rootKey : Bytes) (w : World) : Memory :=
  (run (handle E) (unsealWith E rootKey none) w).1.1

theorem fresh_eq_some :
    fresh E rootKey w = some m ↔ loadStore E rootKey w.store = .ok m := by
  unfold fresh
  cases h : loadStore E rootKey w.store with
  | ok d => rw [run_unsealWith_ok h]; simp
  | error e => rw [run_unsealWith_error h]; simp

theorem rootKey_of_loadStore
    (h : loadStore E rootKey s = .ok m) : m.rootKey = rootKey := by
  unfold loadStore openKeyring at h
  repeat' split at h
  all_goals cases h
  all_goals rfl

/-! ## A written keyring is read back -/

/-- The keyring record a memory writes under a root key and a nonce. -/
def keyringRecord (m : Unsealed) (rootKey nonce : Bytes) : Bytes :=
  m.suite.sealWith rootKey nonce m.keyringPlain (m.aadFor keyringPath)

theorem load_keyringRecord (h : Fits E m s) {nonce : Bytes}
    (hroot : m.suite.newOK rootKey = true) (hn : nonce.length = m.suite.nonceSize) :
    ∃ d, loadStore E rootKey (s.insert keyringPath (keyringRecord m rootKey nonce)) = .ok d ∧
      Equiv { m with rootKey := rootKey } d := by
  obtain ⟨keys, hparse, hkeys⟩ := parseKeyring_marshal m.pathKey h.keyLength h.active
  have hmeta : (s.insert keyringPath (keyringRecord m rootKey nonce)).lookup metaPath =
      s.lookup metaPath := AList.lookup_insert_ne (by decide)
  have hopen : m.suite.openData rootKey (keyringRecord m rootKey nonce)
      (if m.bindAAD then keyringPath else []) = some m.keyringPlain :=
    m.suite.openData_sealWith hroot hn m.keyringPlain (m.aadFor keyringPath)
  have hread : readKeyring true m.keyringPlain = some (keys, m.active, m.pathKey) := by
    simp only [readKeyring, Unsealed.keyringPlain, h.versioned, if_true, hparse]
  unfold loadStore
  rw [AList.lookup_insert, hmeta, h.storeMeta]
  simp only [openKeyring, hopen, hread]
  cases hp : m.paths with
  | none =>
    simp only [Option.isSome_none, Bool.false_eq_true, if_false]
    exact ⟨_, rfl, ⟨hkeys, rfl, rfl, rfl, rfl, h.versioned.symm, rfl, rfl⟩⟩
  | some c =>
    obtain ⟨hlen, hcodec⟩ := h.paths c hp
    simp only [Option.isSome_some, if_true, hlen, ne_eq, not_true_eq_false, if_false, hcodec]
    exact ⟨_, rfl, ⟨hkeys, rfl, rfl, rfl, rfl, h.versioned.symm, rfl, rfl⟩⟩

/-! ## The programs that draw nonces and write -/

section

variable {E : Env} {faulty : Prop} {inv : World → Prop} {w : World}

theorem safe_seal {s : Suite} {key plain aad : Bytes} {post : Except Err Bytes → World → Prop}
    (hk : s.newOK key = true) (hinv : inv w) (herr : faulty → post (.error .rand) w)
    (hok : ∀ n r, n.length = s.nonceSize →
      post (.ok (s.sealWith key n plain aad)) { w with rng := r }) :
    Safe (handle E) faulty inv post (s.seal key plain aad) w := by
  unfold Suite.seal
  rw [if_pos hk]
  exact Safe.andThen (safe_randBytes hinv herr hok)

variable {m : Unsealed}

theorem safe_persistKeyring {rootKey : Bytes} {post : Except Err Unit → World → Prop}
    (hk : m.suite.newOK rootKey = true) (hinv : ∀ r, inv { w with rng := r })
    (herr : faulty → ∀ e r, post (.error e) { w with rng := r })
    (hok : ∀ n r, n.length = m.suite.nonceSize → post (.ok ())
      { w with rng := r, store := w.store.insert keyringPath (keyringRecord m rootKey n) }) :
    Safe (handle E) faulty inv post (m.persistKeyring rootKey) w := by
  refine Safe.andThen (safe_seal hk (hinv w.rng) (fun hf => herr hf _ w.rng) fun n r hn => ?_)
  exact safe_backendPut (hinv r) (fun hf => herr hf _ r) (hok n r hn)

theorem safe_rekey {newRoot : Bytes} {post : Memory × Except Err Unit → World → Prop}
    (hinv : ∀ r, inv { w with rng := r })
    (herr : faulty ∨ m.suite.newOK newRoot = false →
      ∀ e r, post (some m, .error e) { w with rng := r })
    (hok : m.suite.newOK newRoot = true → ∀ n r, n.length = m.suite.nonceSize →
      post (some { m with rootKey := newRoot }, .ok ())
        { w with rng := r, store := w.store.insert keyringPath (keyringRecord m newRoot n) }) :
    Safe (handle E) faulty inv post (rekey newRoot (some m)) w := by
  cases hnew : m.suite.newOK newRoot with
  | false =>
    have hprog : rekey newRoot (some m) = ret (some m, .error .newCipher) := by
      simp only [rekey, Unsealed.persistKeyring, Suite.seal, hnew, Bool.false_eq_true, if_false]
      rfl
    rw [hprog]
    exact herr (Or.inr hnew) _ w.rng
  | true =>
    exact Safe.bind (safe_persistKeyring hnew hinv (fun hf e r => herr (Or.inl hf) e r)
      (hok hnew))

/-- An entry as the barrier writes it under a nonce. -/
def entryRecord (m : Unsealed) (k v nonce : Bytes) : Bytes :=
  m.frame (m.suite.sealWith m.activeKey nonce v (m.aadFor k))

/-- Sealing a value and writing it at its key. -/
theorem safe_sealEntry_put {k v : Bytes} {post : Except Err Unit → World → Prop}
    (hk : m.suite.newOK m.activeKey = true) (hinv : ∀ r, inv { w with rng := r })
    (herr : faulty → ∀ e r, post (.error e) { w with rng := r })
    (hok : ∀ n r, n.length = m.suite.nonceSize →
      post (.ok ()) { w with rng := r, store := w.store.insert k (entryRecord m k v n) }) :
    Safe (handle E) faulty inv post
      ((m.sealEntry k v).andThen fun ct => backendPut .backend k ct) w := by
  refine Safe.andThen (Safe.andThen (safe_seal hk (hinv w.rng) (fun hf => herr hf _ w.rng)
    fun n r hn => ?_))
  exact safe_backendPut (hinv r) (fun hf => herr hf _ r) (hok n r hn)

end

/-! ## Re-encrypting -/

theorem entryVersion_frame (hv : m.versioned = true) (ct : Bytes) :
    takeBe32 (m.frame ct) = some (m.active, ct) := by
  unfold Unsealed.frame
  rw [if_pos hv, takeBe32_be32]

/-- An entry sealed under the active key opens to its value. -/
theorem openEntry_entryRecord (h : Fits E m s) {n : Bytes}
    (hn : n.length = m.suite.nonceSize) (k v : Bytes) :
    m.openEntry k (entryRecord m k v n) = some v := by
  obtain ⟨hk, hlen⟩ := h.activeKey
  simp only [entryRecord, Unsealed.openEntry, Unsealed.entryVersion, h.versioned, if_true,
    entryVersion_frame h.versioned, hk]
  exact m.suite.openData_sealWith (m.suite.newOK_of_length _ hlen) hn v (m.aadFor k)

/-- The entry at a key, if there is one, is sealed under the active version. -/
def AtActive (m : Unsealed) (s : Store) (k : Bytes) : Prop :=
  ∀ data, s.lookup k = some data → ∃ body, takeBe32 data = some (m.active, body)

theorem atActive_of_none (h : s.lookup k = none) : AtActive m s k := by
  intro data hdata
  rw [h] at hdata
  cases hdata

theorem AtActive.version_eq {ver : UInt32} {body : Bytes} (h : AtActive m s k)
    (hdata : s.lookup k = some data) (hver : takeBe32 data = some (ver, body)) :
    ver = m.active := by
  obtain ⟨body', hbody⟩ := h data hdata
  rw [hver] at hbody
  exact congrArg Prod.fst (Option.some.inj hbody)

theorem atActive_insert {k' data' : Bytes}
    (hnew : ∃ body, takeBe32 data' = some (m.active, body)) (h : k' = k ∨ AtActive m t k') :
    AtActive m (t.insert k data') k' := by
  intro data hdata
  by_cases he : k' = k
  · rw [he, AList.lookup_insert] at hdata
    exact Option.some.inj hdata ▸ hnew
  · rw [AList.lookup_insert_ne he] at hdata
    exact (h.resolve_left he) data hdata

/-- Only entries outside `barrier/` changed, none of them in value, and those that did are
    under the active version. -/
structure Rewritten (m : Unsealed) (s t : Store) : Prop where
  reserved : ∀ k, Reserved k → t.lookup k = s.lookup k
  values : SameValues .all m s m t
  kept : ∀ k, ¬ Reserved k → t.lookup k = s.lookup k ∨ AtActive m t k

theorem Rewritten.refl (m : Unsealed) (s : Store) : Rewritten m s s :=
  ⟨fun _ _ => rfl, SameValues.refl m s, fun _ _ => Or.inl rfl⟩

/-- Rewriting one entry to the same value. -/
theorem Rewritten.insert (h : Rewritten m s t) {data' v : Bytes}
    (hk : ¬ Reserved k) (hold : t.lookup k = some data) (hv : m.openEntry k data = some v)
    (hnew : m.openEntry k data' = some v) (hver : ∃ body, takeBe32 data' = some (m.active, body)) :
    Rewritten m s (t.insert k data') where
  reserved := by
    intro k' hk'
    rw [AList.lookup_insert_ne (by rintro rfl; exact hk hk')]
    exact h.reserved k' hk'
  values := by
    intro k' hk'
    rw [← h.values k' hk']
    unfold valueAt
    by_cases he : k' = k
    · rw [he, AList.lookup_insert, hold, Option.map_some, Option.map_some, hv, hnew]
    · rw [AList.lookup_insert_ne he]
  kept := by
    intro k' hk'
    by_cases he : k' = k
    · exact Or.inr (atActive_insert hver (Or.inl he))
    · rw [AList.lookup_insert_ne he]
      exact (h.kept k' hk').imp id fun hat => atActive_insert hver (Or.inr hat)

/-- How the re-encryption loop over `ks`, started in `w`, ends: the store is a rewriting of
    `s`; without an error the entries at `ks` are under the active version, and those that
    were stay. -/
structure Reencrypted (faulty : Prop) (m : Unsealed) (s : Store) (ks : List Bytes) (w : World)
    (r : Nat × Option Err) (w' : World) : Prop where
  rewritten : Rewritten m s w'.store
  atActive : r.2 = none → ∀ k, ¬ Reserved k → k ∈ ks ∨ AtActive m w.store k → AtActive m w'.store k
  err : r.2 ≠ none → faulty ∨ ¬ Readable .all m s

variable {ks : List Bytes} {faulty : Prop}

/-- A loop over the rest, from a store with the first entry under the active version. -/
theorem Reencrypted.cons {w₁ w' : World} {r : Nat × Option Err}
    (h : Reencrypted faulty m s ks w₁ r w') (hk : Reserved k ∨ AtActive m w₁.store k)
    (hkeep : ∀ k', AtActive m w.store k' → AtActive m w₁.store k') :
    Reencrypted faulty m s (k :: ks) w r w' where
  rewritten := h.rewritten
  err := h.err
  atActive := by
    intro hr k' hk' hor
    refine h.atActive hr k' hk' ?_
    rcases hor with hmem | hat
    · rcases List.mem_cons.mp hmem with rfl | hmem
      · exact Or.inr (hk.resolve_left hk')
      · exact Or.inl hmem
    · exact Or.inr (hkeep k' hat)

/-- An entry that does not open stops the loop, and nothing else does without faults. -/
theorem Reencrypted.stop {n : Nat} {e : Err} (hk : ¬ Reserved k) (hw : Rewritten m s w.store)
    (hl : w.store.lookup k = some data) (hbad : m.openEntry k data = none) :
    Reencrypted faulty m s (k :: ks) w (n, some e) w where
  rewritten := hw
  atActive := nofun
  err := by
    intro _
    refine Or.inr fun hread => ?_
    have hopen := hw.values.readable hread k data hk hl
    rw [hbad] at hopen
    cases hopen

theorem openEntry_of_entryVersion (h : m.entryVersion data = none) :
    m.openEntry k data = none := by
  unfold Unsealed.openEntry
  rw [h]

theorem safe_reencrypt {inv : World → Prop}
    (hfits : Fits E m s) (hinv : ∀ w', Rewritten m s w'.store → inv w')
    (ks : List Bytes) (n : Nat) (w : World) (hw : Rewritten m s w.store) :
    Safe (handle E) faulty inv (Reencrypted faulty m s ks w) (reencrypt m ks n) w := by
  induction ks generalizing n w with
  | nil =>
    exact ⟨hw, fun _ k _ h => h.resolve_left (by simp), fun h => absurd rfl h⟩
  | cons k ks ih =>
    have hskip (hk : Reserved k ∨ AtActive m w.store k) :=
      (ih n w hw).imp (fun _ h => h) fun _ _ h => h.cons hk fun _ => id
    unfold reencrypt
    split_ifs with hk
    · exact hskip (Or.inl hk)
    refine Safe.bind (safe_backendGet (hinv w hw) (fun hf => ?_) ?_)
    · exact ⟨hw, nofun, fun _ => Or.inl hf⟩
    cases hl : w.store.lookup k with
    | none => exact hskip (Or.inr (atActive_of_none hl))
    | some data =>
      cases hev : m.entryVersion data with
      | none =>
        simp only [hev]
        exact Reencrypted.stop hk hw hl (openEntry_of_entryVersion hev)
      | some p =>
        obtain ⟨ver, body⟩ := p
        simp only [hev]
        have hd : takeBe32 data = some (ver, body) := by
          rwa [Unsealed.entryVersion, if_pos hfits.versioned] at hev
        split_ifs with hact
        · have hat : AtActive m w.store k := fun data' hdata' => by
            rw [hl] at hdata'
            exact ⟨body, by rw [← Option.some.inj hdata', hd, hact]⟩
          exact hskip (Or.inr hat)
        cases hv : m.openEntry k data with
        | none => exact Reencrypted.stop hk hw hl hv
        | some v =>
          refine Safe.bind (safe_sealEntry_put (m.suite.newOK_of_length _ hfits.activeKey.2)
            (fun r => hinv _ hw) (fun hf e r => ⟨hw, nofun, fun _ => Or.inl hf⟩)
            fun nonce r hn => ?_)
          have hver : ∃ body, takeBe32 (entryRecord m k v nonce) = some (m.active, body) :=
            ⟨_, entryVersion_frame hfits.versioned _⟩
          have hstep : Rewritten m s (w.store.insert k (entryRecord m k v nonce)) :=
            hw.insert hk hl hv (openEntry_entryRecord hfits hn k v) hver
          exact (ih (n + 1) ⟨_, r⟩ hstep).imp (fun _ h => h) fun _ _ h =>
            h.cons (Or.inr (atActive_insert hver (Or.inl rfl)))
              fun _ hat => atActive_insert hver (Or.inr hat)

end Tuck.Barrier
