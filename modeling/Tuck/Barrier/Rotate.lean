/-
  Data-key rotation. Its one specification (`safe_rotateDataKey`) says what holds wherever
  the process can die, and how the call ends, with or without failing calls. From it:
  whatever stops a rotation, both the running barrier and one unsealed afresh read every
  entry as before, and a later rotation completes.
-/
import Tuck.Barrier.Spec

namespace Tuck.Barrier

open Tuck.Base Host Prog AList

/-! ## Memory and store -/

/-- Two memories that write alike: one format, one active key. -/
structure Agree (m d : Unsealed) : Prop where
  format : SameFormat m d
  active : d.active = m.active
  activeKey : d.keys.lookup m.active = m.keys.lookup m.active

variable {m d : Unsealed}

theorem Equiv.agree (e : Equiv m d) : Agree m d :=
  ⟨e.sameFormat, e.active, e.keys _⟩

theorem Agree.refl (m : Unsealed) : Agree m m := ⟨⟨rfl, rfl, rfl, rfl, rfl⟩, rfl, rfl⟩

theorem Agree.symm (h : Agree m d) : Agree d m :=
  ⟨h.format.symm, h.active.symm, by rw [h.active]; exact h.activeKey.symm⟩

theorem Agree.trans {e : Unsealed} (h1 : Agree m d) (h2 : Agree d e) : Agree m e :=
  ⟨h1.format.trans h2.format, h2.active.trans h1.active, by
    have := h2.activeKey
    rw [h1.active] at this
    exact this.trans h1.activeKey⟩

/-- The keyring in the store reads and writes as the one in memory does. -/
def Stored (E : Env) (D : DataKeys) (m : Unsealed) (s : Store) : Prop :=
  ∃ d, loadStore E m.rootKey s = .ok d ∧ Agree m d ∧ SameValues D m s d s

theorem stored_of_loadStore {E : Env} {D : DataKeys} {rootKey : Bytes} {s : Store}
    (h : loadStore E rootKey s = .ok m) : Stored E D m s :=
  ⟨m, by rw [rootKey_of_loadStore h]; exact h, Agree.refl m, SameValues.refl m s⟩

/-- The keyring record was sealed under the root key. -/
def SealedUnder (suite : Suite) (rootKey : Bytes) (s : Store) : Prop :=
  ∃ n plain aad, n.length = suite.nonceSize ∧
    s.lookup keyringPath = some (suite.sealWith rootKey n plain aad)

/-- No entry outside `barrier/` is sealed under the version. -/
def Unused (s : Store) (v : UInt32) : Prop :=
  ∀ k data body, ¬ Reserved k → s.lookup k = some data → takeBe32 data ≠ some (v, body)

instance (s : Store) (v : UInt32) : Decidable (Unused s v) :=
  decidable_of_iff
    (∀ e ∈ s.entries, ¬ Reserved e.1 → (takeBe32 e.2).map Prod.fst ≠ some v) <| by
    constructor
    · intro h k data body hk hdata hver
      refine h ⟨k, data⟩ (mem_lookup_iff.mp hdata) hk ?_
      simp only [hver, Option.map_some]
    · intro h e he hk hver
      obtain ⟨⟨ver, body⟩, hd, rfl⟩ := Option.map_eq_some_iff.mp hver
      exact h e.1 e.2 body hk (mem_lookup_iff.mpr he) hd

variable {s : Store}

theorem Unused.insert_reserved {v : UInt32} (h : Unused s v) {k data : Bytes}
    (hk : Reserved k) : Unused (s.insert k data) v := by
  intro k' data' body hk' hdata
  rw [lookup_insert_ne (by rintro rfl; exact hk' hk)] at hdata
  exact h k' data' body hk' hdata

/-- Re-encryption uses no version but the active one. -/
theorem Rewritten.unused {t : Store} (h : Rewritten m s t) {v : UInt32}
    (hv : v ≠ m.active) (hs : Unused s v) : Unused t v := by
  intro k data body hk hdata hver
  rcases h.kept k hk with heq | hat
  · exact hs k data body hk (heq ▸ hdata) hver
  · exact hv (hat.version_eq hdata hver)

theorem loadStore_congr {E : Env} {rootKey : Bytes} {t : Store}
    (h : ∀ k, Reserved k → t.lookup k = s.lookup k) :
    loadStore E rootKey t = loadStore E rootKey s := by
  unfold loadStore
  rw [h _ reserved_keyringPath, h _ reserved_metaPath]

/-- Writing under `barrier/` changes no value. -/
theorem sameValues_insert_reserved {D : DataKeys} {k data : Bytes}
    (hk : Reserved k) : SameValues D m s m (s.insert k data) := by
  intro k' hk'
  unfold valueAt
  rw [lookup_insert_ne (by rintro rfl; exact D.not_reserved hk' hk)]

/-- A memory with other keys reads the same wherever it has the keys the entries name. -/
theorem sameValues_of_keys {D : DataKeys} (hf : SameFormat m d)
    (hv : m.versioned = true) (hkeys : ∀ k data ver body, s.lookup k = some data → ¬ Reserved k →
      takeBe32 data = some (ver, body) → d.keys.lookup ver = m.keys.lookup ver) :
    SameValues D m s d s := by
  intro k hk
  unfold valueAt
  cases hs : s.lookup k with
  | none => rfl
  | some data =>
    rw [Option.map_some, Option.map_some]
    congr 1
    exact openEntry_congr hf hv fun ver body hd =>
      hkeys k data ver body hs (D.not_reserved hk) hd

/-! ## Changing one entry -/

section

variable {E : Env} {D : DataKeys} {m d : Unsealed} {s t : Store} {q : Bytes}

/-- Two memories that agree still read alike when one entry is written under the active
    version, or removed. -/
theorem SameValues.update (h : SameValues D m s d s) (hag : Agree m d) (hv : m.versioned = true)
    (hoff : ∀ k, k ≠ q → t.lookup k = s.lookup k) (hq : AtActive m t q) : SameValues D m t d t := by
  intro k hk
  by_cases he : k = q
  · subst he
    unfold valueAt
    cases hl : t.lookup k with
    | none => rfl
    | some data =>
      rw [Option.map_some, Option.map_some]
      congr 1
      refine openEntry_congr hag.format hv fun ver body hd => ?_
      obtain rfl := hq.version_eq hl hd
      exact hag.activeKey
  · unfold valueAt
    rw [hoff k he]
    exact h k hk

theorem Stored.update (h : Stored E D m s) (hv : m.versioned = true) (hres : ¬ Reserved q)
    (hoff : ∀ k, k ≠ q → t.lookup k = s.lookup k) (hq : AtActive m t q) : Stored E D m t := by
  obtain ⟨d, hd, hag, hval⟩ := h
  have hreserved : ∀ k, Reserved k → t.lookup k = s.lookup k := by
    intro k hk
    exact hoff k (by rintro rfl; exact hres hk)
  exact ⟨d, (loadStore_congr hreserved).trans hd, hag, hval.update hag hv hoff hq⟩

theorem Unused.update {v : UInt32} (h : Unused s v) (hne : v ≠ m.active)
    (hoff : ∀ k, k ≠ q → t.lookup k = s.lookup k) (hq : AtActive m t q) : Unused t v := by
  intro k data body hk hdata hver
  by_cases he : k = q
  · subst he
    exact hne (hq.version_eq hdata hver)
  · rw [hoff k he] at hdata
    exact h k data body hk hdata hver

end

/-! ## The stages of a rotation -/

section

variable {E : Env} {D : DataKeys} {m : Unsealed} {s : Store} {nk : Bytes}

/-- The memory with the new key, made active. -/
def addActive (m : Unsealed) (nk : Bytes) : Unsealed :=
  { m with keys := m.keys.insert (m.active + 1) nk, active := m.active + 1 }

/-- The memory with its active key only. -/
def prune (m : Unsealed) : Unsealed := { m with keys := onlyActive m }

theorem fits_addActive (h : Fits E m s) (hnk : nk.length = keySize) :
    Fits E (addActive m nk) s :=
  { h with
    active := by rw [addActive, lookup_insert]; rfl
    keyLength := by
      intro v k hk
      by_cases hv : v = m.active + 1
      · rw [addActive, hv, lookup_insert] at hk
        exact Option.some.inj hk ▸ hnk
      · rw [addActive, lookup_insert_ne hv] at hk
        exact h.keyLength v k hk }

/-- No entry names the new version, so nothing reads differently with another key there. -/
theorem sameValues_of_room (hf : SameFormat m d) (hv : m.versioned = true)
    (hroom : Unused s (m.active + 1))
    (hkeys : ∀ v ≠ m.active + 1, d.keys.lookup v = m.keys.lookup v) : SameValues D m s d s := by
  refine sameValues_of_keys hf hv fun k data ver body hdata hk hver => hkeys ver ?_
  rintro rfl
  exact hroom k data body hk hdata hver

theorem sameValues_addActive (hv : m.versioned = true) (hroom : Unused s (m.active + 1)) :
    SameValues D m s (addActive m nk) s :=
  sameValues_of_room ⟨rfl, rfl, rfl, rfl, rfl⟩ hv hroom fun _ hv => lookup_insert_ne hv

theorem lookup_onlyActive (m : Unsealed) (v : UInt32) :
    (onlyActive m).lookup v = if v = m.active then some m.activeKey else none :=
  lookup_singleton _ _ _

theorem fits_prune (h : Fits E m s) : Fits E (prune m) s :=
  { h with
    active := by rw [prune, lookup_onlyActive, if_pos rfl]; rfl
    keyLength := by
      intro v k hk
      rw [prune, lookup_onlyActive] at hk
      split_ifs at hk
      exact Option.some.inj hk ▸ h.activeKey.2 }

/-- Once every entry is under the active version the other keys are not needed. -/
theorem sameValues_prune (h : Fits E m s) (hat : ∀ k, ¬ Reserved k → AtActive m s k) :
    SameValues D m s (prune m) s := by
  refine sameValues_of_keys ⟨rfl, rfl, rfl, rfl, rfl⟩ h.versioned ?_
  intro k data ver body hdata hk hd
  obtain rfl := (hat k hk).version_eq hdata hd
  rw [prune, lookup_onlyActive, if_pos rfl, h.activeKey.1]

/-- The memory with the new key taken back out; a key that was there before is gone too. -/
def removeActive (m : Unsealed) (nk : Bytes) : Unsealed :=
  { addActive m nk with keys := (addActive m nk).keys.erase (m.active + 1), active := m.active }

theorem lookup_removeActive {v : UInt32} (hv : v ≠ m.active + 1) :
    (removeActive m nk).keys.lookup v = m.keys.lookup v := by
  rw [removeActive, lookup_erase_ne hv]
  exact lookup_insert_ne hv

theorem fits_removeActive (h : Fits E m s) : Fits E (removeActive m nk) s :=
  { h with
    active := by
      show ((removeActive m nk).keys.lookup m.active).isSome = true
      rw [lookup_removeActive (by simp)]
      exact h.active
    keyLength := by
      intro v k hk
      by_cases hv : v = m.active + 1
      · rw [hv, removeActive, lookup_erase] at hk
        cases hk
      · rw [lookup_removeActive hv] at hk
        exact h.keyLength v k hk }

theorem agree_removeActive : Agree m (removeActive m nk) :=
  ⟨⟨rfl, rfl, rfl, rfl, rfl⟩, rfl, lookup_removeActive (by simp)⟩

theorem sameValues_removeActive (hv : m.versioned = true) (hroom : Unused s (m.active + 1)) :
    SameValues D m s (removeActive m nk) s :=
  sameValues_of_room ⟨rfl, rfl, rfl, rfl, rfl⟩ hv hroom fun _ => lookup_removeActive

end

/-! ## The specification of a rotation -/

/-- A point of a rotation of `m` over `s`: were the process to stop at the store `t`, the
    memory `m'` would go on from there. -/
structure Rotating (E : Env) (m : Unsealed) (s : Store) (m' : Unsealed) (t : Store) : Prop where
  fits : Fits E m' t
  values : SameValues .all m s m' t
  format : SameFormat m m'
  rootKey : m'.rootKey = m.rootKey
  stage : (m'.active = m.active ∧ ∀ v, Unused s v → Unused t v) ∨
    (m'.active = m.active + 1 ∧ ∀ v, v ≠ m.active + 1 → Unused s v → Unused t v)
  stored : ∀ D, Stored E D m s → Stored E D m' t
  sealedUnder : SealedUnder m.suite m.rootKey s → SealedUnder m.suite m.rootKey t

/-- How a rotation of `m` over `s` ends. -/
structure RotateEnd (E : Env) (faulty : Prop) (reenc : Bool) (m : Unsealed) (s : Store)
    (m' : Unsealed) (r : Rotated) (t : Store) : Prop where
  rotating : Rotating E m s m' t
  err : r.err ≠ none → faulty ∨ ¬ Readable .all m s
  active : r.err = none → m'.active = m.active + 1
  written : r.err = none → ∃ d, loadStore E m.rootKey t = .ok d ∧ Equiv m' d
  pruned : r.err = none → reenc = true → (∀ v, v ≠ m'.active → m'.keys.lookup v = none) ∧
    ∀ k, ¬ Reserved k → AtActive m' t k

theorem Rotating.refl {E : Env} (h : Fits E m s) : Rotating E m s m s :=
  ⟨h, SameValues.refl m s, ⟨rfl, rfl, rfl, rfl, rfl⟩, rfl, Or.inl ⟨rfl, fun _ => id⟩, fun _ => id,
    id⟩

section

variable {E : Env} {D : DataKeys} {faulty : Prop} {inv : World → Prop} {m : Unsealed} {s : Store}

theorem safe_reencryptLocked (hfits : Fits E m s) (w : World)
    (hinv : ∀ w', Rewritten m s w'.store → inv w') (hw : Rewritten m s w.store) :
    Safe (handle E) faulty inv (fun r w' => Rewritten m s w'.store ∧
      (r.2 = none → ∀ k, ¬ Reserved k → AtActive m w'.store k) ∧
      (r.2 ≠ none → faulty ∨ ¬ Readable .all m s))
      (reencryptLocked m) w := by
  unfold reencryptLocked
  refine Safe.bind (safe_backendList (hinv w hw) (fun hf => ?_) ?_)
  · exact ⟨hw, nofun, fun _ => Or.inl hf⟩
  · refine (safe_reencrypt hfits hinv _ 0 w hw).imp (fun _ h => h) fun r w' h => ?_
    refine ⟨h.rewritten, fun hr k hk => h.atActive hr k hk ?_, h.err⟩
    cases hl : w.store.lookup k with
    | none => exact Or.inr (atActive_of_none hl)
    | some data =>
      exact Or.inl (mem_order.mpr (mem_listPrefix.mpr ⟨by rw [hl]; rfl, List.nil_prefix⟩))

variable {n : Bytes} {t : Store}

/-- A store that holds the keyring record of `m`, rewritten since, is stored for `m`. -/
theorem written_record (hfits : Fits E m s)
    (hn : n.length = m.suite.nonceSize)
    (ht : ∀ k, Reserved k → t.lookup k =
      (s.insert keyringPath (keyringRecord m m.rootKey n)).lookup k) :
    ∃ d, loadStore E m.rootKey t = .ok d ∧ Equiv m d := by
  rw [loadStore_congr ht]
  exact load_keyringRecord hfits hfits.root hn

theorem stored_of_equiv (hv : m.versioned = true)
    (h : ∃ d, loadStore E m.rootKey s = .ok d ∧ Equiv m d) : Stored E D m s := by
  obtain ⟨d, hd, he⟩ := h
  exact ⟨d, hd, he.agree, he.sameValues hv s⟩

/-- The first keyring write, and the rewriting of entries after it. -/
theorem rotating_addActive (hfits : Fits E m s) (hroom : Unused s (m.active + 1)) {nk : Bytes}
    (hnk : nk.length = keySize) (hn : n.length = m.suite.nonceSize)
    (ht : Rewritten (addActive m nk)
      (s.insert keyringPath (keyringRecord (addActive m nk) m.rootKey n)) t) :
    Rotating E m s (addActive m nk) t where
  fits := (fits_addActive hfits hnk).of_meta (by
    rw [ht.reserved _ reserved_metaPath]
    exact lookup_insert_ne (by decide))
  values := ((sameValues_addActive hfits.versioned hroom).trans
    (sameValues_insert_reserved reserved_keyringPath)).trans ht.values
  format := ⟨rfl, rfl, rfl, rfl, rfl⟩
  rootKey := rfl
  stage := Or.inr ⟨rfl, fun _ hv hs => ht.unused hv (hs.insert_reserved reserved_keyringPath)⟩
  stored _ _ := stored_of_equiv hfits.versioned
    (written_record (fits_addActive hfits hnk) hn ht.reserved)
  sealedUnder _ := ⟨n, _, _, hn, by
    rw [ht.reserved _ reserved_keyringPath, lookup_insert]
    rfl⟩

/-- The failed first write: the new key is out of memory again. -/
theorem rotating_removeActive (hfits : Fits E m s) (hroom : Unused s (m.active + 1)) {nk : Bytes} :
    Rotating E m s (removeActive m nk) s where
  fits := fits_removeActive hfits
  values := sameValues_removeActive hfits.versioned hroom
  format := ⟨rfl, rfl, rfl, rfl, rfl⟩
  rootKey := rfl
  stage := Or.inl ⟨rfl, fun _ hv => hv⟩
  sealedUnder := id
  stored := by
    rintro D ⟨d, hd, hag, hval⟩
    refine ⟨d, hd, ⟨{ hag.format with }, hag.active, ?_⟩, ?_⟩
    · exact hag.activeKey.trans agree_removeActive.activeKey.symm
    · intro k hk
      rw [hval k hk, sameValues_removeActive hfits.versioned hroom k hk]

/-- Once every entry is under the active version, the memory without the other keys goes on
    from the same store. -/
theorem Rotating.prune {m' : Unsealed} (h : Rotating E m s m' t)
    (hat : ∀ k, ¬ Reserved k → AtActive m' t k) : Rotating E m s (prune m') t where
  fits := fits_prune h.fits
  values := h.values.trans (sameValues_prune h.fits hat)
  format := { h.format with }
  rootKey := h.rootKey
  stage := h.stage
  sealedUnder := h.sealedUnder
  stored := by
    intro D hst
    obtain ⟨d, hd, hag, hval⟩ := h.stored D hst
    refine ⟨d, hd, ⟨{ hag.format with }, hag.active, ?_⟩, ?_⟩
    · rw [Barrier.prune, lookup_onlyActive, if_pos rfl, ← h.fits.activeKey.1]
      exact hag.activeKey
    · intro k hk
      rw [hval k hk, sameValues_prune h.fits hat k hk]

/-- Writing the keyring the memory already goes on with. -/
theorem Rotating.persist {m' : Unsealed} (h : Rotating E m s m' t)
    (hn : n.length = m'.suite.nonceSize) :
    Rotating E m s m' (t.insert keyringPath (keyringRecord m' m'.rootKey n)) where
  fits := h.fits.of_meta (lookup_insert_ne (by decide))
  values := h.values.trans (sameValues_insert_reserved reserved_keyringPath)
  format := h.format
  rootKey := h.rootKey
  stage := h.stage.imp
    (And.imp_right fun hu v hv => (hu v hv).insert_reserved reserved_keyringPath)
    (And.imp_right fun hu v hne hv => (hu v hne hv).insert_reserved reserved_keyringPath)
  stored _ _ := stored_of_equiv h.fits.versioned (written_record h.fits hn fun _ _ => rfl)
  sealedUnder _ := ⟨n, _, _, h.format.suite ▸ hn, by
    rw [lookup_insert, keyringRecord, h.format.suite, h.rootKey]⟩

/-- The specification of `RotateDataKey` on an unsealed barrier. -/
theorem safe_rotateDataKey {reenc : Bool} {w : World} (hfits : Fits E m w.store)
    (hroom : Unused w.store (m.active + 1))
    (hinv : ∀ w', (∃ m', Rotating E m w.store m' w'.store) → inv w') :
    Safe (handle E) faulty inv (fun r w' => ∃ m', r.1 = some m' ∧
      RotateEnd E faulty reenc m w.store m' r.2 w'.store) (rotateDataKey reenc (some m)) w := by
  have hrefl : Rotating E m w.store m w.store := Rotating.refl hfits
  unfold rotateDataKey
  simp only [hfits.versioned, Bool.true_eq_false, if_false]
  refine Safe.bind (safe_randBytes (hinv _ ⟨m, hrefl⟩) (fun hf => ?_) fun nk r hnk => ?_)
  · exact ⟨m, rfl, hrefl, fun _ => Or.inl hf, nofun, nofun, nofun⟩
  -- the new key goes into the keyring, which is written
  have hfits1 := fits_addActive hfits hnk
  refine Safe.bind (safe_persistKeyring hfits.root (fun r => hinv _ ⟨m, hrefl⟩)
    (fun hf e r => ?_) fun n r hn => ?_)
  · exact ⟨_, rfl, rotating_removeActive hfits hroom, fun _ => Or.inl hf, nofun, nofun, nofun⟩
  have hrot1 := fun t => rotating_addActive (t := t) hfits hroom hnk hn
  have hrot := hrot1 _ (Rewritten.refl _ _)
  cases reenc with
  | false =>
    exact ⟨_, rfl, hrot, fun h => absurd rfl h, fun _ => rfl,
      fun _ => written_record hfits1 hn fun _ _ => rfl, nofun⟩
  | true =>
    refine Safe.bind ((safe_reencryptLocked hrot.fits
      { w with rng := r, store := _ } (fun w' hw' => hinv w' ⟨_, hrot1 _ hw'⟩)
      (Rewritten.refl _ _)).imp (fun _ h => h) ?_)
    rintro ⟨cnt, err⟩ w' ⟨hw', hat, herr⟩
    have hrot2 := hrot1 _ hw'
    have herr' := Or.imp_right (mt hrot.values.readable) (a := faulty)
    cases err with
    | some e => exact ⟨_, rfl, hrot2, fun _ => herr' (herr nofun), nofun, nofun, nofun⟩
    | none =>
      -- every entry is under the new version: the other keys go
      have hrot3 := hrot2.prune (hat rfl)
      refine Safe.bind (safe_persistKeyring hrot3.fits.root (fun r => hinv _ ⟨_, hrot3⟩)
        (fun hf e r => ?_) fun n r hn => ?_)
      · exact ⟨_, rfl, hrot3, fun _ => Or.inl hf, nofun, nofun, nofun⟩
      · refine ⟨_, rfl, hrot3.persist hn, fun h => absurd rfl h, fun _ => rfl,
          fun _ => written_record hrot3.fits hn fun _ _ => rfl,
          fun _ _ => ⟨fun v hv => ?_, fun k hk data hdata => ?_⟩⟩
        · exact (lookup_onlyActive _ v).trans (if_neg hv)
        · rw [lookup_insert_ne (by rintro rfl; exact hk reserved_keyringPath)] at hdata
          exact hat rfl k hk data hdata

end

/-! ## Surviving a stop -/

/-- Every read outside `barrier/` gives what it gave in `w`. -/
def ReadsAs (E : Env) (m : Memory) (w : World) (m' : Memory) (w' : World) : Prop :=
  ∀ k, ¬ Reserved k → (run (handle E) (get E k m') w').1 = (run (handle E) (get E k m) w).1

/-- The barrier `m'` reads as `m` did, and a rotation without failures succeeds and keeps
    every value, in the running barrier and in one unsealed afresh. -/
def Survives (E : Env) (rootKey : Bytes) (m : Memory) (w : World) (m' : Memory) (w' : World) :
    Prop :=
  ReadsAs E m w m' w' ∧ ∀ r w'', run (handle E) (rotateDataKey true m') w' = (r, w'') →
    r.2.err = none ∧ ReadsAs E m w r.1 w'' ∧ ReadsAs E m w (fresh E rootKey w'') w''

section

variable {E : Env} {m : Unsealed} {w : World} {rootKey : Bytes}

variable {m' : Unsealed} {w' : World}

theorem SameValues.readsAs (h : SameValues .all m w.store m' w'.store)
    (hf : SameFormat m m') : ReadsAs E (some m) w (some m') w' := by
  intro k hk
  rw [run_get, run_get, hf.phys E k, h _ (not_reserved_phys hk)]

/-- A store with the keyring in it is read by a fresh barrier. -/
theorem Stored.readsAs_fresh (hst : Stored E .all m' w'.store)
    (hroot : m'.rootKey = rootKey) (h : SameValues .all m w.store m' w'.store)
    (hf : SameFormat m m') :
    ∃ d, fresh E rootKey w' = some d ∧ loadStore E rootKey w'.store = .ok d ∧ Agree m' d ∧
      SameValues .all m w.store d w'.store ∧ SameFormat m d := by
  obtain ⟨d, hd, hag, hval⟩ := hst
  rw [hroot] at hd
  exact ⟨d, fresh_eq_some.mpr hd, hd, hag, h.trans hval, hf.trans hag.format⟩

/-- A memory with room for one more version survives. -/
theorem survives_of_fits (hfits : Fits E m' w'.store)
    (hread : Readable .all m w.store) (hval : SameValues .all m w.store m' w'.store)
    (hf : SameFormat m m') (hroot : m'.rootKey = rootKey) (hst : Stored E .all m' w'.store)
    (hroom : Unused w'.store (m'.active + 1)) : Survives E rootKey (some m) w (some m') w' := by
  refine ⟨hval.readsAs hf, ?_⟩
  intro r w'' hrun
  have hsafe := (@safe_rotateDataKey E False (fun _ => True) m' true w' hfits hroom
    fun _ _ => trivial).run
  rw [hrun] at hsafe
  obtain ⟨m'', hm'', hend⟩ := hsafe
  have hrot := hend.rotating
  have hval' := hval.trans hrot.values
  have hf' := hf.trans hrot.format
  refine ⟨not_not.mp fun h => ?_, ?_, ?_⟩
  · exact (hend.err h).elim id fun hbad => hbad (hval.readable hread)
  · rw [hm'']
    exact hval'.readsAs hf'
  · obtain ⟨d, hd, _, _, hvd, hfd⟩ :=
      (hrot.stored _ hst).readsAs_fresh (hrot.rootKey.trans hroot) hval' hf'
    rw [hd]
    exact hvd.readsAs hfd

/-- Wherever a rotation stops there is room for the next version. -/
theorem Rotating.room {s t : Store} (h : Rotating E m s m' t)
    (h1 : Unused s (m.active + 1)) (h2 : Unused s (m.active + 2)) : Unused t (m'.active + 1) := by
  rcases h.stage with ⟨ha, hu⟩ | ⟨ha, hu⟩
  · rw [ha]
    exact hu _ h1
  · have hadd : m.active + 1 + 1 = m.active + 2 := by rw [UInt32.add_assoc]; rfl
    rw [ha, hadd]
    exact hu _ (by rw [← hadd]; simp) h2

/-- From any point of a rotation a fresh barrier survives. -/
theorem Rotating.survives_fresh
    (h : Rotating E m w.store m' w'.store) (hst : Stored E .all m w.store)
    (hread : Readable .all m w.store) (h1 : Unused w.store (m.active + 1))
    (h2 : Unused w.store (m.active + 2)) :
    Survives E m.rootKey (some m) w (fresh E m.rootKey w') w' := by
  obtain ⟨d, hfresh, hd, hag, hval, hf⟩ :=
    (h.stored _ hst).readsAs_fresh h.rootKey h.values h.format
  have hver : d.versioned = true := by
    rw [hag.format.versioned, h.fits.versioned]
  rw [hfresh]
  refine survives_of_fits (Fits.of_loadStore hd hver) hread hval hf (rootKey_of_loadStore hd)
    (stored_of_loadStore hd) ?_
  rw [hag.active]
  exact h.room h1 h2

/-- However a data-key rotation stops, the barrier (if it still runs) and one unsealed afresh
    with the same root key read every entry with its old value, and a later rotation with
    re-encryption succeeds and keeps every value. -/
theorem rotateDataKey_survives_stop (hload : fresh E rootKey w = some m) (hver : m.versioned = true)
    (hread : Readable .all m w.store) (h1 : Unused w.store (m.active + 1))
    (h2 : Unused w.store (m.active + 2)) (reenc : Bool) (plan : List Fault) :
    match exec (handle E) plan (rotateDataKey reenc (some m)) w with
    | .done r w' => Survives E rootKey (some m) w r.1 w' ∧
        Survives E rootKey (some m) w (fresh E rootKey w') w'
    | .died w' => Survives E rootKey (some m) w (fresh E rootKey w') w' := by
  have hl := fresh_eq_some.mp hload
  have hfits := Fits.of_loadStore hl hver
  obtain rfl := rootKey_of_loadStore hl
  have hst : Stored E .all m w.store := stored_of_loadStore hl
  have hsafe := (@safe_rotateDataKey E True
    (fun w' => ∃ m', Rotating E m w.store m' w'.store) m reenc w hfits h1
    fun _ hr => hr).exec (fun _ _ ⟨m', _, hend⟩ => ⟨m', hend.rotating⟩) plan
  split
  · rename_i r w' he
    rw [he] at hsafe
    obtain ⟨m', hm', hend⟩ := hsafe
    have hrot := hend.rotating
    refine ⟨?_, hrot.survives_fresh hst hread h1 h2⟩
    rw [hm']
    exact survives_of_fits hrot.fits hread hrot.values hrot.format hrot.rootKey
      (hrot.stored _ hst)
      (hrot.room h1 h2)
  · rename_i w' he
    rw [he] at hsafe
    obtain ⟨m', hrot⟩ := hsafe
    exact hrot.survives_fresh hst hread h1 h2

end

/-! ## Runs on concrete stores -/

/-- The root key and the data keys of the runs on concrete stores. -/
def plainKey (b : UInt8) : Bytes := List.replicate keySize b

/-- A versioned store in the clear suite under the root key `plainKey 7`. -/
def plainWorld (keys : KeyMap) (entries : List (Bytes × Bytes)) : World where
  store := entries.foldl (fun s e => s.insert e.1 e.2)
    (((∅ : Store).insert metaPath (metaJson 2 suiteAES256GCM).encode).insert keyringPath
      (plainSuite.sealWith (plainKey 7) [0] (marshalKeyring 1 keys []) keyringPath))
  rng _ := 9

/-- An entry of such a store under a version and its key. -/
def plainEntry (ver : UInt32) (dataKey key value : Bytes) : Bytes × Bytes :=
  (key, be32 ver ++ plainSuite.sealWith dataKey [0] value key)

/-- A store with one entry, under the active version. -/
def sampleWorld : World :=
  plainWorld (AList.singleton 1 (plainKey 1)) [plainEntry 1 (plainKey 1) (ascii "a") (ascii "v")]

/-- A rotation that dies right after its first keyring write. -/
theorem rotateDataKey_survives_stop_sample :
    ∃ m, fresh plainEnv (plainKey 7) sampleWorld = some m ∧
      match exec (handle plainEnv) [.none, .none, .dieAfter] (rotateDataKey true (some m))
        sampleWorld with
      | .done r w' => Survives plainEnv (plainKey 7) (some m) sampleWorld r.1 w' ∧
          Survives plainEnv (plainKey 7) (some m) sampleWorld (fresh plainEnv (plainKey 7) w') w'
      | .died w' =>
          Survives plainEnv (plainKey 7) (some m) sampleWorld (fresh plainEnv (plainKey 7) w')
            w' := by
  have h : ∃ m, fresh plainEnv (plainKey 7) sampleWorld = some m ∧ m.versioned = true ∧
      Readable .all m sampleWorld.store ∧ Unused sampleWorld.store (m.active + 1) ∧
      Unused sampleWorld.store (m.active + 2) := exists_of_any (by decide +kernel)
  obtain ⟨m, hload, hver, hread, h1, h2⟩ := h
  exact ⟨m, hload, rotateDataKey_survives_stop hload hver hread h1 h2 true _⟩

/-- Rotations one after the other, with their errors. -/
def rotations : List Bool → Memory → Code (Memory × List (Option Err))
  | [], m => ret (m, [])
  | reenc :: rs, m =>
      (rotateDataKey reenc m).bind fun r =>
        (rotations rs r.1).bind fun q => ret (q.1, r.2.err :: q.2)

/-- The barrier opens every entry and reads the value at `key`; after rotations that all
    report success it can no longer open the entry at `key`. -/
def LosesValue (w : World) (rs : List Bool) (key value : Bytes) (m : Unsealed) : Prop :=
  let out := run (handle plainEnv) (rotations rs (some m)) w
  m.versioned = true ∧ Readable .all m w.store ∧
    (run (handle plainEnv) (get plainEnv key (some m)) w).1 = .ok (some value) ∧
    out.1.2 = rs.map (fun _ => none) ∧
    (run (handle plainEnv) (get plainEnv key out.1.1) out.2).1 = .error (.decrypt key)

instance (w : World) (rs : List Bool) (key value : Bytes) (m : Unsealed) :
    Decidable (LosesValue w rs key value m) := inferInstanceAs (Decidable (_ ∧ _ ∧ _ ∧ _ ∧ _))

/-- An entry under the version that comes next. -/
def nextVersionWorld : World :=
  plainWorld ((AList.singleton 1 (plainKey 1)).insert 2 (plainKey 2))
    [plainEntry 2 (plainKey 2) (ascii "a") (ascii "v")]

/-- An entry under the version after that. -/
def secondVersionWorld : World :=
  plainWorld ((AList.singleton 1 (plainKey 1)).insert 3 (plainKey 2))
    [plainEntry 3 (plainKey 2) (ascii "a") (ascii "v")]

/-- An entry under `barrier/`, which re-encryption passes over. -/
def reservedWorld : World :=
  plainWorld (AList.singleton 1 (plainKey 1))
    [plainEntry 1 (plainKey 1) (ascii "barrier/x") (ascii "v")]

/-- In each of the three a readable entry becomes unreadable by rotations that succeed. -/
theorem rotateDataKey_loses_value :
    (∃ m, fresh plainEnv (plainKey 7) nextVersionWorld = some m ∧
      LosesValue nextVersionWorld [true] (ascii "a") (ascii "v") m) ∧
    (∃ m, fresh plainEnv (plainKey 7) secondVersionWorld = some m ∧
      LosesValue secondVersionWorld [false, true] (ascii "a") (ascii "v") m) ∧
    (∃ m, fresh plainEnv (plainKey 7) reservedWorld = some m ∧
      LosesValue reservedWorld [true] (ascii "barrier/x") (ascii "v") m) :=
  ⟨exists_of_any (by decide +kernel), exists_of_any (by decide +kernel),
    exists_of_any (by decide +kernel)⟩

end Tuck.Barrier
