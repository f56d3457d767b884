/-
  The barrier as a map. The abstract machine is a plain map from keys to values that is open
  or sealed; the concrete one runs the barrier's code over a backend without errors. A
  barrier over a store initialised at a metadata version follows the plain map, for every
  sequence of operations, exactly when the version has keys by version.

  The relation between the two (`Holds`) says what the memory and the store together stand
  for; each operation is one lemma about it.
-/
import Tuck.Base.Machine
import Tuck.Barrier.Init

namespace Tuck.Barrier

open Tuck.Base Host Prog List

/-! ## The plain map -/

/-- An operation on a barrier. `Unseal` is given the current root key. -/
inductive Op where
  | put (key value : Bytes)
  | get (key : Bytes)
  | delete (key : Bytes)
  | list (pre : Bytes)
  | sealBarrier
  | unsealBarrier
  | rekey (newRootKey : Bytes)
  | rotateDataKey (reenc : Bool)

/-- What an operation returns. -/
inductive Answer where
  | unit (r : Except Err Unit)
  | value (r : Except Err (Option Bytes))
  | keys (r : Except Err (List Bytes))
  | rotated (r : Rotated)

/-- A plain map, open or sealed. -/
structure PlainMap where
  map : Bytes → Option Bytes
  isOpen : Bool

namespace PlainMap

/-- A new store: sealed and empty. -/
def new : PlainMap := ⟨fun _ => none, false⟩

def next (p : PlainMap) : Op → PlainMap
  | .put k v => if p.isOpen then { p with map := Function.update p.map k (some v) } else p
  | .delete k => if p.isOpen then { p with map := Function.update p.map k none } else p
  | .sealBarrier => { p with isOpen := false }
  | .unsealBarrier => { p with isOpen := true }
  | _ => p

/-- A listing under a prefix: the live keys with that prefix, each once, and perhaps keys of
    the barrier itself. -/
def Lists (map : Bytes → Option Bytes) (pre : Bytes) (ks : List Bytes) : Prop :=
  (ks.filter fun k => ¬ Reserved k).Nodup ∧
    ∀ k, ¬ Reserved k → (k ∈ ks ↔ (map k).isSome = true ∧ pre <+: k)

/-- The answers of an open map. -/
def Answers (p : PlainMap) : Op → Answer → Prop
  | .put _ _, .unit r => r = .ok ()
  | .get k, .value r => r = .ok (p.map k)
  | .delete _, .unit r => r = .ok ()
  | .list pre, .keys r => ∃ ks, r = .ok ks ∧ Lists p.map pre ks
  | .sealBarrier, .unit r => r = .ok ()
  | .unsealBarrier, .unit r => r = .ok ()
  | .rekey newRootKey, .unit r => newRootKey.length = keySize → r = .ok ()
  | .rotateDataKey _, .rotated r => r.err = none ∨ r.err = some .notVersioned
  | _, _ => False

/-- The answers of a sealed map. -/
def SealedAnswers : Op → Answer → Prop
  | .put _ _, .unit r => r = .error .sealed
  | .get _, .value r => r = .error .sealed
  | .delete _, .unit r => r = .error .sealed
  | .list _, .keys r => r = .error .sealed
  | .sealBarrier, .unit r => r = .ok ()
  | .unsealBarrier, .unit r => r = .ok ()
  | .rekey _, .unit r => r = .error .sealed
  | .rotateDataKey _, .rotated r => r.err = some .sealed
  | _, _ => False

end PlainMap

/-! ## The barrier over a backend without errors -/

/-- A barrier, its world and the root key that opens its keyring. -/
structure State where
  mem : Memory
  world : World
  root : Bytes

/-- One operation of the code. -/
def perform (E : Env) (c : State) : Op → State × Answer
  | .put k v =>
      let r := run (handle E) (put E k v c.mem) c.world
      ({ c with world := r.2 }, .unit r.1)
  | .get k =>
      let r := run (handle E) (get E k c.mem) c.world
      ({ c with world := r.2 }, .value r.1)
  | .delete k =>
      let r := run (handle E) (delete E k c.mem) c.world
      ({ c with world := r.2 }, .unit r.1)
  | .list pre =>
      let r := run (handle E) (list E pre c.mem) c.world
      ({ c with world := r.2 }, .keys r.1)
  | .sealBarrier => ({ c with mem := none }, .unit (.ok ()))
  | .unsealBarrier =>
      let r := run (handle E) (unsealWith E c.root c.mem) c.world
      ({ c with mem := r.1.1, world := r.2 }, .unit r.1.2)
  | .rekey newRootKey =>
      let r := run (handle E) (rekey newRootKey c.mem) c.world
      (⟨r.1.1, r.2, if r.1.2 = .ok () then newRootKey else c.root⟩, .unit r.1.2)
  | .rotateDataKey reenc =>
      let r := run (handle E) (rotateDataKey reenc c.mem) c.world
      ({ c with mem := r.1.1, world := r.2 }, .rotated r.1.2)

/-! ## What memory and store stand for -/

/-- The memory `m` over the store `s` stands for `map`, after at most `n` rotations. -/
structure Holds (E : Env) (m : Unsealed) (s : Store) (map : Bytes → Option Bytes) (n : Nat) :
    Prop where
  fits : Fits E m s
  stored : Stored E .all m s
  values : ∀ k, ¬ Reserved k → valueAt m s (m.phys E k) = (map k).map some
  keys : ∀ q data, ¬ Reserved q → s.lookup q = some data → ∃ k, ¬ Reserved k ∧ q = m.phys E k
  versions : ∀ v, v = 0 ∨ m.active < v → Unused s v
  count : m.active.toNat ≤ n + 1
  active_ne : m.active ≠ 0

section

variable {E : Env} {m : Unsealed} {s : Store} {map : Bytes → Option Bytes} {n : Nat} {w : World}

theorem Fits.phys_injective (h : Fits E m s) : Function.Injective (m.phys E) := by
  intro a b hab
  unfold Unsealed.phys at hab
  cases hp : m.paths with
  | none => simpa only [hp] using hab
  | some c =>
    rw [hp] at hab
    exact PathCodec.encode_injective (newPathCodec_newOK (h.paths c hp).2) hab

theorem Holds.readable (h : Holds E m s map n) : Readable .all m s := by
  intro q data hq hdata
  obtain ⟨k, hk, rfl⟩ := h.keys q data hq hdata
  have hv := h.values k hk
  rw [valueAt, hdata, Option.map_some] at hv
  cases hm : map k with
  | none => rw [hm] at hv; cases hv
  | some v =>
    rw [hm, Option.map_some] at hv
    rw [Option.some.inj hv]
    rfl

variable {k : Bytes}

/-- A listing under a prefix starts from the live keys. -/
theorem Holds.isSome_iff (h : Holds E m s map n) (hk : ¬ Reserved k) :
    (s.lookup (m.phys E k)).isSome = true ↔ (map k).isSome = true := by
  have hv := congrArg Option.isSome (h.values k hk)
  unfold valueAt at hv
  rw [Option.isSome_map, Option.isSome_map] at hv
  rw [hv]

theorem Holds.run_get (h : Holds E m w.store map n) (hk : ¬ Reserved k) :
    run (handle E) (get E k (some m)) w = (.ok (map k), w) := by
  rw [Barrier.run_get, h.values k hk]
  cases map k <;> rfl

/-- One key is written or removed. -/
theorem Holds.update (h : Holds E m s map n) (hk : ¬ Reserved k) {t : Store}
    {x : Option Bytes} (hoff : ∀ q, q ≠ m.phys E k → t.lookup q = s.lookup q)
    (hat : AtActive m t (m.phys E k)) (hval : valueAt m t (m.phys E k) = x.map some) :
    Holds E m t (Function.update map k x) n where
  fits := h.fits.of_meta (hoff _ (by
    intro he
    exact not_reserved_phys hk (he ▸ reserved_metaPath)))
  stored := h.stored.update h.fits.versioned (not_reserved_phys hk) hoff hat
  values := by
    intro k' hk'
    by_cases he : k' = k
    · rw [he, Function.update_self, hval]
    · rw [Function.update_of_ne he, ← h.values k' hk']
      unfold valueAt
      rw [hoff _ fun hp => he (h.fits.phys_injective hp)]
  keys := by
    intro q data hq hdata
    by_cases he : q = m.phys E k
    · exact ⟨k, hk, he⟩
    · rw [hoff q he] at hdata
      exact h.keys q data hq hdata
  versions := by
    intro v hv
    refine (h.versions v hv).update ?_ hoff hat
    rcases hv with rfl | hlt
    · exact h.active_ne.symm
    · exact (UInt32.ne_of_lt hlt).symm
  count := h.count
  active_ne := h.active_ne

theorem Holds.run_put (h : Holds E m w.store map n) (hk : ¬ Reserved k) (v : Bytes) :
    ∃ w', run (handle E) (put E k v (some m)) w = (.ok (), w') ∧
      Holds E m w'.store (Function.update map k (some v)) n := by
  have hnew := m.suite.newOK_of_length _ h.fits.activeKey.2
  have hsafe : Safe (handle E) False (fun _ => True) (fun r w' => r = .ok () ∧
      Holds E m w'.store (Function.update map k (some v)) n) (put E k v (some m)) w := by
    refine safe_sealEntry_put hnew (fun _ => trivial) (fun hf => hf.elim) ?_
    intro nonce r hn
    refine ⟨rfl, h.update hk (fun q hq => AList.lookup_insert_ne hq) ?_ ?_⟩
    · exact atActive_insert ⟨_, entryVersion_frame h.fits.versioned _⟩ (Or.inl rfl)
    · rw [valueAt, AList.lookup_insert, Option.map_some, openEntry_entryRecord h.fits hn]
      rfl
  exact ⟨_, Prod.ext hsafe.run.1 rfl, hsafe.run.2⟩

theorem Holds.run_delete (h : Holds E m w.store map n) (hk : ¬ Reserved k) :
    ∃ w', run (handle E) (delete E k (some m)) w = (.ok (), w') ∧
      Holds E m w'.store (Function.update map k none) n := by
  refine ⟨{ w with store := w.store.erase (m.phys E k) }, rfl,
    h.update hk (fun q hq => AList.lookup_erase_ne hq)
      (atActive_of_none (AList.lookup_erase _ _)) ?_⟩
  rw [valueAt, AList.lookup_erase]
  rfl

/-- Another memory over another store stands for the map too, if it reads the same there. -/
theorem Holds.carry (h : Holds E m s map n) {m' : Unsealed} {t : Store} {n' : Nat}
    (hfits : Fits E m' t) (hstored : Stored E .all m' t) (hformat : SameFormat m m')
    (hval : SameValues .all m s m' t) (hversions : ∀ v, v = 0 ∨ m'.active < v → Unused t v)
    (hcount : m'.active.toNat ≤ n' + 1) (hne : m'.active ≠ 0) : Holds E m' t map n' where
  fits := hfits
  stored := hstored
  values k hk := by rw [hformat.phys E k, hval _ (not_reserved_phys hk), h.values k hk]
  keys q data hq hdata := by
    have hv := hval q hq
    unfold valueAt at hv
    rw [hdata] at hv
    cases hs : s.lookup q with
    | none => rw [hs] at hv; cases hv
    | some data' =>
      obtain ⟨k, hk, rfl⟩ := h.keys q data' hq hs
      exact ⟨k, hk, (hformat.phys E k).symm⟩
  versions := hversions
  count := hcount
  active_ne := hne

/-- Sealing and unsealing: the keyring in the store stands for the same map. -/
theorem Holds.reload (h : Holds E m s map n) :
    ∃ d, loadStore E m.rootKey s = .ok d ∧ d.rootKey = m.rootKey ∧ Holds E d s map n := by
  obtain ⟨d, hd, hag, hval⟩ := h.stored
  have hroot := rootKey_of_loadStore hd
  have hver : d.versioned = true := by rw [hag.format.versioned, h.fits.versioned]
  refine ⟨d, hd, hroot, h.carry (Fits.of_loadStore hd hver) (stored_of_loadStore hd) hag.format hval
    ?_ ?_ ?_⟩ <;> rw [hag.active]
  · exact h.versions
  · exact h.count
  · exact h.active_ne

/-- A new root key changes only the keyring record. -/
theorem Holds.rekeyed (h : Holds E m s map n) {newRoot nonce : Bytes}
    (hnew : m.suite.newOK newRoot = true) (hn : nonce.length = m.suite.nonceSize) :
    Holds E { m with rootKey := newRoot }
      (s.insert keyringPath (keyringRecord m newRoot nonce)) map n :=
  h.carry { h.fits.of_meta (AList.lookup_insert_ne (by decide)) with root := hnew }
    (stored_of_equiv h.fits.versioned (load_keyringRecord h.fits hnew hn))
    ⟨rfl, rfl, rfl, rfl, rfl⟩ (sameValues_insert_reserved reserved_keyringPath)
    (fun v hv => (h.versions v hv).insert_reserved reserved_keyringPath) h.count h.active_ne

theorem Holds.run_rekey (h : Holds E m w.store map n) (newRoot : Bytes) :
    ∃ r w', run (handle E) (rekey newRoot (some m)) w = (r, w') ∧
      (newRoot.length = keySize → r.2 = .ok ()) ∧ ∃ m', r.1 = some m' ∧
        m'.rootKey = (if r.2 = .ok () then newRoot else m.rootKey) ∧ Holds E m' w'.store map n := by
  have hsafe : Safe (handle E) False (fun _ => True) (fun r w' =>
      (newRoot.length = keySize → r.2 = .ok ()) ∧ ∃ m', r.1 = some m' ∧
        m'.rootKey = (if r.2 = .ok () then newRoot else m.rootKey) ∧ Holds E m' w'.store map n)
      (rekey newRoot (some m)) w := by
    refine safe_rekey (fun _ => trivial) (fun hbad e r => ?_)
      fun hnew nonce r hn => ⟨fun _ => rfl, _, rfl, rfl, h.rekeyed hnew hn⟩
    refine ⟨fun hlen => ?_, m, rfl, rfl, h⟩
    have := hbad.resolve_left id
    rw [m.suite.newOK_of_length _ hlen] at this
    cases this
  exact ⟨_, _, rfl, hsafe.run⟩

/-- There is room for the next version: it is above every version in use, or zero. -/
theorem Holds.room (h : Holds E m s map n) : Unused s (m.active + 1) := by
  refine h.versions _ ?_
  by_cases hlt : m.active.toNat + 1 < 2 ^ 32
  · right
    rw [UInt32.lt_iff_toNat_lt, UInt32.toNat_add, UInt32.toNat_one, Nat.mod_eq_of_lt hlt]
    exact Nat.lt_succ_self _
  · left
    have hmax := m.active.toNat_lt
    apply UInt32.toNat_inj.mp
    rw [UInt32.toNat_add, UInt32.toNat_one]
    have : m.active.toNat + 1 = 2 ^ 32 := by omega
    rw [this]
    rfl

theorem Holds.run_rotateDataKey (h : Holds E m w.store map n) (reenc : Bool) (hn : n + 2 < 2 ^ 32) :
    ∃ r w', run (handle E) (rotateDataKey reenc (some m)) w = (r, w') ∧ r.2.err = none ∧
      ∃ m', r.1 = some m' ∧ m'.rootKey = m.rootKey ∧ Holds E m' w'.store map (n + 1) := by
  refine ⟨_, _, rfl, ?_⟩
  obtain ⟨m', hm', hend⟩ := (@safe_rotateDataKey E False (fun _ => True) m reenc w h.fits
    h.room fun _ _ => trivial).run
  have herr : _ = none := not_not.mp fun he => (hend.err he).elim id fun hbad => hbad h.readable
  have hact := hend.active herr
  have hrot := hend.rotating
  have hnat : m'.active.toNat = m.active.toNat + 1 := by
    have := h.count
    rw [hact, UInt32.toNat_add, UInt32.toNat_one, Nat.mod_eq_of_lt (by omega)]
  refine ⟨herr, m', hm', hrot.rootKey, h.carry hrot.fits (hrot.stored _ h.stored) hrot.format
    hrot.values ?_ ?_ ?_⟩
  · intro v hv
    have hne : v ≠ m.active + 1 := by
      rw [← hact]
      rcases hv with rfl | hlt
      · intro h0
        rw [← h0] at hnat
        exact absurd hnat (by simp)
      · exact (UInt32.ne_of_lt hlt).symm
    have hold : Unused w.store v := by
      refine h.versions v (hv.imp id fun hlt => ?_)
      rw [UInt32.lt_iff_toNat_lt] at hlt ⊢
      omega
    rcases hrot.stage with ⟨_, hu⟩ | ⟨_, hu⟩
    · exact hu v hold
    · exact hu v hne hold
  · have := h.count
    omega
  · intro h0
    rw [h0] at hnat
    exact absurd hnat (by simp)

/-! ## Listing -/

theorem dirOf_cases (pre : Bytes) :
    dirOf pre = [] ∨ ∃ d rest, dirOf pre = d ++ [0x2F] ∧ pre = d ++ 0x2F :: rest := by
  by_cases h : dirOf pre = []
  · exact Or.inl h
  · right
    obtain ⟨rest, hrest⟩ := rdropWhile_prefix (fun b : UInt8 => b != 0x2F) pre
    have hlast : (dirOf pre).getLast h = 0x2F := by
      have hnot := rdropWhile_last_not (fun b : UInt8 => b != 0x2F) pre h
      rw [bne_iff_ne, not_not] at hnot
      exact hnot
    refine ⟨(dirOf pre).dropLast, rest, ?_, ?_⟩
    · rw [← hlast, dropLast_append_getLast]
    · rw [append_cons, ← hlast, dropLast_append_getLast]
      exact hrest.symm

/-- The scanned directory covers every key with the prefix. -/
theorem scanPrefix_prefix {c : PathCodec} {pre : Bytes} (hk : ¬ Reserved k) (hpre : pre <+: k) :
    scanPrefix E c pre <+: c.encode E k := by
  unfold scanPrefix
  split_ifs with hres hdir
  · exact absurd (hres.trans hpre) hk
  · obtain ⟨t, rfl⟩ := hpre
    obtain ⟨d, rest, hd, rfl⟩ := (dirOf_cases pre).resolve_left hdir
    rw [hd]
    rw [append_assoc, cons_append] at hk ⊢
    exact PathCodec.encode_prefix hk
  · exact nil_prefix

/-- The logical key of a stored one. -/
def logical (c : PathCodec) (q : Bytes) : Bytes := (c.decode q).getD []

/-- Every stored key decodes: a key of the barrier to itself, any other to a live key. -/
theorem Holds.logical (h : Holds E m s map n) {c : PathCodec} (hc : m.paths = some c) {q : Bytes}
    (hq : (s.lookup q).isSome = true) : c.decode q = some (Barrier.logical c q) ∧
      (Reserved q ∧ Barrier.logical c q = q ∨
        ¬ Reserved (Barrier.logical c q) ∧ q = c.encode E (Barrier.logical c q)) := by
  by_cases hres : Reserved q
  · have hd : c.decode q = some q := by rw [PathCodec.decode, if_pos hres]
    unfold Barrier.logical
    rw [hd]
    exact ⟨rfl, Or.inl ⟨hres, rfl⟩⟩
  · obtain ⟨data, hdata⟩ := Option.isSome_iff_exists.mp hq
    obtain ⟨k, hk, rfl⟩ := h.keys q data hres hdata
    have hphys : m.phys E k = c.encode E k := by simp only [Unsealed.phys, hc]
    have hd : c.decode (c.encode E k) = some k :=
      PathCodec.decode_encode (newPathCodec_newOK (h.fits.paths c hc).2) k
    unfold Barrier.logical
    rw [hphys, hd]
    exact ⟨rfl, Or.inr ⟨hk, rfl⟩⟩

theorem Holds.run_list (h : Holds E m w.store map n) (pre : Bytes) :
    ∃ ks, run (handle E) (list E pre (some m)) w = (.ok ks, w) ∧ PlainMap.Lists map pre ks := by
  cases hp : m.paths with
  | none =>
    refine ⟨E.order (listPrefix w.store pre), by simp only [list, hp, run_backendList], ?_, ?_⟩
    · refine List.Nodup.filter _ ((E.order_perm _).nodup_iff.mpr (List.Nodup.filter _ ?_))
      exact w.store.keys_nodup
    · intro k hk
      have hphys : m.phys E k = k := by simp only [Unsealed.phys, hp]
      rw [mem_order, mem_listPrefix, ← h.isSome_iff hk, hphys]
  | some c =>
    -- what is stored under the scanned directory, and the logical keys it stands for
    have hstored : ∀ q, q ∈ E.order (listPrefix w.store (scanPrefix E c pre)) ↔
        (w.store.lookup q).isSome = true ∧ scanPrefix E c pre <+: q := fun q =>
      mem_order.trans mem_listPrefix
    have hlogical := fun q hq => h.logical hp ((hstored q).mp hq).1
    have hmap := mapM_eq_map fun q hq => (hlogical q hq).1
    have hrun : run (handle E) (list E pre (some m)) w = (.ok (((E.order (listPrefix w.store
        (scanPrefix E c pre))).map (Barrier.logical c)).filter (fun k => hasPrefix k pre)
          |>.insertionSort fun a b => bytesLe a b = true), w) := by
      simp only [list, hp, run_andThen, run_backendList, decodeKeys, hmap, Option.map_some, run_ret]
    refine ⟨_, hrun, ?_, ?_⟩
    · refine List.Nodup.filter _ ((perm_insertionSort _ _).nodup_iff.mpr (List.Nodup.filter _ ?_))
      refine List.Nodup.map_on ?_
        ((E.order_perm _).nodup_iff.mpr (List.Nodup.filter _ w.store.keys_nodup))
      intro a ha b hb hab
      rcases (hlogical a ha).2 with ⟨hra, hla⟩ | ⟨hna, hla⟩ <;>
        rcases (hlogical b hb).2 with ⟨hrb, hlb⟩ | ⟨hnb, hlb⟩
      · rw [← hla, ← hlb, hab]
      · rw [← hab, hla] at hnb
        exact absurd hra hnb
      · rw [hab, hlb] at hna
        exact absurd hrb hna
      · rw [hla, hlb, hab]
    · intro k hk
      have hphys : m.phys E k = c.encode E k := by simp only [Unsealed.phys, hp]
      rw [(perm_insertionSort _ _).mem_iff, mem_filter, hasPrefix_iff, mem_map,
        ← h.isSome_iff hk, hphys]
      constructor
      · rintro ⟨⟨q, hq, rfl⟩, hpre⟩
        refine ⟨?_, hpre⟩
        rcases (hlogical q hq).2 with ⟨hr, hl⟩ | ⟨_, hl⟩
        · exact absurd (by rw [hl]; exact hr) hk
        · rw [← hl]
          exact ((hstored q).mp hq).1
      · rintro ⟨hlive, hpre⟩
        have hd : c.decode (c.encode E k) = some k :=
          PathCodec.decode_encode (newPathCodec_newOK (h.fits.paths c hp).2) k
        refine ⟨⟨c.encode E k, (hstored _).mpr ⟨hlive, scanPrefix_prefix hk hpre⟩, ?_⟩, hpre⟩
        rw [Barrier.logical, hd]
        rfl

end

/-! ## Every run -/

/-- The keys an operation reads or writes are user keys. -/
def Op.UserKey : Op → Prop
  | .put k _ => k ≠ [] ∧ ¬ Reserved k
  | .get k => k ≠ [] ∧ ¬ Reserved k
  | .delete k => k ≠ [] ∧ ¬ Reserved k
  | _ => True

def Op.rotations : Op → Nat
  | .rotateDataKey _ => 1
  | _ => 0

/-- The barrier and the plain map side by side. -/
def both (E : Env) (x : State × PlainMap) (op : Op) : State × PlainMap :=
  ((perform E x.1 op).1, x.2.next op)

/-- The barrier answers as the plain map does; sealed, it changes nothing. -/
def Conforms (E : Env) (x : State × PlainMap) (op : Op) : Prop :=
  if x.2.isOpen then x.2.Answers op (perform E x.1 op).2
  else PlainMap.SealedAnswers op (perform E x.1 op).2 ∧
    (op ≠ .unsealBarrier → (perform E x.1 op).1 = x.1)

/-- The barrier initialised at a metadata version follows the plain map. -/
def Refines (E : Env) (suiteName : Bytes) (version : Int64) : Prop :=
  ∀ (w : World) (rootKey : Bytes) (ops : List Op), w.store = ∅ → rootKey.length = keySize →
    (∀ op ∈ ops, op.UserKey) → (ops.map Op.rotations).sum < 2 ^ 32 - 1 →
    ∃ w', run (handle E) (initializeAt E rootKey suiteName version) w = (.ok (), w') ∧
      Meets (both E) (Conforms E) (⟨none, w', rootKey⟩, PlainMap.new) ops

/-- The barrier stands for the plain map: unsealed its memory does, sealed the keyring in its
    store does. -/
def Stands (E : Env) (n : Nat) (x : State × PlainMap) : Prop :=
  ∃ m, m.rootKey = x.1.root ∧ Holds E m x.1.world.store x.2.map n ∧
    if x.2.isOpen then x.1.mem = some m
    else x.1.mem = none ∧ loadStore E x.1.root x.1.world.store = .ok m

section

variable {E : Env} {n : Nat}

variable {op : Op} {m : Unsealed}

/-- One step of an open barrier. -/
theorem stands_open {c : State} {p : PlainMap} (hop : op.UserKey)
    (hn : n + op.rotations + 1 < 2 ^ 32) (hopen : p.isOpen = true) (hmem : c.mem = some m)
    (hroot : m.rootKey = c.root) (h : Holds E m c.world.store p.map n) :
    p.Answers op (perform E c op).2 ∧ Stands E (n + op.rotations) (both E (c, p) op) := by
  obtain ⟨mem, w, root⟩ := c
  obtain ⟨map, isOpen⟩ := p
  simp only at hopen hmem hroot h
  subst hopen hmem hroot
  cases op with
  | put k v =>
    obtain ⟨w', hrun, h'⟩ := h.run_put hop.2 v
    simp only [perform, both, hrun, PlainMap.next, if_true]
    exact ⟨rfl, m, rfl, h', rfl⟩
  | get k =>
    have hrun := h.run_get hop.2
    simp only [perform, both, hrun, PlainMap.next]
    exact ⟨rfl, m, rfl, h, rfl⟩
  | delete k =>
    obtain ⟨w', hrun, h'⟩ := h.run_delete hop.2
    simp only [perform, both, hrun, PlainMap.next, if_true]
    exact ⟨rfl, m, rfl, h', rfl⟩
  | list pre =>
    obtain ⟨ks, hrun, hks⟩ := h.run_list pre
    simp only [perform, both, hrun, PlainMap.next]
    exact ⟨⟨ks, rfl, hks⟩, m, rfl, h, rfl⟩
  | sealBarrier =>
    obtain ⟨d, hd, hroot, h'⟩ := h.reload
    exact ⟨rfl, d, hroot, h', rfl, hd⟩
  | unsealBarrier => exact ⟨rfl, m, rfl, h, rfl⟩
  | rekey newRoot =>
    obtain ⟨r, w', hrun, hlen, m', hm', hroot, h'⟩ := h.run_rekey newRoot
    simp only [perform, both, hrun, PlainMap.next]
    exact ⟨hlen, m', hroot, h', hm'⟩
  | rotateDataKey reenc =>
    obtain ⟨r, w', hrun, herr, m', hm', hroot, h'⟩ := h.run_rotateDataKey reenc hn
    simp only [perform, both, hrun, PlainMap.next]
    exact ⟨Or.inl herr, m', hroot, h', hm'⟩

/-- One step of a sealed barrier. -/
theorem stands_sealed {c : State} {p : PlainMap}
    (hopen : p.isOpen = false) (hmem : c.mem = none)
    (hload : loadStore E c.root c.world.store = .ok m) (hroot : m.rootKey = c.root)
    (h : Holds E m c.world.store p.map n) :
    PlainMap.SealedAnswers op (perform E c op).2 ∧
      (op ≠ .unsealBarrier → (perform E c op).1 = c) ∧ Stands E n (both E (c, p) op) := by
  obtain ⟨mem, w, root⟩ := c
  obtain ⟨map, isOpen⟩ := p
  simp only at hopen hmem hroot hload h
  subst hopen hmem hroot
  cases op with
  | unsealBarrier =>
    have hrun := run_unsealWith_ok hload
    simp only [perform, both, hrun, PlainMap.next]
    exact ⟨rfl, fun hne => absurd rfl hne, m, rfl, h, rfl⟩
  | _ => exact ⟨rfl, fun _ => rfl, m, rfl, h, rfl, hload⟩

theorem Holds.mono {s : Store} {map : Bytes → Option Bytes} {n' : Nat}
    (h : Holds E m s map n) (hn : n ≤ n') : Holds E m s map n' :=
  { h with count := by have := h.count; omega }

theorem stands_step {x : State × PlainMap} (hop : op.UserKey)
    (hn : n + op.rotations + 1 < 2 ^ 32) (h : Stands E n x) :
    Conforms E x op ∧ Stands E (n + op.rotations) (both E x op) := by
  obtain ⟨c, p⟩ := x
  obtain ⟨m, hroot, hholds, hmem⟩ := h
  unfold Conforms
  cases hopen : p.isOpen with
  | true =>
    simp only [hopen, if_true] at hmem ⊢
    exact stands_open hop hn hopen hmem hroot hholds
  | false =>
    simp only [hopen, Bool.false_eq_true, if_false] at hmem ⊢
    obtain ⟨hans, hsame, m', hroot', hholds', hmem'⟩ :=
      stands_sealed hopen hmem.1 hmem.2 hroot hholds
    exact ⟨⟨hans, hsame⟩, m', hroot', hholds'.mono (Nat.le_add_right n _), hmem'⟩

variable {version : Int64} {suite : Suite}

/-- A new store with keys by version stands for the empty map. -/
theorem stands_init {rootKey : Bytes} {w : World}
    (d : InitDraw suite version) (hsuite : lookupSuite E.suites suite.name = some suite)
    (hroot : rootKey.length = keySize) (h2 : 2 ≤ version) (hw : w.store = d.store rootKey ∅) :
    Stands E 0 (⟨none, w, rootKey⟩, PlainMap.new) := by
  obtain ⟨m, hload, heq⟩ := d.load ∅ hsuite hroot h2
  rw [← hw] at hload
  have hv : m.versioned = true := heq.versioned.trans (decide_eq_true h2)
  have hact : m.active = 1 := heq.active
  -- nothing is stored outside `barrier/`
  have hnone : ∀ q, ¬ Reserved q → w.store.lookup q = none := by
    intro q hq
    rw [hw, d.lookup_store hq, AList.lookup_empty]
  refine ⟨m, rootKey_of_loadStore hload, ⟨Fits.of_loadStore hload hv, stored_of_loadStore hload,
    ?_, ?_, ?_, ?_, ?_⟩, rfl, hload⟩
  · intro k hk
    rw [valueAt, hnone _ (not_reserved_phys hk)]
    rfl
  · intro q data hq hdata
    rw [hnone q hq] at hdata
    cases hdata
  · intro v _ k data body hk hdata
    rw [hnone k hk] at hdata
    cases hdata
  · rw [hact]
    decide
  · rw [hact]
    decide

variable {name : Bytes}

theorem refines_of_versioned
    (hsuite : lookupSuite E.suites name = some suite) (h2 : 2 ≤ version) :
    Refines E name version := by
  intro w rootKey ops hw hroot hkeys hcount
  obtain ⟨d, w', hrun, hstore⟩ := @run_initializeAt suite version E rootKey name w hsuite hroot
    (by rw [hw]; rfl)
  rw [hw] at hstore
  refine ⟨w', hrun, Meets.of_budget Op.rotations (2 ^ 32 - 2)
    (stands_init d (lookupSuite_name hsuite) hroot h2 hstore) hkeys (by omega) ?_⟩
  intro n x op hop hn hx
  exact stands_step hop (by omega) hx

/-! ## Stores without keys by version -/

/-- Below version 2 the keyring document itself is taken for the key. -/
theorem loadStore_unversioned (d : InitDraw suite version)
    (hsuite : lookupSuite E.suites suite.name = some suite) (rootKey : Bytes) (s : Store)
    (h2 : ¬ 2 ≤ version) : loadStore E rootKey (d.store rootKey s) =
      match suite.openData rootKey (suite.sealWith rootKey d.nonce
        (marshalKeyring 1 (AList.singleton 1 d.barrierKey) d.pathKey) keyringPath)
        (if decide (1 ≤ version) = true then keyringPath else []) with
      | none => .error .unsealFailed
      | some plain =>
          .ok ⟨AList.singleton 0 plain, 0, rootKey, suite, 1 ≤ version, false, [], none⟩ := by
  have h3 : ¬ 3 ≤ version := fun h => h2 (Int64.le_trans (by decide) h)
  have hflags : flagsOf version = ⟨1 ≤ version, false, false⟩ := by
    simp only [flagsOf, h2, h3, decide_false]
  have hmeta : (d.store rootKey s).lookup metaPath = some (metaJson version suite.name).encode := by
    rw [InitDraw.store, AList.lookup_insert_ne (by decide), lookup_metaPath_withMeta]
  unfold loadStore
  rw [hmeta, metaOf_metaJson hsuite, hflags, InitDraw.store, AList.lookup_insert]
  rfl

theorem run_put_badKey {w : World} (h : m.suite.newOK m.activeKey = false)
    (k v : Bytes) : run (handle E) (put E k v (some m)) w = (.error .newCipher, w) := by
  simp only [put, Unsealed.sealEntry, Suite.seal, h, Bool.false_eq_true, if_false, run_andThen,
    run_ret]

theorem not_refines
    (hsuite : lookupSuite E.suites name = some suite) (hbinds : suite.BindsData)
    (h2 : ¬ 2 ≤ version) : ¬ Refines E name version := by
  intro h
  let rootKey : Bytes := List.replicate keySize 0
  have hroot : rootKey.length = keySize := by simp [rootKey]
  obtain ⟨w', hrun, hunseal, hput, _⟩ := h ⟨∅, fun _ => 0⟩ rootKey
    [.unsealBarrier, .put (ascii "a") []] rfl hroot
    (by
      intro op hop
      simp only [mem_cons, not_mem_nil, or_false] at hop
      rcases hop with rfl | rfl
      · trivial
      · exact ⟨by decide, by decide⟩)
    (by simp [Op.rotations])
  obtain ⟨d, w'', hrun', hstore⟩ := @run_initializeAt suite version E rootKey name
    ⟨∅, fun _ => 0⟩ hsuite hroot rfl
  rw [hrun] at hrun'
  obtain rfl : w' = w'' := congrArg Prod.snd hrun'
  have hload := loadStore_unversioned d (lookupSuite_name hsuite) rootKey ∅ h2
  rw [← hstore] at hload
  by_cases h1 : 1 ≤ version
  · -- the barrier unseals, but the document is too long for a key
    rw [if_pos (decide_eq_true h1),
      suite.openData_sealWith (suite.newOK_of_length _ hroot) d.nonce_length] at hload
    have hlen := keySize_lt_marshalKeyring d.barrierKey_length d.pathKey
    have hbad :
        suite.newOK (marshalKeyring 1 (AList.singleton 1 d.barrierKey) d.pathKey) = false := by
      rw [Bool.eq_false_iff]
      intro hnew
      exact absurd (suite.length_of_newOK _ hnew) (by omega)
    have hmem := run_unsealWith_ok hload
    simp only [Conforms, both, perform, hmem, PlainMap.next, PlainMap.Answers, if_true] at hput
    rw [run_put_badKey (by rw [Unsealed.activeKey, lookup_singleton, if_pos rfl]; exact hbad)]
      at hput
    cases hput
  · -- the keyring was sealed with its path, and is opened without
    rw [if_neg (by simpa using h1), Suite.openData_other_aad hbinds d.nonce_length (by decide)]
      at hload
    have hmem := run_unsealWith_error hload
    simp only [Conforms, PlainMap.new, perform, hmem, PlainMap.SealedAnswers, Bool.false_eq_true,
      if_false, reduceCtorEq, false_and] at hunseal

/-- Over every cipher suite, the barrier initialised at a metadata version refines the plain
    map exactly when the version has keys by version. -/
theorem barrier_refines_plainMap_iff
    (hsuite : lookupSuite E.suites name = some suite) (hbinds : suite.BindsData) (version : Int64) :
    Refines E name version ↔ 2 ≤ version := by
  constructor
  · intro h
    by_contra h2
    exact not_refines hsuite hbinds h2 h
  · exact refines_of_versioned hsuite

end

/-- The current version refines the plain map over the clear suite. -/
theorem plainSuite_refines_plainMap : Refines plainEnv suiteAES256GCM 3 :=
  (barrier_refines_plainMap_iff rfl plainSuite_bindsData 3).mpr (by decide)

/-- A barrier initialised at a version and unsealed, then one entry written: what `Unseal` and
    `Put` return. -/
def initUnsealPut (version : Int64) : Except Err Unit × Except Err Unit × Except Err Unit :=
  (run (handle plainEnv) ((initializeAt plainEnv (plainKey 7) [] version).bind fun i =>
    (unsealWith plainEnv (plainKey 7) none).bind fun u =>
      (put plainEnv (ascii "a") (ascii "v") u.1).bind fun p => ret (i, u.2, p))
    ⟨∅, fun _ => 9⟩).1

/-- At versions 0 and 1 initialisation succeeds and leaves a store that cannot be used: it does
    not unseal, or it unseals and refuses every write. -/
theorem initUnsealPut_old_versions :
    initUnsealPut 0 = (.ok (), .error .unsealFailed, .error .sealed) ∧
    initUnsealPut 1 = (.ok (), .ok (), .error .newCipher) ∧
    initUnsealPut 2 = (.ok (), .ok (), .ok ()) := by
  decide +kernel

end Tuck.Barrier
