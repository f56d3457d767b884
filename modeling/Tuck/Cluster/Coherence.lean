/-
  Keyring coherence of a cluster. In a calm state, with no rotation running, the keyring in
  the store fits every node's memory (one format, one active key, the same data entries
  readable), and what is left of each running operation keeps it so. A rotation or rekeying
  runs alone, and its specification holds of the rest of it. Each event that meets its
  condition keeps one of the two; so every run from an initialised store is coherent.
-/
import Tuck.Cluster.Machine

namespace Tuck.Cluster

open Tuck.Base Host Tuck.Barrier Prog

variable {ι : Type} {E : Env} {suite : Suite}

/-! ## The stored keyring -/

/-- The memory `m` of a node goes with the stored keyring `d`. -/
structure Attached (E : Env) (s : Store) (d m : Unsealed) : Prop where
  fits : Fits E m s
  agree : Agree d m
  values : SameValues secretKeys d s m s

/-- The stored keyring `d` is sound for the root key and the memories. -/
structure Sound (E : Env) (suite : Suite) (root : Bytes) (mem : ι → Memory) (s : Store)
    (d : Unsealed) : Prop where
  load : loadStore E root s = .ok d
  versioned : d.versioned = true
  suite_eq : d.suite = suite
  sealedUnder : SealedUnder suite root s
  readable : Readable secretKeys d s
  nodes : ∀ i m, mem i = some m → Attached E s d m

section

variable {root : Bytes} {mem mem' : ι → Memory} {s t : Store} {d m : Unsealed}
  (h : Sound E suite root mem s d)

include h

theorem Sound.fits : Fits E d s :=
  Fits.of_loadStore h.load h.versioned

theorem Attached.refl : Attached E s d d :=
  ⟨h.fits, Agree.refl d, SameValues.refl d _⟩

theorem Sound.fewer (hmem : ∀ i m, mem' i = some m → mem i = some m) :
    Sound E suite root mem' s d :=
  { h with nodes := fun i m hm => h.nodes i m (hmem i m hm) }

theorem Sound.readable_node {i : ι} (hm : mem i = some m) : Readable secretKeys m s :=
  (h.nodes i m hm).values.readable h.readable

/-- An entry is written under the active key, removed, or is the wrapped root key. -/
theorem Sound.update {q : Bytes} (hq : ¬ Reserved q)
    (hoff : ∀ k, k ≠ q → t.lookup k = s.lookup k)
    (hat : q = sealMetaKey ∨ AtActive d t q ∧
      ∀ data, t.lookup q = some data → (d.openEntry q data).isSome = true) :
    Sound E suite root mem t d where
  load := by
    rw [loadStore_congr fun k hk => hoff k (by rintro rfl; exact hq hk)]
    exact h.load
  versioned := h.versioned
  suite_eq := h.suite_eq
  sealedUnder := by
    obtain ⟨n, plain, aad, hn, hl⟩ := h.sealedUnder
    refine ⟨n, plain, aad, hn, ?_⟩
    rw [hoff _ (by rintro rfl; exact hq reserved_keyringPath)]
    exact hl
  readable := by
    intro k data hk hdata
    by_cases he : k = q
    · subst he
      exact (hat.resolve_left hk.2).2 data hdata
    · rw [hoff k he] at hdata
      exact h.readable k data hk hdata
  nodes := by
    intro i m hm
    obtain ⟨hfits, hag, hval⟩ := h.nodes i m hm
    refine ⟨hfits.of_meta (hoff _ (by rintro rfl; exact hq reserved_metaPath)), hag, ?_⟩
    rcases hat with rfl | ⟨hat, _⟩
    · intro k hk
      unfold valueAt
      rw [hoff k hk.2]
      exact hval k hk
    · exact hval.update hag h.versioned hoff hat

/-- Nothing but the sealed keyring record depends on the root key that opens it. -/
theorem Sound.eq_root (hkey : suite.BindsKey) {rootKey : Bytes}
    (hload : loadStore E rootKey s = .ok m) : rootKey = root := by
  by_contra hne
  obtain ⟨n, plain, aad, hn, hl⟩ := h.sealedUnder
  have hfits := h.fits
  have hnew : suite.newOK root = true := by
    rw [← h.suite_eq, ← rootKey_of_loadStore h.load]
    exact hfits.root
  unfold loadStore at hload
  rw [hl, hfits.storeMeta, h.suite_eq] at hload
  simp only [openKeyring, Suite.openData_other_key hkey hn hnew (Ne.symm hne)] at hload
  cases hload

/-- A new root key: only the keyring record changes. -/
theorem Sound.rekeyed (hm : Attached E s d m) {newRoot n : Bytes}
    (hnew : m.suite.newOK newRoot = true) (hn : n.length = m.suite.nonceSize)
    (hnodes : ∀ i m', mem' i = some m' → Attached E s d m') :
    ∃ d', Sound E suite newRoot mem' (s.insert keyringPath (keyringRecord m newRoot n)) d' := by
  obtain ⟨d', hload, heq⟩ := load_keyringRecord hm.fits hnew hn
  have hsuite : m.suite = suite := hm.agree.format.suite.trans h.suite_eq
  have hag : Agree d d' := hm.agree.trans ⟨{ heq.sameFormat with }, heq.active, heq.keys _⟩
  have hkeep : ∀ m', SameValues secretKeys m' s m'
      (s.insert keyringPath (keyringRecord m newRoot n)) :=
    fun m' => sameValues_insert_reserved reserved_keyringPath
  have hval := (hm.values.trans (hkeep m)).trans (heq.sameValues hm.fits.versioned _)
  refine ⟨d', hload, heq.versioned.trans hm.fits.versioned, heq.suite.trans hsuite, ?_,
    hval.readable h.readable, fun i m' hm' => ?_⟩
  · refine ⟨n, m.keyringPlain, m.aadFor keyringPath, hsuite ▸ hn, ?_⟩
    rw [AList.lookup_insert, keyringRecord, hsuite]
  · have ha := hnodes i m' hm'
    exact ⟨ha.fits.of_meta (AList.lookup_insert_ne (by decide)), hag.symm.trans ha.agree,
      hval.symm.trans (ha.values.trans (hkeep m'))⟩

/-- Any point of a rotation by a node that holds the current root key. -/
theorem Sound.rotated (hm : Attached E s d m) (hroot : m.rootKey = root) {m' : Unsealed}
    (hrot : Rotating E m s m' t) :
    ∃ d', ∀ mem' : ι → Memory, (∀ i m, mem' i = some m → m = m') →
      Sound E suite root mem' t d' := by
  obtain ⟨d', hload, hag, hval⟩ :=
    hrot.stored _ ⟨d, by rw [hroot]; exact h.load, hm.agree.symm, hm.values.symm⟩
  have hsuite : m.suite = suite := hm.agree.format.suite.trans h.suite_eq
  have hatt : Attached E t d' m' := ⟨hrot.fits, hag.symm, hval.symm⟩
  rw [hrot.rootKey, hroot] at hload
  have hsealed := hrot.sealedUnder
  rw [hsuite, hroot] at hsealed
  exact ⟨d', fun mem' hmem => ⟨hload, hag.format.versioned.trans hrot.fits.versioned,
    (hag.format.suite.trans hrot.format.suite).trans hsuite, hsealed h.sealedUnder,
    hval.readable (hrot.values.of_all.readable (hm.values.readable h.readable)),
    fun i m hi => hmem i m hi ▸ hatt⟩⟩

end

/-! ## Operations that leave the keyring -/

/-- The records under `barrier/` are the same. -/
def SameRecords (s t : Store) : Prop := ∀ k, Reserved k → t.lookup k = s.lookup k

/-- A call that the keyring `d` stands: it writes entries that `d` opens. -/
def Mild (unseals : Bool) (d : Unsealed) : Call → Prop
  | .get _ => unseals = true
  | .put k v => k = sealMetaKey ∨ ¬ Reserved k ∧ (∃ body, takeBe32 v = some (d.active, body)) ∧
      (d.openEntry k v).isSome = true
  | .delete k => ¬ Reserved k
  | _ => True

/-- What can be replied while the keyring is not written. -/
def Fixed (s : Store) : (q : Call) → q.Reply → Prop
  | .get k, r => Reserved k → r = s.lookup k
  | .rand n, r => r.length = n
  | _, _ => True

/-- What is left of the operation makes mild calls; it sets no root key, and no memory but that
    of an unsealing, which is the stored keyring. -/
def Task.Mild (s : Store) (d : Unsealed) (t : Task ι) : Prop :=
  Traced (fun _ _ _ => ()) (Fixed s) (fun _ => Cluster.Mild t.op.unseals d)
    (fun _ r => r.root = none ∧
      ∀ m, r.memory = some m → t.op.unseals = true ∧ ∀ m', m = some m' → m' = d) () t.code

section

variable {root : Bytes} {mem : ι → Memory} {s : Store} {d m : Unsealed} {w : World}

theorem Sound.handle {unseals : Bool} (h : Sound E suite root mem w.store d) {q : Call}
    (hq : Mild unseals d q) : Sound E suite root mem (handle E q w).2.store d ∧
      SameRecords w.store (handle E q w).2.store := by
  cases q with
  | put k v =>
    have hres : ¬ Reserved k := hq.elim (fun h => h ▸ by decide) And.left
    refine ⟨h.update hres (fun k' hk' => AList.lookup_insert_ne hk') (hq.imp_right ?_),
      fun k' hk' => AList.lookup_insert_ne (by rintro rfl; exact hres hk')⟩
    rintro ⟨-, hver, hopen⟩
    refine ⟨atActive_insert hver (Or.inl rfl), fun data hdata => ?_⟩
    rw [Host.handle, AList.lookup_insert] at hdata
    exact Option.some.inj hdata ▸ hopen
  | delete k =>
    have hnone : (w.store.erase k).lookup k = none := AList.lookup_erase ..
    exact ⟨h.update hq (fun k' hk' => AList.lookup_erase_ne hk')
      (Or.inr ⟨atActive_of_none hnone, fun data hdata => by cases hnone.symm.trans hdata⟩),
      fun k' hk' => AList.lookup_erase_ne (by rintro rfl; exact hq hk')⟩
  | _ => exact ⟨h, fun _ _ => rfl⟩

theorem Task.Mild.congr {s' : Store} {t : Task ι} (h : t.Mild s d) (hs : SameRecords s s') :
    t.Mild s' d := by
  refine Traced.mono h (fun q r hr => ?_) fun _ _ hq => hq
  cases q with
  | get k => exact fun hk => (hr hk).trans (hs k hk)
  | _ => exact hr

/-- Sealing an entry with an attached memory and writing it. -/
theorem mild_put (hm : Attached E s d m) (i : ι) (key : UserKey) (value : Bytes) :
    Task.Mild s d ⟨i, .put key value, (Op.put key value).code E (some m)⟩ := by
  have hnew := m.suite.newOK_of_length _ hm.fits.activeKey.2
  have hcode : (Op.put key value).code E (some m) = .call (.rand m.suite.nonceSize) fun
      | none => ret ⟨none, none⟩
      | some n => .call (.put (m.phys E key.1) (entryRecord m (m.phys E key.1) value n))
          fun _ => ret ⟨none, none⟩ := by
    simp only [Op.code, Barrier.put, Unsealed.sealEntry, Suite.seal, if_pos hnew]
    refine congrArg (Prog.call _) (funext fun r => ?_)
    cases r with
    | none => rfl
    | some n => exact congrArg (Prog.call _) (funext fun r => by cases r <;> rfl)
  have hdone : ∀ m', (none : Option Memory) = some m' →
      (Op.put key value).unseals = true ∧ ∀ m'', m' = some m'' → m'' = d := fun m' h => by cases h
  unfold Task.Mild
  rw [hcode]
  refine ⟨trivial, ⟨rfl, hdone⟩, fun n hn => ⟨Or.inr ⟨not_reserved_phys key.2, ?_, ?_⟩,
    ⟨rfl, hdone⟩, fun _ _ => ⟨rfl, hdone⟩⟩⟩
  · exact ⟨_, by rw [← hm.agree.active]; exact entryVersion_frame hm.fits.versioned _⟩
  · rw [openEntry_congr hm.agree.format.symm hm.fits.versioned fun ver body hd => ?_,
      openEntry_entryRecord hm.fits hn]
    · rfl
    · cases (entryVersion_frame hm.fits.versioned _).symm.trans hd
      exact hm.agree.symm.activeKey

/-- Unsealing reads the keyring record and the metadata, and loads the stored keyring. -/
theorem mild_unsealWith {rootKey : Bytes} (hload : ∀ m, loadStore E rootKey s = .ok m → m = d)
    (i : ι) :
    Task.Mild s d ⟨i, .unsealWith rootKey, (Op.unsealWith rootKey).code E none⟩ := by
  have hfail : ∀ m, some (none : Memory) = some m →
      (Op.unsealWith rootKey).unseals = true ∧ ∀ m', m = some m' → m' = d := by
    intro m hm
    cases hm
    exact ⟨rfl, fun m' h => by cases h⟩
  refine ⟨rfl, ⟨rfl, hfail⟩, fun r hr => ?_⟩
  have hr := hr reserved_keyringPath
  cases r with
  | none => exact ⟨rfl, hfail⟩
  | some wrapped =>
    refine ⟨rfl, ⟨rfl, hfail⟩, fun raw hraw => ?_⟩
    have hraw := hraw reserved_metaPath
    change Traced _ _ _ _ _ (bind (bind (andThen (ret (metaOf E raw)) _) _) _)
    cases hmeta : metaOf E raw with
    | error e => exact ⟨rfl, hfail⟩
    | ok sf =>
      change Traced _ _ _ _ _ (bind (bind (ret (openKeyring E rootKey wrapped sf.1 sf.2)) _) _)
      cases hopen : openKeyring E rootKey wrapped sf.1 sf.2 with
      | error e => exact ⟨rfl, hfail⟩
      | ok m =>
        refine ⟨rfl, fun m' hm' => ⟨rfl, fun m'' hm'' => ?_⟩⟩
        cases hm'
        cases hm''
        refine hload m ?_
        unfold loadStore
        rw [← hr, ← hraw]
        simp only [hmeta, hopen]

end

/-! ## Calls -/

/-- How a call of node `i` can end. -/
inductive Served (E : Env) (c : System ι) (i : ι) (o : Outcome) (q : Call) :
    Option q.Reply → System ι → Prop
  | failed : Served E c i o q none c
  | read (hq : q.isWrite = false) :
      Served E c i o q (some (handle E q ⟨c.view i, c.world.rng⟩).1)
        { c with world := ⟨c.world.store, (handle E q ⟨c.view i, c.world.rng⟩).2.rng⟩ }
  | write (hq : q.isWrite = true) (r : Option q.Reply) (behind : ι → List Store)
      (hbehind : ∀ j, ∀ u ∈ behind j, u ∈ c.behind j ∨ u = c.world.store)
      (hok : o ≠ .lost → r = some (handle E q c.world).1 ∧ behind i = []) :
      Served E c i o q r { c with world := (handle E q c.world).2, behind := behind }

section

variable {c : System ι} {i : ι} {o : Outcome} {q : Call}

theorem served_request [DecidableEq ι] (c : System ι) (i : ι) (o : Outcome) (q : Call) :
    Served E c i o q (c.request E i o q).1 (c.request E i o q).2 := by
  have hlast : ∀ j, ∀ u ∈ c.behind j ++ [c.world.store], u ∈ c.behind j ∨ u = c.world.store :=
    fun j u hu => (List.mem_append.1 hu).imp_right List.mem_singleton.1
  unfold System.request
  split_ifs with hq hfail hlost hok
  · exact .failed
  · exact .write hq none _ hlast fun h => absurd hlost h
  · refine .write hq _ _ (fun j u hu => ?_) fun _ => ⟨rfl, Function.update_self ..⟩
    rw [Function.update_apply] at hu
    split_ifs at hu
    · cases hu
    · exact hlast j u hu
  · exact .read (by simpa using hq)
  · exact .failed

/-- A reply that a node can get while its records are those of the store. -/
theorem fixed_handle {s : Store} {w : World} (hs : ∀ k, q = .get k → SameRecords s w.store) :
    Fixed s q (handle E q w).1 := by
  cases q with
  | get k => exact fun hk => hs k rfl k hk
  | rand n => exact Rng.take_length w.rng n
  | _ => trivial

theorem handle_read (hq : q.isWrite = false) (w : World) :
    (handle E q w).2 = ⟨w.store, (handle E q w).2.rng⟩ := by
  cases q with
  | put k v => cases hq
  | delete k => cases hq
  | _ => rfl

theorem view_eq_or_mem (c : System ι) (i : ι) :
    c.view i = c.world.store ∨ c.view i ∈ c.behind i := by
  unfold System.view
  cases c.behind i with
  | nil => exact Or.inl rfl
  | cons u us => exact Or.inr List.mem_cons_self

end

/-! ## Calm states -/

/-- A running operation that leaves the keyring; the states `us` that an unsealing node has
    still to go through have the same keyring. -/
structure Task.Fine (s : Store) (us : List Store) (d : Unsealed) (t : Task ι) : Prop where
  rewrites : t.op.rewrites = false
  mild : t.Mild s d
  recent : t.op.unseals = true → ∀ u ∈ us, SameRecords s u ∧ Readable secretKeys d u

/-- No rotation is running, and the keyring is sound. -/
structure Calm (E : Env) (suite : Suite) (c : System ι) (d : Unsealed) : Prop where
  sound : Sound E suite c.root c.mem c.world.store d
  tasks : ∀ t ∈ c.tasks, t.running = true → t.Fine c.world.store (c.behind t.node) d
  behind : ∀ i m, c.mem i = some m → ∀ u ∈ c.behind i, Readable secretKeys m u

section

variable {c : System ι} {d : Unsealed} {t : Task ι} {w : World}

/-- The committed store goes on from `s`, and the node goes on or falls behind. -/
theorem Task.Fine.advance {s s' : Store} {us us' : List Store} (h : t.Fine s us d)
    (hread : Readable secretKeys d s) (hrec : SameRecords s s')
    (hus : ∀ u ∈ us', u ∈ us ∨ u = s) : t.Fine s' us' d where
  rewrites := h.rewrites
  mild := h.mild.congr hrec
  recent hun u hu := by
    rcases hus u hu with hold | rfl
    · obtain ⟨hsame, hopen⟩ := h.recent hun u hold
      exact ⟨fun k hk => (hsame k hk).trans (hrec k hk).symm, hopen⟩
    · exact ⟨fun k hk => (hrec k hk).symm, hread⟩

theorem Calm.advance (h : Calm E suite c d) {behind : ι → List Store}
    (hs : Sound E suite c.root c.mem w.store d) (hrec : SameRecords c.world.store w.store)
    (hb : ∀ j, ∀ u ∈ behind j, u ∈ c.behind j ∨ u = c.world.store) :
    Calm E suite { c with world := w, behind := behind } d where
  sound := hs
  tasks t ht hrun := (h.tasks t ht hrun).advance h.sound.readable hrec (hb t.node)
  behind i m hm u hu := by
    rcases hb i u hu with hold | rfl
    · exact h.behind i m hm u hold
    · exact h.sound.readable_node hm

/-- A fine task makes its next call. -/
theorem Calm.served (h : Calm E suite c d) {i : ι} {op : Op} {q : Call}
    {k : Option q.Reply → Code Result}
    (ht : Task.Fine c.world.store (c.behind i) d ⟨i, op, .call q k⟩) {o : Outcome}
    {r : Option q.Reply} {c' : System ι} (hc : Served E c i o q r c') :
    Calm E suite c' d ∧ c'.tasks = c.tasks ∧
      Task.Fine c'.world.store (c'.behind i) d ⟨i, op, k r⟩ := by
  obtain ⟨hrw, ⟨hq, hnone, hsome⟩, hrecent⟩ := ht
  cases hc with
  | failed => exact ⟨h, rfl, hrw, hnone, hrecent⟩
  | read hread =>
    refine ⟨h.advance h.sound (fun _ _ => rfl) fun _ _ => Or.inl, rfl, hrw,
      hsome _ (fixed_handle fun key hkey => ?_), hrecent⟩
    subst hkey
    rcases view_eq_or_mem c i with heq | hmem
    · exact fun _ _ => by rw [heq]
    · exact (hrecent hq _ hmem).1
  | write hwrite r behind hbehind hok =>
    obtain ⟨hs, hrec⟩ := h.sound.handle hq
    have hfixed (a : q.Reply) : Fixed c.world.store q a := by
      cases q with
      | put key v => trivial
      | delete key => trivial
      | _ => cases hwrite
    have hnext : Task.Fine c.world.store (c.behind i) d ⟨i, op, k r⟩ := by
      refine ⟨hrw, ?_, hrecent⟩
      cases r with
      | none => exact hnone
      | some a => exact hsome a (hfixed a)
    exact ⟨h.advance hs hrec hbehind, rfl, hnext.advance h.sound.readable hrec (hbehind i)⟩

variable [DecidableEq ι]

/-- A fine task returns, or goes on. -/
theorem Calm.settle (h : Calm E suite c d) {ts : List (Task ι)}
    (ht : t.Fine c.world.store (c.behind t.node) d) (hts : ∀ t' ∈ ts, t' ∈ c.tasks ∨ t' = t) :
    Calm E suite (System.settle { c with tasks := ts } t) d := by
  have htasks : ∀ t' ∈ ts, t'.running = true → t'.Fine c.world.store (c.behind t'.node) d :=
    fun t' ht' hrun => (hts t' ht').elim (fun hold => h.tasks t' hold hrun) fun heq => heq ▸ ht
  obtain ⟨i, op, code⟩ := t
  cases code with
  | call q k => exact ⟨h.sound, htasks, h.behind⟩
  | ret r =>
    obtain ⟨memory, root⟩ := r
    obtain ⟨rfl, hmem⟩ : root = none ∧ _ := ht.mild
    cases memory with
    | none => exact ⟨h.sound, htasks, h.behind⟩
    | some m =>
      obtain ⟨hun, hm⟩ := hmem m rfl
      have hnode (j : ι) (m' : Unsealed) (hj : Function.update c.mem i m j = some m') :
          c.mem j = some m' ∨ j = i ∧ m' = d := by
        rw [Function.update_apply] at hj
        split_ifs at hj with hji
        · exact Or.inr ⟨hji, hm m' hj⟩
        · exact Or.inl hj
      refine ⟨{ h.sound with nodes := fun j m' hj => ?_ }, htasks, fun j m' hj u hu => ?_⟩
      · rcases hnode j m' hj with hold | ⟨-, rfl⟩
        · exact h.sound.nodes j m' hold
        · exact Attached.refl h.sound
      · rcases hnode j m' hj with hold | ⟨rfl, rfl⟩
        · exact h.behind j m' hold u hu
        · exact (ht.recent hun u hu).2

end

/-! ## Rotations -/

section

variable [DecidableEq ι] {c : System ι} {n : Nat} {t : Task ι} {d m : Unsealed} {i : ι}

/-- What is left of a rotation on node `i`: were the node to stop, the keyring would be sound
    for the others, and when the rotation returns it will be for all. -/
def Rotates (E : Env) (suite : Suite) (c : System ι) (i : ι) : Code Result → World → Prop :=
  Prog.Safe (handle E) True
    (fun w => ∃ d, Sound E suite c.root (Function.update c.mem i none) w.store d)
    fun r w => ∃ d, Sound E suite (r.root.getD c.root)
      (r.memory.elim c.mem (Function.update c.mem i)) w.store d

/-- Only the task `n` is running, and it writes the keyring. -/
structure Rewriting (E : Env) (suite : Suite) (c : System ι) (n : Nat) (t : Task ι) : Prop where
  task : c.tasks[n]? = some t
  alone : ∀ n' t', c.tasks[n']? = some t' → t'.running = true → n' = n
  rewrites : t.op.rewrites = true
  current : c.behind t.node = []
  behind : ∀ i m, i ≠ t.node → c.mem i = some m → ∀ u ∈ c.behind i, Readable secretKeys m u
  rest : Rotates E suite c t.node t.code c.world

/-- The invariant of a run. -/
def Inv (E : Env) (suite : Suite) (c : System ι) : Prop :=
  (∃ d, Calm E suite c d) ∨ ∃ n t, t.running = true ∧ Rewriting E suite c n t

theorem Rewriting.eq_task (h : Rewriting E suite c n t) {t' : Task ι} (ht' : t' ∈ c.tasks)
    (hrun : t'.running = true) : t' = t := by
  obtain ⟨n', hn'⟩ := List.mem_iff_getElem?.1 ht'
  rw [h.alone n' t' hn' hrun, h.task] at hn'
  exact (Option.some.inj hn').symm

/-- The keyring is sound for the other nodes. -/
theorem Rewriting.sound (h : Rewriting E suite c n t) (hrun : t.running = true) :
    ∃ d, Sound E suite c.root (Function.update c.mem t.node none) c.world.store d := by
  obtain ⟨i, op, code⟩ := t
  cases code with
  | ret r => cases hrun
  | call q k => exact h.rest.1

/-- The rotation returns, or goes on. -/
theorem Rewriting.settle (h : Rewriting E suite c n t) : Inv E suite (c.settle t) := by
  obtain ⟨i, op, code⟩ := t
  cases code with
  | call q k => exact Or.inr ⟨n, _, rfl, h⟩
  | ret r =>
    obtain ⟨d, hd⟩ := h.rest
    refine Or.inl ⟨d, hd, fun t' ht' hrun => ?_, fun j m hm u hu => ?_⟩
    · rw [h.eq_task ht' hrun] at hrun
      cases hrun
    · by_cases hj : j = i
      · have hu' : u ∈ c.behind i := hj ▸ hu
        rw [show c.behind i = [] from h.current] at hu'
        cases hu'
      · refine h.behind j m hj ?_ u hu
        obtain ⟨memory, root⟩ := r
        cases memory with
        | none => exact hm
        | some m' => exact (Function.update_of_ne hj ..).symm.trans hm

theorem of_update_none {mem : ι → Memory} {j : ι}
    (h : Function.update mem i none j = some m) : j ≠ i ∧ mem j = some m := by
  rw [Function.update_apply] at h
  split_ifs at h with hj
  exact ⟨hj, h⟩

theorem mem_of_update_tail {behind : ι → List Store} {j : ι} {u : Store}
    (h : u ∈ Function.update behind i (behind i).tail j) : u ∈ behind j := by
  rw [Function.update_apply] at h
  split_ifs at h with hj
  · exact hj ▸ List.mem_of_mem_tail h
  · exact h

/-- Another node is sealed. -/
theorem Rewriting.fewer (h : Rewriting E suite c n t) {j : ι} (hj : j ≠ t.node) :
    Rewriting E suite { c with mem := Function.update c.mem j none } n t := by
  have hless (mem : Memory) (i : ι) (m : Unsealed)
      (hm : Function.update (Function.update c.mem j none) t.node mem i = some m) :
      Function.update c.mem t.node mem i = some m := by
    rw [Function.update_comm hj] at hm
    exact (of_update_none hm).2
  refine { h with
    behind := fun i m hi hm => h.behind i m hi (of_update_none hm).2, rest := h.rest.imp ?_ ?_ }
  · rintro w ⟨d, hd⟩
    exact ⟨d, hd.fewer (hless none)⟩
  · rintro ⟨memory, root⟩ w ⟨d, hd⟩
    cases memory with
    | none => exact ⟨d, hd.fewer fun i m hm => (of_update_none hm).2⟩
    | some mem => exact ⟨d, hd.fewer (hless mem)⟩

/-- The rotation makes its next call. -/
theorem Rewriting.served {op : Op} {q : Call} {k : Option q.Reply → Code Result}
    (h : Rewriting E suite c n ⟨i, op, .call q k⟩) {o : Outcome} (ho : o ≠ .lost)
    {r : Option q.Reply} {c' : System ι} (hc : Served E c i o q r c') :
    Inv E suite (c'.resume n ⟨i, op, k r⟩) := by
  obtain ⟨d, hd⟩ := h.sound rfl
  obtain ⟨htask, halone, hrewrites, hcurrent, hbehind, hrest⟩ := h
  have hlen : n < c.tasks.length := (List.getElem?_eq_some_iff.1 htask).1
  have halone' (t : Task ι) : ∀ n' t', (c.tasks.set n t)[n']? = some t' →
      t'.running = true → n' = n := by
    intro n' t' ht' hrun
    by_contra hne
    rw [List.getElem?_set_ne (Ne.symm hne)] at ht'
    exact hne (halone n' t' ht' hrun)
  refine Rewriting.settle (n := n) ?_
  cases hc with
  | failed =>
    exact ⟨List.getElem?_set_self hlen, halone' _, hrewrites, hcurrent, hbehind,
      hrest.2.1 trivial⟩
  | read hread =>
    have hview : c.view i = c.world.store := by rw [System.view, hcurrent]; rfl
    refine ⟨List.getElem?_set_self hlen, halone' _, hrewrites, hcurrent, hbehind, ?_⟩
    have hnext := hrest.2.2
    rw [handle_read hread] at hnext
    rw [hview]
    exact hnext
  | write hwrite r behind hb hok =>
    obtain ⟨rfl, hnode⟩ := hok ho
    refine ⟨List.getElem?_set_self hlen, halone' _, hrewrites, hnode, fun j m hj hm u hu => ?_,
      hrest.2.2⟩
    rcases hb j u hu with hold | rfl
    · exact hbehind j m hj hm u hold
    · exact hd.readable_node (i := j) ((Function.update_of_ne hj ..).trans hm)

section

variable (h : Calm E suite c d)

include h

/-- A rotation starts. -/
theorem Calm.launch_rotation {op : Op} (hop : op.rewrites = true)
    (hquiet : c.Quiet i) {code : Code Result} (hrest : Rotates E suite c i code c.world) :
    Inv E suite (c.launch ⟨i, op, code⟩) := by
  refine Rewriting.settle (n := c.tasks.length) ⟨List.getElem?_concat_length .., ?_, hop, hquiet.2,
    fun j m _ hm => h.behind j m hm, hrest⟩
  intro n' t' ht' hrun
  by_contra hne
  have hlt : n' < c.tasks.length := by
    have := (List.getElem?_eq_some_iff.1 ht').1
    rw [List.length_append, List.length_singleton] at this
    omega
  rw [List.getElem?_append_left hlt] at ht'
  rw [hquiet.1 t' (List.mem_of_getElem? ht')] at hrun
  cases hrun

theorem Calm.rotateDataKey {reenc : Bool} (hm : c.mem i = some m)
    (hfit : (Op.rotateDataKey reenc).Fit c i) :
    Inv E suite (c.launch ⟨i, .rotateDataKey reenc, (Op.rotateDataKey reenc).code E (some m)⟩) := by
  obtain ⟨hquiet, hothers, hroot, hroom⟩ := hfit m hm
  have hatt := h.sound.nodes i m hm
  have hone (m' : Unsealed) (mem : Memory) (hmem : ∀ m, mem = some m → m = m') (j : ι)
      (m'' : Unsealed) (hj : Function.update c.mem i mem j = some m'') : m'' = m' := by
    rw [Function.update_apply] at hj
    split_ifs at hj with hji
    · exact hmem m'' hj
    · rw [hothers j hji] at hj
      cases hj
  refine h.launch_rotation rfl hquiet
    (Prog.Safe.bind ((safe_rotateDataKey hatt.fits hroom ?_).imp (fun _ hw => hw) ?_))
  · rintro w' ⟨m', hrot⟩
    obtain ⟨d', hd'⟩ := h.sound.rotated hatt hroot hrot
    exact ⟨d', hd' _ (hone m' none fun m hm => by cases hm)⟩
  · rintro ⟨r, res⟩ w ⟨m', rfl, hend⟩
    obtain ⟨d', hd'⟩ := h.sound.rotated hatt hroot hend.rotating
    exact ⟨d', hd' _ (hone m' (some m') fun m hm => (Option.some.inj hm).symm)⟩

theorem Calm.rekey {newRoot : Bytes} (hm : c.mem i = some m) (hquiet : c.Quiet i) :
    Inv E suite (c.launch ⟨i, .rekey newRoot, (Op.rekey newRoot).code E (some m)⟩) := by
  have hatt := h.sound.nodes i m hm
  refine h.launch_rotation rfl hquiet (Prog.Safe.bind (safe_rekey (fun r => ⟨d, ?_⟩)
    (fun _ e r => ⟨d, ?_⟩) fun hnew n r hn => h.sound.rekeyed hatt hnew hn ?_))
  · exact h.sound.fewer fun j m' hj => (of_update_none hj).2
  · change Sound E suite c.root (Function.update c.mem i (some m)) c.world.store d
    rw [← hm, Function.update_eq_self]
    exact h.sound
  · intro j m' hj
    change Function.update c.mem i (some { m with rootKey := newRoot }) j = some m' at hj
    rw [Function.update_apply] at hj
    split_ifs at hj
    · cases hj
      exact ⟨{ hatt.fits with root := hnew }, ⟨{ hatt.agree.format with }, hatt.agree.active,
        hatt.agree.activeKey⟩, hatt.values⟩
    · exact h.sound.nodes j m' hj

/-! ## The events -/

/-- A node starts an operation that leaves the keyring. -/
theorem Calm.launch (ht : t.Fine c.world.store (c.behind t.node) d) :
    Inv E suite (c.launch t) :=
  Or.inl ⟨d, h.settle ht fun _ ht' => (List.mem_append.1 ht').imp_right List.mem_singleton.1⟩

/-- A node starts an operation for which it has the wrong memory. -/
theorem Calm.launch_idle {op : Op} {mem : Memory} (hmem : c.mem i = mem) :
    Inv E suite (c.launch ⟨i, op, .ret ⟨some mem, none⟩⟩) := by
  subst hmem
  refine Or.inl ⟨d, ?_, fun t' ht' hrun => ?_, fun j m hm => h.behind j m ?_⟩
  · change Sound E suite c.root (Function.update c.mem i (c.mem i)) c.world.store d
    rw [Function.update_eq_self]
    exact h.sound
  · rcases List.mem_append.1 ht' with hold | hnew
    · exact h.tasks t' hold hrun
    · rw [List.mem_singleton.1 hnew] at hrun
      cases hrun
  · change Function.update c.mem i (c.mem i) j = some m at hm
    rwa [Function.update_eq_self] at hm

theorem Calm.start (hkey : suite.BindsKey) {op : Op} (hfit : op.Fit c i) :
    Inv E suite (c.launch ⟨i, op, op.code E (c.mem i)⟩) := by
  have hno {op : Op} : ∀ m, (none : Option Memory) = some m →
      op.unseals = true ∧ ∀ m', m = some m' → m' = d := fun m hm => by cases hm
  cases hm : c.mem i with
  | none =>
    cases op with
    | unsealWith rootKey =>
      refine h.launch ⟨rfl, mild_unsealWith (fun m hload => ?_) i, fun _ u hu => ?_⟩
      · obtain rfl := h.sound.eq_root hkey hload
        rw [h.sound.load] at hload
        cases hload
        rfl
      · rw [show c.behind i = [] from hfit hm] at hu
        cases hu
    | put key value => exact h.launch ⟨rfl, ⟨rfl, hno⟩, fun hun => by cases hun⟩
    | delete key => exact h.launch ⟨rfl, ⟨rfl, hno⟩, fun hun => by cases hun⟩
    | publishSealMeta wrapped =>
      exact h.launch ⟨rfl, ⟨Or.inl rfl, ⟨rfl, hno⟩, fun _ _ => ⟨rfl, hno⟩⟩, fun hun => by cases hun⟩
    | rotateDataKey reenc => exact h.launch_idle hm
    | rekey newRoot => exact h.launch_idle hm
  | some m =>
    cases op with
    | unsealWith rootKey => exact h.launch_idle hm
    | put key value =>
      exact h.launch ⟨rfl, mild_put (h.sound.nodes i m hm) i key value, fun hun => by cases hun⟩
    | delete key =>
      exact h.launch ⟨rfl, ⟨not_reserved_phys key.2, ⟨rfl, hno⟩, fun _ _ => ⟨rfl, hno⟩⟩,
        fun hun => by cases hun⟩
    | publishSealMeta wrapped =>
      exact h.launch ⟨rfl, ⟨Or.inl rfl, ⟨rfl, hno⟩, fun _ _ => ⟨rfl, hno⟩⟩, fun hun => by cases hun⟩
    | rotateDataKey reenc => exact h.rotateDataKey hm hfit
    | rekey newRoot => exact h.rekey hm (hfit m hm)

/-- An event in a calm state. -/
theorem Calm.step (hkey : suite.BindsKey) {ev : Event ι} (hev : ev.Safe c) :
    Inv E suite (c.step E ev) := by
  have hless (i : ι) : Calm E suite { c with mem := Function.update c.mem i none } d :=
    ⟨h.sound.fewer fun j m hm => (of_update_none hm).2, h.tasks,
      fun j m hm => h.behind j m (of_update_none hm).2⟩
  cases ev with
  | elect l => exact Or.inl ⟨d, h.sound, h.tasks, h.behind⟩
  | catchUp i =>
    exact Or.inl ⟨d, h.advance h.sound (fun _ _ => rfl) fun _ _ hu =>
      Or.inl (mem_of_update_tail hu)⟩
  | sealNode i =>
    simp only [System.step]
    split_ifs
    · exact Or.inl ⟨d, h⟩
    · exact Or.inl ⟨d, hless i⟩
  | stop i =>
    refine Or.inl ⟨d, (hless i).sound, fun t ht hrun => ?_, (hless i).behind⟩
    obtain ⟨t', ht', rfl⟩ := List.mem_map.1 ht
    split_ifs at hrun ⊢
    · cases hrun
    · exact h.tasks t' ht' hrun
  | start i op =>
    simp only [System.step]
    split_ifs with hb
    · exact Or.inl ⟨d, h⟩
    · exact h.start hkey (hev (Bool.eq_false_iff.2 hb)).2
  | call n o =>
    simp only [System.step]
    split
    · rename_i i op q k ht
      obtain ⟨hcalm, htasks, hfine⟩ :=
        h.served (h.tasks _ (List.mem_of_getElem? ht) rfl) (served_request (E := E) c i o q)
      exact Or.inl ⟨d, hcalm.settle hfine fun t' ht' => List.mem_or_eq_of_mem_set ht'⟩
    · exact Or.inl ⟨d, h⟩

end

/-- An event while a rotation is running. -/
theorem Rewriting.step (h : Rewriting E suite c n t) (hrun : t.running = true) {ev : Event ι}
    (hev : ev.Safe c) : Inv E suite (c.step E ev) := by
  have hmem := List.mem_of_getElem? h.task
  have hstay : Inv E suite c := Or.inr ⟨n, t, hrun, h⟩
  cases ev with
  | elect l => exact Or.inr ⟨n, t, hrun, { h with }⟩
  | catchUp i =>
    refine Or.inr ⟨n, t, hrun, { h with
      current := List.eq_nil_iff_forall_not_mem.2 fun u hu => ?_
      behind := fun j m hj hm u hu => h.behind j m hj hm u (mem_of_update_tail hu) }⟩
    have hu := mem_of_update_tail hu
    rw [h.current] at hu
    cases hu
  | sealNode i =>
    simp only [System.step]
    split_ifs with hb
    · exact hstay
    · refine Or.inr ⟨n, t, hrun, h.fewer fun hi => hb (List.any_eq_true.2 ⟨t, hmem, ?_⟩)⟩
      have hlock : excludes t.op.lock (some true) = true := by
        have hrw := h.rewrites
        cases hop : t.op <;> rw [hop] at hrw <;> first | rfl | cases hrw
      simp only [hrun, hi, hlock, decide_true, Bool.and_self]
  | stop i =>
    by_cases hi : i = t.node
    · subst hi
      obtain ⟨d, hd⟩ := h.sound hrun
      refine Or.inl ⟨d, hd, fun t' ht' hrun' => ?_, fun j m hm =>
        h.behind j m (of_update_none hm).1 (of_update_none hm).2⟩
      obtain ⟨t'', ht'', rfl⟩ := List.mem_map.1 ht'
      split_ifs at hrun' with hnode
      · cases hrun'
      · exact absurd (congrArg Task.node (h.eq_task ht'' hrun')) hnode
    · have hless := h.fewer hi
      refine Or.inr ⟨n, t, hrun, { hless with
        task := ?_, alone := fun n' t' ht' hrun' => ?_ }⟩
      · simp only [System.step, List.getElem?_map, h.task, Option.map_some, if_neg (Ne.symm hi)]
      · simp only [System.step, List.getElem?_map] at ht'
        obtain ⟨t'', ht'', rfl⟩ := Option.map_eq_some_iff.1 ht'
        split_ifs at hrun'
        · cases hrun'
        · exact h.alone n' t'' ht'' hrun'
  | start i op =>
    simp only [System.step]
    split_ifs with hb
    · exact hstay
    · have hsteady := (hev (Bool.eq_false_iff.2 hb)).1 t hmem hrun
      rw [h.rewrites] at hsteady
      cases hsteady
  | call n' o =>
    simp only [System.step]
    split
    · rename_i i op q k ht
      obtain rfl := h.alone n' _ ht rfl
      have htask := h.task
      rw [ht] at htask
      cases htask
      refine h.served ?_ (served_request c i o q)
      rintro rfl
      exact absurd (hev _ ht) (by simp [h.rewrites])
    · exact hstay

theorem Inv.step (h : Inv E suite c) (hkey : suite.BindsKey) {ev : Event ι} (hev : ev.Safe c) :
    Inv E suite (c.step E ev) := by
  rcases h with ⟨d, hd⟩ | ⟨n, t, hrun, ht⟩
  · exact hd.step hkey hev
  · exact ht.step hrun hev

theorem Inv.coherent (h : Inv E suite c) : Coherent E c := by
  rcases h with ⟨d, hd⟩ | ⟨n, t, hrun, ht⟩
  · exact ⟨⟨d, hd.sound.load, hd.sound.readable⟩, fun i m hm _ =>
      List.forall_mem_cons.2 ⟨hd.sound.readable_node hm, hd.behind i m hm⟩⟩
  · obtain ⟨d, hd⟩ := ht.sound hrun
    refine ⟨⟨d, hd.load, hd.readable⟩, fun i m hm hfree => ?_⟩
    have hi := (hfree t (List.mem_of_getElem? ht.task) hrun ht.rewrites).symm
    exact List.forall_mem_cons.2
      ⟨hd.readable_node ((Function.update_of_ne hi ..).trans hm), ht.behind i m hi hm⟩

end

/-! ## Every run -/

/-- A cluster whose store was just initialised: every node is sealed, and nothing is running. -/
structure Initialised (E : Env) (suite : Suite) (version : Int64) (c : System ι) : Prop where
  root : c.root.length = keySize
  mem : ∀ i, c.mem i = none
  tasks : c.tasks = []
  init : ∃ name w, lookupSuite E.suites name = some suite ∧ w.store = ∅ ∧
    run (handle E) (initializeAt E c.root name version) w = (.ok (), c.world)

variable {version : Int64} [DecidableEq ι] {c : System ι}

theorem Initialised.inv (h : Initialised E suite version c) (h2 : 2 ≤ version) :
    Inv E suite c := by
  obtain ⟨name, w, hsuite, hw, hrun⟩ := h.init
  obtain ⟨draw, w', hrun', hs⟩ := @run_initializeAt suite version E c.root name w hsuite h.root
    (by rw [hw]; rfl)
  rw [hrun] at hrun'
  obtain rfl : c.world = w' := congrArg Prod.snd hrun'
  rw [hw] at hs
  obtain ⟨d, hload, heq⟩ := draw.load ∅ (lookupSuite_name hsuite) h.root h2
  have hsealed : ∀ i m, c.mem i = some m → False := fun i m hm => by
    rw [h.mem i] at hm
    cases hm
  refine Or.inl ⟨d, ⟨by rw [hs]; exact hload, heq.versioned.trans (decide_eq_true h2), heq.suite,
    ⟨draw.nonce, _, _, draw.nonce_length, by rw [hs, InitDraw.store, AList.lookup_insert]⟩,
    fun k data hk hdata => ?_, fun i m hm => (hsealed i m hm).elim⟩, fun t ht => ?_,
    fun i m hm => (hsealed i m hm).elim⟩
  · rw [hs, draw.lookup_store hk.1, AList.lookup_empty] at hdata
    cases hdata
  · rw [h.tasks] at ht
    cases ht

/-- What a rotation with re-encryption by the memory `m` over a backend without errors has to
    bring about: no error, one key in memory and in the stored keyring, and every data entry
    sealed under it. -/
def Reencrypts (E : Env) (m : Unsealed) (w : World) : Prop :=
  ∃ m' r w' d, run (handle E) (rotateDataKey true (some m)) w = ((some m', r), w') ∧ r.err = none ∧
    loadStore E m.rootKey w'.store = .ok d ∧
    (∀ v, m'.keys.lookup v = d.keys.lookup v) ∧
    (∀ v, (d.keys.lookup v).isSome = true ↔ v = d.active) ∧
    ∀ k data, secretKeys.mem k → w'.store.lookup k = some data →
      (∃ body, takeBe32 data = some (d.active, body)) ∧ (d.openEntry k data).isSome = true

variable {m : Unsealed}

theorem reencrypts_of_readable {w : World} (hfits : Fits E m w.store)
    (hread : Readable .all m w.store) (hroom : Unused w.store (m.active + 1)) :
    Reencrypts E m w := by
  obtain ⟨m', hm', hend⟩ := (@safe_rotateDataKey E False (fun _ => True) m true w hfits hroom
    fun _ _ => trivial).run
  have herr : _ = none := not_not.mp fun he => (hend.err he).elim id fun hbad => hbad hread
  obtain ⟨d, hload, heq⟩ := hend.written herr
  obtain ⟨hone, hat⟩ := hend.pruned herr rfl
  have hrot := hend.rotating
  refine ⟨m', _, _, d, Prod.ext (Prod.ext hm' rfl) rfl, herr, hload, fun v => (heq.keys v).symm,
    fun v => ?_, fun k data hk hdata => ?_⟩
  · rw [heq.keys v, heq.active]
    constructor
    · intro hsome
      by_contra hv
      rw [hone v hv] at hsome
      cases hsome
    · rintro rfl
      exact hrot.fits.active
  · rw [heq.active]
    refine ⟨hat k hk.1 data hdata, ?_⟩
    have hval := hrot.values.trans (heq.sameValues hrot.fits.versioned _)
    exact hval.readable hread k data hk.1 hdata

/-- Two sealed nodes over a new store with encrypted paths; the first node leads. -/
def twoNodes : System Bool where
  world := (run (handle plainEnv) (initializeAt plainEnv (plainKey 7) [] 3)
    ⟨∅, fun n => UInt8.ofNat n⟩).2
  behind _ := []
  leader := some true
  mem _ := none
  tasks := []
  root := plainKey 7

def sampleKey : UserKey := ⟨ascii "secret/a", by decide⟩

/-- The `n`-th operation, from its start to its end. -/
def whole (i : Bool) (op : Op) (n calls : Nat) : List (Event Bool) :=
  .start i op :: List.replicate calls (.call n .ok)

/-- The leader writes while the other node unseals, behind it; that node seals again. The leader
    rotates with re-encryption and gets a new root key; then the other node unseals, leads and
    loses the reply to a write. -/
def goodRun : List (Event Bool) :=
  whole true (.unsealWith (plainKey 7)) 0 2 ++
    [.start false (.unsealWith (plainKey 7)), .start true (.put sampleKey (ascii "v")),
      .call 1 .ok, .call 2 .ok, .call 2 .ok, .call 1 .ok, .catchUp false, .sealNode false] ++
    whole true (.rotateDataKey true) 3 9 ++ whole true (.rekey (plainKey 8)) 4 2 ++
    List.replicate 4 (.catchUp false) ++ whole false (.unsealWith (plainKey 8)) 5 2 ++
    [.elect (some false), .start false (.put sampleKey (ascii "w")), .call 6 .ok, .call 6 .lost,
      .catchUp true]

theorem twoNodes_initialised : Initialised plainEnv plainSuite 3 twoNodes where
  root := by decide
  mem _ := rfl
  tasks := rfl
  init := ⟨[], ⟨∅, fun n => UInt8.ofNat n⟩, rfl, rfl,
    Prod.ext (by decide +kernel) rfl⟩

theorem goodRun_meets :
    Meets (System.step plainEnv) (fun c ev => ev.Safe c) twoNodes goodRun := by
  decide +kernel

/-- Both nodes are unsealed when the leader rotates the data key and writes an entry: the
    follower cannot read it. -/
def staleKeyring : List (Event Bool) :=
  whole true (.unsealWith (plainKey 7)) 0 2 ++ whole false (.unsealWith (plainKey 7)) 1 2 ++
    whole true (.rotateDataKey false) 2 3 ++ whole true (.put sampleKey (ascii "v")) 3 2

/-- The leader gets a new root key, then the other node, unsealed before, leads and rotates
    the data key: it writes the keyring under the old root key. -/
def staleRoot : List (Event Bool) :=
  whole true (.unsealWith (plainKey 7)) 0 2 ++ whole false (.unsealWith (plainKey 7)) 1 2 ++
    whole true (.rekey (plainKey 8)) 2 2 ++ [.elect (some false)] ++
    whole false (.rotateDataKey false) 3 3

/-- In the middle of a rotation by the first node the second one unseals, leads and gets a new
    root key; the first one, leading again, ends the rotation under the old one. -/
def overlap : List (Event Bool) :=
  whole true (.unsealWith (plainKey 7)) 0 2 ++ whole true (.rotateDataKey true) 1 3 ++
    [.catchUp false] ++ whole false (.unsealWith (plainKey 7)) 2 2 ++ [.elect (some false)] ++
    whole false (.rekey (plainKey 8)) 3 2 ++ [.elect (some true)] ++
    List.replicate 3 (.call 1 .ok)

/-- With a transit seal the leader writes its wrapped root key straight to the backend. -/
def publishedRun : List (Event Bool) :=
  whole true (.unsealWith (plainKey 7)) 0 2 ++ whole true (.publishSealMeta (ascii "wrapped")) 1 1

end Tuck.Cluster
