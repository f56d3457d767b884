/-
  Storage errors during KV v2 operations; a call that fails has no effect.

  `Write` is atomic: whichever of its calls fail, an error leaves everything that can be read
  as it was, and a success leaves the new version and every version that is not evicted
  readable (`write_atomic`). `Destroy` and `DeleteAll` ignore errors of the data deletions, and
  so does the eviction: they report the truth in the runs in which no deletion of data and no
  metadata write fails (`destruction_truthful`), and not otherwise.
-/
import Tuck.Secrets.VersionRuns

namespace Tuck.KVv2

open Tuck.Base Prog KV PathState

/-! ## Reading -/

/-- What a version reads as, from its metadata and its data. -/
def versionOf (version : Int) (vm : Option VerMeta) (data : Option Record) :
    Except Err (Option (Option Bytes × VerMeta)) :=
  match vm with
  | none => .error (.versionNotFound version)
  | some vm =>
      if vm.destroyed then .error (.versionDestroyed version)
      else if vm.deletedAt.isSome then .ok (some (none, vm))
      else
        match data with
        | none => .error (.versionMissing version)
        | some r => .ok (some (some r.bytes, vm))

/-- What `Read` returns, from what is stored for the path. -/
def readOf (st : PathState) (version : Int) : Except Err (Option (Option Bytes × VerMeta)) :=
  match st.metadata with
  | none => .ok none
  | some r =>
      match r.kvMeta? with
      | none => .error .decode
      | some m =>
          if m.currentVersion = 0 then .ok none
          else
            let version := if version = 0 then m.currentVersion else version
            versionOf version (m.versions.lookup version) (st.data version)

/-- What `GetMeta` returns. -/
def metaOf (st : PathState) : Except Err (Option KVMeta) :=
  match st.metadata with
  | none => .ok none
  | some r =>
      match r.kvMeta? with
      | some m => .ok (some m.normalize)
      | none => .error .decode

section

variable (L : Listing) (ns p : Bytes) (w : LogicalWorld)

theorem run_getMeta :
    run (handle L) (getMeta ns p) w = (metaOf (pathState w.store ns p), w) := by
  unfold getMeta metaOf pathState
  rw [run_andThen, run_get]
  cases w.store.lookup (inView ns (metaKey p)) with
  | none => rfl
  | some r => cases hr : r.kvMeta? <;> simp [hr]

theorem run_readVersion (version : Int) (m : KVMeta) :
    run (handle L) (readVersion ns p version m) w =
      (versionOf version (m.versions.lookup version)
        ((pathState w.store ns p).data version), w) := by
  have hdata : (pathState w.store ns p).data version =
      w.store.lookup (inView ns (dataKey p version)) := rfl
  unfold readVersion versionOf
  cases m.versions.lookup version with
  | none => rfl
  | some vm =>
    dsimp only
    split_ifs
    · rfl
    · rfl
    · rw [run_andThen, run_get, hdata]
      cases w.store.lookup (inView ns (dataKey p version)) <;> rfl

theorem run_read (version : Int) :
    run (handle L) (read ns p version) w = (readOf (pathState w.store ns p) version, w) := by
  unfold read
  rw [run_andThen, run_getMeta]
  unfold metaOf readOf
  cases hst : (pathState w.store ns p).metadata with
  | none => rfl
  | some r =>
    cases hr : r.kvMeta? with
    | none => simp only [hr]
    | some m =>
      have hcur : m.normalize.currentVersion = m.currentVersion := rfl
      simp only [hr, Option.filter, hcur]
      by_cases hzero : m.currentVersion = 0
      · simp [hzero]
      · simp only [hzero, ne_eq, not_false_eq_true, decide_true, if_true, if_false]
        exact run_readVersion ..

end

/-! ## What a write changes -/

/-- The current version of a path, zero before the first write. -/
def currentOf (st : PathState) : Int :=
  match st.metadata with
  | some (.kvMeta m) => m.currentVersion
  | _ => 0

/-- The metadata of the path name the version. -/
def Named (st : PathState) (u : Int) : Prop :=
  ∃ m, st.metadata = some (.kvMeta m) ∧ u ∈ m.versions

/-- A write with this check-and-set value is not refused. -/
def Accepted (s : LogicalStore) (st : PathState) : Option Int → Prop
  | some c => c = currentOf st
  | none => (optionsOf s).casRequired = false ∧
      ∀ m, st.metadata = some (.kvMeta m) → m.casRequired = false

section

variable {st : PathState}

variable {now : Int} {m : KVMeta}

theorem metaFor_currentVersion {d : Defaults}
    (hm : st.metaFor d now = some m) : m.currentVersion = currentOf st := by
  unfold currentOf
  obtain ⟨hst, rfl⟩ | ⟨m', hst, rfl⟩ := metaFor_cases hm
  · rw [hst]
    rfl
  · rw [hst]
    rfl

theorem refusal_eq_none {s : LogicalStore} {cas : Option Int}
    (h : Accepted s st cas) (hm : st.metaFor (optionsOf s) now = some m) :
    refusal cas m (optionsOf s) = none := by
  unfold refusal
  cases cas with
  | some c =>
    have hc : c = m.currentVersion := h.trans (metaFor_currentVersion hm).symm
    simp [hc]
  | none =>
    obtain ⟨hopt, hown⟩ := h
    have hreq : m.casRequired = false := by
      obtain ⟨-, rfl⟩ | ⟨m', hst, rfl⟩ := metaFor_cases hm
      · rfl
      · exact hown m' hst
    simp [hopt, hreq]

theorem Ranged.not_named_next (hst : Ranged st) : ¬Named st (currentOf st + 1) := by
  rintro ⟨m, hm, hmem⟩
  obtain ⟨o, ho, -⟩ := hst.sound hm
  have hcur : currentOf st = m.currentVersion := by
    unfold currentOf
    rw [hm]
  rw [ho.mem, hcur] at hmem
  omega

theorem readOf_kvMeta (hm : st.metadata = some (.kvMeta m)) (u : Int) :
    readOf st u = if m.currentVersion = 0 then .ok none else
      versionOf (if u = 0 then m.currentVersion else u)
        (m.versions.lookup (if u = 0 then m.currentVersion else u))
        (st.data (if u = 0 then m.currentVersion else u)) := by
  unfold readOf
  rw [hm]
  rfl

/-- A version reads from its own metadata and data. -/
theorem readOf_eq {u : Int} (hm : st.metadata = some (.kvMeta m))
    (hcur : m.currentVersion ≠ 0) (hu : u ≠ 0) :
    readOf st u = versionOf u (m.versions.lookup u) (st.data u) := by
  rw [readOf_kvMeta hm, if_neg hcur, if_neg hu]

variable {v : Int}

/-- Data of a version that is not named is not read. -/
theorem readOf_setData (hv : ¬Named st v) (r : Option Record) (u : Int) :
    readOf (st.setData v r) u = readOf st u := by
  cases hst : st.metadata with
  | none =>
    unfold readOf
    rw [setData_metadata, hst]
  | some x =>
    cases x with
    | kvMeta m =>
      rw [readOf_kvMeta hst, readOf_kvMeta ((st.setData_metadata v r).trans hst)]
      generalize (if u = 0 then m.currentVersion else u) = version
      rw [setData_data]
      by_cases heq : version = v
      · rw [heq, AList.lookup_eq_none.2 fun hmem => hv ⟨m, hst, hmem⟩]
        rfl
      · rw [if_neg heq]
    | _ =>
      unfold readOf
      rw [setData_metadata, hst]
      rfl

variable {mayFail : Call Record → Prop} {ns p : Bytes} {s : LogicalStore} {st' : PathState}
  {value : Bytes} {cas : Option Int} {author : Option Author} {now : Int}

/-- A write that returns an error changes nothing that can be read: at most the data of the
    next version is there already, for the next write to replace. -/
theorem WriteEnd.of_error {e : Err}
    (h : WriteEnd mayFail ns p s st value cas author now (.error e) st') (hst : Ranged st) :
    st'.metadata = st.metadata ∧ ∀ u, readOf st' u = readOf st u := by
  cases h with
  | unread e he => exact ⟨rfl, fun _ => rfl⟩
  | refused d hd m hm e he => exact ⟨rfl, fun _ => rfl⟩
  | dataLost m hc => exact ⟨rfl, fun _ => rfl⟩
  | metaLost d m hm r hc =>
    refine ⟨rfl, readOf_setData ?_ _⟩
    rw [metaFor_currentVersion hm]
    exact hst.not_named_next

/-- What a write that succeeds leaves of a version that it does not evict. -/
theorem Cleared.reads_written
    (hcl : Cleared mayFail ns p (m.addVersion author now).evict.2
      ((st.setData (m.currentVersion + 1) (some (.raw value))).setMetadata
        (some (.kvMeta (m.addVersion author now).evict.1.normalize))) st')
    (hcur : 0 ≤ m.currentVersion) {u : Int} (hu : 0 < u)
    (hkept : ¬(m.addVersion author now).Outdated u) :
    readOf st' u =
      if u = m.currentVersion + 1 then .ok (some (some value, ⟨u, now, author, none, false⟩))
      else versionOf u (m.versions.lookup u) (st.data u) := by
  have hnext : (m.addVersion author now).evict.1.normalize.currentVersion = m.currentVersion + 1 :=
    evict_currentVersion _
  have hlookup : (m.addVersion author now).evict.1.normalize.versions.lookup u =
      (m.addVersion author now).versions.lookup u := (lookup_evict _ _).trans (if_neg hkept)
  rw [readOf_eq hcl.metadata (by omega) (by omega), hlookup, hcl.others _ fun hmem =>
    hkept (mem_evict_snd.1 hmem).2, setMetadata_data, setData_data]
  split_ifs with hnew
  · have hins : (m.addVersion author now).versions.lookup (m.currentVersion + 1) =
        some ⟨m.currentVersion + 1, now, author, none, false⟩ := AList.lookup_insert _
    rw [hnew, hins]
    rfl
  · exact congrArg (fun vm => versionOf u vm (st.data u)) (AList.lookup_insert_ne hnew)

/-- A write that succeeds returns the next version, which reads as its value. -/
theorem WriteEnd.reads_new
    (h : WriteEnd mayFail ns p s st value cas author now (.ok v) st') (hst : Ranged st) :
    v = currentOf st + 1 ∧
      readOf st' v = .ok (some (some value, ⟨v, now, author, none, false⟩)) := by
  cases h with
  | done d hd m hm hcas st' hcl =>
    refine ⟨congrArg (· + 1) (metaFor_currentVersion hm), ?_⟩
    obtain ⟨o, ho⟩ := hst.metaFor hm
    have hstarted := ho.started
    rw [hcl.reads_written hstarted (by omega) (not_outdated_new m author now), if_pos rfl]

/-- The versions that a write does not evict read as before. -/
theorem WriteEnd.reads_old
    (h : WriteEnd mayFail ns p s st value cas author now (.ok v) st') (hst : Ranged st) {u : Int}
    (hold : Named st u) (hnew : Named st' u) : readOf st' u = readOf st u := by
  cases h with
  | done d hd m hm hcas st' hcl =>
    obtain ⟨m₀, hm₀, hmem⟩ := hold
    obtain ⟨hnone, -⟩ | ⟨m', hm', rfl⟩ := metaFor_cases hm
    · rw [hm₀] at hnone
      cases hnone
    cases hm'.symm.trans hm₀
    obtain ⟨o, ho, -⟩ := hst.sound hm₀
    have hrange := (ho.mem u).1 hmem
    have hpos := ho.pos
    have hcur : m₀.normalize.currentVersion = m₀.currentVersion := rfl
    have hkept : ¬(m₀.normalize.addVersion author now).Outdated u := by
      intro hout
      obtain ⟨m₁, hm₁, hmem₁⟩ := hnew
      cases hcl.metadata.symm.trans hm₁
      have hgone := (lookup_evict (m₀.normalize.addVersion author now) u).trans (if_pos hout)
      exact AList.lookup_eq_none.1 hgone hmem₁
    rw [hcl.reads_written (by omega) (by omega) hkept, if_neg (by omega),
      readOf_eq hm₀ (by omega) (by omega)]
    rfl

/-- Without storage errors the metadata are read. -/
theorem Unread.not_ranged {e : Err} (h : Unread (fun _ => False) ns p st e) : ¬Ranged st := by
  intro hst
  cases h with
  | failed hc => exact hc
  | undecodable r hr hbad =>
    obtain ⟨m, rfl, -⟩ := hst r hr
    cases hbad

/-- Without storage errors a write that is not refused succeeds. -/
theorem WriteEnd.accepted {r : Except Err Int}
    (h : WriteEnd (fun _ => False) ns p s st value cas author now r st') (hst : Ranged st)
    (hcas : Accepted s st cas) : r = .ok (currentOf st + 1) := by
  cases h with
  | unread e he => exact (he.not_ranged hst).elim
  | refused d hd m hm e he =>
    obtain rfl := hd.resolve_right fun hc => hc.1
    rw [refusal_eq_none hcas hm] at he
    cases he
  | dataLost m hc => exact hc.elim
  | metaLost d m hm r hc => exact hc.elim
  | done d hd m hm hcas st' hcl => rw [metaFor_currentVersion hm]

end

/-! ## Writes are atomic -/

variable {st st' : PathState}

theorem metaOf_congr (h : st'.metadata = st.metadata) :
    metaOf st' = metaOf st := by
  unfold metaOf
  rw [h]

theorem currentOf_congr (h : st'.metadata = st.metadata) :
    currentOf st' = currentOf st := by
  unfold currentOf
  rw [h]

theorem Accepted.congr {s : LogicalStore} {cas : Option Int}
    (h : Accepted s st cas) (heq : st'.metadata = st.metadata) : Accepted s st' cas := by
  cases cas with
  | some c => exact h.trans (currentOf_congr heq).symm
  | none => exact ⟨h.1, fun m hm => h.2 m (heq.symm.trans hm)⟩

section

variable (L : Listing) (ns : Bytes) (w : LogicalWorld)

/-- A write under some choice of failing calls, from any state: the result and what is stored
    for each path afterwards. -/
theorem end_write (p value : Bytes) (cas : Option Int) (author : Option Author) (now : Int)
    (allow : Nat → Call Record → Bool) :
    WriteEnd (fun _ => True) ns p w.store (pathState w.store ns p) value cas author now
      (runAllowed (handle L) allow 0 (write ns p value cas author now) w).1
      (pathState (runAllowed (handle L) allow 0 (write ns p value cas author now) w).2.store
        ns p) :=
  (ends_write value cas author now).runAllowed (fun _ _ _ => trivial) 0

theorem frame_write {p q : Bytes} (hne : clean q ≠ clean p) (value : Bytes) (cas : Option Int)
    (author : Option Author) (now : Int) (allow : Nat → Call Record → Bool) :
    pathState (runAllowed (handle L) allow 0 (write ns p value cas author now) w).2.store ns q =
      pathState w.store ns q :=
  pathState_of_confined hne ((covers_pathFootprint ns p).write value cas author now) L allow 0 w

/-- A write without storage errors, where its check-and-set value is the right one. -/
theorem write_accepted {p value : Bytes} {cas : Option Int} {author : Option Author} {now : Int}
    (hst : Ranged (pathState w.store ns p)) (hcas : Accepted w.store (pathState w.store ns p) cas) :
    (run (handle L) (write ns p value cas author now) w).1 =
        .ok (currentOf (pathState w.store ns p) + 1) ∧
      (run (handle L) (read ns p (currentOf (pathState w.store ns p) + 1))
        (run (handle L) (write ns p value cas author now) w).2).1 =
        .ok (some (some value,
          ⟨currentOf (pathState w.store ns p) + 1, now, author, none, false⟩)) := by
  have hend := end_write_run L ns p value cas author now w
  have hok := hend.accepted hst hcas
  rw [hok] at hend
  rw [run_read]
  exact ⟨hok, (hend.reads_new hst).2⟩

end

section

variable {L : Listing} {ns : Bytes} {w : LogicalWorld}

/-- A write that returns an error changes nothing that can be read of any path. -/
theorem write_error_reads (h : Reaches L ns (fun _ => True) w) {p value : Bytes} {cas : Option Int}
    {author : Option Author} {now : Int} {allow : Nat → Call Record → Bool} {w' : LogicalWorld}
    {e : Err} (hrun : runAllowed (handle L) allow 0 (write ns p value cas author now) w =
      (.error e, w')) (q : Bytes) :
    (pathState w'.store ns q).metadata = (pathState w.store ns q).metadata ∧
      ∀ u, readOf (pathState w'.store ns q) u = readOf (pathState w.store ns q) u := by
  by_cases hpq : clean q = clean p
  · have hend := end_write L ns w p value cas author now allow
    rw [hrun] at hend
    rw [pathState_congr hpq, pathState_congr hpq]
    exact hend.of_error (h.ranged p)
  · have hframe := frame_write L ns w hpq value cas author now allow
    rw [hrun] at hframe
    rw [hframe]
    exact ⟨rfl, fun _ => rfl⟩

/-- `Write` is atomic, in every state that operations reach whichever of their calls failed. -/
theorem write_atomic (h : Reaches L ns (fun _ => True) w) (p value : Bytes) (cas : Option Int)
    (author : Option Author) (now : Int) (allow : Nat → Call Record → Bool)
    (r : Except Err Int) (w' : LogicalWorld)
    (hrun : runAllowed (handle L) allow 0 (write ns p value cas author now) w = (r, w')) :
    (∀ e, r = .error e →
      (∀ q, (run (handle L) (getMeta ns q) w').1 = (run (handle L) (getMeta ns q) w).1) ∧
      (∀ q u, (run (handle L) (read ns q u) w').1 = (run (handle L) (read ns q u) w).1) ∧
      ∀ q value' cas' author' now', Accepted w'.store (pathState w.store ns q) cas' →
        (run (handle L) (write ns q value' cas' author' now') w').1 =
          .ok (currentOf (pathState w.store ns q) + 1) ∧
        (run (handle L) (read ns q (currentOf (pathState w.store ns q) + 1))
          (run (handle L) (write ns q value' cas' author' now') w').2).1 =
          .ok (some (some value',
            ⟨currentOf (pathState w.store ns q) + 1, now', author', none, false⟩))) ∧
    (∀ v, r = .ok v →
      (run (handle L) (read ns p v) w').1 =
        .ok (some (some value, ⟨v, now, author, none, false⟩)) ∧
      ∀ q u, Named (pathState w.store ns q) u → Named (pathState w'.store ns q) u →
        (run (handle L) (read ns q u) w').1 = (run (handle L) (read ns q u) w).1) := by
  constructor
  · rintro e rfl
    have hsame := write_error_reads h hrun
    refine ⟨fun q => ?_, fun q u => ?_, fun q value' cas' author' now' hcas => ?_⟩
    · rw [run_getMeta, run_getMeta]
      exact metaOf_congr (hsame q).1
    · rw [run_read, run_read]
      exact (hsame q).2 u
    · rw [← currentOf_congr (hsame q).1]
      exact write_accepted L ns w' ((h.ranged q).congr (hsame q).1) (hcas.congr (hsame q).1)
  · rintro v rfl
    have hend := end_write L ns w p value cas author now allow
    rw [hrun] at hend
    refine ⟨?_, fun q u hold hnew => ?_⟩
    · rw [run_read]
      exact (hend.reads_new (h.ranged p)).2
    · rw [run_read, run_read]
      by_cases hpq : clean q = clean p
      · rw [pathState_congr hpq] at hold hnew ⊢
        rw [pathState_congr hpq]
        exact hend.reads_old (h.ranged p) hold hnew
      · have hframe := frame_write L ns w hpq value cas author now allow
        rw [hrun] at hframe
        rw [hframe]

end

/-- A secret that was written once. -/
def onceWritten : LogicalWorld :=
  stepTurn sorted [] unwritten
    (.request (ascii "app") (.write (ascii "a") none none 0) fun _ _ => true)

theorem reaches_onceWritten {allowed : Turn → Prop}
    (h : allowed (.request (ascii "app") (.write (ascii "a") none none 0) fun _ _ => true)) :
    Reaches sorted [] allowed onceWritten :=
  .step (.start _ (pathState_unwritten [])) _ h

/-- The metadata of the second write are lost. -/
theorem write_atomic_metaLost :
    (run (handle sorted) (read [] (ascii "app") 0)
      (runAllowed (handle sorted) (fun n _ => n ≠ 3) 0
        (write [] (ascii "app") (ascii "b") none none 1) onceWritten).2).1 =
      .ok (some (some (ascii "a"), ⟨1, 0, none, none, false⟩)) := by
  refine (((write_atomic (reaches_onceWritten trivial) (ascii "app") (ascii "b") none none 1
    (fun n _ => n ≠ 3) (.error .storage) _ (Prod.ext ?_ rfl)).1 _ rfl).2.1 _ _).trans ?_
  · decide +kernel
  · decide +kernel

/-! ## Destruction -/

/-- A call whose failure destruction can report: no deletion of data and no write. -/
def Spares (ns p : Bytes) : Call Record → Prop
  | .delete k => ∀ v, k ≠ inView ns (dataKey p v)
  | .put _ _ => False
  | _ => True

def Turn.Spared (ns : Bytes) : Turn → Prop
  | .request p _ allow => ∀ n c, allow n c = false → Spares ns p c
  | .configure _ => True

theorem Spares.not_delete (ns p : Bytes) (v : Int) :
    ¬Spares ns p (.delete (inView ns (dataKey p v))) := fun h => h v rfl

section

variable {L : Listing} {ns : Bytes} {w : LogicalWorld}

/-- No data is left behind in the runs in which neither deletions of data nor writes fail. -/
theorem Reaches.noStray (h : Reaches L ns (Turn.Spared ns) w) (p : Bytes) :
    NoStray (pathState w.store ns p) := by
  refine h.inv nofun (fun w p op allow hallow hst => ?_) p
  exact (end_request L (Spares ns p) ns p op hallow w).keeps.noStray (fun _ => id)
    (Spares.not_delete ns p) hst

variable {p : Bytes} {st st' : PathState}

theorem DestroyEnd.of_ok {versions : List Int}
    (h : DestroyEnd (Spares ns p) ns p st versions (.ok ()) st') (hst : NoStray st) {v : Int}
    (hv : v ∈ versions) : st'.data v = none := by
  rw [← Option.not_isSome_iff_eq_none]
  intro hsome
  obtain ⟨m', hm', hlive⟩ := h.keeps.noStray (fun _ => id) (Spares.not_delete ns p) hst v hsome
  cases h with
  | absent hnone =>
    rw [hnone] at hm'
    cases hm'
  | done m hm st' hcl =>
    cases hm'
    rw [live_normalize, live_destroy] at hlive
    exact hlive.1 hv

theorem DestroyEnd.of_error {versions : List Int} {e : Err}
    (h : DestroyEnd (Spares ns p) ns p st versions (.error e) st') : st' = st := by
  cases h with
  | unread e he => rfl
  | lost m hm r hc st' hcl => exact hc.elim

theorem DeleteAllEnd.of_ok (h : DeleteAllEnd (Spares ns p) ns p st (.ok ()) st')
    (hst : NoStray st) (v : Int) : st'.data v = none := by
  rw [← Option.not_isSome_iff_eq_none]
  intro hsome
  obtain ⟨m', hm', -⟩ := h.keeps.noStray (fun _ => id) (Spares.not_delete ns p) hst v hsome
  cases h with
  | absent hnone =>
    rw [hnone] at hm'
    cases hm'
  | done m hm st' hcl => cases hm'

/-- Where no deletion of data and no write has failed or fails: after a `Destroy` that returns
    nil no data of the listed versions is stored, after a `DeleteAll` that returns nil none of
    any version, and a `Destroy` that returns an error leaves every version readable as it was. -/
theorem destruction_truthful (h : Reaches L ns (Turn.Spared ns) w) (p : Bytes)
    (allow : Nat → Call Record → Bool) (hallow : ∀ n c, allow n c = false → Spares ns p c) :
    (∀ vs w', runAllowed (handle L) allow 0 (destroy ns p vs) w = (.ok (), w') →
      ∀ v ∈ vs, (pathState w'.store ns p).data v = none) ∧
    (∀ w', runAllowed (handle L) allow 0 (deleteAll ns p) w = (.ok (), w') →
      ∀ v, (pathState w'.store ns p).data v = none) ∧
    (∀ vs e w', runAllowed (handle L) allow 0 (destroy ns p vs) w = (.error e, w') →
      ∀ v, (run (handle L) (read ns p v) w').1 = (run (handle L) (read ns p v) w).1) := by
  have hdestroy : ∀ vs, DestroyEnd (Spares ns p) ns p (pathState w.store ns p) vs
      (runAllowed (handle L) allow 0 (destroy ns p vs) w).1
      (pathState (runAllowed (handle L) allow 0 (destroy ns p vs) w).2.store ns p) :=
    fun vs => (ends_destroy vs).runAllowed hallow 0
  have hdeleteAll : DeleteAllEnd (Spares ns p) ns p (pathState w.store ns p)
      (runAllowed (handle L) allow 0 (deleteAll ns p) w).1
      (pathState (runAllowed (handle L) allow 0 (deleteAll ns p) w).2.store ns p) :=
    ends_deleteAll.runAllowed hallow 0
  refine ⟨fun vs w' hrun v hv => ?_, fun w' hrun v => ?_, fun vs e w' hrun v => ?_⟩
  · have hend := hdestroy vs
    rw [hrun] at hend
    exact hend.of_ok (h.noStray p) hv
  · rw [hrun] at hdeleteAll
    exact hdeleteAll.of_ok (h.noStray p) v
  · have hend := hdestroy vs
    rw [hrun] at hend
    rw [run_read, run_read, hend.of_error]

end

theorem destruction_truthful_once :
    (pathState (runAllowed (handle sorted) (fun _ _ => true) 0
      (destroy [] (ascii "app") [1]) onceWritten).2.store [] (ascii "app")).data 1 = none :=
  (destruction_truthful (reaches_onceWritten nofun) (ascii "app") (fun _ _ => true) nofun).1 [1] _
    (Prod.ext (by decide +kernel) rfl) 1 (List.mem_singleton.2 rfl)

/-- The secret after its cap was lowered to one version and a second write could not delete
    the data of the first version. -/
def evictionLost : LogicalWorld :=
  [Turn.request (ascii "app") (.updateMetadata ⟨some 1, none, none, false⟩ 1) fun _ _ => true,
    .request (ascii "app") (.write (ascii "b") none none 2) fun n _ => n ≠ 4].foldl
      (stepTurn sorted []) onceWritten

/-- `Destroy` reports success though the data stayed, `DeleteAll` too, after an eviction that
    failed, and `Destroy` reports an error after the data is gone. -/
theorem destruction_untruthful :
    ((runAllowed (handle sorted) (fun n _ => n ≠ 1) 0 (destroy [] (ascii "app") [1])
        onceWritten).1 = .ok () ∧
      ((pathState (runAllowed (handle sorted) (fun n _ => n ≠ 1) 0
        (destroy [] (ascii "app") [1]) onceWritten).2.store [] (ascii "app")).data 1).map
          Record.bytes = some (ascii "a")) ∧
    ((run (handle sorted) (deleteAll [] (ascii "app")) evictionLost).1 = .ok () ∧
      ((pathState (run (handle sorted) (deleteAll [] (ascii "app")) evictionLost).2.store []
        (ascii "app")).data 1).map Record.bytes = some (ascii "a")) ∧
    (runAllowed (handle sorted) (fun n _ => n ≠ 2) 0 (destroy [] (ascii "app") [1])
        onceWritten).1 = .error .storage ∧
      (run (handle sorted) (read [] (ascii "app") 1)
        (runAllowed (handle sorted) (fun n _ => n ≠ 2) 0 (destroy [] (ascii "app") [1])
          onceWritten).2).1 = .error (.versionMissing 1) := by
  decide +kernel

end Tuck.KVv2
