/-
  Runs of the KV v2 store: any sequence of its operations on any paths of one view, each with
  a choice of storage calls that fail, between any changes of the mount options.

  Two invariants of what is stored for a path. `Ranged`: the metadata decode and name a range
  of versions, whichever calls fail. `Filed`: the stored data records are those of the
  versions that are named and not destroyed, as long as no call fails.
-/
import Tuck.Secrets.Versions

namespace Tuck.KVv2

open Tuck.Base Prog KV PathState

/-! ## Operations -/

/-- An operation on a path, with the time at which it runs. -/
inductive Op where
  | write (value : Bytes) (cas : Option Int) (author : Option Author) (now : Int)
  | softDelete (versions : List Int) (now : Int)
  | undelete (versions : List Int)
  | destroy (versions : List Int)
  | updateMetadata (u : MetaUpdate) (now : Int)
  | deleteAll

/-- The operation; only a write returns a version. -/
def Op.code (ns p : Bytes) : Op → Logical (Option Int)
  | write value cas author now =>
      (KVv2.write ns p value cas author now).andThen fun v => .ret (.ok (some v))
  | softDelete versions now => (KVv2.softDelete ns p versions now).andThen fun _ => .ret (.ok none)
  | undelete versions => (KVv2.undelete ns p versions).andThen fun _ => .ret (.ok none)
  | destroy versions => (KVv2.destroy ns p versions).andThen fun _ => .ret (.ok none)
  | updateMetadata u now => (KVv2.updateMetadata ns p u now).andThen fun _ => .ret (.ok none)
  | deleteAll => (KVv2.deleteAll ns p).andThen fun _ => .ret (.ok none)

variable {ns : Bytes}

theorem Permits.code {P : Call Record → Prop} {p : Bytes} (h : Permits P ns p) (op : Op)
    (hdata : ∀ value cas author now, op = .write value cas author now →
      ∀ v, P (.put (inView ns (dataKey p v)) (.raw value)))
    (hmeta : op = .deleteAll → P (.delete (inView ns (metaKey p)))) :
    Calls Call.Plausible P (op.code ns p) := by
  cases op with
  | write value cas author now =>
    exact (h.write (hdata value cas author now rfl) cas author now).andThen fun _ => trivial
  | softDelete versions now => exact (h.softDelete versions now).andThen fun _ => trivial
  | undelete versions => exact (h.undelete versions).andThen fun _ => trivial
  | destroy versions => exact (h.destroy versions).andThen fun _ => trivial
  | updateMetadata u now => exact (h.updateMetadata u now).andThen fun _ => trivial
  | deleteAll => exact (h.deleteAll (hmeta rfl)).andThen fun _ => trivial

theorem Covers.code {A : Set Bytes} {p : Bytes} (h : Covers A ns p) (op : Op) :
    KV.Confined A (op.code ns p) :=
  h.permits.code op (fun _ _ _ _ _ => h.data) fun _ => h.metadata

/-! ## What is stored for a path -/

def PathState.empty : PathState := ⟨none, fun _ => none⟩

/-- Stored metadata: a range of versions, with its first number recorded. -/
def Sound (m : KVMeta) : Prop :=
  ∃ o, Spans m o ∧ m.oldestVersion = if m.currentVersion = 0 then 0 else o

/-- The metadata, if there are any, decode and are sound. -/
def Ranged (st : PathState) : Prop :=
  ∀ r, st.metadata = some r → ∃ m, r = .kvMeta m ∧ Sound m

/-- Data is stored only for versions that are named and not destroyed. -/
def NoStray (st : PathState) : Prop :=
  ∀ v, (st.data v).isSome = true → ∃ m, st.metadata = some (.kvMeta m) ∧ m.live v = true

/-- Data is stored for every version that is named and not destroyed. -/
def Stocked (st : PathState) : Prop :=
  ∀ m, st.metadata = some (.kvMeta m) → ∀ v, m.live v = true → (st.data v).isSome = true

variable {m : KVMeta}

theorem Spans.sound {o : Int} (h : Spans m o) : Sound m.normalize :=
  ⟨o, h.normalize, h.oldestVersion⟩

@[simp] theorem live_normalize (m : KVMeta) (v : Int) : m.normalize.live v = m.live v := rfl

section

variable {st : PathState}

theorem Ranged.congr {st' : PathState} (h : Ranged st) (heq : st'.metadata = st.metadata) :
    Ranged st' := by
  unfold Ranged
  rw [heq]
  exact h

variable {m : KVMeta}

theorem Ranged.sound (h : Ranged st) (hm : st.metadata = some (.kvMeta m)) :
    Sound m := by
  obtain ⟨m', heq, hm'⟩ := h _ hm
  cases heq
  exact hm'

theorem Ranged.setMetadata {o : Int} (h : Spans m o) :
    Ranged (st.setMetadata (some (.kvMeta m.normalize))) := by
  rintro r ⟨⟩
  exact ⟨_, rfl, h.sound⟩

variable {d : Defaults} {now : Int}

theorem metaFor_cases (hm : st.metaFor d now = some m) :
    st.metadata = none ∧ m = newMeta d now ∨
      ∃ m', st.metadata = some (.kvMeta m') ∧ m = m'.normalize := by
  unfold PathState.metaFor at hm
  cases hst : st.metadata with
  | none =>
    rw [hst] at hm
    cases hm
    exact .inl ⟨rfl, rfl⟩
  | some r =>
    rw [hst] at hm
    cases r with
    | kvMeta m' =>
      cases hm
      exact .inr ⟨m', rfl, rfl⟩
    | _ => cases hm

/-- The metadata that an operation continues from name a range of versions. -/
theorem Ranged.metaFor (h : Ranged st) (hm : st.metaFor d now = some m) : ∃ o, Spans m o := by
  obtain ⟨-, rfl⟩ | ⟨m', hst, rfl⟩ := metaFor_cases hm
  · exact ⟨1, spans_newMeta d now⟩
  · obtain ⟨o, ho, -⟩ := h.sound hst
    exact ⟨o, ho.normalize⟩

/-- They name the versions that the stored ones name. -/
theorem live_metaFor (hm : st.metaFor d now = some m) {v : Int} :
    m.live v = true ↔ ∃ m', st.metadata = some (.kvMeta m') ∧ m'.live v = true := by
  obtain ⟨hst, rfl⟩ | ⟨m', hst, rfl⟩ := metaFor_cases hm
  · rw [hst]
    exact iff_of_false nofun nofun
  · rw [hst]
    refine ⟨fun hv => ⟨m', rfl, hv⟩, ?_⟩
    rintro ⟨_, ⟨⟩, hv⟩
    exact hv

end

/-! ## Writes -/

section

variable {mayFail : Call Record → Prop} {ns p : Bytes} {s : LogicalStore} {st st' : PathState}

/-- The versions that are live after a write. -/
theorem live_written {m : KVMeta} {author : Option Author} {now : Int} {v : Int} :
    (m.addVersion author now).evict.1.live v = true ↔
      ¬(m.addVersion author now).Outdated v ∧ (v = m.currentVersion + 1 ∨ m.live v = true) := by
  have hlookup : (m.addVersion author now).versions.lookup v =
      if v = m.currentVersion + 1 then some ⟨m.currentVersion + 1, now, author, none, false⟩
      else m.versions.lookup v := by
    split_ifs with hv
    · rw [hv]
      exact AList.lookup_insert _
    · exact AList.lookup_insert_ne hv
  unfold KVMeta.live
  rw [lookup_evict, hlookup]
  by_cases hold : (m.addVersion author now).Outdated v
  · rw [if_pos hold]
    exact iff_of_false nofun fun h => h.1 hold
  · rw [if_neg hold]
    by_cases hv : v = m.currentVersion + 1
    · rw [if_pos hv]
      exact iff_of_true rfl ⟨hold, .inl hv⟩
    · rw [if_neg hv]
      exact ⟨fun h => ⟨hold, .inr h⟩, fun h => h.2.resolve_left hv⟩

theorem not_outdated_new (m : KVMeta) (author : Option Author) (now : Int) :
    ¬(m.addVersion author now).Outdated (m.currentVersion + 1) := by
  have hcur : (m.addVersion author now).currentVersion = m.currentVersion + 1 := rfl
  rintro ⟨hmax, hle⟩
  omega

end

/-! ## What each operation keeps -/

/-- The properties that a change of what is stored for a path keeps, and which storage errors
    would be in the way. -/
structure Keeps (mayFail : Call Record → Prop) (ns p : Bytes) (st st' : PathState) : Prop where
  ranged : Ranged st → Ranged st'
  noStray : (∀ r, ¬mayFail (.put (inView ns (metaKey p)) r)) →
    (∀ v, ¬mayFail (.delete (inView ns (dataKey p v)))) → NoStray st → NoStray st'
  stocked : (∀ r, ¬mayFail (.put (inView ns (metaKey p)) r)) →
    ¬mayFail (.delete (inView ns (metaKey p))) → Stocked st → Stocked st'

section

variable {mayFail : Call Record → Prop} {ns p : Bytes} {s : LogicalStore} {st st' : PathState}

theorem Keeps.refl : Keeps mayFail ns p st st := ⟨id, fun _ _ => id, fun _ _ => id⟩

/-- New metadata that name the same versions. -/
theorem Keeps.setMetadata {m : KVMeta} (hspans : Ranged st → ∃ o, Spans m o)
    (hlive : ∀ v, m.live v = true ↔
      ∃ m', st.metadata = some (.kvMeta m') ∧ m'.live v = true) :
    Keeps mayFail ns p st (st.setMetadata (some (.kvMeta m.normalize))) := by
  refine ⟨fun hst => ?_, fun _ _ hst v hv => ?_, fun _ _ hst => ?_⟩
  · exact Ranged.setMetadata (hspans hst).choose_spec
  · exact ⟨_, rfl, (hlive v).2 (hst v hv)⟩
  · rintro _ ⟨⟩ v hv
    obtain ⟨m', hm', hv⟩ := (hlive v).1 hv
    exact hst m' hm' v hv

/-- What is left when the data of some versions was deleted. -/
theorem Cleared.noStray {vs : List Int} (h : Cleared mayFail ns p vs st st') (hst : NoStray st) :
    NoStray st' := by
  intro v hv
  rw [h.metadata]
  refine hst v ?_
  by_cases hmem : v ∈ vs
  · obtain hnone | ⟨-, hsame⟩ := h.listed v hmem
    · rw [hnone] at hv
      cases hv
    · rwa [hsame] at hv
  · rwa [h.others v hmem] at hv

/-- None of it is left if the deletions do not fail. -/
theorem Cleared.notMem {vs : List Int} (h : Cleared mayFail ns p vs st st')
    (hdelete : ∀ v, ¬mayFail (.delete (inView ns (dataKey p v)))) {v : Int}
    (hv : (st'.data v).isSome = true) : v ∉ vs := by
  intro hmem
  rw [(h.listed v hmem).resolve_right fun hc => hdelete v hc.1] at hv
  cases hv

theorem Cleared.live {m : KVMeta} {vs : List Int} (h : Cleared mayFail ns p vs st st')
    (hm : st.metadata = some (.kvMeta m)) (hst : NoStray st) {v : Int}
    (hv : (st'.data v).isSome = true) : m.live v = true := by
  obtain ⟨m', hm', hlive⟩ := h.noStray hst v hv
  rw [h.metadata, hm] at hm'
  cases hm'
  exact hlive

theorem live_mem {m : KVMeta} {v : Int} (h : m.live v = true) : v ∈ m.versions := by
  obtain ⟨vm, hvm, -⟩ := live_iff.1 h
  exact AList.lookup_isSome.1 (hvm ▸ rfl)

theorem WriteEnd.keeps {value : Bytes} {cas : Option Int} {author : Option Author} {now : Int}
    {r : Except Err Int} (h : WriteEnd mayFail ns p s st value cas author now r st') :
    Keeps mayFail ns p st st' := by
  cases h with
  | unread e he => exact .refl
  | refused d hd m hm e he => exact .refl
  | dataLost m hc => exact .refl
  | metaLost d m hm r hc =>
    exact ⟨fun hst => hst.congr rfl, fun hput => absurd hc (hput r), fun hput => absurd hc (hput r)⟩
  | done d hd m hm hcas st' hcl =>
    refine ⟨fun hst => ?_, fun _ hdelete hst v hv => ⟨_, hcl.metadata, ?_⟩, fun _ _ hst => ?_⟩
    · obtain ⟨o, ho⟩ := hst.metaFor hm
      refine Ranged.congr ?_ hcl.metadata
      exact Ranged.setMetadata (ho.addVersion author now).evict
    · have hkept := hcl.notMem hdelete hv
      rw [hcl.others v hkept, setMetadata_data, setData_data] at hv
      rw [live_normalize, live_written]
      split_ifs at hv with hnew
      · exact ⟨hnew ▸ not_outdated_new m author now, .inl hnew⟩
      · have hlive := (live_metaFor hm).2 (hst v hv)
        refine ⟨fun hold => hkept (mem_evict_snd.2 ⟨?_, hold⟩), .inr hlive⟩
        exact (AList.mem_insert _).2 (.inr (live_mem hlive))
    · intro m' hm' v hv
      cases hcl.metadata.symm.trans hm'
      rw [live_normalize, live_written] at hv
      obtain ⟨hkept, hv⟩ := hv
      rw [hcl.others v fun hgone => hkept (mem_evict_snd.1 hgone).2, setMetadata_data, setData_data]
      split_ifs with hnew
      · rfl
      · obtain ⟨m', hm', hlive⟩ := (live_metaFor hm).1 (hv.resolve_left hnew)
        exact hst m' hm' v hlive

theorem EditEnd.keeps {edit : VerMeta → VerMeta} {versions : List Int} {r : Except Err Unit}
    (h : EditEnd mayFail ns p st edit versions r st')
    (hedit : ∀ vm, (edit vm).destroyed = vm.destroyed) : Keeps mayFail ns p st st' := by
  cases h with
  | unread e he => exact .refl
  | absent hnone => exact .refl
  | lost r hc => exact .refl
  | done m hm =>
    refine .setMetadata (fun hst => ?_) fun v => ?_
    · obtain ⟨o, ho, -⟩ := hst.sound hm
      exact ⟨o, ho.normalize.foldl_modify edit versions⟩
    · rw [live_foldl_modify hedit, live_normalize, hm]
      refine ⟨fun hv => ⟨m, rfl, hv⟩, ?_⟩
      rintro ⟨_, ⟨⟩, hv⟩
      exact hv

theorem DestroyEnd.keeps {versions : List Int} {r : Except Err Unit}
    (h : DestroyEnd mayFail ns p st versions r st') : Keeps mayFail ns p st st' := by
  cases h with
  | unread e he => exact .refl
  | absent hnone => exact .refl
  | lost m hm r hc st' hcl =>
    exact ⟨fun hst => hst.congr hcl.metadata, fun _ _ => hcl.noStray,
      fun hput => absurd hc (hput r)⟩
  | done m hm st' hcl =>
    refine ⟨fun hst => ?_, fun _ hdelete hst v hv => ⟨_, rfl, ?_⟩, fun _ _ hst => ?_⟩
    · obtain ⟨o, ho, -⟩ := hst.sound hm
      exact Ranged.setMetadata (ho.normalize.destroy versions)
    · have hlive := hcl.live hm hst hv
      rw [live_normalize, live_destroy]
      exact ⟨fun hmem => hcl.notMem hdelete hv ((mem_doomed ..).2 ⟨hmem, hlive⟩), hlive⟩
    · rintro _ ⟨⟩ v hv
      rw [live_normalize, live_destroy] at hv
      rw [setMetadata_data, hcl.others v fun hmem => hv.1 ((mem_doomed ..).1 hmem).1]
      exact hst m hm v hv.2

theorem DeleteAllEnd.keeps {r : Except Err Unit} (h : DeleteAllEnd mayFail ns p st r st') :
    Keeps mayFail ns p st st' := by
  cases h with
  | unread e he => exact .refl
  | absent hnone => exact .refl
  | lost m hm hc st' hcl =>
    exact ⟨fun hst => hst.congr hcl.metadata, fun _ _ => hcl.noStray,
      fun _ hdelete => absurd hc hdelete⟩
  | done m hm st' hcl =>
    refine ⟨nofun, fun _ hdelete hst v hv => ?_, nofun⟩
    have hlive : m.normalize.live v = true := hcl.live hm hst hv
    exact absurd (AList.mem_keys.1 (live_mem hlive)) (hcl.notMem hdelete hv)

theorem UpdateEnd.keeps {u : MetaUpdate} {now : Int} {r : Except Err KVMeta}
    (h : UpdateEnd mayFail ns p st u now r st') : Keeps mayFail ns p st st' := by
  cases h with
  | invalid => exact .refl
  | unread e he => exact .refl
  | lost r hc => exact .refl
  | done d m hm =>
    refine .setMetadata (fun hst => ?_) fun v => live_metaFor hm
    obtain ⟨o, ho⟩ := hst.metaFor hm
    exact ⟨o, ho.congr rfl fun _ => Iff.rfl⟩

end

/-! ## One operation -/

section

variable (mayFail : Call Record → Prop) (ns p : Bytes) (s : LogicalStore) (st : PathState)

/-- What an operation can leave for its path. -/
def Op.End : Op → PathState → Prop
  | write value cas author now, st' => ∃ r, WriteEnd mayFail ns p s st value cas author now r st'
  | softDelete versions now, st' => ∃ r, EditEnd mayFail ns p st (.softDelete now) versions r st'
  | undelete versions, st' => ∃ r, EditEnd mayFail ns p st .undelete versions r st'
  | destroy versions, st' => ∃ r, DestroyEnd mayFail ns p st versions r st'
  | updateMetadata u now, st' => ∃ r, UpdateEnd mayFail ns p st u now r st'
  | deleteAll, st' => ∃ r, DeleteAllEnd mayFail ns p st r st'

end

section

variable {L : Listing} {mayFail : Call Record → Prop} {ns p : Bytes} {w : LogicalWorld}

theorem ends_thenRet {α β : Type} {code : Logical α} {f : α → β} {post : LogicalWorld → Prop}
    (h : Ends (handle L) mayFail (fun _ w' => post w') code w) :
    Ends (handle L) mayFail (fun _ w' => post w')
      (code.andThen fun a => .ret (.ok (f a))) w := by
  refine Ends.andThen (h.imp ?_)
  rintro (e | a) w' hw'
  · exact hw'
  · exact hw'

theorem ends_code (op : Op) :
    Ends (handle L) mayFail
      (fun _ w' => op.End mayFail ns p w.store (pathState w.store ns p) (pathState w'.store ns p))
      (op.code ns p) w := by
  cases op with
  | write value cas author now =>
    exact ends_thenRet ((ends_write value cas author now).imp fun r _ h => ⟨r, h⟩)
  | softDelete versions now =>
    exact ends_thenRet ((ends_softDelete versions now).imp fun r _ h => ⟨r, h⟩)
  | undelete versions => exact ends_thenRet ((ends_undelete versions).imp fun r _ h => ⟨r, h⟩)
  | destroy versions => exact ends_thenRet ((ends_destroy versions).imp fun r _ h => ⟨r, h⟩)
  | updateMetadata u now => exact ends_thenRet ((ends_updateMetadata u now).imp fun r _ h => ⟨r, h⟩)
  | deleteAll => exact ends_thenRet (ends_deleteAll.imp fun r _ h => ⟨r, h⟩)

end

theorem Op.End.keeps {mayFail : Call Record → Prop} {ns p : Bytes} {s : LogicalStore}
    {st st' : PathState} {op : Op} (h : op.End mayFail ns p s st st') :
    Keeps mayFail ns p st st' := by
  cases op with
  | write value cas author now => exact h.choose_spec.keeps
  | softDelete versions now =>
    refine h.choose_spec.keeps fun vm => ?_
    unfold VerMeta.softDelete
    split_ifs <;> rfl
  | undelete versions =>
    refine h.choose_spec.keeps fun vm => ?_
    unfold VerMeta.undelete
    split_ifs <;> rfl
  | destroy versions => exact h.choose_spec.keeps
  | updateMetadata u now => exact h.choose_spec.keeps
  | deleteAll => exact h.choose_spec.keeps

/-! ## Runs -/

/-- An operation on a path, with the storage calls that go through, or a change of the mount
    options. -/
inductive Turn where
  | request (p : Bytes) (op : Op) (allow : Nat → Call Record → Bool)
  | configure (options : Option Record)

def stepTurn (L : Listing) (ns : Bytes) (w : LogicalWorld) : Turn → LogicalWorld
  | .request p op allow => (runAllowed (handle L) allow 0 (op.code ns p) w).2
  | .configure (some r) => { w with store := w.store.insert mountConfigKey r }
  | .configure none => { w with store := w.store.erase mountConfigKey }

/-- A request ends as its operation can, if only calls of `mayFail` fail. -/
theorem end_request (L : Listing) (mayFail : Call Record → Prop) (ns p : Bytes) (op : Op)
    {allow : Nat → Call Record → Bool} (hallow : ∀ n c, allow n c = false → mayFail c)
    (w : LogicalWorld) :
    op.End mayFail ns p w.store (pathState w.store ns p)
      (pathState (stepTurn L ns w (.request p op allow)).store ns p) :=
  (ends_code op).runAllowed hallow 0

/-- The states reached from a store without KV v2 records in the view. -/
inductive Reaches (L : Listing) (ns : Bytes) (allowed : Turn → Prop) : LogicalWorld → Prop
  | start (w : LogicalWorld) (h : ∀ p, pathState w.store ns p = .empty) : Reaches L ns allowed w
  | step {w : LogicalWorld} (h : Reaches L ns allowed w) (t : Turn) (ht : allowed t) :
      Reaches L ns allowed (stepTurn L ns w t)

theorem pathState_configure (L : Listing) (ns p : Bytes) (w : LogicalWorld)
    (options : Option Record) :
    pathState (stepTurn L ns w (.configure options)).store ns p = pathState w.store ns p := by
  have hsame : ∀ k ≠ mountConfigKey,
      (stepTurn L ns w (.configure options)).store.lookup k = w.store.lookup k := by
    intro k hk
    cases options with
    | none => exact (lookup_erase ..).trans (if_neg hk)
    | some r => exact (lookup_insert ..).trans (if_neg hk)
  ext1
  · exact hsame _ (metaKey_ne_mountConfigKey ns p)
  · exact funext fun v => hsame _ (dataKey_ne_mountConfigKey ns p v)

/-- An invariant of what is stored for a path is shown for the operations on that path. -/
theorem Reaches.inv {L : Listing} {allowed : Turn → Prop} {I : PathState → Prop}
    (hempty : I .empty)
    (hstep : ∀ w p op allow, allowed (.request p op allow) → I (pathState w.store ns p) →
      I (pathState (stepTurn L ns w (.request p op allow)).store ns p))
    {w : LogicalWorld} (h : Reaches L ns allowed w) (p : Bytes) : I (pathState w.store ns p) := by
  induction h with
  | start w h => exact (h p).symm ▸ hempty
  | @step w h t ht ih =>
    cases t with
    | configure options => rwa [pathState_configure]
    | request q op allow =>
      by_cases hpq : clean p = clean q
      · rw [pathState_congr hpq] at ih ⊢
        exact hstep w q op allow ht ih
      · rwa [stepTurn, pathState_of_confined hpq ((covers_pathFootprint ns q).code op)]

/-! ## Runs without storage errors -/

/-- No storage call fails. -/
def Turn.Faultless : Turn → Prop
  | .request _ _ allow => ∀ n c, allow n c = true
  | .configure _ => True

/-- The versions are the numbers from the oldest to the current one, none before the first
    write only. -/
structure Contiguous (m : KVMeta) : Prop where
  range : m.currentVersion ≠ 0 →
    ∀ v, v ∈ m.versions ↔ m.oldestVersion ≤ v ∧ v ≤ m.currentVersion
  empty : m.versions.keys = [] ↔ m.currentVersion = 0

theorem Sound.contiguous (h : Sound m) : Contiguous m := by
  obtain ⟨o, ho, hold⟩ := h
  have hpos := ho.pos
  have hstarted := ho.started
  have hfirst := ho.first
  refine ⟨fun hcur v => ?_, ?_⟩
  · rw [hold, if_neg hcur]
    exact ho.mem v
  · rw [← List.length_eq_zero_iff, ho.length_keys]
    omega

/-- How many versions the metadata of a path name. -/
def versionCount (st : PathState) : Nat :=
  match st.metadata with
  | some (.kvMeta m) => m.versions.keys.length
  | _ => 0

theorem versionCount_eq {st : PathState} {d : Defaults} {now : Int}
    (hm : st.metaFor d now = some m) : versionCount st = m.versions.keys.length := by
  unfold versionCount
  obtain ⟨hst, rfl⟩ | ⟨m', hst, rfl⟩ := metaFor_cases hm
  · rw [hst]
    rfl
  · rw [hst]
    rfl

section

variable {L : Listing} {ns : Bytes} {w : LogicalWorld}

/-- Whichever calls fail, the metadata of every path name a range of versions. -/
theorem Reaches.ranged {allowed : Turn → Prop} (h : Reaches L ns allowed w) (p : Bytes) :
    Ranged (pathState w.store ns p) := by
  refine h.inv nofun (fun w p op allow _ hst => ?_) p
  exact (end_request L (fun _ => True) ns p op (fun _ _ _ => trivial) w).keeps.ranged hst

theorem Reaches.filed (h : Reaches L ns Turn.Faultless w) (p : Bytes) :
    NoStray (pathState w.store ns p) ∧ Stocked (pathState w.store ns p) := by
  refine h.inv (I := fun st => NoStray st ∧ Stocked st) ⟨nofun, nofun⟩
    (fun w p op allow hall hst => ?_) p
  have hallow : ∀ n c, allow n c = false → False := fun n c hc =>
    Bool.false_ne_true (hc.symm.trans (hall n c))
  have hend := (end_request L (fun _ => False) ns p op hallow w).keeps
  exact ⟨hend.noStray (fun _ => id) (fun _ => id) hst.1, hend.stocked (fun _ => id) id hst.2⟩

theorem end_write_run (L : Listing) (ns p value : Bytes) (cas : Option Int)
    (author : Option Author) (now : Int) (w : LogicalWorld) :
    WriteEnd (fun _ => False) ns p w.store (pathState w.store ns p) value cas author now
      (run (handle L) (write ns p value cas author now) w).1
      (pathState (run (handle L) (write ns p value cas author now) w).2.store ns p) :=
  (ends_write value cas author now).run

/-- What a write leaves in the metadata. -/
theorem count_write {p value : Bytes} {cas : Option Int} {author : Option Author} {now v : Int}
    (hst : Ranged (pathState w.store ns p))
    (hok : (run (handle L) (write ns p value cas author now) w).1 = .ok v) :
    ∃ m, (pathState (run (handle L) (write ns p value cas author now) w).2.store ns p).metadata =
        some (.kvMeta m) ∧
      (0 < m.maxVersions → m.versions.keys.length =
        min m.maxVersions.toNat (versionCount (pathState w.store ns p) + 1)) := by
  have hend := end_write_run L ns p value cas author now w
  rw [hok] at hend
  generalize pathState (run (handle L) (write ns p value cas author now) w).2.store ns p =
    st' at hend ⊢
  cases hend with
  | done d hd m hm hcas st' hcl =>
    refine ⟨_, hcl.metadata, fun hmax => ?_⟩
    obtain ⟨o, ho⟩ := hst.metaFor hm
    have hcap : (m.addVersion author now).evict.1.normalize.maxVersions = m.maxVersions :=
      evict_maxVersions _
    rw [hcap] at hmax ⊢
    rw [versionCount_eq hm]
    exact ho.length_written author now hmax

/-- In every state reached without storage errors: the metadata of a path name the contiguous
    range of versions, data is stored for exactly the versions that are named and not
    destroyed, a write leaves as many versions as the cap allows, and an operation leaves the
    other paths as they are. -/
theorem versions_contiguous (h : Reaches L ns Turn.Faultless w) :
    (∀ p r, (pathState w.store ns p).metadata = some r → ∃ m, r = .kvMeta m ∧ Contiguous m) ∧
    (∀ p value cas author now v,
      (run (handle L) (write ns p value cas author now) w).1 = .ok v →
      ∃ m, (pathState (run (handle L) (write ns p value cas author now) w).2.store
          ns p).metadata = some (.kvMeta m) ∧
        (0 < m.maxVersions → m.versions.keys.length =
          min m.maxVersions.toNat (versionCount (pathState w.store ns p) + 1))) ∧
    (∀ p v, ((pathState w.store ns p).data v).isSome = true ↔
      ∃ m, (pathState w.store ns p).metadata = some (.kvMeta m) ∧ m.live v = true) ∧
    ∀ p (op : Op) p', clean p' ≠ clean p →
      pathState (run (handle L) (op.code ns p) w).2.store ns p' = pathState w.store ns p' := by
  refine ⟨fun p r hr => ?_, fun p value cas author now v hok => count_write (h.ranged p) hok,
    fun p v => ⟨(h.filed p).1 v, ?_⟩, fun p op p' hne => ?_⟩
  · obtain ⟨m, rfl, hm⟩ := h.ranged p r hr
    exact ⟨m, rfl, hm.contiguous⟩
  · rintro ⟨m, hm, hlive⟩
    exact (h.filed p).2 m hm v hlive
  · rw [← runAllowed_all (handle L) (op.code ns p) 0 w]
    exact pathState_of_confined hne ((covers_pathFootprint ns p).code op) L _ 0 w

end

/-- A store without records. -/
def unwritten : LogicalWorld := ⟨∅, fun _ => 0⟩

theorem pathState_unwritten (ns p : Bytes) : pathState unwritten.store ns p = .empty := rfl

/-- Two writes of a secret whose cap is lowered to one version in between. -/
def cappedWrites : List Turn :=
  [.request (ascii "app") (.write (ascii "a") none none 0) fun _ _ => true,
    .request (ascii "app") (.updateMetadata ⟨some 1, none, none, false⟩ 1) fun _ _ => true,
    .request (ascii "/app/") (.write (ascii "b") (some 1) none 2) fun _ _ => true]

theorem Reaches.foldl {L : Listing} {allowed : Turn → Prop} {w : LogicalWorld}
    (h : Reaches L ns allowed w) {ts : List Turn} (hts : ∀ t ∈ ts, allowed t) :
    Reaches L ns allowed (ts.foldl (stepTurn L ns) w) := by
  induction ts generalizing w with
  | nil => exact h
  | cons t ts ih =>
    exact ih (h.step t (hts t List.mem_cons_self)) fun t' ht' => hts t' (List.mem_cons_of_mem t ht')

theorem versions_contiguous_capped :
    (run (handle sorted) (write [] (ascii "app") (ascii "c") (some 2) none 3)
      (cappedWrites.foldl (stepTurn sorted []) unwritten)).1 = .ok 3 ∧
    ∀ p v,
      ((pathState (cappedWrites.foldl (stepTurn sorted []) unwritten).store [] p).data v).isSome =
        true ↔
      ∃ m, (pathState (cappedWrites.foldl (stepTurn sorted []) unwritten).store [] p).metadata =
        some (.kvMeta m) ∧ m.live v = true := by
  refine ⟨by decide +kernel,
    (versions_contiguous (Reaches.foldl (.start _ (pathState_unwritten [])) ?_)).2.2.1⟩
  rintro t (_ | ⟨_, _ | ⟨_, _ | ⟨_, ⟨⟩⟩⟩⟩)
  · exact fun _ _ => rfl
  · exact fun _ _ => rfl
  · exact fun _ _ => rfl

end Tuck.KVv2
