/-
  What the KV v2 operations can do to the path they are called on, whichever storage calls
  fail. `PathState` is what is stored for a path: the metadata record and the data records by
  version. For each operation one inductive type lists every way it can end, with the result
  and the state it leaves, and one theorem (`ends_write`, `ends_destroy`, ...) says that the
  list is complete. Which calls may fail is a parameter (`mayFail`), so the same list serves
  runs without storage errors, with any, and with some.

  Everything else about the store is the frame: other paths are left alone
  (`pathState_of_confined`).
-/
import Tuck.Secrets.KVv2

namespace Tuck.KVv2

open Tuck.Base Prog KV

/-! ## What is stored for a path -/

@[ext]
structure PathState where
  metadata : Option Record
  data : Int → Option Record

namespace PathState

def setMetadata (st : PathState) (r : Option Record) : PathState := { st with metadata := r }

def setData (st : PathState) (v : Int) (r : Option Record) : PathState :=
  { st with data := Function.update st.data v r }

@[simp] theorem setMetadata_data (st : PathState) (r : Option Record) :
    (st.setMetadata r).data = st.data := rfl

@[simp] theorem setData_metadata (st : PathState) (v : Int) (r : Option Record) :
    (st.setData v r).metadata = st.metadata := rfl

theorem setData_data (st : PathState) (v u : Int) (r : Option Record) :
    (st.setData v r).data u = if u = v then r else st.data u := Function.update_apply ..

end PathState

def pathState (s : LogicalStore) (ns p : Bytes) : PathState where
  metadata := s.lookup (inView ns (metaKey p))
  data v := s.lookup (inView ns (dataKey p v))

section

variable {s : LogicalStore} {ns p : Bytes}

/-- Two spellings of a path are one path. -/
theorem pathState_congr {p' : Bytes} (h : clean p' = clean p) :
    pathState s ns p' = pathState s ns p := by
  unfold pathState metaKey dataKey
  rw [h]

variable {s' : LogicalStore} {r : Option Record}

theorem pathState_meta
    (h : ∀ k, s'.lookup k = if k = inView ns (metaKey p) then r else s.lookup k) :
    pathState s' ns p = (pathState s ns p).setMetadata r := by
  ext1
  · exact (h _).trans (if_pos rfl)
  · funext v
    exact (h _).trans (if_neg (metaKey_ne_dataKey ns p p v).symm)

theorem pathState_data {v : Int}
    (h : ∀ k, s'.lookup k = if k = inView ns (dataKey p v) then r else s.lookup k) :
    pathState s' ns p = (pathState s ns p).setData v r := by
  ext1
  · exact (h _).trans (if_neg (metaKey_ne_dataKey ns p p v))
  · funext u
    rw [PathState.setData_data]
    refine (h _).trans ?_
    simp only [dataKey_inj, true_and]
    rfl

end

/-! ## Other paths -/

/-- What an operation on a path may touch. -/
def pathFootprint (ns p : Bytes) : Set Bytes :=
  {k | k = inView ns (metaKey p) ∨ (∃ v, k = inView ns (dataKey p v)) ∨ k = mountConfigKey}

theorem covers_pathFootprint (ns p : Bytes) : Covers (pathFootprint ns p) ns p :=
  ⟨.inl rfl, fun v => .inr (.inl ⟨v, rfl⟩), .inr (.inr rfl)⟩

/-- The mount options are in no view. -/
theorem inView_ne_mountConfigKey {ns pre : Bytes} (h : overlaps mountConfigKey pre = false)
    (x : Bytes) : inView ns (pre ++ x) ≠ mountConfigKey := by
  unfold inView Namespace.storagePrefix
  rw [← List.append_nil mountConfigKey]
  split_ifs
  · exact (append_ne_append h [] x).symm
  · rw [List.append_assoc]
    exact (append_ne_append (by decide) [] _).symm

theorem metaKey_ne_mountConfigKey (ns p : Bytes) : inView ns (metaKey p) ≠ mountConfigKey :=
  inView_ne_mountConfigKey (by decide) _

theorem dataKey_ne_mountConfigKey (ns p : Bytes) (v : Int) :
    inView ns (dataKey p v) ≠ mountConfigKey := inView_ne_mountConfigKey (by decide) _

section

variable {ns p p' : Bytes} (hne : clean p' ≠ clean p)

include hne

theorem metaKey_notMem_footprint : inView ns (metaKey p') ∉ pathFootprint ns p := by
  rintro (h | ⟨v, h⟩ | h)
  · exact hne (metaKey_inj.1 h)
  · exact metaKey_ne_dataKey _ _ _ _ h
  · exact metaKey_ne_mountConfigKey _ _ h

theorem dataKey_notMem_footprint (v : Int) : inView ns (dataKey p' v) ∉ pathFootprint ns p := by
  rintro (h | ⟨u, h⟩ | h)
  · exact metaKey_ne_dataKey _ _ _ _ h.symm
  · exact hne (dataKey_inj.1 h).1
  · exact dataKey_ne_mountConfigKey _ _ _ h

/-- An operation on one path leaves the others as they are, whichever calls fail. -/
theorem pathState_of_confined {α : Type} {code : Code Record α}
    (hcode : KV.Confined (pathFootprint ns p) code) (L : Listing)
    (allow : Nat → Call Record → Bool) (n : Nat) (w : LogicalWorld) :
    pathState (runAllowed (handle L) allow n code w).2.store ns p' =
      pathState w.store ns p' := by
  have hwrites := hcode.imp fun c => Call.Within.writes
  ext1
  · exact KV.frame_of_writes L allow n hwrites w (metaKey_notMem_footprint hne)
  · funext v
    exact KV.frame_of_writes L allow n hwrites w (dataKey_notMem_footprint hne v)

end

/-! ## Reading -/

/-- The stored mount options. -/
def optionsOf (s : LogicalStore) : Defaults :=
  match s.lookup mountConfigKey with
  | some (.mountConfig maxVersions casRequired) => ⟨maxVersions, casRequired⟩
  | _ => ⟨0, false⟩

section

variable (mayFail : Call Record → Prop) (ns p : Bytes)

/-- The mount options as an operation sees them. -/
def SeesOptions (s : LogicalStore) (d : Defaults) : Prop :=
  d = optionsOf s ∨ mayFail (.get mountConfigKey) ∧ d = ⟨0, false⟩

/-- The metadata cannot be read. -/
inductive Unread (st : PathState) : Err → Prop
  | failed (h : mayFail (.get (inView ns (metaKey p)))) : Unread st .storage
  | undecodable (r : Record) (h : st.metadata = some r) (hr : r.kvMeta? = none) : Unread st .decode

/-- The data of the listed versions is deleted, except where the deletion failed. -/
structure Cleared (vs : List Int) (st st' : PathState) : Prop where
  metadata : st'.metadata = st.metadata
  others : ∀ v, v ∉ vs → st'.data v = st.data v
  listed : ∀ v ∈ vs, st'.data v = none ∨
    mayFail (.delete (inView ns (dataKey p v))) ∧ st'.data v = st.data v

end

section

variable {L : Listing} {mayFail : Call Record → Prop} {ns p : Bytes} {w : LogicalWorld}

theorem ends_kv2MountDefaults {post : Defaults → LogicalWorld → Prop}
    (h : ∀ d, SeesOptions mayFail w.store d → post d w) :
    Ends (handle L) mayFail post kv2MountDefaults w := by
  refine Ends.bind ⟨fun hc => h _ (.inr ⟨hc, rfl⟩), ?_⟩
  have hopt := h (optionsOf w.store) (.inl rfl)
  unfold optionsOf at hopt
  change Ends _ _ _ (ret (Except.ok (w.store.lookup mountConfigKey))) w
  cases hl : w.store.lookup mountConfigKey with
  | none =>
    rw [hl] at hopt
    exact hopt
  | some r =>
    rw [hl] at hopt
    cases r <;> exact hopt

theorem ends_getMeta {post : Except Err (Option KVMeta) → LogicalWorld → Prop}
    (hunread : ∀ e, Unread mayFail ns p (pathState w.store ns p) e → post (.error e) w)
    (hnone : (pathState w.store ns p).metadata = none → post (.ok none) w)
    (hsome : ∀ m, (pathState w.store ns p).metadata = some (.kvMeta m) →
      post (.ok (some m.normalize)) w) :
    Ends (handle L) mayFail post (getMeta ns p) w := by
  refine Ends.andThen ⟨fun hc => hunread _ (.failed hc), ?_⟩
  change Ends _ _ _ (ret (Except.ok (w.store.lookup (inView ns (metaKey p))))) w
  cases hl : w.store.lookup (inView ns (metaKey p)) with
  | none => exact hnone hl
  | some r =>
    cases r with
    | kvMeta m => exact hsome m hl
    | _ => exact hunread _ (.undecodable _ hl rfl)

theorem Cleared.refl {st : PathState} : Cleared mayFail ns p [] st st :=
  ⟨rfl, fun _ _ => rfl, nofun⟩

theorem ends_deleteData {post : Except Err Unit → LogicalWorld → Prop} {v : Int}
    (hlost : mayFail (.delete (inView ns (dataKey p v))) → post (.error .storage) w)
    (hdone : ∀ w', w'.store = w.store.erase (inView ns (dataKey p v)) → post (.ok ()) w') :
    Ends (handle L) mayFail post (deleteData ns p v) w :=
  ⟨hlost, hdone _ rfl⟩

/-- Deleting one more version first. -/
theorem Cleared.cons {v : Int} {vs : List Int} {st st₁ st' : PathState}
    (hfirst : st₁ = st.setData v none ∨ mayFail (.delete (inView ns (dataKey p v))) ∧ st₁ = st)
    (h : Cleared mayFail ns p vs st₁ st') : Cleared mayFail ns p (v :: vs) st st' := by
  refine ⟨?_, fun u hu => ?_, fun u hu => ?_⟩
  · rw [h.metadata]
    obtain rfl | ⟨-, rfl⟩ := hfirst <;> rfl
  · rw [h.others u fun hmem => hu (List.mem_cons_of_mem v hmem)]
    obtain rfl | ⟨-, rfl⟩ := hfirst
    · rw [PathState.setData_data, if_neg fun heq => hu (List.mem_cons.2 (.inl heq))]
    · rfl
  · by_cases hmem : u ∈ vs
    · obtain hnone | ⟨hc, hsame⟩ := h.listed u hmem
      · exact .inl hnone
      · obtain rfl | ⟨-, rfl⟩ := hfirst
        · rw [PathState.setData_data] at hsame
          split_ifs at hsame
          · exact .inl hsame
          · exact .inr ⟨hc, hsame⟩
        · exact .inr ⟨hc, hsame⟩
    · obtain rfl : u = v := (List.mem_cons.1 hu).resolve_right hmem
      rw [h.others u hmem]
      obtain rfl | ⟨hc, rfl⟩ := hfirst
      · exact .inl (by rw [PathState.setData_data, if_pos rfl])
      · exact .inr ⟨hc, rfl⟩

theorem ends_each_deleteData {post : Unit → LogicalWorld → Prop} {vs : List Int}
    (h : ∀ w', Cleared mayFail ns p vs (pathState w.store ns p) (pathState w'.store ns p) →
      post () w') :
    Ends (handle L) mayFail post (each (deleteData ns p) vs) w := by
  induction vs generalizing w with
  | nil => exact h w .refl
  | cons v vs ih =>
    refine Ends.bind (ends_deleteData (fun hc => ?_) fun w₁ hw₁ => ?_)
    · exact ih fun w' hcl => h w' (.cons (.inr ⟨hc, rfl⟩) hcl)
    · refine ih fun w' hcl => h w' (.cons (.inl ?_) hcl)
      rw [hw₁, pathState_data (lookup_erase w.store _)]

end

/-! ## How each operation ends -/

/-- The metadata that a write continues from. -/
def PathState.metaFor (st : PathState) (d : Defaults) (now : Int) : Option KVMeta :=
  match st.metadata with
  | none => some (newMeta d now)
  | some r => r.kvMeta?.map KVMeta.normalize

/-- The check of `cas`. -/
def refusal (cas : Option Int) (m : KVMeta) (d : Defaults) : Option Err :=
  if cas = none ∧ (m.casRequired || d.casRequired) = true then some .casRequired
  else if cas.any (· ≠ m.currentVersion) then some (.casMismatch (cas.getD 0) m.currentVersion)
  else none

/-- The version is there and not destroyed yet. -/
def KVMeta.live (m : KVMeta) (v : Int) : Bool := (m.versions.lookup v).any fun vm => !vm.destroyed

/-- The metadata after `Destroy`. -/
def KVMeta.destroy (m : KVMeta) : List Int → KVMeta
  | [] => m
  | v :: vs =>
      if m.live v then (m.modify (fun vm => { vm with destroyed := true }) v).destroy vs
      else m.destroy vs

/-- The versions whose data `Destroy` deletes. -/
def KVMeta.doomed (m : KVMeta) : List Int → List Int
  | [] => []
  | v :: vs =>
      if m.live v then v :: (m.modify (fun vm => { vm with destroyed := true }) v).doomed vs
      else m.doomed vs

/-- What `SoftDelete` does to a version. -/
def VerMeta.softDelete (now : Int) (vm : VerMeta) : VerMeta :=
  if !vm.destroyed && vm.deletedAt.isNone then { vm with deletedAt := some now } else vm

/-- What `Undelete` does to a version. -/
def VerMeta.undelete (vm : VerMeta) : VerMeta :=
  if !vm.destroyed then { vm with deletedAt := none } else vm

section

variable (mayFail : Call Record → Prop) (ns p : Bytes) (s : LogicalStore) (st : PathState)

/-- Every way `Write` can end. -/
inductive WriteEnd (value : Bytes) (cas : Option Int) (author : Option Author) (now : Int) :
    Except Err Int → PathState → Prop
  | unread (e : Err) (h : Unread mayFail ns p st e) : WriteEnd value cas author now (.error e) st
  | refused (d : Defaults) (hd : SeesOptions mayFail s d) (m : KVMeta)
      (hm : st.metaFor d now = some m) (e : Err) (he : refusal cas m d = some e) :
      WriteEnd value cas author now (.error e) st
  | dataLost (m : KVMeta)
      (h : mayFail (.put (inView ns (dataKey p (m.currentVersion + 1))) (.raw value))) :
      WriteEnd value cas author now (.error .storage) st
  | metaLost (d : Defaults) (m : KVMeta) (hm : st.metaFor d now = some m) (r : Record)
      (h : mayFail (.put (inView ns (metaKey p)) r)) :
      WriteEnd value cas author now (.error .storage)
        (st.setData (m.currentVersion + 1) (some (.raw value)))
  | done (d : Defaults) (hd : SeesOptions mayFail s d) (m : KVMeta) (hm : st.metaFor d now = some m)
      (hcas : refusal cas m d = none) (st' : PathState)
      (hcl : Cleared mayFail ns p (m.addVersion author now).evict.2
        ((st.setData (m.currentVersion + 1) (some (.raw value))).setMetadata
          (some (.kvMeta (m.addVersion author now).evict.1.normalize))) st') :
      WriteEnd value cas author now (.ok (m.currentVersion + 1)) st'

/-- Every way an operation can end that edits the listed versions and touches no data. -/
inductive EditEnd (edit : VerMeta → VerMeta) (versions : List Int) :
    Except Err Unit → PathState → Prop
  | unread (e : Err) (h : Unread mayFail ns p st e) : EditEnd edit versions (.error e) st
  | absent (h : st.metadata = none) : EditEnd edit versions (.ok ()) st
  | lost (r : Record) (h : mayFail (.put (inView ns (metaKey p)) r)) :
      EditEnd edit versions (.error .storage) st
  | done (m : KVMeta) (hm : st.metadata = some (.kvMeta m)) :
      EditEnd edit versions (.ok ()) (st.setMetadata
        (some (.kvMeta (versions.foldl (fun m v => m.modify edit v) m.normalize).normalize)))

/-- Every way `Destroy` can end. -/
inductive DestroyEnd (versions : List Int) : Except Err Unit → PathState → Prop
  | unread (e : Err) (h : Unread mayFail ns p st e) : DestroyEnd versions (.error e) st
  | absent (h : st.metadata = none) : DestroyEnd versions (.ok ()) st
  | lost (m : KVMeta) (hm : st.metadata = some (.kvMeta m)) (r : Record)
      (h : mayFail (.put (inView ns (metaKey p)) r)) (st' : PathState)
      (hcl : Cleared mayFail ns p (m.normalize.doomed versions) st st') :
      DestroyEnd versions (.error .storage) st'
  | done (m : KVMeta) (hm : st.metadata = some (.kvMeta m)) (st' : PathState)
      (hcl : Cleared mayFail ns p (m.normalize.doomed versions) st st') :
      DestroyEnd versions (.ok ())
        (st'.setMetadata (some (.kvMeta (m.normalize.destroy versions).normalize)))

/-- Every way `DeleteAll` can end. -/
inductive DeleteAllEnd : Except Err Unit → PathState → Prop
  | unread (e : Err) (h : Unread mayFail ns p st e) : DeleteAllEnd (.error e) st
  | absent (h : st.metadata = none) : DeleteAllEnd (.ok ()) st
  | lost (m : KVMeta) (hm : st.metadata = some (.kvMeta m))
      (h : mayFail (.delete (inView ns (metaKey p)))) (st' : PathState)
      (hcl : Cleared mayFail ns p m.normalize.versions.keys st st') :
      DeleteAllEnd (.error .storage) st'
  | done (m : KVMeta) (hm : st.metadata = some (.kvMeta m)) (st' : PathState)
      (hcl : Cleared mayFail ns p m.normalize.versions.keys st st') :
      DeleteAllEnd (.ok ()) (st'.setMetadata none)

/-- Every way `UpdateMetadata` can end. -/
inductive UpdateEnd (u : MetaUpdate) (now : Int) : Except Err KVMeta → PathState → Prop
  | invalid : UpdateEnd u now (.error .invalidMetadata) st
  | unread (e : Err) (h : Unread mayFail ns p st e) : UpdateEnd u now (.error e) st
  | lost (r : Record) (h : mayFail (.put (inView ns (metaKey p)) r)) :
      UpdateEnd u now (.error .storage) st
  | done (d : Defaults) (m : KVMeta) (hm : st.metaFor d now = some m) :
      UpdateEnd u now (.ok (u.apply m).normalize)
        (st.setMetadata (some (.kvMeta (u.apply m).normalize)))

end

section

variable {L : Listing} {mayFail : Call Record → Prop} {ns p : Bytes} {w : LogicalWorld}

theorem ends_putMeta {post : Except Err Unit → LogicalWorld → Prop} {m : KVMeta}
    (hlost : mayFail (.put (inView ns (metaKey p)) (.kvMeta m.normalize)) →
      post (.error .storage) w)
    (hdone : ∀ w', pathState w'.store ns p =
      (pathState w.store ns p).setMetadata (some (.kvMeta m.normalize)) → post (.ok ()) w') :
    Ends (handle L) mayFail post (putMeta ns p m) w :=
  ⟨hlost, hdone _ (pathState_meta fun _ => lookup_insert ..)⟩

theorem ends_writeFrom {value : Bytes} {cas : Option Int} {author : Option Author} {now : Int}
    {found : Option KVMeta}
    (hfound : ∀ d, (pathState w.store ns p).metaFor d now = some (found.getD (newMeta d now))) :
    Ends (handle L) mayFail
      (fun r w' => WriteEnd mayFail ns p w.store (pathState w.store ns p) value cas author now r
        (pathState w'.store ns p)) (writeFrom ns p value cas author now found) w := by
  refine Ends.bind (ends_kv2MountDefaults fun d hd => ?_)
  have hm := hfound d
  generalize found.getD (newMeta d now) = m at hm
  have href : refusal cas m d =
      if cas = none ∧ (m.casRequired || d.casRequired) = true then some .casRequired
      else if cas.any (· ≠ m.currentVersion) then
        some (.casMismatch (cas.getD 0) m.currentVersion)
      else none := rfl
  dsimp only
  split_ifs at href ⊢ with hreq hcas
  · exact .refused d hd m hm _ href
  · exact .refused d hd m hm _ href
  · refine Ends.andThen ⟨fun hc => .dataLost m hc, ?_⟩
    have hdata : pathState (handle L (.put (inView ns (dataKey p (m.currentVersion + 1)))
        (.raw value)) w).2.store ns p =
        (pathState w.store ns p).setData (m.currentVersion + 1) (some (.raw value)) :=
      pathState_data fun _ => lookup_insert ..
    refine Ends.andThen (ends_putMeta (fun hc => ?_) fun w₁ hw₁ => ?_)
    · rw [hdata]
      exact .metaLost d m hm _ hc
    · refine Ends.bind (ends_each_deleteData fun w₂ hcl => ?_)
      rw [hw₁, hdata] at hcl
      exact .done d hd m hm href _ hcl

theorem ends_write (value : Bytes) (cas : Option Int) (author : Option Author) (now : Int) :
    Ends (handle L) mayFail
      (fun r w' => WriteEnd mayFail ns p w.store (pathState w.store ns p) value cas author now r
        (pathState w'.store ns p)) (write ns p value cas author now) w := by
  refine Ends.andThen (ends_getMeta (fun e he => .unread e he) (fun hnone => ?_) fun m hm => ?_)
  · exact ends_writeFrom fun d => by rw [PathState.metaFor, hnone]; rfl
  · exact ends_writeFrom fun d => by rw [PathState.metaFor, hm]; rfl

/-- An operation that rewrites the metadata, given what the edit does. -/
theorem ends_editMeta {edit : KVMeta → Code Record KVMeta}
    {post : Except Err Unit → LogicalWorld → Prop}
    (hunread : ∀ e, Unread mayFail ns p (pathState w.store ns p) e → post (.error e) w)
    (habsent : (pathState w.store ns p).metadata = none → post (.ok ()) w)
    (hedit : ∀ m, (pathState w.store ns p).metadata = some (.kvMeta m) →
      Ends (handle L) mayFail
        (fun m' w' => Ends (handle L) mayFail post (putMeta ns p m') w')
        (edit m.normalize) w) :
    Ends (handle L) mayFail post (editMeta ns p edit) w :=
  Ends.andThen (ends_getMeta hunread habsent fun m hm => Ends.bind (hedit m hm))

theorem ends_pureEdit (edit : VerMeta → VerMeta) (versions : List Int) :
    Ends (handle L) mayFail
      (fun r w' => EditEnd mayFail ns p (pathState w.store ns p) edit versions r
        (pathState w'.store ns p))
      (editMeta ns p fun m => .ret (versions.foldl (fun m v => m.modify edit v) m)) w := by
  refine ends_editMeta (fun e he => .unread e he) (fun h => .absent h) fun m hm => ?_
  refine ends_putMeta (fun hc => .lost _ hc) fun w' hw' => ?_
  rw [hw']
  exact .done m hm

theorem ends_softDelete (versions : List Int) (now : Int) :
    Ends (handle L) mayFail
      (fun r w' => EditEnd mayFail ns p (pathState w.store ns p) (.softDelete now) versions r
        (pathState w'.store ns p)) (softDelete ns p versions now) w :=
  ends_pureEdit _ _

theorem ends_undelete (versions : List Int) :
    Ends (handle L) mayFail
      (fun r w' => EditEnd mayFail ns p (pathState w.store ns p) .undelete versions r
        (pathState w'.store ns p)) (undelete ns p versions) w :=
  ends_pureEdit _ _

theorem ends_destroyLoop {post : KVMeta → LogicalWorld → Prop} (versions : List Int) (m : KVMeta)
    (h : ∀ w', Cleared mayFail ns p (m.doomed versions) (pathState w.store ns p)
      (pathState w'.store ns p) → post (m.destroy versions) w') :
    Ends (handle L) mayFail post (destroyLoop ns p versions m) w := by
  induction versions generalizing m w with
  | nil => exact h w .refl
  | cons v versions ih =>
    rw [destroyLoop, ← KVMeta.live]
    rw [KVMeta.doomed, KVMeta.destroy] at h
    by_cases hlive : m.live v = true
    · rw [if_pos hlive, if_pos hlive] at h
      rw [if_pos hlive]
      refine Ends.bind (ends_deleteData (fun hc => ?_) fun w₁ hw₁ => ?_)
      · exact ih _ fun w' hcl => h w' (.cons (.inr ⟨hc, rfl⟩) hcl)
      · refine ih _ fun w' hcl => h w' (.cons (.inl ?_) hcl)
        rw [hw₁, pathState_data (lookup_erase w.store _)]
    · rw [if_neg hlive, if_neg hlive] at h
      rw [if_neg hlive]
      exact ih m h

theorem ends_destroy (versions : List Int) :
    Ends (handle L) mayFail
      (fun r w' => DestroyEnd mayFail ns p (pathState w.store ns p) versions r
        (pathState w'.store ns p)) (destroy ns p versions) w := by
  refine ends_editMeta (fun e he => .unread e he) (fun h => .absent h) fun m hm => ?_
  refine ends_destroyLoop versions m.normalize fun w₁ hcl => ?_
  refine ends_putMeta (fun hc => .lost m hm _ hc _ hcl) fun w' hw' => ?_
  rw [hw']
  exact .done m hm _ hcl

theorem ends_deleteAll :
    Ends (handle L) mayFail
      (fun r w' => DeleteAllEnd mayFail ns p (pathState w.store ns p) r (pathState w'.store ns p))
      (deleteAll ns p) w := by
  refine Ends.andThen (ends_getMeta (fun e he => .unread e he) (fun h => .absent h) fun m hm => ?_)
  refine Ends.bind (ends_each_deleteData fun w₁ hcl => ⟨fun hc => .lost m hm hc _ hcl, ?_⟩)
  have hend := DeleteAllEnd.done m hm _ hcl
  rw [← pathState_meta (lookup_erase w₁.store _)] at hend
  exact hend

theorem ends_updateFrom {u : MetaUpdate} {d : Defaults} {now : Int} {m : KVMeta}
    (hm : (pathState w.store ns p).metaFor d now = some m) :
    Ends (handle L) mayFail
      (fun r w' => UpdateEnd mayFail ns p (pathState w.store ns p) u now r
        (pathState w'.store ns p))
      (updateFrom ns p u m) w := by
  unfold updateFrom
  split_ifs
  · exact .invalid
  · refine Ends.andThen (ends_putMeta (fun hc => .lost _ hc) fun w' hw' => ?_)
    dsimp only [Ends]
    rw [hw']
    exact .done d m hm

theorem ends_updateMetadata (u : MetaUpdate) (now : Int) :
    Ends (handle L) mayFail
      (fun r w' => UpdateEnd mayFail ns p (pathState w.store ns p) u now r
        (pathState w'.store ns p))
      (updateMetadata ns p u now) w := by
  unfold updateMetadata
  split_ifs
  · exact .invalid
  refine Ends.andThen (ends_getMeta (fun e he => .unread e he) (fun hnone => ?_) fun m hm => ?_)
  · refine Ends.bind (Ends.bind (ends_kv2MountDefaults fun d hd => ?_))
    have hfor : (pathState w.store ns p).metaFor d now = some (newMeta d now) := by
      rw [PathState.metaFor, hnone]
    exact ends_updateFrom hfor
  · have hfor : (pathState w.store ns p).metaFor ⟨0, false⟩ now = some m.normalize := by
      rw [PathState.metaFor, hm]
      rfl
    exact ends_updateFrom hfor

end

end Tuck.KVv2
