/-
  KV v2 operations that run side by side on one node. Each operation holds the lock of its
  path, one of 64, chosen by a hash of the metadata key; `Read` takes no lock. The operations
  interleave at single storage calls, none of which fails, and nobody calls `DeleteAll`.

  The paths are the resources of `Serial`: an operation touches its own path only, and all
  spellings of a path hash to one lock. After the completed operations on a path the current
  version is the number of writes that succeeded (`Served`), which numbers the writes one after
  the other and decides every check-and-set. A reader gets its data from a write that recorded
  it (`Sourced`), and that write is the one that returns the version.
-/
import Tuck.Base.Provenance
import Tuck.Secrets.Faults

namespace Tuck.KVv2

open Tuck.Base Prog List KV

/-! ## Requests -/

/-- FNV-1a with 32 bits. -/
def fnv32a (s : Bytes) : UInt32 := s.foldl (fun h b => (h ^^^ b.toUInt32) * 16777619) 2166136261

/-- The lock that `lockPath` takes. -/
def lockPath (p : Bytes) : UInt32 := fnv32a (metaKey p) % 64

/-- A path in the form that its keys are made from. -/
@[ext]
structure CleanPath where
  path : Bytes
  clean_path : clean path = path
  deriving DecidableEq

def CleanPath.of (p : Bytes) : CleanPath := ⟨clean p, clean_clean p⟩

inductive Request where
  | op (p : Bytes) (o : Op)
  | read (p : Bytes) (version : Int)

/-- What a request returns: the version of a write, or what was read. -/
inductive Outcome where
  | version (v : Option Int)
  | value (r : Option (Option Bytes × VerMeta))

namespace Request

def code (ns : Bytes) : Request → Logical Outcome
  | op p o => (o.code ns p).andThen fun v => .ret (.ok (.version v))
  | read p version => (KVv2.read ns p version).andThen fun r => .ret (.ok (.value r))

def lock : Request → Option UInt32
  | op p _ => some (lockPath p)
  | read _ _ => none

/-- The path that the request may change. -/
def path : Request → Option CleanPath
  | op p _ => some (.of p)
  | read _ _ => none

end Request

abbrev PathPool := KVPool Record (Except Err Outcome) UInt32

abbrev PathTask := Task (Call Record) Call.Reply (Trace Record) (Except Err Outcome) UInt32

/-- The requests before any of them has started. -/
def startPool (ns : Bytes) (w : LogicalWorld) (rs : List Request) : PathPool :=
  ⟨w, rs.map fun r => ⟨r.lock, .waiting, r.code ns, .empty⟩, []⟩

/-- The pool after the steps of a schedule. -/
def served (L : Listing) (ns : Bytes) (w : LogicalWorld) (rs : List Request) (sched : List Nat) :
    PathPool :=
  runs (LockPool.step (handle L) Trace.learn) (startPool ns w rs) sched

/-! ## The calls of a request -/

@[simp] theorem metaKey_clean (p : Bytes) : metaKey (clean p) = metaKey p := by
  unfold metaKey
  rw [clean_clean]

@[simp] theorem dataKey_clean (p : Bytes) (v : Int) : dataKey (clean p) v = dataKey p v := by
  unfold dataKey
  rw [clean_clean]

/-- What is stored for a path. -/
def pathKeys (ns p : Bytes) : Set Bytes :=
  {k | k = inView ns (metaKey p) ∨ ∃ v, k = inView ns (dataKey p v)}

/-- The call reads what an operation on the path may read, or changes what is stored for it. -/
def PathCall (ns p : Bytes) : Call Record → Prop
  | .get k => k ∈ pathFootprint ns p
  | .put k _ => k ∈ pathKeys ns p
  | .delete k => k ∈ pathKeys ns p
  | _ => False

/-- The call only reads one record. -/
def GetCall : Call Record → Prop
  | .get _ => True
  | _ => False

/-- The calls allowed to a request for a path, or for none. -/
def OwnCall (ns : Bytes) : Option CleanPath → Call Record → Prop
  | some q => PathCall ns q.path
  | none => GetCall

theorem pathKeys_clean (ns p : Bytes) : pathKeys ns (clean p) = pathKeys ns p := by
  unfold pathKeys
  simp only [metaKey_clean, dataKey_clean]

theorem pathFootprint_clean (ns p : Bytes) : pathFootprint ns (clean p) = pathFootprint ns p := by
  unfold pathFootprint
  simp only [metaKey_clean, dataKey_clean]

theorem pathCall_clean (ns p : Bytes) : PathCall ns (clean p) = PathCall ns p := by
  funext c
  unfold PathCall
  rw [pathKeys_clean, pathFootprint_clean]

variable {ns p : Bytes} {c : Call Record}

theorem PathCall.within (h : PathCall ns p c) :
    c.Within (pathFootprint ns p) := by
  have hsub : pathKeys ns p ⊆ pathFootprint ns p := by
    rintro k (hk | hk)
    · exact .inl hk
    · exact .inr (.inl hk)
  cases c with
  | get k => exact h
  | put k r => exact hsub h
  | delete k => exact hsub h
  | list pre => exact h.elim
  | rand n => exact h.elim

theorem PathCall.writes (h : PathCall ns p c) :
    c.Writes (pathKeys ns p) := by
  cases c with
  | put k r => exact h
  | delete k => exact h
  | _ => trivial

/-- What one path stores is out of the reach of the others. -/
theorem notMem_pathKeys {q k : Bytes} (hne : clean p ≠ clean q) (hk : k ∈ pathFootprint ns q) :
    k ∉ pathKeys ns p := by
  rintro (rfl | ⟨v, rfl⟩)
  · exact metaKey_notMem_footprint hne hk
  · exact dataKey_notMem_footprint hne v hk

theorem permits_pathCall (ns p : Bytes) : Permits (PathCall ns p) ns p :=
  ⟨.inl rfl, .inr (.inr rfl), fun _ => .inl rfl, fun v => .inr ⟨v, rfl⟩⟩

theorem calls_request (ns : Bytes) (r : Request) :
    Calls Call.Plausible (OwnCall ns r.path) (r.code ns) := by
  cases r with
  | op p o =>
    dsimp only [Request.path, OwnCall, CleanPath.of]
    rw [pathCall_clean]
    refine Calls.andThen ?_ fun _ => trivial
    exact (permits_pathCall ns p).code o (fun _ _ _ _ _ v => .inr ⟨v, rfl⟩) fun _ => .inl rfl
  | read p version =>
    exact Calls.andThen (calls_read trivial (fun _ => trivial) version) fun _ => trivial

/-! ## Operations without storage errors -/

/-- What an operation that runs alone returns and leaves. -/
structure OpRun (op : Op) (st : PathState) (r : Except Err (Option Int)) (st' : PathState) :
    Prop where
  ranged : Ranged st'
  stored : r ≠ .error .storage
  next : ∀ v, r = .ok (some v) → v = currentOf st + 1 ∧ currentOf st' = v
  kept : (∀ v, r ≠ .ok (some v)) → currentOf st' = currentOf st
  cas : ∀ value c author now, op = .write value (some c) author now →
    ((∃ v, r = .ok (some v)) ↔ c = currentOf st)

section

variable {ns p : Bytes} {s : LogicalStore} {st st' : PathState}

theorem currentOf_eq {m : KVMeta} (hm : st.metadata = some (.kvMeta m)) :
    currentOf st = m.currentVersion := by
  unfold currentOf
  rw [hm]

theorem refusal_ne_storage {cas : Option Int} {m : KVMeta} {d : Defaults} {e : Err}
    (h : refusal cas m d = some e) : e ≠ .storage := by
  unfold refusal at h
  split_ifs at h
  · cases h
    exact nofun
  · cases h
    exact nofun

theorem WriteEnd.opRun {value : Bytes} {cas : Option Int} {author : Option Author} {now : Int}
    {r : Except Err Int}
    (h : WriteEnd (fun _ => False) ns p s st value cas author now r st') (hst : Ranged st) :
    OpRun (.write value cas author now) st (r.map some) st' := by
  have hranged := h.keeps.ranged hst
  cases h with
  | unread e he => exact (he.not_ranged hst).elim
  | refused d hd m hm e he =>
    refine ⟨hranged, fun h => refusal_ne_storage he (Except.error.inj h), nofun, fun _ => rfl, ?_⟩
    rintro _ c _ _ ⟨⟩
    refine iff_of_false nofun fun hc => ?_
    rw [← metaFor_currentVersion hm] at hc
    rw [refusal, if_neg (by simp), hc] at he
    simp at he
  | dataLost m hc => exact hc.elim
  | metaLost d m hm r hc => exact hc.elim
  | done d hd m hm hcas st' hcl =>
    have hcur := metaFor_currentVersion hm
    refine ⟨hranged, nofun, ?_, fun h => absurd rfl (h _), ?_⟩
    · rintro v ⟨⟩
      refine ⟨by rw [hcur], ?_⟩
      rw [currentOf_eq hcl.metadata]
      exact evict_currentVersion _
    · rintro _ c _ _ ⟨⟩
      refine iff_of_true ⟨_, rfl⟩ ?_
      rw [refusal, if_neg (by simp)] at hcas
      split_ifs at hcas with hany
      rw [← hcur]
      simpa using hany

/-- An operation that is no write and keeps the current version. -/
theorem OpRun.of_kept {α : Type} {op : Op} {r : Except Err α} (hranged : Ranged st')
    (hkept : r ≠ .error .storage ∧ currentOf st' = currentOf st)
    (hop : ∀ value cas author now, op ≠ .write value cas author now) :
    OpRun op st (r.map fun _ => none) st' := by
  obtain ⟨hstored, hcur⟩ := hkept
  refine ⟨hranged, fun h => ?_, fun v h => ?_, fun _ => hcur, fun value c author now h => ?_⟩
  · cases r with
    | ok a => cases h
    | error e =>
      cases h
      exact hstored rfl
  · cases r <;> cases h
  · exact absurd h (hop _ _ _ _)

theorem foldl_modify_currentVersion (f : VerMeta → VerMeta) (vs : List Int) (m : KVMeta) :
    (vs.foldl (fun m v => m.modify f v) m).currentVersion = m.currentVersion := by
  induction vs generalizing m with
  | nil => rfl
  | cons v vs ih => exact (ih _).trans (modify_currentVersion m f v)

theorem EditEnd.opRun {op : Op} {edit : VerMeta → VerMeta} {versions : List Int}
    {r : Except Err Unit} (h : EditEnd (fun _ => False) ns p st edit versions r st')
    (hranged : Ranged st') (hop : ∀ value cas author now, op ≠ .write value cas author now) :
    OpRun op st (r.map fun _ => none) st' := by
  refine .of_kept hranged ?_ hop
  cases h with
  | unread e he => exact (he.not_ranged hranged).elim
  | absent hnone => exact ⟨nofun, rfl⟩
  | lost r hc => exact hc.elim
  | done m hm =>
    exact ⟨nofun, (foldl_modify_currentVersion edit versions _).trans (currentOf_eq hm).symm⟩

theorem destroy_currentVersion (vs : List Int) (m : KVMeta) :
    (m.destroy vs).currentVersion = m.currentVersion := by
  induction vs generalizing m with
  | nil => rfl
  | cons v vs ih =>
    rw [KVMeta.destroy]
    split_ifs
    · exact (ih _).trans (modify_currentVersion m _ v)
    · exact ih m

theorem DestroyEnd.opRun {versions : List Int} {r : Except Err Unit}
    (h : DestroyEnd (fun _ => False) ns p st versions r st') (hranged : Ranged st') :
    OpRun (.destroy versions) st (r.map fun _ => none) st' := by
  refine .of_kept hranged ?_ nofun
  cases h with
  | unread e he => exact (he.not_ranged hranged).elim
  | absent hnone => exact ⟨nofun, rfl⟩
  | lost m hm r hc st' hcl => exact hc.elim
  | done m hm st' hcl =>
    exact ⟨nofun, (destroy_currentVersion versions _).trans (currentOf_eq hm).symm⟩

theorem UpdateEnd.opRun {u : MetaUpdate} {now : Int} {r : Except Err KVMeta}
    (h : UpdateEnd (fun _ => False) ns p st u now r st') (hranged : Ranged st') :
    OpRun (.updateMetadata u now) st (r.map fun _ => none) st' := by
  refine .of_kept hranged ?_ nofun
  cases h with
  | invalid => exact ⟨nofun, rfl⟩
  | unread e he => exact (he.not_ranged hranged).elim
  | lost r hc => exact hc.elim
  | done d m hm =>
    have hkeep : (u.apply m).normalize.currentVersion = m.currentVersion := rfl
    exact ⟨nofun, hkeep.trans (metaFor_currentVersion hm)⟩

end

theorem run_thenRet {α β : Type} (L : Listing) (code : Logical α) (f : α → β) (w : LogicalWorld) :
    run (handle L) (code.andThen fun a => .ret (.ok (f a))) w =
      ((run (handle L) code w).1.map f, (run (handle L) code w).2) := by
  rw [run_andThen]
  cases (run (handle L) code w).1 <;> rfl

variable {w : LogicalWorld}

/-- Every operation but `DeleteAll`, run alone on a path whose metadata name a range. -/
theorem opRun (L : Listing) (ns p : Bytes) {op : Op} (hop : op ≠ .deleteAll)
    (hst : Ranged (pathState w.store ns p)) :
    OpRun op (pathState w.store ns p) (run (handle L) (op.code ns p) w).1
      (pathState (run (handle L) (op.code ns p) w).2.store ns p) := by
  have hranged := (@ends_code L (fun _ => False) ns p w op).run.keeps.ranged hst
  cases op with
  | write value cas author now =>
    rw [Op.code, run_thenRet]
    exact WriteEnd.opRun (s := w.store) (ends_write value cas author now).run hst
  | softDelete versions now =>
    rw [Op.code, run_thenRet] at hranged ⊢
    exact EditEnd.opRun (ends_softDelete versions now).run hranged nofun
  | undelete versions =>
    rw [Op.code, run_thenRet] at hranged ⊢
    exact EditEnd.opRun (ends_undelete versions).run hranged nofun
  | destroy versions =>
    rw [Op.code, run_thenRet] at hranged ⊢
    exact DestroyEnd.opRun (ends_destroy versions).run hranged
  | updateMetadata u now =>
    rw [Op.code, run_thenRet] at hranged ⊢
    exact UpdateEnd.opRun (ends_updateMetadata u now).run hranged
  | deleteAll => exact absurd rfl hop

/-! ## The completed requests of a path -/

/-- The request was a write that succeeded. -/
def isWritten : Except Err Outcome → Bool
  | .ok (.version (some _)) => true
  | _ => false

/-- The number of versions that the completed requests wrote. -/
def written (l : List (Nat × Except Err Outcome)) : Nat := l.countP fun e => isWritten e.2

/-- The result of a request on a path to which `n` versions were written before. -/
structure Fits (rs : List Request) (n i : Nat) (r : Except Err Outcome) : Prop where
  stored : r ≠ .error .storage
  next : ∀ v, r = .ok (.version (some v)) → v = n + 1
  cas : ∀ p value c author now, rs[i]? = some (.op p (.write value (some c) author now)) →
    ((∃ v, r = .ok (.version (some v))) ↔ c = n)

/-- Every result fits the ones before. -/
def Legal (rs : List Request) (l : List (Nat × Except Err Outcome)) : Prop :=
  ∀ l₁ i r l₂, l = l₁ ++ (i, r) :: l₂ → Fits rs (written l₁) i r

theorem written_append (l l' : List (Nat × Except Err Outcome)) :
    written (l ++ l') = written l + written l' := countP_append

section

variable {rs : List Request} {l : List (Nat × Except Err Outcome)}

theorem Legal.nil : Legal rs [] := fun _ _ _ _ h => absurd h.symm (by simp)

theorem Legal.append {i : Nat} {r : Except Err Outcome} (h : Legal rs l)
    (hr : Fits rs (written l) i r) : Legal rs (l ++ [(i, r)]) := by
  intro l₁ j r' l₂ heq
  cases l₂ using List.reverseRecOn with
  | nil =>
    obtain ⟨rfl, hlast⟩ := append_inj' heq rfl
    cases hlast
    exact hr
  | append_singleton l₂ x =>
    rw [← cons_append, ← append_assoc] at heq
    obtain ⟨rfl, -⟩ := append_inj' heq rfl
    exact h l₁ j r' l₂ rfl

theorem Legal.of_append {l' : List (Nat × Except Err Outcome)} (h : Legal rs (l ++ l')) :
    Legal rs l := by
  intro l₁ i r l₂ heq
  refine h l₁ i r (l₂ ++ l') ?_
  rw [heq, append_assoc, cons_append]

/-- A version is returned once. -/
theorem Legal.unique (h : Legal rs l) {i j : Nat} {v : Int}
    (hi : (i, .ok (.version (some v))) ∈ l) (hj : (j, .ok (.version (some v))) ∈ l) : i = j := by
  obtain ⟨l₁, l₂, rfl⟩ := append_of_mem hi
  have hvi := (h l₁ i _ l₂ rfl).next v rfl
  obtain hj | hj := mem_append.1 hj
  · -- an earlier one has a smaller number
    obtain ⟨l₃, l₄, rfl⟩ := append_of_mem hj
    have hvj := (h l₃ j _ (l₄ ++ (i, .ok (.version (some v))) :: l₂) (by simp)).next v rfl
    have hone : written ((j, .ok (.version (some v))) :: l₄) = written l₄ + 1 :=
      countP_cons_of_pos rfl
    rw [written_append, hone] at hvi
    omega
  · obtain hj | hj := mem_cons.1 hj
    · cases hj
      rfl
    · obtain ⟨l₃, l₄, rfl⟩ := append_of_mem hj
      have hvj := (h (l₁ ++ (i, .ok (.version (some v))) :: l₃) j _ l₄ (by simp)).next v rfl
      have hone : written ((i, .ok (.version (some v))) :: l₃) = written l₃ + 1 :=
        countP_cons_of_pos rfl
      rw [written_append, hone] at hvj
      omega

end

/-- What holds of a path after the completed requests. -/
structure Served (rs : List Request) (ns q : Bytes) (l : List (Nat × Except Err Outcome))
    (w : LogicalWorld) : Prop where
  legal : Legal rs l
  ranged : Ranged (pathState w.store ns q)
  current : currentOf (pathState w.store ns q) = written l

variable {rs : List Request} {i : Nat}

/-- One more request on the path, run alone. -/
theorem Served.run {q : Bytes} {l : List (Nat × Except Err Outcome)} {o : Op}
    (h : Served rs ns q l w) (L : Listing)
    (hi : rs[i]? = some (.op p o)) (hq : clean p = q) (ho : o ≠ .deleteAll) :
    Served rs ns q (l ++ [(i, (Prog.run (handle L) ((Request.op p o).code ns) w).1)])
      (Prog.run (handle L) ((Request.op p o).code ns) w).2 := by
  have hcongr (s : LogicalStore) : pathState s ns q = pathState s ns p := by
    rw [← hq, pathState_congr (clean_clean p)]
  have hranged : Ranged (pathState w.store ns p) := hcongr w.store ▸ h.ranged
  have hcurrent := h.current
  rw [hcongr] at hcurrent
  have hrun := opRun L ns p ho hranged
  rw [Request.code, run_thenRet]
  dsimp only
  generalize Prog.run (handle L) (o.code ns p) w = res at hrun ⊢
  obtain ⟨r, w'⟩ := res
  dsimp only at hrun ⊢
  have hresult (v : Int) : r.map Outcome.version = .ok (.version (some v)) ↔ r = .ok (some v) := by
    cases r with
    | ok a => simp [Except.map]
    | error e => simp [Except.map]
  refine ⟨h.legal.append ⟨fun herr => ?_, fun v hv => ?_, fun p' value c author now hreq => ?_⟩,
    ?_, ?_⟩
  · cases r with
    | ok a => cases herr
    | error e =>
      cases herr
      exact hrun.stored rfl
  · rw [← hcurrent]
    exact (hrun.next v ((hresult v).1 hv)).1
  · cases hi.symm.trans hreq
    rw [← hcurrent, ← hrun.cas value c author now rfl]
    exact exists_congr hresult
  · rw [hcongr]
    exact hrun.ranged
  · rw [hcongr, written_append]
    by_cases hv : ∃ v, r = .ok (some v)
    · obtain ⟨v, rfl⟩ := hv
      obtain ⟨hnext, hcur⟩ := hrun.next v rfl
      rw [hcur, hnext, hcurrent]
      rfl
    · have hnone : written [(i, r.map Outcome.version)] = 0 := by
        cases r with
        | ok a =>
          cases a with
          | none => rfl
          | some v => exact absurd ⟨v, rfl⟩ hv
        | error e => rfl
      rw [hnone, hrun.kept fun v hr => hv ⟨v, hr⟩, hcurrent]
      rfl

/-! ## Interleavings -/

/-- The path that the request `i` may change. -/
def resOf (rs : List Request) (i : Nat) : Option CleanPath := rs[i]?.bind Request.path

/-- The program of the request `i`. -/
def codeOf (ns : Bytes) (rs : List Request) (i : Nat) : Logical Outcome :=
  match rs[i]? with
  | some r => r.code ns
  | none => .ret (.error .storage)

variable {q : CleanPath}

theorem resOf_eq_some (h : resOf rs i = some q) :
    ∃ p o, rs[i]? = some (.op p o) ∧ .of p = q := by
  obtain ⟨r, hr, hq⟩ := Option.bind_eq_some_iff.1 h
  cases r with
  | op p o => exact ⟨p, o, hr, Option.some.inj hq⟩
  | read p v => cases hq

theorem CleanPath.clean_ne {r : CleanPath} (h : q ≠ r) : clean q.path ≠ clean r.path := by
  rw [q.clean_path, r.clean_path]
  exact fun heq => h (CleanPath.ext heq)

/-- A call for another path, or for none, cannot be noticed. -/
theorem agree_of_ownCall (L : Listing) {r : Option CleanPath} (w : LogicalWorld)
    (hc : OwnCall ns r c) (hr : r ≠ some q) :
    KV.Agree (pathFootprint ns q.path) w (handle L c w).2 := by
  cases r with
  | none =>
    cases c with
    | get k => exact ⟨rfl, fun _ _ => rfl⟩
    | _ => exact hc.elim
  | some q' =>
    have hne := CleanPath.clean_ne fun heq => hr (congrArg some heq)
    refine ⟨?_, fun k hk => ?_⟩
    · cases c with
      | list pre => exact hc.elim
      | rand n => exact hc.elim
      | _ => rfl
    · exact (KV.handle_frame L w (PathCall.writes hc) (notMem_pathKeys hne hk)).symm

theorem pathState_of_agree {w' : LogicalWorld}
    (h : KV.Agree (pathFootprint ns p) w w') :
    pathState w.store ns p = pathState w'.store ns p := by
  ext1
  · exact h.2 _ (.inl rfl)
  · funext v
    exact h.2 _ (.inr (.inl ⟨v, rfl⟩))

/-- Operations on the paths, other than `DeleteAll`, run as if one after the other. -/
theorem serial (L : Listing) (ns : Bytes)
    (hno : ∀ p, Request.op p .deleteAll ∉ rs) :
    Serial (handle L) Call.Plausible (codeOf ns rs) (resOf rs) (OwnCall ns)
      (fun q => KV.Agree (pathFootprint ns q.path)) (fun q => Served rs ns q.path) where
  replies := plausible_handle L
  same q c w w' hc hw := KV.handle_agree L (PathCall.within hc) hw
  apart q r c w := agree_of_ownCall L w
  respects q l w w' hw h := by
    have hstate := pathState_of_agree hw
    exact ⟨h.legal, hstate ▸ h.ranged, hstate ▸ h.current⟩
  calls i := by
    unfold codeOf resOf
    cases rs[i]? with
    | none => trivial
    | some r => exact calls_request ns r
  alone q i l w hi h := by
    obtain ⟨p, o, hreq, rfl⟩ := resOf_eq_some hi
    have ho : o ≠ .deleteAll := by
      rintro rfl
      exact hno p (mem_of_getElem? hreq)
    have hcode : codeOf ns rs i = (Request.op p o).code ns := by
      unfold codeOf
      rw [hreq]
    rw [hcode]
    exact h.run L hreq rfl ho

theorem getElem?_startPool {t : PathTask} (h : (startPool ns w rs).tasks[i]? = some t) :
    ∃ r, rs[i]? = some r ∧ t = ⟨r.lock, .waiting, r.code ns, .empty⟩ := by
  obtain ⟨r, hr, rfl⟩ := List.getElem?_map .. ▸ h |> Option.map_eq_some_iff.1
  exact ⟨r, hr, rfl⟩

theorem inv_startPool (L : Listing) (rs : List Request)
    (h : ∀ p, pathState w.store ns p = .empty) :
    (startPool ns w rs).Inv (handle L) Call.Plausible (codeOf ns rs) (resOf rs) (OwnCall ns)
      (fun q => Served rs ns q.path) (fun q : CleanPath => lockPath q.path) := by
  refine ⟨⟨fun i t q hi hq => ?_, fun i t hi _ => ?_, fun i t hi => ?_, ?_⟩, fun q _ => ?_, ?_⟩
  · obtain ⟨r, hr, rfl⟩ := getElem?_startPool hi
    obtain ⟨p, o, hreq, rfl⟩ := resOf_eq_some hq
    cases hr.symm.trans hreq
    refine congrArg some ?_
    dsimp only [CleanPath.of]
    unfold lockPath
    rw [metaKey_clean]
  · obtain ⟨r, hr, rfl⟩ := getElem?_startPool hi
    unfold codeOf
    rw [hr]
  · obtain ⟨r, hr, rfl⟩ := getElem?_startPool hi
    unfold resOf
    rw [hr]
    exact calls_request ns r
  · intro i j t u q r hi hj hrun
    obtain ⟨r, hr, rfl⟩ := getElem?_startPool hi
    cases hrun
  · have hempty : pathState (startPool ns w rs).world.store ns q.path = .empty := h q.path
    refine ⟨.nil, ?_, ?_⟩
    · rw [hempty]
      exact nofun
    · rw [hempty]
      rfl
  · intro q i t hi hrun
    obtain ⟨r, hr, rfl⟩ := getElem?_startPool hi
    cases hrun

/-! ## What the requests remember -/

/-- What a request has written and read by the time it returns. -/
def Told (ns : Bytes) : Request → Trace Record → Except Err Outcome → Prop
  | .op p (.write value _ _ _), m, a => ∀ k x, (k, x) ∈ m.puts → k = inView ns (metaKey p) ∨
      ∃ v, k = inView ns (dataKey p v) ∧ x = .raw value ∧
        (a = .ok (.version (some v)) ∨ a = .error .storage)
  | .op p _, m, _ => ∀ k x, (k, x) ∈ m.puts → k = inView ns (metaKey p)
  | .read p v, m, a => (∀ k x, (k, x) ∉ m.puts) ∧
      ∀ x vm, a = .ok (.value (some (some x, vm))) → v ≠ 0 →
        ∃ r, (inView ns (dataKey p v), r) ∈ m.gets ∧ r.bytes = x

theorem traced_thenRet {α β : Type} {code : Logical α} {f : α → β} {m : Trace Record}
    {post : Trace Record → Except Err β → Prop}
    (h : Traced Trace.learn Call.Plausible (fun _ _ => True) (fun m r => post m (r.map f)) m code) :
    Traced Trace.learn Call.Plausible (fun _ _ => True) post m
      (code.andThen fun a => .ret (.ok (f a))) := by
  refine Traced.bind (h.imp ?_)
  rintro m (e | a) hpost
  · exact hpost
  · exact hpost

section

variable {ns p : Bytes}

/-- A program that only reads writes nothing. -/
theorem traced_gets {α : Type} {code : Code Record α}
    (h : Calls Call.Plausible GetCall code) {m : Trace Record}
    (hm : ∀ k x, (k, x) ∉ m.puts) :
    Traced Trace.learn Call.Plausible (fun _ _ => True) (fun m' _ => ∀ k x, (k, x) ∉ m'.puts) m
      code :=
  traced_puts h (fun _ _ => id) hm

theorem traced_writeFrom {value : Bytes} {cas : Option Int} {author : Option Author} {now : Int}
    {found : Option KVMeta} {m : Trace Record} (hm : ∀ k x, (k, x) ∉ m.puts) :
    Traced Trace.learn Call.Plausible (fun _ _ => True)
      (fun m' r => ∀ k x, (k, x) ∈ m'.puts → k = inView ns (metaKey p) ∨
        ∃ v, k = inView ns (dataKey p v) ∧ x = .raw value ∧ (r = .ok v ∨ r = .error .storage)) m
      (writeFrom ns p value cas author now found) := by
  refine Traced.bind ((traced_gets (calls_kv2MountDefaults trivial) hm).imp fun m₁ d hm₁ => ?_)
  have hnothing {r : Except Err Int} : ∀ k x, (k, x) ∈ m₁.puts → k = inView ns (metaKey p) ∨
      ∃ v, k = inView ns (dataKey p v) ∧ x = .raw value ∧ (r = .ok v ∨ r = .error .storage) :=
    fun k x hkx => absurd hkx (hm₁ k x)
  dsimp only
  generalize found.getD (newMeta d now) = md
  split_ifs
  · exact hnothing
  · exact hnothing
  refine ⟨trivial, hnothing, fun _ _ => ⟨trivial, fun k x hkx => ?_, fun _ _ => ?_⟩⟩
  · -- the data is stored, the metadata are not
    obtain hkx | hkx := mem_cons.1 hkx
    · cases hkx
      exact .inr ⟨_, rfl, rfl, .inr rfl⟩
    · exact absurd hkx (hm₁ k x)
  · show Traced _ _ _ _ _ ((each (deleteData ns p) (md.addVersion author now).evict.2).bind fun _ =>
      ret (Except.ok (md.currentVersion + 1)))
    refine Traced.bind (Traced.imp (traced_puts (P := fun c => ∀ k x, c ≠ .put k x) ?_
      (fun k x h => absurd rfl (h k x)) fun k x hkx => hkx) fun m₂ _ hm₂ k x hkx => ?_)
    · exact Calls.each fun v _ => Calls.attempt nofun
    · obtain hkx | hkx := mem_cons.1 (hm₂ k x hkx)
      · cases hkx
        exact .inl rfl
      · obtain hkx | hkx := mem_cons.1 hkx
        · cases hkx
          exact .inr ⟨_, rfl, rfl, .inl rfl⟩
        · exact absurd hkx (hm₁ k x)

theorem traced_read (version : Int) :
    Traced Trace.learn Call.Plausible (fun _ _ => True)
      (fun m r => (∀ k x, (k, x) ∉ m.puts) ∧ ∀ x vm, r = .ok (some (some x, vm)) → version ≠ 0 →
        ∃ y, (inView ns (dataKey p version), y) ∈ m.gets ∧ y.bytes = x) .empty
      (read ns p version) := by
  unfold read
  refine Traced.bind ((traced_gets (calls_getMeta trivial) fun _ _ => not_mem_nil).imp ?_)
  rintro m (e | found) hm
  · exact ⟨hm, nofun⟩
  dsimp only
  split
  · exact ⟨hm, nofun⟩
  · rename_i md _
    generalize hv : (if version = 0 then md.currentVersion else version) = v
    unfold readVersion
    split
    · exact ⟨hm, nofun⟩
    · split_ifs
      · exact ⟨hm, nofun⟩
      · exact ⟨hm, nofun⟩
      · refine ⟨trivial, ⟨hm, nofun⟩, fun r _ => ?_⟩
        cases r with
        | none => exact ⟨hm, nofun⟩
        | some y =>
          refine ⟨hm, fun x vm hx hne => ?_⟩
          cases hx
          rw [if_neg hne] at hv
          exact ⟨y, mem_cons.2 (.inl (hv ▸ rfl)), rfl⟩

end

theorem traced_request (ns : Bytes) (r : Request) :
    Traced Trace.learn Call.Plausible (fun _ _ => True) (Told ns r) .empty (r.code ns) := by
  cases r with
  | read p version =>
    refine traced_thenRet ((traced_read version).imp fun m r h => ⟨h.1, fun x vm hx hv => ?_⟩)
    refine h.2 x vm ?_ hv
    cases r with
    | ok a =>
      cases hx
      rfl
    | error e => cases hx
  | op p o =>
    have hmeta : (∀ value cas author now, o ≠ .write value cas author now) →
        Traced Trace.learn Call.Plausible (fun _ _ => True)
          (fun m _ => ∀ k x, (k, x) ∈ m.puts → k = inView ns (metaKey p)) .empty
          ((Request.op p o).code ns) := by
      intro ho
      refine traced_puts (P := fun c => ∀ k x, c = .put k x → k = inView ns (metaKey p)) ?_
        (fun k x h => h k x rfl) fun k x h => absurd h not_mem_nil
      have hpermits : Permits (fun c => ∀ k x, c = .put k x → k = inView ns (metaKey p)) ns p := by
        refine ⟨nofun, nofun, ?_, fun _ => nofun⟩
        rintro m k x ⟨⟩
        rfl
      refine Calls.andThen (hpermits.code o ?_ fun _ => nofun) fun _ => trivial
      exact fun value cas author now h => absurd h (ho value cas author now)
    cases o with
    | write value cas author now =>
      refine traced_thenRet (traced_thenRet ?_)
      unfold write
      refine Traced.bind ((traced_gets (calls_getMeta trivial) fun _ _ => not_mem_nil).imp ?_)
      rintro m (e | found) hm
      · exact fun k x hkx => absurd hkx (hm k x)
      · refine (traced_writeFrom hm).imp fun m' r h k x hkx => (h k x hkx).imp_right ?_
        rintro ⟨v, hk, hx, rfl | rfl⟩
        · exact ⟨v, hk, hx, .inl rfl⟩
        · exact ⟨v, hk, hx, .inr rfl⟩
    | softDelete versions now => exact hmeta nofun
    | undelete versions => exact hmeta nofun
    | destroy versions => exact hmeta nofun
    | updateMetadata u now => exact hmeta nofun
    | deleteAll => exact hmeta nofun

/-! ## All interleavings -/

section

variable {L : Listing} {ns : Bytes} {w : LogicalWorld} {rs : List Request}

variable (L ns w rs) in
theorem recorded_served (sched : List Nat) :
    (served L ns w rs sched).Recorded Trace.learn Call.Plausible
      (fun i m a => ∃ r, rs[i]? = some r ∧ Told ns r m a) .empty := by
  refine LockPool.Recorded.runs ⟨nofun, fun i t hi hdone => ?_, fun i t hi _ => ?_,
    fun i t hi => ?_⟩ (plausible_handle L) sched
  · obtain ⟨r, hr, rfl⟩ := getElem?_startPool hi
    cases hdone
  · obtain ⟨r, hr, rfl⟩ := getElem?_startPool hi
    rfl
  · obtain ⟨r, hr, rfl⟩ := getElem?_startPool hi
    exact (traced_request ns r).imp fun m a h => ⟨r, hr, h⟩

variable (h₀ : ∀ p, pathState w.store ns p = .empty) (sched : List Nat)

include h₀ in
theorem sourced_served :
    Sourced {k | ∃ p v, k = inView ns (dataKey p v)} (served L ns w rs sched) := by
  refine Sourced.runs L ⟨?_, fun k hk r t ht hmem => ?_⟩ sched
  · rintro _ ⟨p, v, rfl⟩ r hr
    have hnone : (pathState w.store ns p).data v = none := by
      rw [h₀]
      rfl
    cases hnone.symm.trans hr
  · obtain ⟨i, hi⟩ := List.getElem?_of_mem ht
    obtain ⟨req, -, rfl⟩ := getElem?_startPool hi
    cases hmem

variable (hno : ∀ p, Request.op p .deleteAll ∉ rs)

include h₀ hno in
theorem inv_served :
    (served L ns w rs sched).Inv (handle L) Call.Plausible (codeOf ns rs) (resOf rs) (OwnCall ns)
      (fun q => Served rs ns q.path) (fun q : CleanPath => lockPath q.path) :=
  (inv_startPool L rs h₀).runs (serial L ns hno) sched

include h₀ hno in
theorem legal_served (q : CleanPath) :
    Legal rs (logOf (resOf rs) q (served L ns w rs sched).log) := by
  have hinv := inv_served (L := L) h₀ sched hno
  by_cases hbusy : ∃ i : Nat, ∃ t, (served L ns w rs sched).tasks[i]? = some t ∧
      t.phase = .running ∧ resOf rs i = some q
  · obtain ⟨i, t, hi, hrun, hq⟩ := hbusy
    exact (hinv.busy q i t hi hrun hq).legal.of_append
  · exact (hinv.idle q fun i t hi hrun hq => hbusy ⟨i, t, hi, hrun, hq⟩).legal

variable {p : Bytes}

/-- Data of a version is recorded by a write of that data, which returns the version. -/
theorem put_data {i : Nat} {t : PathTask} {v : Int} {x : Record}
    (hi : (served L ns w rs sched).tasks[i]? = some t)
    (hput : (inView ns (dataKey p v), x) ∈ t.memory.puts) :
    ∃ p' value cas author now, rs[i]? = some (.op p' (.write value cas author now)) ∧
      clean p' = clean p ∧ x = .raw value ∧
      ((run (handle L) t.code (served L ns w rs sched).world).1 = .ok (.version (some v)) ∨
        (run (handle L) t.code (served L ns w rs sched).world).1 = .error .storage) := by
  obtain ⟨m, hle, r, hr, htold⟩ := ((recorded_served L ns w rs sched).traced i t hi).run
    Trace.le_refl Trace.le_trans Trace.le_learn (plausible_handle L) (served L ns w rs sched).world
  have hput := hle.1 hput
  cases r with
  | read p' u => exact absurd hput (htold.1 _ _)
  | op p' o =>
    cases o with
    | write value cas author now =>
      obtain hk | ⟨u, hk, hx, hres⟩ := htold _ _ hput
      · exact absurd hk.symm (metaKey_ne_dataKey _ _ _ _)
      · obtain ⟨hp, rfl⟩ := dataKey_inj.1 hk
        exact ⟨p', value, cas, author, now, hr, hp.symm, hx, hres⟩
    | _ => exact absurd (htold _ _ hput).symm (metaKey_ne_dataKey _ _ _ _)

theorem mem_logOf {i : Nat} {r : Except Err Outcome} {o : Op}
    {log : List (Nat × Except Err Outcome)} (hi : rs[i]? = some (.op p o)) (hr : (i, r) ∈ log) :
    (i, r) ∈ logOf (resOf rs) (.of p) log := by
  refine mem_filter.2 ⟨hr, ?_⟩
  simp [resOf, hi, Request.path]

include h₀ hno in
/-- The write that recorded the data of a version, among those that are logged. -/
theorem writer_served {j : Nat} {t : PathTask} {value : Bytes} {cas : Option Int}
    {author : Option Author} {now v : Int}
    (hj : (served L ns w rs sched).tasks[j]? = some t)
    (hreq : rs[j]? = some (.op p (.write value cas author now)))
    (hres : (run (handle L) t.code (served L ns w rs sched).world).1 = .ok (.version (some v)) ∨
      (run (handle L) t.code (served L ns w rs sched).world).1 = .error .storage)
    (hstarted : t.phase ≠ .waiting) :
    (∀ r, (j, r) ∈ (served L ns w rs sched).log → r = .ok (.version (some v))) ∧
      ∀ i p' o, rs[i]? = some (.op p' o) → clean p' = clean p →
        (i, .ok (.version (some v))) ∈ (served L ns w rs sched).log → i = j := by
  have hlegal := legal_served (L := L) h₀ sched hno
  have hrec := recorded_served L ns w rs sched
  have hlogged : ∀ r, (j, r) ∈ (served L ns w rs sched).log → r = .ok (.version (some v)) := by
    intro r hr
    obtain ⟨u, hu, -, hret⟩ := hrec.logged j r hr
    cases hj.symm.trans hu
    rw [hret] at hres
    obtain ⟨l₁, l₂, heq⟩ := append_of_mem (mem_logOf hreq hr)
    exact hres.resolve_right (hlegal (.of p) l₁ j r l₂ heq).stored
  refine ⟨hlogged, fun i p' o hi hp hr => ?_⟩
  have hof : CleanPath.of p' = .of p := CleanPath.ext hp
  have hmem := mem_logOf hi hr
  rw [hof] at hmem
  cases hphase : t.phase with
  | waiting => exact absurd hphase hstarted
  | done =>
    obtain ⟨a, -, ha⟩ := hrec.done j t hj hphase
    obtain rfl := hlogged a ha
    exact (hlegal (.of p)).unique hmem (mem_logOf hreq ha)
  | running =>
    -- the result that the write is going to have is legal too
    have hq : resOf rs j = some (.of p) := by simp [resOf, hreq, Request.path]
    have hbusy := ((inv_served (L := L) h₀ sched hno).busy (.of p) j t hj hphase hq).legal
    have hok := hres.resolve_right (hbusy _ j _ [] rfl).stored
    rw [hok] at hbusy
    exact hbusy.unique (mem_append_left _ hmem) (mem_append_right _ mem_cons_self)

include h₀ hno in
/-- In every interleaving the writes to a path that succeed return consecutive versions, a write
    with a check-and-set value succeeds exactly if that is the number of versions written before
    it, and a value that `Read` returns for a version is that of the write that returned it. -/
theorem requests_served :
    (∀ l₁ i r l₂ p value cas author now, (served L ns w rs sched).log = l₁ ++ (i, r) :: l₂ →
      rs[i]? = some (.op p (.write value cas author now)) →
      (∀ v : Int, r = .ok (.version (some v)) → v = written (logOf (resOf rs) (.of p) l₁) + 1) ∧
      ∀ c : Int, cas = some c →
        ((∃ v, r = .ok (.version (some v))) ↔ c = written (logOf (resOf rs) (.of p) l₁))) ∧
    ∀ i p v x vm, rs[i]? = some (.read p v) → 0 < v →
      (i, .ok (.value (some (some x, vm)))) ∈ (served L ns w rs sched).log →
      (∃ j p' cas author now, rs[j]? = some (.op p' (.write x cas author now)) ∧
        clean p' = clean p ∧
        ∀ r, (j, r) ∈ (served L ns w rs sched).log → r = .ok (.version (some v))) ∧
      ∀ j p' value cas author now, rs[j]? = some (.op p' (.write value cas author now)) →
        clean p' = clean p → (j, .ok (.version (some v))) ∈ (served L ns w rs sched).log →
          value = x := by
  constructor
  · intro l₁ i r l₂ p value cas author now hlog hreq
    have hq : resOf rs i = some (.of p) := by simp [resOf, hreq, Request.path]
    have hfits := legal_served (L := L) h₀ sched hno (.of p) (logOf (resOf rs) (.of p) l₁) i r
      (logOf (resOf rs) (.of p) l₂) (by rw [hlog]; simp [logOf, hq])
    refine ⟨hfits.next, ?_⟩
    rintro c rfl
    exact hfits.cas p value c author now hreq
  · intro i p v x vm hreq hv hlog
    have hrec := recorded_served L ns w rs sched
    obtain ⟨t, ht, -, hret⟩ := hrec.logged i _ hlog
    -- the reader got the data from a write
    have htold := hrec.traced i t ht
    rw [hret] at htold
    obtain ⟨req, hreq', htold⟩ := htold
    cases hreq.symm.trans hreq'
    obtain ⟨y, hget, rfl⟩ := htold.2 x vm rfl hv.ne'
    obtain ⟨j, u, hj, hput⟩ := (sourced_served (L := L) h₀ sched).seen _ ⟨p, v, rfl⟩ y t
      (mem_of_getElem? ht) hget
    obtain ⟨p', value, cas, author, now, hwrite, hp, rfl, hres⟩ := put_data sched hj hput
    have hstarted : u.phase ≠ .waiting := by
      intro hwait
      rw [hrec.fresh j u hj hwait] at hput
      cases hput
    obtain ⟨hlogged, honly⟩ := writer_served h₀ sched hno hj hwrite hres hstarted
    refine ⟨⟨j, p', cas, author, now, hwrite, hp, hlogged⟩, ?_⟩
    intro k p'' value' cas' author' now' hwrite' hp' hlog'
    obtain rfl := honly k p'' _ hwrite' (hp'.trans hp.symm) hlog'
    cases hwrite.symm.trans hwrite'
    rfl

end

/-- Two writes, one of them on another spelling of the path, and a read of the first version. -/
def raceRequests : List Request :=
  [.op (ascii "app") (.write (ascii "a") none none 0),
    .op (ascii "/app") (.write (ascii "b") (some 1) none 0), .read (ascii "app") 1]

/-- The reader sees the first version while the write of it still holds the lock. -/
theorem requests_served_race :
    ((served sorted [] unwritten raceRequests ([0, 0, 0, 0, 0] ++ [1, 2, 2, 2, 2] ++ [0])).log.map
        Prod.fst = [2, 0]) ∧
    ∀ sched vm x, (2, .ok (.value (some (some x, vm)))) ∈
        (served sorted [] unwritten raceRequests sched).log →
      ∃ j p' cas author now, raceRequests[j]? = some (.op p' (.write x cas author now)) ∧
        clean p' = clean (ascii "app") ∧
        ∀ r, (j, r) ∈ (served sorted [] unwritten raceRequests sched).log →
          r = .ok (.version (some 1)) := by
  refine ⟨by decide +kernel, fun sched vm x hlog => ?_⟩
  refine ((requests_served (pathState_unwritten []) sched ?_).2 2 (ascii "app") 1 x vm rfl
    (by decide) hlog).1
  rintro p (_ | ⟨_, _ | ⟨_, _ | ⟨_, ⟨⟩⟩⟩⟩)

end Tuck.KVv2
