/-
  The versions that the metadata of a KV v2 path name.

  `Spans m o`: the versions are the numbers from `o` to the current version, none of them if
  nothing was written yet. The functions that the store applies to metadata keep such a range:
  a write adds a number at its end, the eviction takes numbers from its start, and every other
  change keeps the numbers.
-/
import Tuck.Secrets.PathEnds

namespace Tuck.KVv2

open Tuck.Base List AList

/-! ## The oldest version -/

theorem oldest_eq_none {es : List (Sigma fun _ : Int => VerMeta)} : oldest es = none ↔ es = [] := by
  cases es with
  | nil => exact iff_of_true rfl rfl
  | cons e es =>
    refine iff_of_false (fun h => ?_) nofun
    rw [oldest] at h
    cases hrest : oldest es with
    | none => rw [hrest] at h; cases h
    | some p =>
      rw [hrest] at h
      dsimp only at h
      split_ifs at h

variable {v : Int}

/-- `oldest` gives the smallest number. -/
theorem oldest_spec {es : List (Sigma fun _ : Int => VerMeta)} {vm : VerMeta}
    (h : oldest es = some (v, vm)) : ⟨v, vm⟩ ∈ es ∧ ∀ e ∈ es, v ≤ e.1 := by
  induction es generalizing v vm with
  | nil => cases h
  | cons e es ih =>
    rw [oldest] at h
    cases hrest : oldest es with
    | none =>
      rw [hrest] at h
      cases h
      rw [oldest_eq_none.1 hrest]
      exact ⟨mem_singleton.2 rfl, fun e he => (mem_singleton.1 he) ▸ le_rfl⟩
    | some p =>
      obtain ⟨u, um⟩ := p
      obtain ⟨hmem, hle⟩ := ih hrest
      rw [hrest] at h
      dsimp only at h
      split_ifs at h with hlt
      · cases h
        refine ⟨mem_cons_self, fun e he => ?_⟩
        obtain rfl | he := mem_cons.1 he
        · exact le_rfl
        · exact hlt.le.trans (hle e he)
      · cases h
        refine ⟨mem_cons_of_mem _ hmem, fun e he => ?_⟩
        obtain rfl | he := mem_cons.1 he
        · exact not_lt.1 hlt
        · exact hle e he

/-! ## A range of versions -/

/-- The versions are the numbers from `o` to the current one. -/
structure Spans (m : KVMeta) (o : Int) : Prop where
  pos : 1 ≤ o
  started : 0 ≤ m.currentVersion
  first : o ≤ max 1 m.currentVersion
  mem : ∀ v, v ∈ m.versions ↔ o ≤ v ∧ v ≤ m.currentVersion

variable {o : Int} {m : KVMeta}

theorem Spans.congr {m' : KVMeta} (h : Spans m o)
    (hcur : m'.currentVersion = m.currentVersion)
    (hver : ∀ v, v ∈ m'.versions ↔ v ∈ m.versions) : Spans m' o := by
  refine ⟨h.pos, hcur ▸ h.started, hcur ▸ h.first, fun v => ?_⟩
  rw [hver, hcur]
  exact h.mem v

theorem Spans.normalize (h : Spans m o) : Spans m.normalize o :=
  h.congr rfl fun _ => Iff.rfl

/-- The derived field: the first number of the range, zero before the first write. -/
theorem Spans.oldestVersion (h : Spans m o) :
    m.normalize.oldestVersion = if m.currentVersion = 0 then 0 else o := by
  have hfield : m.normalize.oldestVersion =
      ((oldest m.versions.entries).map Prod.fst).getD 0 := rfl
  rw [hfield]
  cases hold : oldest m.versions.entries with
  | none =>
    have hnone : o ∉ m.versions := by
      intro hmem
      rw [AList.mem_keys, AList.keys, oldest_eq_none.1 hold] at hmem
      cases hmem
    have hcur : m.currentVersion = 0 := by
      rw [h.mem] at hnone
      have := h.pos
      have := h.started
      have := h.first
      omega
    rw [if_pos hcur]
    rfl
  | some p =>
    obtain ⟨v, vm⟩ := p
    obtain ⟨hmem, hle⟩ := oldest_spec hold
    have hv := (h.mem v).1 (mem_keys_of_mem hmem)
    have ho : o ∈ m.versions := (h.mem o).2 ⟨le_rfl, hv.1.trans hv.2⟩
    obtain ⟨om, hom⟩ := exists_of_mem_keys (AList.mem_keys.1 ho)
    have hfirst := hle _ hom
    have hpos := h.pos
    rw [if_neg (by omega)]
    exact le_antisymm hfirst hv.1

/-- How many versions there are. -/
theorem Spans.length_keys (h : Spans m o) :
    m.versions.keys.length = (m.currentVersion + 1 - o).toNat := by
  have hset : m.versions.keys.toFinset = Finset.Icc o m.currentVersion := by
    ext v
    rw [mem_toFinset, Finset.mem_Icc, ← AList.mem_keys]
    exact h.mem v
  rw [← toFinset_card_of_nodup m.versions.keys_nodup, hset, Int.card_Icc]

theorem spans_newMeta (d : Defaults) (now : Int) : Spans (newMeta d now) 1 := by
  refine ⟨le_rfl, le_rfl, le_max_left _ _, fun v => iff_of_false (notMem_empty v) ?_⟩
  have hcur : (newMeta d now).currentVersion = 0 := rfl
  omega

theorem Spans.addVersion (h : Spans m o) (author : Option Author) (now : Int) :
    Spans (m.addVersion author now) o := by
  have hpos := h.pos
  have hstarted := h.started
  have hfirst := h.first
  have hcur : (m.addVersion author now).currentVersion = m.currentVersion + 1 := rfl
  refine ⟨h.pos, by omega, by omega, fun v => ?_⟩
  have hmem : v ∈ (m.addVersion author now).versions ↔ v = m.currentVersion + 1 ∨ v ∈ m.versions :=
    mem_insert _
  rw [hmem, h.mem, hcur]
  omega

/-! ## Marking versions -/

section

variable (m : KVMeta) (f : VerMeta → VerMeta) (v : Int)

@[simp] theorem modify_currentVersion : (m.modify f v).currentVersion = m.currentVersion := by
  unfold KVMeta.modify
  split <;> rfl

theorem lookup_modify (u : Int) :
    (m.modify f v).versions.lookup u =
      if u = v then (m.versions.lookup v).map f else m.versions.lookup u := by
  unfold KVMeta.modify
  split
  · next vm hvm =>
    split_ifs with huv
    · rw [huv, hvm]
      exact lookup_insert _
    · exact lookup_insert_ne huv
  · next hvm =>
    split_ifs with huv
    · rw [huv, hvm]
      rfl
    · rfl

theorem mem_modify (u : Int) : u ∈ (m.modify f v).versions ↔ u ∈ m.versions := by
  rw [← lookup_isSome, ← lookup_isSome, lookup_modify]
  split_ifs with huv
  · rw [Option.isSome_map, huv]
  · rfl

end

theorem Spans.modify (h : Spans m o) (f : VerMeta → VerMeta) (v : Int) :
    Spans (m.modify f v) o :=
  h.congr (modify_currentVersion ..) (mem_modify m f v)

theorem Spans.foldl_modify (h : Spans m o) (f : VerMeta → VerMeta)
    (vs : List Int) : Spans (vs.foldl (fun m v => m.modify f v) m) o := by
  induction vs generalizing m with
  | nil => exact h
  | cons v vs ih => exact ih (h.modify f v)

theorem live_iff :
    m.live v = true ↔ ∃ vm, m.versions.lookup v = some vm ∧ vm.destroyed = false := by
  unfold KVMeta.live
  cases m.versions.lookup v with
  | none => simp
  | some vm => simp

/-- A mark that says nothing about destruction leaves the live versions. -/
theorem live_modify {f : VerMeta → VerMeta} (hf : ∀ vm, (f vm).destroyed = vm.destroyed)
    (m : KVMeta) (v u : Int) : (m.modify f v).live u = m.live u := by
  unfold KVMeta.live
  rw [lookup_modify]
  split_ifs with huv
  · rw [huv]
    cases m.versions.lookup v with
    | none => rfl
    | some vm => simp [hf]
  · rfl

theorem live_foldl_modify {f : VerMeta → VerMeta} (hf : ∀ vm, (f vm).destroyed = vm.destroyed)
    (vs : List Int) (m : KVMeta) (u : Int) :
    (vs.foldl (fun m v => m.modify f v) m).live u = m.live u := by
  induction vs generalizing m with
  | nil => rfl
  | cons v vs ih => exact (ih _).trans (live_modify hf m v u)

/-! ## Destroying versions -/

theorem live_destroyed (m : KVMeta) (v u : Int) :
    (m.modify (fun vm => { vm with destroyed := true }) v).live u = true ↔
      u ≠ v ∧ m.live u = true := by
  unfold KVMeta.live
  rw [lookup_modify]
  split_ifs with huv
  · cases m.versions.lookup v <;> simp [huv]
  · simp [huv]

theorem Spans.destroy (h : Spans m o) (vs : List Int) :
    Spans (m.destroy vs) o := by
  induction vs generalizing m with
  | nil => exact h
  | cons v vs ih =>
    rw [KVMeta.destroy]
    split_ifs
    · exact ih (h.modify _ v)
    · exact ih h

/-- What is live after `Destroy`. -/
theorem live_destroy (vs : List Int) (m : KVMeta) (u : Int) :
    (m.destroy vs).live u = true ↔ u ∉ vs ∧ m.live u = true := by
  induction vs generalizing m with
  | nil => simp [KVMeta.destroy]
  | cons v vs ih =>
    rw [KVMeta.destroy, mem_cons, not_or]
    split_ifs with hlive
    · rw [ih, live_destroyed]
      tauto
    · rw [ih]
      refine ⟨fun h => ⟨⟨?_, h.1⟩, h.2⟩, fun h => ⟨h.1.2, h.2⟩⟩
      rintro rfl
      exact hlive h.2

/-- The versions whose data `Destroy` deletes are those listed that are live. -/
theorem mem_doomed (vs : List Int) (m : KVMeta) (u : Int) :
    u ∈ m.doomed vs ↔ u ∈ vs ∧ m.live u = true := by
  induction vs generalizing m with
  | nil => simp [KVMeta.doomed]
  | cons v vs ih =>
    rw [KVMeta.doomed, mem_cons]
    split_ifs with hlive
    · rw [mem_cons, ih, live_destroyed]
      constructor
      · rintro (rfl | ⟨hmem, -, hu⟩)
        · exact ⟨.inl rfl, hlive⟩
        · exact ⟨.inr hmem, hu⟩
      · rintro ⟨hmem, hu⟩
        by_cases huv : u = v
        · exact .inl huv
        · exact .inr ⟨hmem.resolve_left huv, huv, hu⟩
    · rw [ih]
      refine ⟨fun h => ⟨.inr h.1, h.2⟩, fun h => ⟨h.1.resolve_left ?_, h.2⟩⟩
      rintro rfl
      exact hlive h.2

/-! ## The eviction -/

theorem lookup_foldl_erase (gone : List Int) (vs : AList fun _ : Int => VerMeta) (v : Int) :
    (gone.foldl (fun vs u => vs.erase u) vs).lookup v = if v ∈ gone then none else vs.lookup v := by
  induction gone generalizing vs with
  | nil => rfl
  | cons u gone ih =>
    rw [foldl_cons, ih]
    by_cases huv : v = u
    · subst huv
      simp
    · simp [lookup_erase_ne huv, huv]

/-- A version that the cap lets go. -/
def KVMeta.Outdated (m : KVMeta) (v : Int) : Prop :=
  0 < m.maxVersions ∧ v ≤ m.currentVersion - m.maxVersions

instance (m : KVMeta) (v : Int) : Decidable (m.Outdated v) := inferInstanceAs (Decidable (_ ∧ _))

theorem mem_evict_snd : v ∈ m.evict.2 ↔ v ∈ m.versions ∧ m.Outdated v := by
  unfold KVMeta.evict KVMeta.Outdated
  split_ifs with hmax
  · refine iff_of_false not_mem_nil fun h => ?_
    exact absurd hmax (not_le.2 h.2.1)
  · rw [mem_insertionSort, mem_filter, ← AList.mem_keys]
    simp [not_le.1 hmax]

theorem lookup_evict (m : KVMeta) (v : Int) :
    m.evict.1.versions.lookup v = if m.Outdated v then none else m.versions.lookup v := by
  have hgone := mem_evict_snd (m := m) (v := v)
  unfold KVMeta.evict at hgone ⊢
  split_ifs at hgone ⊢ with hmax hold hold
  · exact absurd hold.1 (not_lt.2 hmax)
  · rfl
  · refine (lookup_foldl_erase _ _ _).trans ?_
    split_ifs with hmem
    · rfl
    · rw [hgone] at hmem
      exact lookup_eq_none.2 fun h => hmem ⟨h, hold⟩
  · refine (lookup_foldl_erase _ _ _).trans (if_neg fun h => ?_)
    exact hold (hgone.1 h).2

@[simp] theorem evict_currentVersion (m : KVMeta) :
    m.evict.1.currentVersion = m.currentVersion := by
  unfold KVMeta.evict
  split_ifs <;> rfl

@[simp] theorem evict_maxVersions (m : KVMeta) : m.evict.1.maxVersions = m.maxVersions := by
  unfold KVMeta.evict
  split_ifs <;> rfl

/-- The first number of the range after the eviction. -/
def KVMeta.firstKept (m : KVMeta) (o : Int) : Int :=
  if 0 < m.maxVersions then max o (m.currentVersion - m.maxVersions + 1) else o

theorem Spans.evict (h : Spans m o) : Spans m.evict.1 (m.firstKept o) := by
  have hpos := h.pos
  have hstarted := h.started
  have hfirst := h.first
  unfold KVMeta.firstKept
  refine ⟨?_, ?_, ?_, fun v => ?_⟩
  · split_ifs <;> omega
  · rwa [evict_currentVersion]
  · rw [evict_currentVersion]
    split_ifs <;> omega
  · rw [← lookup_isSome, lookup_evict, evict_currentVersion]
    by_cases hold : m.Outdated v
    · rw [if_pos hold]
      refine iff_of_false nofun ?_
      unfold KVMeta.Outdated at hold
      split_ifs <;> omega
    · rw [if_neg hold, lookup_isSome, h.mem]
      unfold KVMeta.Outdated at hold
      split_ifs <;> omega

/-- A write leaves as many versions as the cap allows. -/
theorem Spans.length_written (h : Spans m o) (author : Option Author)
    (now : Int) (hmax : 0 < m.maxVersions) :
    (m.addVersion author now).evict.1.versions.keys.length =
      min m.maxVersions.toNat (m.versions.keys.length + 1) := by
  have hpos := h.pos
  have hstarted := h.started
  have hfirst := h.first
  have hcur : (m.addVersion author now).currentVersion = m.currentVersion + 1 := rfl
  have hcap : (m.addVersion author now).maxVersions = m.maxVersions := rfl
  rw [(h.addVersion author now).evict.length_keys, h.length_keys, KVMeta.firstKept,
    evict_currentVersion, hcap, if_pos hmax, hcur]
  omega

end Tuck.KVv2
