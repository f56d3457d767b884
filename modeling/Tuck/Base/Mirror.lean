/-
  A table kept in a store: the value of `q` stands at the key `pre ++ key q`.

  The keys are derived from the indexes of the table by any function. An operation on an index
  is an operation on the table as long as no other index that is in use has the same key
  (`Distinct`): then reading, writing and deleting at the derived key are those of the table
  (`Mirrors.lookup_eq`, `Mirrors.insert`, `Mirrors.erase`), and the listing finds every index once
  (`Mirrors.exists_listed`).
-/
import Tuck.Base.KV

namespace Tuck.Base

open KV Function

variable {Q A V : Type} {val : A → V} {pre : Bytes} {key : Q → Bytes} {s : Store V}
  {m : Q → Option A} {q : Q}

/-- The part of the store with the prefix is the table. -/
structure Mirrors (val : A → V) (pre : Bytes) (key : Q → Bytes) (s : Store V) (m : Q → Option A) :
    Prop where
  lookup : ∀ {q a}, m q = some a → s.lookup (pre ++ key q) = some (val a)
  mem : ∀ {k v}, s.lookup (pre ++ k) = some v → ∃ q a, m q = some a ∧ key q = k ∧ val a = v
  unique : ∀ {q q'}, (m q).isSome = true → (m q').isSome = true → key q = key q' → q = q'

/-- No other index in use has the key of `q`. -/
def Distinct (key : Q → Bytes) (m : Q → Option A) (q : Q) : Prop :=
  ∀ q', (m q').isSome = true → key q' = key q → q' = q

namespace Mirrors

theorem empty (h : ∀ k, s.lookup (pre ++ k) = none) : Mirrors val pre key s fun _ => none where
  lookup := nofun
  mem := by
    intro k v hk
    rw [h k] at hk
    cases hk
  unique := nofun

theorem lookup_eq (h : Mirrors val pre key s m) (hq : Distinct key m q) :
    s.lookup (pre ++ key q) = (m q).map val := by
  cases hm : m q with
  | some a => exact h.lookup hm
  | none =>
    cases hs : s.lookup (pre ++ key q) with
    | none => rfl
    | some v =>
      obtain ⟨q', a, hq', hkey, -⟩ := h.mem hs
      rw [hq q' (by rw [hq']; rfl) hkey, hm] at hq'
      cases hq'

/-- The part with the prefix decides. -/
theorem congr {s' : Store V} (h : Mirrors val pre key s m)
    (hs : ∀ k, s'.lookup (pre ++ k) = s.lookup (pre ++ k)) : Mirrors val pre key s' m where
  lookup := fun {q _} hm => (hs (key q)).trans (h.lookup hm)
  mem := fun {k _} hk => h.mem ((hs k).symm.trans hk)
  unique := h.unique

variable [DecidableEq Q]

/-- The store changes at the key of `q` alone. -/
theorem set {s' : Store V} (h : Mirrors val pre key s m) (hq : Distinct key m q) (o : Option A)
    (hat : s'.lookup (pre ++ key q) = o.map val)
    (hoff : ∀ k, k ≠ key q → s'.lookup (pre ++ k) = s.lookup (pre ++ k)) :
    Mirrors val pre key s' (Function.update m q o) where
  lookup := by
    intro q' a' hm
    by_cases hqq : q' = q
    · subst hqq
      rw [update_self] at hm
      rw [hat, hm]
      rfl
    · rw [update_of_ne hqq] at hm
      rw [hoff _ fun heq => hqq (hq q' (by rw [hm]; rfl) heq)]
      exact h.lookup hm
  mem := by
    intro k v hk
    by_cases hkey : k = key q
    · subst hkey
      obtain ⟨a, rfl, hv⟩ := Option.map_eq_some_iff.1 (hat.symm.trans hk)
      exact ⟨q, a, update_self .., rfl, hv⟩
    · rw [hoff k hkey] at hk
      obtain ⟨q', a', hm, rfl, hv⟩ := h.mem hk
      refine ⟨q', a', ?_, rfl, hv⟩
      rwa [update_of_ne]
      rintro rfl
      exact hkey rfl
  unique := by
    intro q₁ q₂ h₁ h₂ hkey
    by_cases hq₁ : q₁ = q
    · by_cases hq₂ : q₂ = q
      · rw [hq₁, hq₂]
      · rw [update_of_ne hq₂] at h₂
        exact absurd (hq q₂ h₂ (hq₁ ▸ hkey.symm)) hq₂
    · rw [update_of_ne hq₁] at h₁
      by_cases hq₂ : q₂ = q
      · exact absurd (hq q₁ h₁ (hq₂ ▸ hkey)) hq₁
      · rw [update_of_ne hq₂] at h₂
        exact h.unique h₁ h₂ hkey

theorem insert (h : Mirrors val pre key s m) (hq : Distinct key m q) (a : A) :
    Mirrors val pre key (s.insert (pre ++ key q) (val a)) (Function.update m q (some a)) :=
  h.set hq (some a) (Finmap.lookup_insert s) fun _ hk =>
    Finmap.lookup_insert_of_ne s fun heq => hk (List.append_cancel_left heq)

theorem erase (h : Mirrors val pre key s m) (hq : Distinct key m q) :
    Mirrors val pre key (s.erase (pre ++ key q)) (Function.update m q none) :=
  h.set hq none (Finmap.lookup_erase ..) fun _ hk =>
    Finmap.lookup_erase_ne fun heq => hk (List.append_cancel_left heq)

end Mirrors

/-- The listing of the part with the prefix, as the list of the indexes in use. -/
theorem Mirrors.exists_listed [Inhabited Q] (h : Mirrors val pre key s m) (L : Listing) :
    ∃ qs : List Q, qs.Nodup ∧ (∀ q, q ∈ qs ↔ (m q).isSome = true) ∧
      L.order (under s pre) = qs.map fun q => pre ++ key q := by
  have hkeys : ∀ k ∈ L.order (under s pre), ∃ q, (m q).isSome = true ∧ pre ++ key q = k := by
    intro k hk
    obtain ⟨hsome, x, rfl⟩ := mem_under.1 (L.mem_order.1 hk)
    obtain ⟨v, hv⟩ := Option.isSome_iff_exists.1 hsome
    obtain ⟨q, a, hm, rfl, -⟩ := h.mem hv
    exact ⟨q, by rw [hm]; rfl, rfl⟩
  choose! index hindex using hkeys
  refine ⟨(L.order (under s pre)).map index, ?_, fun q => ?_, ?_⟩
  · refine List.Nodup.map_on (fun k hk k' hk' heq => ?_) (L.nodup _)
    rw [← (hindex k hk).2, ← (hindex k' hk').2, heq]
  · rw [List.mem_map]
    constructor
    · rintro ⟨k, hk, rfl⟩
      exact (hindex k hk).1
    · intro hq
      obtain ⟨a, ha⟩ := Option.isSome_iff_exists.1 hq
      have hmem : pre ++ key q ∈ L.order (under s pre) :=
        L.mem_order.2 (mem_under.2 ⟨by rw [h.lookup ha]; rfl, List.prefix_append ..⟩)
      obtain ⟨hused, hkey⟩ := hindex _ hmem
      exact ⟨_, hmem, h.unique hused hq (List.append_cancel_left hkey)⟩
  · rw [List.map_map]
    exact (List.map_id _).symm.trans (List.map_congr_left fun k hk => ((hindex k hk).2).symm)

end Tuck.Base
