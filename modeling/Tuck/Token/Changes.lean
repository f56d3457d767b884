/-
  What an operation can do to the stored tokens, short of creating one: rewrite a token with
  the same place in the indexes, delete tokens, and touch records that are no business of the
  token store. `Changes P s R s'` says that `s'` is reached from `s` that way and that the
  tokens with an ID of `R` were deleted; those deleted by their accessor satisfy `P`.

  Everything that the runs need is proved of `Changes` once: the invariant of the indexes is
  kept (`Changes.wf`, `Changes.noStale`), no edge of the children index is added
  (`Changes.isChild`), and the tokens left are those outside `R` (`Changes.back`,
  `Changes.forth`).
-/
import Tuck.Token.Index

namespace Tuck.Token

open Tuck.Base

/-- The two records of a token have the same place in the indexes. -/
structure Kin (t u : Token) : Prop where
  id : t.id = u.id
  accessor : t.accessor = u.accessor
  parentID : t.parentID = u.parentID
  orphan : t.orphan = u.orphan

theorem Kin.refl (t : Token) : Kin t t := ⟨rfl, rfl, rfl, rfl⟩

theorem Kin.trans {t u v : Token} (h : Kin t u) (h' : Kin u v) : Kin t v :=
  ⟨h.id.trans h'.id, h.accessor.trans h'.accessor, h.parentID.trans h'.parentID,
    h.orphan.trans h'.orphan⟩

theorem Kin.hasParent {t u : Token} (h : Kin t u) : hasParent t = hasParent u := by
  unfold Token.hasParent
  rw [h.parentID, h.orphan]

/-- `c` is recorded as a child of `p`. -/
def IsChild (sha256 : Bytes → Bytes) (s : LogicalStore) (p c : Bytes) : Prop :=
  s.lookup (childKey sha256 p c) = some (.child c)

/-- Nothing was added, and the three families of token keys are as they were. -/
structure SameTokens (sha256 : Bytes → Bytes) (s s' : LogicalStore) : Prop where
  shrinks : ∀ k r, s'.lookup k = some r → s.lookup k = some r
  token : ∀ id, s'.lookup (tokenKey sha256 id) = s.lookup (tokenKey sha256 id)
  accessor : ∀ acc, s'.lookup (accessorKey acc) = s.lookup (accessorKey acc)
  child : ∀ p c, s'.lookup (childKey sha256 p c) = s.lookup (childKey sha256 p c)

section

variable {sha256 : Bytes → Bytes} {s s' : LogicalStore}

theorem SameTokens.stored (h : SameTokens sha256 s s') {t : Token} :
    Stored sha256 s' t ↔ Stored sha256 s t := by
  unfold Stored
  rw [h.token]

theorem SameTokens.wf (h : SameTokens sha256 s s') (hwf : Wf sha256 s) : Wf sha256 s' where
  token_key k t hk := hwf.token_key k t (h.shrinks k _ hk)
  accessor_iff k id := by
    constructor
    · intro hk
      obtain ⟨t, ht, hrest⟩ := (hwf.accessor_iff k id).1 (h.shrinks k _ hk)
      exact ⟨t, h.stored.2 ht, hrest⟩
    · rintro ⟨t, ht, hne, rfl, rfl⟩
      rw [h.accessor]
      exact (hwf.accessor_iff _ _).2 ⟨t, h.stored.1 ht, hne, rfl, rfl⟩
  child_of_stored t ht hp := by
    rw [h.child]
    exact hwf.child_of_stored t (h.stored.1 ht) hp
  child_key k c hk := hwf.child_key k c (h.shrinks k _ hk)

theorem SameTokens.noStale (h : SameTokens sha256 s s') (hns : NoStale sha256 s) :
    NoStale sha256 s' := by
  intro p c hk
  rw [h.child] at hk
  obtain ⟨t, ht, hrest⟩ := hns p c hk
  exact ⟨t, h.stored.2 ht, hrest⟩

end

/-- The changes an operation makes that creates no token. -/
inductive Changes (sha256 : Bytes → Bytes) (P : Token → Prop) :
    LogicalStore → Set Bytes → LogicalStore → Prop where
  | same {s s'} (h : SameTokens sha256 s s') : Changes sha256 P s ∅ s'
  | update {s} (old t : Token) (hold : Stored sha256 s old) (hkin : Kin old t) :
      Changes sha256 P s ∅ (putStore sha256 s t)
  | delete (s) (id : Bytes) : Changes sha256 P s {id} (deleteStore sha256 s id)
  | deleteByAccessor {s} (t : Token) (ht : Stored sha256 s t) (hP : P t) :
      Changes sha256 P s {t.id} (deleteByAccessorStore sha256 s t.accessor t.id)
  | trans {s s' s'' R R'} (h : Changes sha256 P s R s') (h' : Changes sha256 P s' R' s'') :
      Changes sha256 P s (R ∪ R') s''

section

variable {sha256 : Bytes → Bytes} {P : Token → Prop} {s s' : LogicalStore} {R : Set Bytes}

theorem Changes.refl (s : LogicalStore) : Changes sha256 P s ∅ s :=
  .same ⟨fun _ _ h => h, fun _ => rfl, fun _ => rfl, fun _ _ => rfl⟩

theorem Changes.congr {R' : Set Bytes} (h : Changes sha256 P s R s') (hR : R = R') :
    Changes sha256 P s R' s' := hR ▸ h

theorem Kin.writable {old t : Token} (hold : Stored sha256 s old) (h : Kin old t) :
    Writable sha256 s t := .update old hold h.id h.accessor h.parentID h.orphan

variable (hsha : Function.Injective sha256)

include hsha

theorem Changes.wf (h : Changes sha256 P s R s') (hwf : Wf sha256 s) : Wf sha256 s' := by
  induction h with
  | same h => exact h.wf hwf
  | update old t hold hkin => exact hwf.put hsha (hkin.writable hold)
  | delete s id => exact hwf.delete hsha
  | deleteByAccessor t ht _ => exact hwf.deleteByAccessor hsha ht
  | trans _ _ ih ih' => exact ih' (ih hwf)

theorem Changes.noStale (h : Changes sha256 P s R s') (hP : ∀ t, P t → hasParent t = false)
    (hwf : Wf sha256 s) (hns : NoStale sha256 s) : NoStale sha256 s' := by
  induction h with
  | same h => exact h.noStale hns
  | update old t hold hkin => exact hns.put hsha (hkin.writable hold)
  | delete s id => exact hns.delete hsha hwf
  | deleteByAccessor t ht hPt => exact hns.deleteByAccessor hsha ht (hP t hPt)
  | trans h _ ih ih' => exact ih' (h.wf hsha hwf) (ih hwf hns)

/-- What is stored afterwards was stored before, and is not among the deleted. -/
theorem Changes.back (h : Changes sha256 P s R s') {u : Token} (hu : Stored sha256 s' u) :
    u.id ∉ R ∧ ∃ t, Stored sha256 s t ∧ Kin t u := by
  induction h generalizing u with
  | same h => exact ⟨Set.notMem_empty _, u, h.stored.1 hu, .refl u⟩
  | update old t hold hkin =>
    refine ⟨Set.notMem_empty _, ?_⟩
    obtain rfl | ⟨-, hu⟩ := (stored_putStore hsha).1 hu
    · exact ⟨old, hold, hkin⟩
    · exact ⟨u, hu, .refl u⟩
  | delete s id =>
    obtain ⟨hu, hid⟩ := (stored_deleteStore hsha).1 hu
    exact ⟨hid, u, hu, .refl u⟩
  | deleteByAccessor t _ _ =>
    obtain ⟨hu, hid⟩ := (stored_deleteByAccessorStore hsha).1 hu
    exact ⟨hid, u, hu, .refl u⟩
  | trans _ _ ih ih' =>
    obtain ⟨hR', t', ht', hkin'⟩ := ih' hu
    obtain ⟨hR, t, ht, hkin⟩ := ih ht'
    refine ⟨?_, t, ht, hkin.trans hkin'⟩
    rintro (hmem | hmem)
    · exact hR (hkin'.id ▸ hmem)
    · exact hR' hmem

/-- What was stored and not deleted is still stored. -/
theorem Changes.forth (h : Changes sha256 P s R s') {t : Token} (ht : Stored sha256 s t)
    (hR : t.id ∉ R) : ∃ u, Stored sha256 s' u ∧ Kin t u := by
  induction h generalizing t with
  | same h => exact ⟨t, h.stored.2 ht, .refl t⟩
  | update old u hold hkin =>
    by_cases hid : t.id = u.id
    · obtain rfl := stored_unique ht hold (hid.trans hkin.id.symm)
      exact ⟨u, (stored_putStore hsha).2 (.inl rfl), hkin⟩
    · exact ⟨t, (stored_putStore hsha).2 (.inr ⟨hid, ht⟩), .refl t⟩
  | delete s id => exact ⟨t, (stored_deleteStore hsha).2 ⟨ht, hR⟩, .refl t⟩
  | deleteByAccessor u _ _ => exact ⟨t, (stored_deleteByAccessorStore hsha).2 ⟨ht, hR⟩, .refl t⟩
  | trans _ _ ih ih' =>
    obtain ⟨u, hu, hkin⟩ := ih ht fun hmem => hR (.inl hmem)
    obtain ⟨v, hv, hkin'⟩ := ih' hu fun hmem => hR (.inr (hkin.id ▸ hmem))
    exact ⟨v, hv, hkin.trans hkin'⟩

/-- No edge of the children index is added. -/
theorem Changes.isChild (h : Changes sha256 P s R s') (hwf : Wf sha256 s) {p c : Bytes}
    (hc : IsChild sha256 s' p c) : IsChild sha256 s p c := by
  induction h with
  | same h => exact (h.child p c).symm.trans hc
  | update old t hold hkin =>
    unfold IsChild at hc
    rw [lookup_putStore] at hc
    split_ifs at hc with h1 h2 h3
    · -- the entry written again was there for the old record
      obtain ⟨rfl, rfl⟩ := (childKey_inj hsha).1 h1.2
      have := hwf.child_of_stored old hold (hkin.hasParent.trans h1.1)
      rwa [hkin.parentID, hkin.id] at this
    · cases hc
    · cases hc
    · exact hc
  | delete s id => exact (lookup_deleteStore_eq_some.1 hc).1
  | deleteByAccessor t _ _ => exact (lookup_deleteByAccessorStore_eq_some.1 hc).1
  | trans h _ ih ih' => exact ih hwf (ih' (h.wf hsha hwf) hc)

end

end Tuck.Token
