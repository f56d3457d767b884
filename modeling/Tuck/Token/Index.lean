/-
  The indexes of the token store. What the operations of the store do is written as functions
  on stores (`putStore`, `deleteStore`, `deleteByAccessorStore`), and their runs without
  storage errors are these functions.

  `Wf` holds in every state: tokens lie under the hash of their ID, the accessor index is
  exact, and every token with a parent is in the children index. `NoStale` is the other half
  for the children index: every entry belongs to a stored token. `deleteByAccessor` breaks it
  for tokens with a parent.
-/
import Tuck.Token.Store

namespace Tuck.Token

open Tuck.Base

/-! ## Keys -/

section

variable {sha256 : Bytes → Bytes}

theorem tokenKey_ne_accessorKey (id acc : Bytes) : tokenKey sha256 id ≠ accessorKey acc :=
  append_ne_append (by decide) _ _

theorem tokenKey_ne_childKey (id p c : Bytes) : tokenKey sha256 id ≠ childKey sha256 p c := by
  unfold childKey childrenOf
  rw [List.append_assoc]
  exact append_ne_append (by decide) _ _

theorem accessorKey_ne_childKey (acc p c : Bytes) : accessorKey acc ≠ childKey sha256 p c := by
  unfold childKey childrenOf
  rw [List.append_assoc]
  exact append_ne_append (by decide) _ _

theorem accessorKey_inj {a b : Bytes} : accessorKey a = accessorKey b ↔ a = b := by
  unfold accessorKey
  rw [List.append_cancel_left_eq]

variable (hsha : Function.Injective sha256)

include hsha

theorem tokenKey_inj {a b : Bytes} : tokenKey sha256 a = tokenKey sha256 b ↔ a = b := by
  constructor
  · intro h
    exact hsha (hexEncode_injective (List.append_cancel_left h))
  · intro h
    rw [h]

/-- A key below the children of `p` is a child key of `p` only. -/
theorem eq_of_childrenOf_append {p p' x y : Bytes}
    (h : childrenOf sha256 p ++ x = childrenOf sha256 p' ++ y) : p = p' ∧ x = y := by
  unfold childrenOf at h
  simp only [List.append_assoc, List.append_cancel_left_eq, List.singleton_append] at h
  obtain ⟨hp, hxy⟩ := append_sep_inj (slash_notMem_hexEncode _) (slash_notMem_hexEncode _) h
  exact ⟨hsha (hexEncode_injective hp), hxy⟩

theorem childKey_inj {p c p' c' : Bytes} :
    childKey sha256 p c = childKey sha256 p' c' ↔ p = p' ∧ c = c' := by
  constructor
  · intro h
    obtain ⟨hp, hc⟩ := eq_of_childrenOf_append hsha h
    exact ⟨hp, hsha (hexEncode_injective hc)⟩
  · rintro ⟨rfl, rfl⟩
    rfl

end

/-! ## The operations on stores -/

section

variable (sha256 : Bytes → Bytes)

/-- The token is recorded below a parent. -/
def hasParent (t : Token) : Bool := t.parentID ≠ [] && !t.orphan

/-- The token is stored. -/
def Stored (s : LogicalStore) (t : Token) : Prop :=
  s.lookup (tokenKey sha256 t.id) = some (.token t)

/-- The token stored under an ID. -/
def storedToken (s : LogicalStore) (id : Bytes) : Option Token :=
  (s.lookup (tokenKey sha256 id)).bind Record.token?

/-- The store after `put`. -/
def putStore (s : LogicalStore) (t : Token) : LogicalStore :=
  let s := s.insert (tokenKey sha256 t.id) (.token t)
  let s := if t.accessor ≠ [] then s.insert (accessorKey t.accessor) (.accessor t.id) else s
  if hasParent t then s.insert (childKey sha256 t.parentID t.id) (.child t.id) else s

/-- The store after `delete`. -/
def deleteStore (s : LogicalStore) (id : Bytes) : LogicalStore :=
  match storedToken sha256 s id with
  | none => s.erase (tokenKey sha256 id)
  | some tok =>
      let s := if tok.accessor ≠ [] then s.erase (accessorKey tok.accessor) else s
      let s := if tok.parentID ≠ [] then s.erase (childKey sha256 tok.parentID id) else s
      s.erase (tokenKey sha256 id)

/-- The store after `deleteByAccessor` found the ID. -/
def deleteByAccessorStore (s : LogicalStore) (acc id : Bytes) : LogicalStore :=
  (s.erase (accessorKey acc)).erase (tokenKey sha256 id)

variable (L : KV.Listing) (w : LogicalWorld)

theorem run_put (t : Token) :
    Prog.run (KV.handle L) (put sha256 t) w =
      (.ok (), { w with store := putStore sha256 w.store t }) := by
  unfold put putStore
  rw [← hasParent]
  by_cases ha : t.accessor = [] <;> by_cases hp : hasParent t = true <;> simp [ha, hp]

theorem run_delete (id : Bytes) :
    Prog.run (KV.handle L) (delete sha256 id) w =
      (.ok (), { w with store := deleteStore sha256 w.store id }) := by
  unfold delete get deleteStore storedToken
  rw [Prog.run_bind, run_getAs]
  cases w.store.lookup (tokenKey sha256 id) with
  | none => simp [decodeAs]
  | some r =>
    cases hr : Record.token? r with
    | none => simp [decodeAs, hr]
    | some tok =>
      by_cases ha : tok.accessor = [] <;> by_cases hp : tok.parentID = [] <;>
        simp [decodeAs, hr, ha, hp]

end

/-! ## What is found after an operation -/

section

variable {sha256 : Bytes → Bytes} {s : LogicalStore}

theorem lookup_putStore (t : Token) (k : Bytes) :
    (putStore sha256 s t).lookup k =
      if hasParent t = true ∧ k = childKey sha256 t.parentID t.id then some (.child t.id)
      else if t.accessor ≠ [] ∧ k = accessorKey t.accessor then some (.accessor t.id)
      else if k = tokenKey sha256 t.id then some (.token t)
      else s.lookup k := by
  unfold putStore
  by_cases ha : t.accessor = [] <;> by_cases hp : hasParent t = true <;>
    simp [ha, hp, KV.lookup_insert]

theorem storedToken_putStore_self (s : LogicalStore) (tok : Token) :
    storedToken sha256 (putStore sha256 s tok) tok.id = some tok := by
  unfold storedToken
  rw [lookup_putStore, if_neg fun h => tokenKey_ne_childKey _ _ _ h.2,
    if_neg fun h => tokenKey_ne_accessorKey _ _ h.2, if_pos rfl]
  rfl

variable {id : Bytes}

theorem lookup_deleteStore_eq_some {k : Bytes} {r : Record} :
    (deleteStore sha256 s id).lookup k = some r ↔
      s.lookup k = some r ∧ k ≠ tokenKey sha256 id ∧ ∀ tok, storedToken sha256 s id = some tok →
        (tok.accessor ≠ [] → k ≠ accessorKey tok.accessor) ∧
          (tok.parentID ≠ [] → k ≠ childKey sha256 tok.parentID id) := by
  unfold deleteStore
  cases storedToken sha256 s id with
  | none => simp [KV.lookup_erase, and_comm]
  | some tok =>
    by_cases ha : tok.accessor = [] <;> by_cases hp : tok.parentID = [] <;>
      simp [ha, hp, KV.lookup_erase] <;> grind

theorem lookup_deleteByAccessorStore_eq_some {acc k : Bytes} {r : Record} :
    (deleteByAccessorStore sha256 s acc id).lookup k = some r ↔
      s.lookup k = some r ∧ k ≠ tokenKey sha256 id ∧ k ≠ accessorKey acc := by
  unfold deleteByAccessorStore
  simp only [KV.lookup_erase]
  split_ifs <;> grind

variable (hsha : Function.Injective sha256)

include hsha

variable {u : Token}

/-- After `put`, the stored tokens are the one written and the others. -/
theorem stored_putStore {t : Token} :
    Stored sha256 (putStore sha256 s t) u ↔ u = t ∨ u.id ≠ t.id ∧ Stored sha256 s u := by
  unfold Stored
  rw [lookup_putStore, if_neg fun h => tokenKey_ne_childKey _ _ _ h.2,
    if_neg fun h => tokenKey_ne_accessorKey _ _ h.2]
  simp only [tokenKey_inj hsha]
  split_ifs with hid
  · simp only [Option.some.injEq, Record.token.injEq]
    constructor
    · intro h
      exact .inl h.symm
    · rintro (rfl | ⟨hne, -⟩)
      · rfl
      · exact absurd hid hne
  · constructor
    · intro h
      exact .inr ⟨hid, h⟩
    · rintro (rfl | ⟨-, h⟩)
      · exact absurd rfl hid
      · exact h

/-- After `delete`, the other tokens are stored. -/
theorem stored_deleteStore :
    Stored sha256 (deleteStore sha256 s id) u ↔ Stored sha256 s u ∧ u.id ≠ id := by
  unfold Stored
  rw [lookup_deleteStore_eq_some, ne_eq, tokenKey_inj hsha]
  refine and_congr_right fun _ => and_iff_left fun tok _ => ?_
  exact ⟨fun _ => tokenKey_ne_accessorKey _ _, fun _ => tokenKey_ne_childKey _ _ _⟩

theorem stored_deleteByAccessorStore {acc : Bytes} :
    Stored sha256 (deleteByAccessorStore sha256 s acc id) u ↔ Stored sha256 s u ∧ u.id ≠ id := by
  unfold Stored
  rw [lookup_deleteByAccessorStore_eq_some, ne_eq, tokenKey_inj hsha]
  exact and_congr_right fun _ => and_iff_left (tokenKey_ne_accessorKey _ _)

end

/-! ## The invariant of every run -/

/-- What the indexes hold in every state. -/
structure Wf (sha256 : Bytes → Bytes) (s : LogicalStore) : Prop where
  token_key : ∀ k t, s.lookup k = some (.token t) → k = tokenKey sha256 t.id
  accessor_iff : ∀ k id, s.lookup k = some (.accessor id) ↔
    ∃ t, Stored sha256 s t ∧ t.accessor ≠ [] ∧ k = accessorKey t.accessor ∧ t.id = id
  child_of_stored : ∀ t, Stored sha256 s t → hasParent t = true →
    s.lookup (childKey sha256 t.parentID t.id) = some (.child t.id)
  child_key : ∀ k c, s.lookup k = some (.child c) → ∃ p, k = childKey sha256 p c

/-- Every entry of the children index belongs to a stored token. -/
def NoStale (sha256 : Bytes → Bytes) (s : LogicalStore) : Prop :=
  ∀ p c, s.lookup (childKey sha256 p c) = some (.child c) →
    ∃ t, Stored sha256 s t ∧ hasParent t = true ∧ t.parentID = p ∧ t.id = c

/-- The token may be written: it is new, with a new accessor, or differs from the stored one
    in fields that no index uses. -/
inductive Writable (sha256 : Bytes → Bytes) (s : LogicalStore) (t : Token) : Prop where
  | fresh (hid : ∀ u, Stored sha256 s u → u.id ≠ t.id)
      (hacc : ∀ u, Stored sha256 s u → u.accessor ≠ t.accessor)
  | update (old : Token) (hold : Stored sha256 s old) (hid : old.id = t.id)
      (hacc : old.accessor = t.accessor) (hparent : old.parentID = t.parentID)
      (horphan : old.orphan = t.orphan)

section

variable {sha256 : Bytes → Bytes} {s : LogicalStore}

variable {id : Bytes} {t : Token}

theorem Wf.id_eq (h : Wf sha256 s)
    (ht : s.lookup (tokenKey sha256 id) = some (.token t)) (hsha : Function.Injective sha256) :
    t.id = id := ((tokenKey_inj hsha).1 (h.token_key _ t ht)).symm

variable {u : Token}

theorem Wf.accessor_unique (h : Wf sha256 s) (ht : Stored sha256 s t)
    (hu : Stored sha256 s u) (hacc : t.accessor ≠ []) (heq : t.accessor = u.accessor) :
    t.id = u.id := by
  have h1 := (h.accessor_iff _ t.id).2 ⟨t, ht, hacc, rfl, rfl⟩
  have h2 := (h.accessor_iff _ u.id).2 ⟨u, hu, heq ▸ hacc, rfl, rfl⟩
  rw [heq, h2] at h1
  exact (Record.accessor.inj (Option.some.inj h1)).symm

theorem stored_unique (ht : Stored sha256 s t) (hu : Stored sha256 s u)
    (hid : t.id = u.id) : t = u := by
  unfold Stored at ht hu
  rw [hid, hu] at ht
  exact (Record.token.inj (Option.some.inj ht)).symm

/-- A token stored under the ID of a writable one has the same index entries. -/
theorem Writable.of_id (h : Writable sha256 s t) (hu : Stored sha256 s u)
    (hid : u.id = t.id) :
    u.accessor = t.accessor ∧ u.parentID = t.parentID ∧ hasParent u = hasParent t := by
  cases h with
  | fresh hnew _ => exact absurd hid (hnew u hu)
  | update old hold hold_id hacc hparent horphan =>
    obtain rfl := stored_unique hu hold (hid.trans hold_id.symm)
    refine ⟨hacc, hparent, ?_⟩
    unfold hasParent
    rw [hparent, horphan]

/-- The accessor of a writable token is no other token's. -/
theorem Writable.id_of_accessor (h : Writable sha256 s t) (hwf : Wf sha256 s)
    (hu : Stored sha256 s u) (hne : u.accessor ≠ []) (hacc : u.accessor = t.accessor) :
    u.id = t.id := by
  cases h with
  | fresh _ hnew => exact absurd hacc (hnew u hu)
  | update old hold hid hold_acc _ _ =>
    exact (hwf.accessor_unique hu hold hne (hacc.trans hold_acc.symm)).trans hid

variable (hsha : Function.Injective sha256)

include hsha

theorem Wf.put (h : Wf sha256 s) (hw : Writable sha256 s t) :
    Wf sha256 (putStore sha256 s t) where
  token_key k u hk := by
    rw [lookup_putStore] at hk
    split_ifs at hk with h1 h2 h3
    · cases hk
    · cases hk
    · obtain rfl := Record.token.inj (Option.some.inj hk)
      exact h3
    · exact h.token_key k u hk
  accessor_iff k id := by
    constructor
    · intro hk
      rw [lookup_putStore] at hk
      split_ifs at hk with h1 h2 h3
      · cases hk
      · obtain rfl := Record.accessor.inj (Option.some.inj hk)
        exact ⟨t, (stored_putStore hsha).2 (.inl rfl), h2.1, h2.2, rfl⟩
      · cases hk
      · obtain ⟨u, hu, hne, rfl, rfl⟩ := (h.accessor_iff k id).1 hk
        refine ⟨u, (stored_putStore hsha).2 (.inr ⟨fun hid => ?_, hu⟩), hne, rfl, rfl⟩
        -- the token written kept its accessor, so the entry would be the new one
        have hacc := (hw.of_id hu hid).1
        exact h2 ⟨hacc ▸ hne, by rw [hacc]⟩
    · rintro ⟨u, hu, hne, rfl, rfl⟩
      rw [lookup_putStore, if_neg fun hk => accessorKey_ne_childKey _ _ _ hk.2]
      obtain rfl | ⟨hid, hu⟩ := (stored_putStore hsha).1 hu
      · rw [if_pos ⟨hne, rfl⟩]
      · rw [if_neg fun hk => hid (hw.id_of_accessor h hu hne (accessorKey_inj.1 hk.2)),
          if_neg fun hk => tokenKey_ne_accessorKey _ _ hk.symm]
        exact (h.accessor_iff _ _).2 ⟨u, hu, hne, rfl, rfl⟩
  child_of_stored u hu hp := by
    rw [lookup_putStore]
    obtain rfl | ⟨hid, hu⟩ := (stored_putStore hsha).1 hu
    · rw [if_pos ⟨hp, rfl⟩]
    · rw [if_neg fun hk => hid ((childKey_inj hsha).1 hk.2).2,
        if_neg fun hk => accessorKey_ne_childKey _ _ _ hk.2.symm,
        if_neg fun hk => tokenKey_ne_childKey _ _ _ hk.symm]
      exact h.child_of_stored u hu hp
  child_key k c hk := by
    rw [lookup_putStore] at hk
    split_ifs at hk with h1 h2 h3
    · obtain rfl := Record.child.inj (Option.some.inj hk)
      exact ⟨t.parentID, h1.2⟩
    · cases hk
    · cases hk
    · exact h.child_key k c hk

theorem NoStale.put (h : NoStale sha256 s) (hw : Writable sha256 s t) :
    NoStale sha256 (putStore sha256 s t) := by
  intro p c hk
  rw [lookup_putStore] at hk
  split_ifs at hk with h1 h2 h3
  · obtain ⟨rfl, rfl⟩ := (childKey_inj hsha).1 h1.2
    exact ⟨t, (stored_putStore hsha).2 (.inl rfl), h1.1, rfl, rfl⟩
  · cases hk
  · cases hk
  · obtain ⟨u, hu, hp, rfl, rfl⟩ := h p c hk
    refine ⟨u, (stored_putStore hsha).2 (.inr ⟨fun hid => ?_, hu⟩), hp, rfl, rfl⟩
    obtain ⟨-, hparent, hhas⟩ := hw.of_id hu hid
    exact h1 ⟨hhas ▸ hp, by rw [hparent, hid]⟩

/-- The token of an ID, if it is stored. -/
theorem storedToken_eq_some (h : Wf sha256 s) :
    storedToken sha256 s id = some t ↔ Stored sha256 s t ∧ t.id = id := by
  unfold storedToken
  constructor
  · intro ht
    obtain ⟨r, hr, hdec⟩ := Option.bind_eq_some_iff.1 ht
    cases r with
    | token u =>
      obtain rfl := Option.some.inj hdec
      have hid := h.id_eq hr hsha
      exact ⟨by rw [Stored, hid]; exact hr, hid⟩
    | _ => cases hdec
  · rintro ⟨hu, rfl⟩
    rw [hu]
    rfl

theorem Wf.delete (h : Wf sha256 s) : Wf sha256 (deleteStore sha256 s id) where
  token_key k u hk := h.token_key k u (lookup_deleteStore_eq_some.1 hk).1
  accessor_iff k id' := by
    constructor
    · intro hk
      obtain ⟨hold, -, hrest⟩ := lookup_deleteStore_eq_some.1 hk
      obtain ⟨u, hu, hne, rfl, rfl⟩ := (h.accessor_iff k id').1 hold
      refine ⟨u, (stored_deleteStore hsha).2 ⟨hu, fun hid => ?_⟩, hne, rfl, rfl⟩
      exact (hrest u ((storedToken_eq_some hsha h).2 ⟨hu, hid⟩)).1 hne rfl
    · rintro ⟨u, hu, hne, rfl, rfl⟩
      obtain ⟨hu', hid⟩ := (stored_deleteStore hsha).1 hu
      refine lookup_deleteStore_eq_some.2
        ⟨(h.accessor_iff _ _).2 ⟨u, hu', hne, rfl, rfl⟩, (tokenKey_ne_accessorKey _ _).symm, ?_⟩
      intro tok htok
      obtain ⟨hst, rfl⟩ := (storedToken_eq_some hsha h).1 htok
      refine ⟨fun _ heq => hid ?_, fun _ => accessorKey_ne_childKey _ _ _⟩
      exact h.accessor_unique hu' hst hne (accessorKey_inj.1 heq)
  child_of_stored u hu hp := by
    obtain ⟨hu, hid⟩ := (stored_deleteStore hsha).1 hu
    refine lookup_deleteStore_eq_some.2
      ⟨h.child_of_stored u hu hp, (tokenKey_ne_childKey _ _ _).symm, fun tok _ => ?_⟩
    exact ⟨fun _ => (accessorKey_ne_childKey _ _ _).symm,
      fun _ heq => hid ((childKey_inj hsha).1 heq).2⟩
  child_key k c hk := h.child_key k c (lookup_deleteStore_eq_some.1 hk).1

theorem NoStale.delete (h : NoStale sha256 s) (hwf : Wf sha256 s) :
    NoStale sha256 (deleteStore sha256 s id) := by
  intro p c hk
  obtain ⟨hold, -, hrest⟩ := lookup_deleteStore_eq_some.1 hk
  obtain ⟨u, hu, hp, rfl, rfl⟩ := h p c hold
  refine ⟨u, (stored_deleteStore hsha).2 ⟨hu, fun hid => ?_⟩, hp, rfl, rfl⟩
  have hne : u.parentID ≠ [] := by
    unfold hasParent at hp
    simp only [Bool.and_eq_true, decide_eq_true_eq] at hp
    exact hp.1
  exact (hrest u ((storedToken_eq_some hsha hwf).2 ⟨hu, hid⟩)).2 hne (by rw [hid])

theorem Wf.deleteByAccessor (h : Wf sha256 s) (ht : Stored sha256 s t) :
    Wf sha256 (deleteByAccessorStore sha256 s t.accessor t.id) where
  token_key k u hk := h.token_key k u (lookup_deleteByAccessorStore_eq_some.1 hk).1
  accessor_iff k id' := by
    constructor
    · intro hk
      obtain ⟨hold, -, hne'⟩ := lookup_deleteByAccessorStore_eq_some.1 hk
      obtain ⟨u, hu, hne, rfl, rfl⟩ := (h.accessor_iff k id').1 hold
      refine ⟨u, (stored_deleteByAccessorStore hsha).2 ⟨hu, fun hid => ?_⟩, hne, rfl, rfl⟩
      exact hne' (by rw [stored_unique hu ht hid])
    · rintro ⟨u, hu, hne, rfl, rfl⟩
      obtain ⟨hu, hid⟩ := (stored_deleteByAccessorStore hsha).1 hu
      refine lookup_deleteByAccessorStore_eq_some.2
        ⟨(h.accessor_iff _ _).2 ⟨u, hu, hne, rfl, rfl⟩, (tokenKey_ne_accessorKey _ _).symm, ?_⟩
      exact fun heq => hid (h.accessor_unique hu ht hne (accessorKey_inj.1 heq))
  child_of_stored u hu hp := by
    obtain ⟨hu, -⟩ := (stored_deleteByAccessorStore hsha).1 hu
    exact lookup_deleteByAccessorStore_eq_some.2 ⟨h.child_of_stored u hu hp,
      (tokenKey_ne_childKey _ _ _).symm, (accessorKey_ne_childKey _ _ _).symm⟩
  child_key k c hk := h.child_key k c (lookup_deleteByAccessorStore_eq_some.1 hk).1

/-- Without a parent, the token leaves no entry of the children index behind. -/
theorem NoStale.deleteByAccessor (h : NoStale sha256 s) (ht : Stored sha256 s t)
    (hp : hasParent t = false) :
    NoStale sha256 (deleteByAccessorStore sha256 s t.accessor t.id) := by
  intro p c hk
  obtain ⟨u, hu, hup, rfl, rfl⟩ := h p c (lookup_deleteByAccessorStore_eq_some.1 hk).1
  refine ⟨u, (stored_deleteByAccessorStore hsha).2 ⟨hu, fun hid => ?_⟩, hup, rfl, rfl⟩
  rw [stored_unique hu ht hid, hp] at hup
  exact Bool.false_ne_true hup

end

end Tuck.Token
