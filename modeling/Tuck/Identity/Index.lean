/-
  The name indexes of the identity store. `Named` says what a lookup by label is for: it finds
  an object exactly if one carries the label, it finds one that carries it, and this stays so
  for the others when an object is deleted.

  The store does not keep it: an object that is saved under a new name is still found under
  the old one, two objects can share an index entry that goes with the first of them, the index
  keys of mount and name do not tell "a/b" and "c" from "a" and "b/c", and a name that is not
  UTF-8 is another one in the object. In every run whose calls avoid these four (`Op.Fits`), it
  holds in every state (`indexes_agree`).
-/
import Tuck.Identity.Groups

namespace Tuck.Identity

open Tuck.Base Prog List KV

/-! ## One kind -/

section

variable {α Label : Type} (K : Kind α Label)

/-- What the keys and records of a kind have to be. -/
structure Kind.Lawful : Prop where
  decode_record : ∀ a, K.decode (K.record a) = some a
  apart : ∀ k, K.idPrefix <+: k → ¬ K.indexPrefix <+: k

/-- The keys of a kind. -/
def Kind.Owns (k : Bytes) : Prop := K.idPrefix <+: k ∨ K.indexPrefix <+: k

/-- No other label has the same index key. -/
def Kind.Unmistakable (n : Label) : Prop := ∀ n', K.labelKey n' = K.labelKey n → n' = n

/-- The object can be stored: its ID and label are UTF-8, the label is unmistakable, no other
    object carries it, and the object is not renamed. -/
structure Kind.Fits (s : LogicalStore) (a : α) : Prop where
  cleanID : K.id (K.clean a) = K.id a
  cleanLabel : K.label (K.clean a) = K.label a
  label : K.Unmistakable (K.label a)
  alone : ∀ id b, K.stored s id = some b → (K.label b = K.label a ↔ id = K.id a)

/-- What lookups by label are for. -/
structure Kind.Named (L : Listing) (w : LogicalWorld) : Prop where
  found_iff : ∀ n, (∃ a, (run (handle L) (K.getByLabel n) w).1 = .ok a) ↔
    ∃ id a, K.stored w.store id = some a ∧ K.label a = n
  carries : ∀ n a, (run (handle L) (K.getByLabel n) w).1 = .ok a → K.label a = n
  deleted : ∀ id id' a, id' ≠ id → K.stored w.store id' = some a →
    (run (handle L) (K.getByLabel (K.label a))
      (run (handle L) (K.delete id) w).2).1 = .ok a

/-- The index entries are those of the stored objects. -/
structure Kind.Indexed (s : LogicalStore) : Prop where
  ownID : ∀ id a, K.stored s id = some a → K.id a = id
  indexed : ∀ id a, K.stored s id = some a → s.lookup (K.indexKey (K.label a)) = some (.raw id)
  stored : ∀ n r, s.lookup (K.indexKey n) = some r →
    ∃ id a, r = .raw id ∧ K.stored s id = some a ∧ K.label a = n

variable {K}

theorem Kind.Lawful.idKey_ne (hK : K.Lawful) (id : Bytes) (n : Label) :
    K.idKey id ≠ K.indexKey n := by
  intro h
  refine hK.apart (K.idKey id) (prefix_append ..) ?_
  rw [h]
  exact prefix_append ..

variable {id : Bytes}

theorem Kind.idKey_inj {id' : Bytes} : K.idKey id = K.idKey id' ↔ id = id' :=
  append_right_inj _

theorem Kind.indexKey_inj {n n' : Label} :
    K.indexKey n = K.indexKey n' ↔ K.labelKey n = K.labelKey n' :=
  append_right_inj _

variable {s : LogicalStore}

/-- Only the keys of the kind matter. -/
theorem Kind.Indexed.congr {s' : LogicalStore} (h : K.Indexed s)
    (hs : ∀ k, K.Owns k → s'.lookup k = s.lookup k) : K.Indexed s' := by
  have hid : ∀ id, K.stored s' id = K.stored s id := by
    intro id
    unfold Kind.stored
    rw [hs (K.idKey id) (Or.inl (prefix_append ..))]
  have hindex : ∀ n, s'.lookup (K.indexKey n) = s.lookup (K.indexKey n) :=
    fun n => hs _ (Or.inr (prefix_append ..))
  refine ⟨fun id a ha => ?_, fun id a ha => ?_, fun n r hr => ?_⟩
  · exact h.ownID id a (hid id ▸ ha)
  · rw [hindex]
    exact h.indexed id a (hid id ▸ ha)
  · rw [hindex] at hr
    obtain ⟨id, a, hraw, ha, hn⟩ := h.stored n r hr
    exact ⟨id, a, hraw, (hid id).trans ha, hn⟩

variable {a : α}

theorem Kind.Indexed.find (h : K.Indexed s) {n : Label} (ha : K.find s n = some a) :
    K.label a = n ∧ ∃ id, K.stored s id = some a := by
  obtain ⟨r, hr, ha⟩ := Option.bind_eq_some_iff.1 ha
  obtain ⟨id, b, rfl, hb, hn⟩ := h.stored n r hr
  have heq : K.stored s id = some a := ha
  rw [hb] at heq
  cases heq
  exact ⟨hn, id, hb⟩

theorem Kind.Indexed.find_label (h : K.Indexed s)
    (ha : K.stored s id = some a) : K.find s (K.label a) = some a := by
  unfold Kind.find
  rw [h.indexed id a ha]
  exact ha

/-! ## Storing and deleting -/

/-- The store after an object is put. -/
def Kind.putStore (K : Kind α Label) (s : LogicalStore) (a : α) : LogicalStore :=
  (s.insert (K.idKey (K.id a)) (K.record (K.clean a))).insert (K.indexKey (K.label a))
    (.raw (K.id a))

/-- The store after an object is deleted. -/
def Kind.deleteStore (K : Kind α Label) (s : LogicalStore) (id : Bytes) : LogicalStore :=
  match K.stored s id with
  | some a => (s.erase (K.indexKey (K.label a))).erase (K.idKey id)
  | none => s

theorem stored_putStore (hK : K.Lawful) (s : LogicalStore) (a : α) (id : Bytes) :
    K.stored (K.putStore s a) id = if id = K.id a then some (K.clean a) else K.stored s id := by
  unfold Kind.stored Kind.putStore
  rw [lookup_insert, if_neg (hK.idKey_ne id (K.label a)), lookup_insert]
  simp only [Kind.idKey_inj]
  split_ifs
  · exact hK.decode_record (K.clean a)
  · rfl

theorem indexed_putStore [DecidableEq Label] (hK : K.Lawful)
    (h : K.Indexed s) (ha : K.Fits s a) : K.Indexed (K.putStore s a) := by
  have hindex : ∀ n, (K.putStore s a).lookup (K.indexKey n) =
      if n = K.label a then some (.raw (K.id a)) else s.lookup (K.indexKey n) := by
    intro n
    unfold Kind.putStore
    rw [lookup_insert, lookup_insert, if_neg (hK.idKey_ne (K.id a) n).symm]
    by_cases hn : n = K.label a
    · rw [if_pos (by rw [hn]), if_pos hn]
    · rw [if_neg fun hkey => hn (ha.label n (Kind.indexKey_inj.1 hkey)), if_neg hn]
  refine ⟨fun id b hb => ?_, fun id b hb => ?_, fun n r hr => ?_⟩
  · rw [stored_putStore hK] at hb
    split_ifs at hb with hid
    · cases hb
      rw [ha.cleanID, hid]
    · exact h.ownID id b hb
  · rw [stored_putStore hK] at hb
    rw [hindex]
    split_ifs at hb with hid
    · cases hb
      rw [if_pos ha.cleanLabel, hid]
    · rw [if_neg fun hn => hid ((ha.alone id b hb).1 hn)]
      exact h.indexed id b hb
  · rw [hindex] at hr
    split_ifs at hr with hn
    · cases hr
      refine ⟨K.id a, K.clean a, rfl, ?_, ha.cleanLabel.trans hn.symm⟩
      rw [stored_putStore hK, if_pos rfl]
    · obtain ⟨id, b, rfl, hb, hbn⟩ := h.stored n r hr
      refine ⟨id, b, rfl, ?_, hbn⟩
      rw [stored_putStore hK, if_neg fun hid => hn ?_]
      · exact hb
      · rw [← hbn]
        exact (ha.alone id b hb).2 hid

theorem deleteStore_eq (ha : K.stored s id = some a) :
    K.deleteStore s id = (s.erase (K.indexKey (K.label a))).erase (K.idKey id) := by
  unfold Kind.deleteStore
  rw [ha]

theorem stored_deleteStore (hK : K.Lawful) (s : LogicalStore) (id id' : Bytes) :
    K.stored (K.deleteStore s id) id' = if id' = id then none else K.stored s id' := by
  cases ha : K.stored s id with
  | none =>
    unfold Kind.deleteStore
    rw [ha]
    split_ifs with h
    · rw [h, ha]
    · rfl
  | some a =>
    rw [deleteStore_eq ha]
    unfold Kind.stored
    rw [lookup_erase, lookup_erase, if_neg (hK.idKey_ne id' (K.label a))]
    simp only [Kind.idKey_inj]
    split_ifs <;> rfl

/-- A deletion takes one object and its index entry; the entry is not that of another object. -/
theorem indexed_deleteStore (hK : K.Lawful) (h : K.Indexed s) (id : Bytes) :
    K.Indexed (K.deleteStore s id) := by
  cases ha : K.stored s id with
  | none =>
    unfold Kind.deleteStore
    rw [ha]
    exact h
  | some a =>
    have hindex : ∀ n, (K.deleteStore s id).lookup (K.indexKey n) =
        if K.indexKey n = K.indexKey (K.label a) then none else s.lookup (K.indexKey n) := by
      intro n
      rw [deleteStore_eq ha, lookup_erase, if_neg (hK.idKey_ne id n).symm, lookup_erase]
    refine ⟨fun id' b hb => ?_, fun id' b hb => ?_, fun n r hr => ?_⟩
    · rw [stored_deleteStore hK] at hb
      split_ifs at hb
      exact h.ownID id' b hb
    · rw [stored_deleteStore hK] at hb
      split_ifs at hb with hid
      rw [hindex, if_neg fun hkey => hid ?_]
      · exact h.indexed id' b hb
      · -- two objects under one index key would be the same object
        have hentry := h.indexed id' b hb
        rw [hkey, h.indexed id a ha] at hentry
        cases hentry
        rfl
    · rw [hindex] at hr
      split_ifs at hr with hkey
      obtain ⟨id', b, rfl, hb, rfl⟩ := h.stored n r hr
      refine ⟨id', b, rfl, ?_, rfl⟩
      rw [stored_deleteStore hK, if_neg fun hid => hkey ?_]
      · exact hb
      · rw [hid, ha] at hb
        cases hb
        rfl

variable (L : Listing) (w : LogicalWorld)

theorem run_delete (id : Bytes) :
    (run (handle L) (K.delete id) w).2 = { w with store := K.deleteStore w.store id } := by
  unfold Kind.delete
  rw [run_andThen]
  cases ha : K.stored w.store id with
  | none =>
    have hget := toOption_getByID K L w id
    rw [ha] at hget
    unfold Kind.deleteStore
    rw [ha, run_getByID] at *
    cases hd : decodeAs K.decode (w.store.lookup (K.idKey id)) with
    | error e => rfl
    | ok a => rw [hd] at hget; cases hget
  | some a =>
    rw [run_getByID_of_stored K L w ha, deleteStore_eq ha]
    rfl

theorem getByLabel_ok_iff (n : Label) (a : α) :
    (run (handle L) (K.getByLabel n) w).1 = .ok a ↔ K.find w.store n = some a := by
  obtain ⟨r, hr, hfind⟩ := run_getByLabel K L w n
  rw [hr, ← hfind]
  cases r with
  | ok b =>
    constructor
    · intro h
      cases h
      rfl
    · intro h
      cases h
      rfl
  | error e => exact ⟨nofun, nofun⟩

/-- In a store whose index entries are those of its objects, lookups do what they are for. -/
theorem Kind.Indexed.named (hK : K.Lawful) (h : K.Indexed w.store) : K.Named L w where
  found_iff n := by
    simp only [getByLabel_ok_iff]
    constructor
    · intro ⟨a, ha⟩
      obtain ⟨hn, id, hid⟩ := h.find ha
      exact ⟨id, a, hid, hn⟩
    · intro ⟨id, a, ha, hn⟩
      exact ⟨a, hn ▸ h.find_label ha⟩
  carries n a ha := (h.find ((getByLabel_ok_iff L w n a).1 ha)).1
  deleted id id' a hne ha := by
    rw [getByLabel_ok_iff, run_delete]
    have hkept : K.stored (K.deleteStore w.store id) id' = some a := by
      rw [stored_deleteStore hK, if_neg hne]
      exact ha
    exact (indexed_deleteStore hK h id).find_label hkept

/-! ## Calls on one kind -/

/-- A call that changes the objects of a kind; an object that is stored already is saved, under
    a new label or not, with `put`. -/
inductive Change (α : Type)
  | create (object : Bytes → α)
  | put (a : α)
  | delete (id : Bytes)

/-- The call, without its reply. -/
def Kind.change (K : Kind α Label) : Change α → Code Record Unit
  | .create object => (K.create object).bind fun _ => .ret ()
  | .put a => (K.put a).bind fun _ => .ret ()
  | .delete id => (K.delete id).bind fun _ => .ret ()

/-- The object that a call stores fits; a new object is stored under the ID that is drawn next. -/
def Kind.ChangeFits (K : Kind α Label) (w : LogicalWorld) : Change α → Prop
  | .create object => K.Fits w.store (object (rawURLEncode (w.rng.take 16)))
  | .put a => K.Fits w.store a
  | .delete _ => True

theorem run_change (c : Change α) :
    (∃ a rng, (run (handle L) (K.change c) w).2 = ⟨K.putStore w.store a, rng⟩ ∧
      (K.ChangeFits w c → K.Fits w.store a)) ∨
    ∃ id, (run (handle L) (K.change c) w).2 = { w with store := K.deleteStore w.store id } := by
  cases c with
  | create object =>
    exact Or.inl ⟨object (rawURLEncode (w.rng.take 16)), w.rng.drop 16, rfl, fun h => h⟩
  | put a => exact Or.inl ⟨a, w.rng, rfl, fun h => h⟩
  | delete id =>
    refine Or.inr ⟨id, ?_⟩
    rw [← run_delete L w id]
    unfold Kind.change
    rw [run_bind]
    rfl

theorem run_change_put (a : α) :
    (run (handle L) (K.change (.put a)) w).2 = { w with store := K.putStore w.store a } := rfl

theorem indexed_change [DecidableEq Label] (hK : K.Lawful) (h : K.Indexed w.store) (c : Change α)
    (hc : K.ChangeFits w c) : K.Indexed (run (handle L) (K.change c) w).2.store := by
  obtain ⟨a, rng, hrun, ha⟩ | ⟨id, hrun⟩ := run_change L w c
  · rw [hrun]
    exact indexed_putStore hK h (ha hc)
  · rw [hrun]
    exact indexed_deleteStore hK h id

/-- Every stored object of the kind is as `P` says of it and its ID. -/
def Kind.All (K : Kind α Label) (P : Bytes → α → Prop) (s : LogicalStore) : Prop :=
  ∀ id a, K.stored s id = some a → P id a

theorem Kind.All.change {P : Bytes → α → Prop} {w : LogicalWorld} (h : K.All P w.store)
    (hK : K.Lawful) (hP : ∀ a, P (K.id a) (K.clean a)) (c : Change α) :
    K.All P (run (handle L) (K.change c) w).2.store := by
  obtain ⟨a, rng, hrun, -⟩ | ⟨id, hrun⟩ := run_change L w c
  · rw [hrun]
    intro id b hb
    rw [stored_putStore hK] at hb
    split_ifs at hb with hid
    · cases hb
      exact hid ▸ hP a
    · exact h id b hb
  · rw [hrun]
    intro id' b hb
    rw [stored_deleteStore hK] at hb
    split_ifs at hb
    exact h id' b hb

theorem lookup_putStore (s : LogicalStore) (a : α) {k : Bytes} (hk : ¬ K.Owns k) :
    (K.putStore s a).lookup k = s.lookup k := by
  have hid : k ≠ K.idKey (K.id a) := fun h => hk (Or.inl (h ▸ prefix_append ..))
  have hindex : k ≠ K.indexKey (K.label a) := fun h => hk (Or.inr (h ▸ prefix_append ..))
  unfold Kind.putStore
  rw [lookup_insert, if_neg hindex, lookup_insert, if_neg hid]

/-- A call leaves the keys of the other kinds. -/
theorem lookup_change (c : Change α) {k : Bytes} (hk : ¬ K.Owns k) :
    (run (handle L) (K.change c) w).2.store.lookup k = w.store.lookup k := by
  have hid : ∀ id, k ≠ K.idKey id := fun id h => hk (Or.inl (h ▸ prefix_append ..))
  have hindex : ∀ n, k ≠ K.indexKey n := fun n h => hk (Or.inr (h ▸ prefix_append ..))
  obtain ⟨a, rng, hrun, -⟩ | ⟨id, hrun⟩ := run_change L w c
  · rw [hrun]
    exact lookup_putStore w.store a hk
  · rw [hrun]
    cases ha : K.stored w.store id with
    | none =>
      unfold Kind.deleteStore
      rw [ha]
    | some a =>
      rw [deleteStore_eq ha, lookup_erase, if_neg (hid _), lookup_erase, if_neg (hindex _)]

end

/-! ## The four kinds together -/

theorem lawful_entities : entities.Lawful :=
  ⟨fun _ => rfl, fun _ h h' => absurd (overlaps_of_common h h') (by decide)⟩

theorem lawful_entityAliases : entityAliases.Lawful :=
  ⟨fun _ => rfl, fun _ h h' => absurd (overlaps_of_common h h') (by decide)⟩

theorem lawful_groups : groups.Lawful :=
  ⟨fun _ => rfl, fun _ h h' => absurd (overlaps_of_common h h') (by decide)⟩

theorem lawful_groupAliases : groupAliases.Lawful :=
  ⟨fun _ => rfl, fun _ h h' => absurd (overlaps_of_common h h') (by decide)⟩

/-- The part of a key that tells the kinds apart, behind `identity/`. -/
def kindOf (k : Bytes) : Bytes := (k.drop 9).takeWhile (· ≠ 0x2F)

theorem takeWhile_append_of_mem {p : Bytes} (h : 0x2F ∈ p) (t : Bytes) :
    (p ++ t).takeWhile (· ≠ 0x2F) = p.takeWhile (· ≠ 0x2F) := by
  induction p with
  | nil => exact absurd h not_mem_nil
  | cons b p ih =>
    rw [cons_append, takeWhile_cons, takeWhile_cons]
    by_cases hb : b = 0x2F
    · simp [hb]
    · rw [ih ((mem_cons.1 h).resolve_left fun heq => hb heq.symm)]

variable {k : Bytes}

theorem kindOf_below {p : Bytes} (h : p <+: k) (hslash : 0x2F ∈ p.drop 9) :
    kindOf k = kindOf p := by
  obtain ⟨t, rfl⟩ := h
  unfold kindOf
  have hlen : 9 ≤ p.length := by
    by_contra hlt
    rw [drop_eq_nil_of_le (by omega)] at hslash
    exact absurd hslash (not_mem_nil)
  rw [drop_append_of_le_length hlen]
  exact takeWhile_append_of_mem hslash t

variable {name : Bytes} {α Label : Type}

theorem kindOf_owns {K : Kind α Label} (h : K.Owns k)
    (hid : 0x2F ∈ K.idPrefix.drop 9 ∧ kindOf K.idPrefix = name)
    (hindex : 0x2F ∈ K.indexPrefix.drop 9 ∧ kindOf K.indexPrefix = name) : kindOf k = name := by
  cases h with
  | inl h => exact (kindOf_below h hid.1).trans hid.2
  | inr h => exact (kindOf_below h hindex.1).trans hindex.2

theorem kindOf_entities (h : entities.Owns k) : kindOf k = ascii "entity" :=
  kindOf_owns h (by decide) (by decide)

theorem kindOf_entityAliases (h : entityAliases.Owns k) : kindOf k = ascii "alias" :=
  kindOf_owns h (by decide) (by decide)

theorem kindOf_groups (h : groups.Owns k) : kindOf k = ascii "group" :=
  kindOf_owns h (by decide) (by decide)

theorem kindOf_groupAliases (h : groupAliases.Owns k) :
    kindOf k = ascii "group-alias" :=
  kindOf_owns h (by decide) (by decide)

section

variable {β Label' : Type} {K : Kind α Label} {K' : Kind β Label'} (L : Listing)
  {w : LogicalWorld} (c : Change β) {name' : Bytes} (hK : ∀ k, K.Owns k → kindOf k = name)
  (hK' : ∀ k, K'.Owns k → kindOf k = name') (hne : name ≠ name')

include hK hK' hne

/-- A call on the objects of a kind leaves those of another kind. -/
theorem lookup_change_other (hk : K.Owns k) :
    (run (handle L) (K'.change c) w).2.store.lookup k = w.store.lookup k := by
  refine lookup_change L w c fun hk' => hne ?_
  rw [← hK k hk, hK' k hk']

theorem Kind.Indexed.other (h : K.Indexed w.store) :
    K.Indexed (run (handle L) (K'.change c) w).2.store :=
  h.congr fun _ hk => lookup_change_other L c hK hK' hne hk

theorem Kind.All.other {P : Bytes → α → Prop} (h : K.All P w.store) :
    K.All P (run (handle L) (K'.change c) w).2.store := by
  intro id a ha
  have hkey : K.Owns (K.idKey id) := Or.inl (prefix_append ..)
  unfold Kind.stored at ha
  rw [lookup_change_other L c hK hK' hne hkey] at ha
  exact h id a ha

end

/-- A call that changes the identity store. -/
inductive Op
  | entity (c : Change Entity)
  | entityAlias (c : Change EntityAlias)
  | group (c : Change Group)
  | groupAlias (c : Change GroupAlias)

def Op.code : Op → Code Record Unit
  | .entity c => entities.change c
  | .entityAlias c => entityAliases.change c
  | .group c => groups.change c
  | .groupAlias c => groupAliases.change c

/-- The object that the call stores has an ID and a label in UTF-8, the label is unmistakable and
    carried by no other object of its kind, and the object is not stored under another label
    already. -/
def Op.Fits (w : LogicalWorld) : Op → Prop
  | .entity c => entities.ChangeFits w c
  | .entityAlias c => entityAliases.ChangeFits w c
  | .group c => groups.ChangeFits w c
  | .groupAlias c => groupAliases.ChangeFits w c

/-- The state after a call. -/
def Op.step (L : Listing) (w : LogicalWorld) (op : Op) : LogicalWorld :=
  (run (handle L) op.code w).2

/-- The state after a sequence of calls on an empty store. -/
def runOps (L : Listing) (rng : Stream' UInt8) (ops : List Op) : LogicalWorld :=
  ops.foldl (Op.step L) ⟨∅, rng⟩

/-- Every call fits in the state it is made in. -/
def AllFit (L : Listing) (w : LogicalWorld) : List Op → Prop
  | [] => True
  | op :: ops => op.Fits w ∧ AllFit L (op.step L w) ops

/-- What lookups are for, in all four kinds. -/
structure IndexesMatch (L : Listing) (w : LogicalWorld) : Prop where
  entities : entities.Named L w
  entityAliases : entityAliases.Named L w
  groups : groups.Named L w
  groupAliases : groupAliases.Named L w

structure AllIndexed (s : LogicalStore) : Prop where
  entities : entities.Indexed s
  entityAliases : entityAliases.Indexed s
  groups : groups.Indexed s
  groupAliases : groupAliases.Indexed s

theorem indexed_empty (K : Kind α Label) : K.Indexed ∅ :=
  ⟨nofun, nofun, nofun⟩

theorem allIndexed_step (L : Listing) {w : LogicalWorld} (h : AllIndexed w.store) (op : Op)
    (hop : op.Fits w) : AllIndexed (op.step L w).store := by
  obtain ⟨he, ha, hg, hga⟩ := h
  have e := @kindOf_entities
  have a := @kindOf_entityAliases
  have g := @kindOf_groups
  have ga := @kindOf_groupAliases
  cases op with
  | entity c =>
    exact ⟨indexed_change L w lawful_entities he c hop, ha.other L c @a @e (by decide),
      hg.other L c @g @e (by decide), hga.other L c @ga @e (by decide)⟩
  | entityAlias c =>
    exact ⟨he.other L c @e @a (by decide), indexed_change L w lawful_entityAliases ha c hop,
      hg.other L c @g @a (by decide), hga.other L c @ga @a (by decide)⟩
  | group c =>
    exact ⟨he.other L c @e @g (by decide), ha.other L c @a @g (by decide),
      indexed_change L w lawful_groups hg c hop, hga.other L c @ga @g (by decide)⟩
  | groupAlias c =>
    exact ⟨he.other L c @e @ga (by decide), ha.other L c @a @ga (by decide),
      hg.other L c @g @ga (by decide), indexed_change L w lawful_groupAliases hga c hop⟩

theorem allIndexed_run (L : Listing) (ops : List Op) :
    ∀ {w : LogicalWorld}, AllIndexed w.store → AllFit L w ops →
      AllIndexed (ops.foldl (Op.step L) w).store := by
  induction ops with
  | nil => exact fun h _ => h
  | cons op ops ih => exact fun h hfit => ih (allIndexed_step L h op hfit.1) hfit.2

/-- In every run whose calls fit, lookups by label find what they are for. -/
theorem indexes_agree (L : Listing) (rng : Stream' UInt8) (ops : List Op)
    (hfit : AllFit L ⟨∅, rng⟩ ops) : IndexesMatch L (runOps L rng ops) := by
  have hempty : AllIndexed (∅ : LogicalStore) :=
    ⟨indexed_empty _, indexed_empty _, indexed_empty _, indexed_empty _⟩
  obtain ⟨he, ha, hg, hga⟩ := allIndexed_run L ops hempty hfit
  exact ⟨he.named L _ lawful_entities, ha.named L _ lawful_entityAliases,
    hg.named L _ lawful_groups, hga.named L _ lawful_groupAliases⟩

/-- A mount and a name without a slash are unmistakable. -/
theorem unmistakable_mountKey {mount : Bytes} (hmount : 0x2F ∉ mount) (hname : 0x2F ∉ name) :
    entityAliases.Unmistakable (mount, name) := by
  intro n' (h : mountKey n' = mountKey (mount, name))
  -- the key has one slash, so the other mount and name have none either
  have hcount := congrArg (List.count 0x2F) h
  unfold mountKey at hcount
  rw [count_append, count_cons_self, count_append, count_cons_self,
    count_eq_zero.2 hmount, count_eq_zero.2 hname] at hcount
  have hmount' : 0x2F ∉ n'.1 := count_eq_zero.1 (by omega)
  obtain ⟨h1, h2⟩ := append_sep_inj hmount' hmount h
  exact Prod.ext h1 h2

/-- The run makes an alias, moves it to another entity and deletes an entity. -/
theorem indexes_agree_alias :
    let rng := Stream'.const 7
    let id := rawURLEncode (rng.take 16)
    let ops := [Op.entityAlias (.create fun id => ⟨id, ascii "e", ascii "ldap", ascii "ann"⟩),
      Op.entityAlias (.put ⟨id, ascii "f", ascii "ldap", ascii "ann"⟩),
      Op.entity (.delete (ascii "e"))]
    AllFit sorted ⟨∅, rng⟩ ops ∧ IndexesMatch sorted (runOps sorted rng ops) := by
  intro rng id ops
  have hlabel : entityAliases.Unmistakable (ascii "ldap", ascii "ann") :=
    unmistakable_mountKey (by decide) (by decide)
  have hfit : AllFit sorted ⟨∅, rng⟩ ops := by
    refine ⟨⟨by decide +kernel, by decide +kernel, hlabel, nofun⟩,
      ⟨by decide +kernel, by decide +kernel, hlabel, fun id' b hb => ?_⟩, trivial, trivial⟩
    have hstored := stored_putStore lawful_entityAliases ∅
      ⟨id, ascii "e", ascii "ldap", ascii "ann"⟩ id'
    change entityAliases.stored (entityAliases.putStore ∅ ⟨id, _, _, _⟩) id' = some b at hb
    rw [hb] at hstored
    split_ifs at hstored with hid
    · cases hstored
      exact ⟨fun _ => hid, fun _ => by decide +kernel⟩
    · cases hstored
  exact ⟨hfit, indexes_agree _ _ _ hfit⟩

/-- Four runs that do not fit. An entity that is renamed is found under its old name; when two
    entities share a name, deleting one hides the other; the alias of mount "a" and name "b/c"
    is found under mount "a/b" and name "c"; and the entity found under a name that is not
    UTF-8 has another name. -/
theorem indexes_mismatch :
    let rng := fun n => UInt8.ofNat n
    let id := rawURLEncode (Stream'.take 16 rng)
    let create name := Op.entity (.create fun id => ⟨id, name, [], false⟩)
    ¬ IndexesMatch sorted (runOps sorted rng
        [create (ascii "a"), .entity (.put ⟨id, ascii "b", [], false⟩)]) ∧
      ¬ IndexesMatch sorted (runOps sorted rng [create (ascii "a"), create (ascii "a")]) ∧
      ¬ IndexesMatch sorted (runOps sorted rng
        [.entityAlias (.create fun id => ⟨id, ascii "e", ascii "a", ascii "b/c"⟩)]) ∧
      ¬ IndexesMatch sorted (runOps sorted rng [create [0xFF]]) := by
  intro rng id create
  refine ⟨fun h => ?_, fun h => ?_, fun h => ?_, fun h => ?_⟩
  · have hname := h.entities.carries (ascii "a") ⟨id, ascii "b", [], false⟩
      ((getByLabel_ok_iff _ _ _ _).2 (by decide +kernel))
    exact absurd hname (by decide)
  · have hfound := h.entities.deleted (rawURLEncode (Stream'.take 16 (Stream'.drop 16 rng))) id
      ⟨id, ascii "a", [], false⟩ (by decide) (by decide +kernel)
    rw [getByLabel_ok_iff] at hfound
    exact absurd hfound (by decide +kernel)
  · have hname := h.entityAliases.carries (ascii "a/b", ascii "c")
      ⟨id, ascii "e", ascii "a", ascii "b/c"⟩ ((getByLabel_ok_iff _ _ _ _).2 (by decide +kernel))
    exact absurd hname (by decide)
  · have hname := h.entities.carries [0xFF] ⟨id, [0xEF, 0xBF, 0xBD], [], false⟩
      ((getByLabel_ok_iff _ _ _ _).2 (by decide +kernel))
    exact absurd hname (by decide)

end Tuck.Identity
