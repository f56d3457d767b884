/-
  The entities of logins. `EnsureAlias` is called on every login: `Resolves` says that it
  succeeds, that its entity is stored and that the alias leads to it from then on.

  In a state that calls can reach, this holds for a mount and a name exactly if the alias that
  is found under them, if there is one, refers to a stored entity (`resolves_iff`). Deleting an
  entity leaves its aliases, so the logins of its user fail from then on.
-/
import Tuck.Identity.Index

namespace Tuck.Identity

open Tuck.Base Prog KV

variable (L : Listing)

/-- A login of the user: the entity that it gets is stored, the alias leads to it, and the next
    login gets it again. A new entity is read back with U+FFFD for what is not UTF-8 in its
    name. -/
def Resolves (w : LogicalWorld) (mount name : Bytes) : Prop :=
  ∃ e w', run (handle L) (ensureAlias mount name) w = (.ok e, w') ∧
    entities.stored w'.store e.id = some e.clean ∧
    (∃ a, (run (handle L) (getAliasByMount mount name) w').1 = .ok a ∧
      (run (handle L) (getEntityByID a.entityID) w').1 = .ok e.clean) ∧
    (run (handle L) (ensureAlias mount name) w').1 = .ok e.clean

/-- The alias found under mount and name refers to a stored entity. -/
def RefersToStored (s : LogicalStore) (mount name : Bytes) : Prop :=
  ∀ a, entityAliases.find s (mount, name) = some a → ∃ e, entities.stored s a.entityID = some e

/-! ## One login -/

section

variable {w : LogicalWorld} {mount name : Bytes}

theorem run_ensureAlias_found {a : EntityAlias}
    (h : entityAliases.find w.store (mount, name) = some a) :
    run (handle L) (ensureAlias mount name) w =
      run (handle L) (getEntityByID a.entityID) w := by
  obtain ⟨r, hr, hfind⟩ := run_getByLabel entityAliases L w (mount, name)
  rw [h] at hfind
  unfold ensureAlias getAliasByMount
  rw [run_bind, hr]
  cases r with
  | ok b =>
    cases hfind
    rfl
  | error e => cases hfind

/-- Without an alias an entity and an alias of it are made. -/
theorem run_ensureAlias_new (h : entityAliases.find w.store (mount, name) = none) :
    ∃ e id rng, run (handle L) (ensureAlias mount name) w = (.ok e,
        ⟨entityAliases.putStore (entities.putStore w.store e) ⟨id, e.id, mount, name⟩, rng⟩) ∧
      sanitize e.id = e.id := by
  obtain ⟨r, hr, hfind⟩ := run_getByLabel entityAliases L w (mount, name)
  rw [h] at hfind
  unfold ensureAlias getAliasByMount
  rw [run_bind, hr]
  cases r with
  | ok b => cases hfind
  | error _ =>
    obtain ⟨r, hr, -⟩ := run_getByLabel entities L w (mount ++ 0x3A :: name)
    change ∃ e id rng, run (handle L) (andThen (bind _ _) _) w = _ ∧ _
    unfold getEntityByName
    rw [run_andThen, run_bind, hr]
    -- the name of the entity depends on whether it is taken; what is stored does not
    have hid (raw : Bytes) : sanitize (rawURLEncode raw) = rawURLEncode raw :=
      sanitize_of_valid (utf8Valid_ascii fun _ => mem_rawURLEncode_lt)
    cases r with
    | ok b => exact ⟨_, _, _, rfl, hid _⟩
    | error e => exact ⟨_, _, _, rfl, hid _⟩

theorem find_putStore {α Label : Type} {K : Kind α Label} (hK : K.Lawful) (s : LogicalStore)
    (a : α) : K.find (K.putStore s a) (K.label a) = some (K.clean a) := by
  unfold Kind.find
  have hindex : (K.putStore s a).lookup (K.indexKey (K.label a)) = some (.raw (K.id a)) := by
    unfold Kind.putStore
    rw [lookup_insert, if_pos rfl]
  rw [hindex]
  change K.stored (K.putStore s a) (K.id a) = some (K.clean a)
  rw [stored_putStore hK, if_pos rfl]

theorem entity_putStore_alias (s : LogicalStore) (a : EntityAlias) (id : Bytes) :
    entities.stored (entityAliases.putStore s a) id = entities.stored s id := by
  unfold Kind.stored
  rw [lookup_putStore]
  intro howns
  have hkey : entities.Owns (entities.idKey id) := Or.inl (List.prefix_append ..)
  exact absurd ((kindOf_entities hkey).symm.trans (kindOf_entityAliases howns)) (by decide)

/-- A login in a state where the alias leads to a stored entity with its own ID. -/
theorem resolves_of_found {w' : LogicalWorld} {a : EntityAlias} {e : Entity}
    (hrun : run (handle L) (ensureAlias mount name) w = (.ok e, w'))
    (ha : entityAliases.find w'.store (mount, name) = some a)
    (he : entities.stored w'.store a.entityID = some e.clean) (hid : e.id = a.entityID) :
    Resolves L w mount name := by
  have hget := run_getByID_of_stored entities L w' he
  refine ⟨e, w', hrun, hid ▸ he, ⟨a, (getByLabel_ok_iff L w' _ a).2 ha, ?_⟩, ?_⟩
  · exact congrArg Prod.fst hget
  · rw [run_ensureAlias_found L ha]
    exact congrArg Prod.fst hget

/-- Entities are stored under their own IDs, up to what JSON changes, and aliases refer to IDs
    that it does not change. -/
structure RefersWell (s : LogicalStore) : Prop where
  entities : entities.All (fun id e => e.id = sanitize id ∧ e.clean = e) s
  aliases : entityAliases.All (fun _ a => sanitize a.entityID = a.entityID) s

theorem resolves_iff_refersToStored (hwell : RefersWell w.store) :
    Resolves L w mount name ↔ RefersToStored w.store mount name := by
  cases ha : entityAliases.find w.store (mount, name) with
  | none =>
    refine ⟨fun _ a hfound => ?_, fun _ => ?_⟩
    · rw [ha] at hfound
      cases hfound
    · obtain ⟨e, id, rng, hrun, hid⟩ := run_ensureAlias_new L ha
      refine resolves_of_found L hrun
        (find_putStore lawful_entityAliases _ ⟨id, e.id, mount, name⟩) ?_ hid.symm
      rw [entity_putStore_alias, stored_putStore lawful_entities]
      exact if_pos hid
  | some a =>
    constructor
    · intro ⟨e, w', hrun, _⟩ b hb
      rw [ha] at hb
      cases hb
      rw [run_ensureAlias_found L ha] at hrun
      refine ⟨e, ?_⟩
      rw [← toOption_getByID entities L w]
      exact congrArg (fun r => r.1.toOption) hrun
    · intro h
      obtain ⟨e, he⟩ := h a ha
      obtain ⟨id, hid⟩ : ∃ id, entityAliases.stored w.store id = some a := by
        obtain ⟨r, -, hr⟩ := Option.bind_eq_some_iff.1 ha
        exact ⟨r.bytes, hr⟩
      obtain ⟨hown, hclean⟩ := hwell.entities _ e he
      refine resolves_of_found L ?_ ha (by rw [hclean, he]) (hown.trans (hwell.aliases id a hid))
      rw [run_ensureAlias_found L ha]
      exact run_getByID_of_stored entities L w he

end

/-! ## Reachable states -/

/-- A call of the identity store: a login, or a change of its objects. -/
inductive LoginOp
  | ensureAlias (mount name : Bytes)
  | change (op : Op)

/-- The state after a call. -/
def LoginOp.step (w : LogicalWorld) : LoginOp → LogicalWorld
  | .ensureAlias mount name => (run (handle L) (Identity.ensureAlias mount name) w).2
  | .change op => op.step L w

/-- The state after a sequence of calls on an empty store. -/
def runLogins (rng : Stream' UInt8) (ops : List LoginOp) : LogicalWorld :=
  ops.foldl (LoginOp.step L) ⟨∅, rng⟩

theorem refersWell_step {w : LogicalWorld} (h : RefersWell w.store) (op : LoginOp) :
    RefersWell (op.step L w).store := by
  have hentity : ∀ e : Entity, e.clean.id = sanitize e.id ∧ e.clean.clean = e.clean :=
    fun e => ⟨rfl, by simp [Entity.clean]⟩
  have halias : ∀ a : EntityAlias, sanitize a.clean.entityID = a.clean.entityID :=
    fun a => sanitize_sanitize _
  obtain ⟨he, ha⟩ := h
  cases op with
  | ensureAlias mount name =>
    change RefersWell (run (handle L) (ensureAlias mount name) w).2.store
    cases hfind : entityAliases.find w.store (mount, name) with
    | some a =>
      rw [run_ensureAlias_found L hfind]
      exact ⟨he, ha⟩
    | none =>
      obtain ⟨e, id, rng, hrun, -⟩ := run_ensureAlias_new L hfind
      rw [hrun]
      have he' := (he.change L lawful_entities hentity (.put e)).other L
        (.put ⟨id, e.id, mount, name⟩) @kindOf_entities @kindOf_entityAliases (by decide)
      have ha' := (ha.other L (.put e) @kindOf_entityAliases @kindOf_entities (by decide)).change L
        lawful_entityAliases halias (.put ⟨id, e.id, mount, name⟩)
      rw [run_change_put, run_change_put] at he' ha'
      exact ⟨he', ha'⟩
  | change op =>
    cases op with
    | entity c =>
      exact ⟨he.change L lawful_entities hentity c,
        ha.other L c @kindOf_entityAliases @kindOf_entities (by decide)⟩
    | entityAlias c =>
      exact ⟨he.other L c @kindOf_entities @kindOf_entityAliases (by decide),
        ha.change L lawful_entityAliases halias c⟩
    | group c =>
      exact ⟨he.other L c @kindOf_entities @kindOf_groups (by decide),
        ha.other L c @kindOf_entityAliases @kindOf_groups (by decide)⟩
    | groupAlias c =>
      exact ⟨he.other L c @kindOf_entities @kindOf_groupAliases (by decide),
        ha.other L c @kindOf_entityAliases @kindOf_groupAliases (by decide)⟩

theorem refersWell_run (rng : Stream' UInt8) (ops : List LoginOp) :
    RefersWell (runLogins L rng ops).store := by
  have hrun : ∀ w : LogicalWorld, RefersWell w.store →
      RefersWell (ops.foldl (LoginOp.step L) w).store := by
    induction ops with
    | nil => exact fun w h => h
    | cons op ops ih => exact fun w h => ih _ (refersWell_step L h op)
  exact hrun _ ⟨nofun, nofun⟩

/-- In every reachable state, a login of the user gets an entity exactly if the alias found for
    the user, if any, refers to a stored one. -/
theorem resolves_iff (rng : Stream' UInt8) (ops : List LoginOp) (mount name : Bytes) :
    Resolves L (runLogins L rng ops) mount name ↔
      RefersToStored (runLogins L rng ops).store mount name :=
  resolves_iff_refersToStored L (refersWell_run L rng ops)

/-- After a login, an administrator deletes the entity: the user's alias remains and the next
    login fails. -/
theorem login_fails_after_delete :
    let rng := fun n => UInt8.ofNat n
    let ops := [LoginOp.ensureAlias (ascii "ldap") (ascii "ann"),
      .change (.entity (.delete (rawURLEncode (Stream'.take 16 rng))))]
    ¬ Resolves sorted (runLogins sorted rng ops) (ascii "ldap") (ascii "ann") := by
  intro rng ops h
  have hfound : entityAliases.find (runLogins sorted rng ops).store (ascii "ldap", ascii "ann") =
      some ⟨rawURLEncode (Stream'.take 16 (Stream'.drop 16 rng)),
        rawURLEncode (Stream'.take 16 rng), ascii "ldap", ascii "ann"⟩ := by
    decide +kernel
  have hwell := refersWell_run sorted rng ops
  obtain ⟨e, he⟩ := (resolves_iff_refersToStored sorted hwell).1 h _ hfound
  have hgone : entities.stored (runLogins sorted rng ops).store
      (rawURLEncode (Stream'.take 16 rng)) = none := by
    decide +kernel
  rw [hgone] at he
  cases he

end Tuck.Identity
