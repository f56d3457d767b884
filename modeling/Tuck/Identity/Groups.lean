/-
  What the resolvers return. A group belongs to the groups that list it; going up from the
  groups that list an entity, or from the group IDs that external groups are aliased to, one
  meets exactly the groups whose policies are returned, whatever cycles and missing groups
  the graph has (`resolve_upward`).
-/
import Tuck.Identity.Store

namespace Tuck.Identity

open Tuck.Base Prog List KV

/-! ## Stored objects -/

section

variable {α Label : Type} (K : Kind α Label)

/-- The object stored under an ID. -/
def Kind.stored (s : LogicalStore) (id : Bytes) : Option α := (s.lookup (K.idKey id)).bind K.decode

/-- The object that a lookup by label finds. -/
def Kind.find (s : LogicalStore) (n : Label) : Option α :=
  (s.lookup (K.indexKey n)).bind fun r => K.stored s r.bytes

variable (L : Listing) (w : LogicalWorld)

@[simp] theorem run_getByID (id : Bytes) :
    run (handle L) (K.getByID id) w = (decodeAs K.decode (w.store.lookup (K.idKey id)), w) :=
  rfl

theorem toOption_getByID (id : Bytes) :
    (run (handle L) (K.getByID id) w).1.toOption = K.stored w.store id :=
  decodeAs_toOption _

theorem run_getByID_of_stored {id : Bytes} {a : α} (h : K.stored w.store id = some a) :
    run (handle L) (K.getByID id) w = (.ok a, w) := by
  rw [run_getByID, decodeAs_eq_ok.2 h]

/-- A lookup by label changes nothing and returns what it finds. -/
theorem run_getByLabel (n : Label) :
    ∃ r, run (handle L) (K.getByLabel n) w = (r, w) ∧ r.toOption = K.find w.store n := by
  unfold Kind.getByLabel Kind.find
  rw [run_andThen, run_get]
  cases w.store.lookup (K.indexKey n) with
  | none => exact ⟨_, rfl, rfl⟩
  | some r => exact ⟨_, rfl, toOption_getByID K L w r.bytes⟩

end

/-! ## Adding policies -/

variable {p : Bytes} {result : List Bytes}

theorem mem_addPolicies {policies : List Bytes} :
    p ∈ addPolicies result policies ↔ p ∈ result ∨ p ∈ policies := by
  unfold addPolicies
  induction policies generalizing result with
  | nil => simp
  | cons q policies ih =>
    rw [foldl_cons, ih]
    split_ifs with hq
    · constructor
      · rintro (h | h)
        · exact Or.inl h
        · exact Or.inr (mem_cons_of_mem q h)
      · rintro (h | h)
        · exact Or.inl h
        · rcases mem_cons.1 h with rfl | h
          · exact Or.inl hq
          · exact Or.inr h
    · rw [mem_append, mem_singleton, mem_cons, or_assoc]

theorem nodup_addPolicies {policies : List Bytes} (h : result.Nodup) :
    (addPolicies result policies).Nodup := by
  unfold addPolicies
  induction policies generalizing result with
  | nil => exact h
  | cons q policies ih =>
    rw [foldl_cons]
    split_ifs with hq
    · exact ih h
    · refine ih (nodup_append.2 ⟨h, nodup_singleton q, fun a ha b hb => ?_⟩)
      rw [mem_singleton.1 hb]
      rintro rfl
      exact hq ha

variable {all : List Group}

theorem mem_foldl_addGroup (ids result : List Bytes) :
    p ∈ ids.foldl (addGroup all) result ↔
      p ∈ result ∨ ∃ gid ∈ ids, ∃ g, (all.find? fun g => g.id = gid) = some g ∧ p ∈ g.policies := by
  induction ids generalizing result with
  | nil => simp
  | cons gid ids ih =>
    rw [foldl_cons, ih, addGroup]
    cases hg : all.find? fun g => g.id = gid with
    | none => simp [hg]
    | some g => simp [hg, mem_addPolicies, or_assoc]

theorem mem_groupPolicies {M : Listing}
    {found : Finset Bytes} :
    p ∈ groupPolicies M.order all result found ↔
      p ∈ result ∨ ∃ gid ∈ found, ∃ g, (all.find? fun g => g.id = gid) = some g ∧
        p ∈ g.policies := by
  rw [groupPolicies, mem_foldl_addGroup]
  simp only [M.mem_order]

theorem nodup_groupPolicies {order : Finset Bytes → List Bytes} {found : Finset Bytes}
    (h : result.Nodup) :
    (groupPolicies order all result found).Nodup := by
  unfold groupPolicies
  generalize order found = ids
  induction ids generalizing result with
  | nil => exact h
  | cons gid ids ih =>
    rw [foldl_cons]
    refine ih ?_
    unfold addGroup
    split
    · exact nodup_addPolicies h
    · exact h

/-! ## The graph -/

/-- Every group is stored under its own ID. -/
def OwnIDs (s : LogicalStore) : Prop := ∀ id g, groups.stored s id = some g → g.id = id

/-- The group `b` is stored and lists the group `a`. -/
def Lists (s : LogicalStore) (a b : Bytes) : Prop :=
  ∃ g, groups.stored s b = some g ∧ a ∈ g.memberGroupIDs

/-- `p` is a policy of a stored group that `start` leads up to. -/
def GrantedAbove (s : LogicalStore) (start p : Bytes) : Prop :=
  ∃ gid g, Relation.ReflTransGen (Lists s) start gid ∧ groups.stored s gid = some g ∧ p ∈ g.policies

/-- The groups as the resolvers load them. -/
def loaded (L : Listing) (s : LogicalStore) : List Group :=
  ((L.order (under s groups.idPrefix)).map fun k => trimPrefix k groups.idPrefix).filterMap
    (groups.stored s)

section

variable {L : Listing} {s : LogicalStore}

theorem mem_loaded {g : Group} : g ∈ loaded L s ↔ ∃ id, groups.stored s id = some g := by
  unfold loaded
  rw [mem_filterMap]
  constructor
  · rintro ⟨id, -, hg⟩
    exact ⟨id, hg⟩
  · rintro ⟨id, hg⟩
    refine ⟨id, mem_map.2 ⟨groups.idPrefix ++ id, ?_, trimPrefix_append ..⟩, hg⟩
    refine L.mem_order.2 (mem_under.2 ⟨?_, prefix_append ..⟩)
    obtain ⟨r, hr, -⟩ := Option.bind_eq_some_iff.1 hg
    exact Option.isSome_iff_exists.2 ⟨r, hr⟩

theorem mem_parentsOf (hown : OwnIDs s) {a b : Bytes} :
    b ∈ parentsOf (loaded L s) a ↔ Lists s a b := by
  unfold parentsOf
  rw [mem_map]
  constructor
  · rintro ⟨g, hg, rfl⟩
    obtain ⟨hmem, ha⟩ := mem_filter.1 hg
    obtain ⟨id, hid⟩ := mem_loaded.1 hmem
    rw [hown id g hid]
    exact ⟨g, hid, of_decide_eq_true ha⟩
  · rintro ⟨g, hg, ha⟩
    exact ⟨g, mem_filter.2 ⟨mem_loaded.2 ⟨b, hg⟩, decide_eq_true ha⟩, hown b g hg⟩

theorem step_parentsOf (hown : OwnIDs s) : Step (parentsOf (loaded L s)) = Lists s := by
  funext a b
  exact propext (mem_parentsOf hown)

theorem find_loaded (hown : OwnIDs s) (gid : Bytes) :
    ((loaded L s).find? fun g => g.id = gid) = groups.stored s gid := by
  cases hf : (loaded L s).find? fun g => g.id = gid with
  | some g =>
    obtain ⟨id, hid⟩ := mem_loaded.1 (mem_of_find?_eq_some hf)
    have hgid : g.id = gid := by simpa using List.find?_some hf
    rw [← hgid, hown id g hid, hid]
  | none =>
    cases hg : groups.stored s gid with
    | none => rfl
    | some g =>
      have hne := List.find?_eq_none.1 hf g (mem_loaded.2 ⟨gid, hg⟩)
      exact absurd (decide_eq_true (hown gid g hg)) hne

/-- The search ends. -/
theorem walkUp_isSome (all : List Group) (queue : List Bytes) :
    (walkUp all queue).isSome = true := by
  refine walk_isSome (G := (all.map Group.id).toFinset) (d := all.length) ?_ ?_ ?_
  · intro x y hy
    obtain ⟨g, hg, rfl⟩ := mem_map.1 hy
    exact mem_toFinset.2 (mem_map_of_mem (mem_filter.1 hg).1)
  · intro x
    rw [parentsOf, length_map]
    exact length_filter_le ..
  · refine Nat.add_le_add_left (Nat.mul_le_mul_right _ ?_) _
    rw [Finset.sdiff_empty]
    refine (Finset.card_union_le ..).trans (Nat.add_le_add (toFinset_card_le queue) ?_)
    exact (toFinset_card_le _).trans (by rw [length_map])

/-- The policies that a search from a queue collects. -/
theorem walkUp_policies (hown : OwnIDs s) (M : Listing) (queue result : List Bytes)
    (hresult : result.Nodup) :
    ∃ ps, (walkUp (loaded L s) queue).map (groupPolicies M.order (loaded L s) result) = some ps ∧
      ps.Nodup ∧ ∀ p, p ∈ ps ↔ p ∈ result ∨ ∃ start ∈ queue, GrantedAbove s start p := by
  obtain ⟨found, hfound⟩ := Option.isSome_iff_exists.1 (walkUp_isSome (loaded L s) queue)
  refine ⟨_, by rw [hfound]; rfl, nodup_groupPolicies hresult, fun p => ?_⟩
  rw [mem_groupPolicies]
  refine or_congr_right ?_
  constructor
  · rintro ⟨gid, hgid, g, hg, hp⟩
    obtain ⟨start, hstart, hreach⟩ := (mem_walk hfound).1 hgid
    rw [step_parentsOf hown] at hreach
    rw [find_loaded hown] at hg
    exact ⟨start, hstart, gid, g, hreach, hg, hp⟩
  · rintro ⟨start, hstart, gid, g, hreach, hg, hp⟩
    refine ⟨gid, (mem_walk hfound).2 ⟨start, hstart, ?_⟩, g, ?_, hp⟩
    · rw [step_parentsOf hown]
      exact hreach
    · rw [find_loaded hown]
      exact hg

theorem run_loadGroups (w : LogicalWorld) (ids : List Bytes) :
    run (handle L) (loadGroups ids) w = (ids.filterMap (groups.stored w.store), w) :=
  run_collect _ (fun id => by
    rw [getGroupByID, run_bind, run_getByID, run_ret, decodeAs_toOption]
    rfl) ids

theorem run_listGroupIDs (w : LogicalWorld) :
    run (handle L) listGroupIDs w =
      (.ok ((L.order (under w.store groups.idPrefix)).map
        fun k => trimPrefix k groups.idPrefix), w) := by
  unfold listGroupIDs
  rw [run_andThen, run_list]
  rfl

end

/-! ## The resolvers -/

/-- A stored group lists the entity and leads up to a group with the policy. -/
def GrantedToEntity (s : LogicalStore) (entityID p : Bytes) : Prop :=
  ∃ start g, groups.stored s start = some g ∧ entityID ∈ g.memberEntityIDs ∧ GrantedAbove s start p

/-- One of the external groups is aliased to a group ID that leads up to a group with the
    policy. -/
def GrantedToExternal (s : LogicalStore) (mount : Bytes) (externalGroups : List Bytes) (p : Bytes) :
    Prop :=
  ∃ ext ∈ externalGroups, ∃ a, groupAliases.find s (mount, ext) = some a ∧
    GrantedAbove s a.groupID p

section

variable {L : Listing} {w : LogicalWorld}

theorem run_resolveEntityPolicies (M : Listing) (hown : OwnIDs w.store) {id : Bytes} {e : Entity}
    (he : entities.stored w.store id = some e) (hd : e.disabled = false) :
    ∃ ps, run (handle L) (resolveEntityPolicies M.order id) w = (some ps, w) ∧ ps.Nodup ∧
      ∀ p, p ∈ ps ↔ p ∈ e.policies ∨ GrantedToEntity w.store id p := by
  obtain ⟨ps, hps, hnodup, hmem⟩ := walkUp_policies (L := L) hown M
    (((loaded L w.store).filter fun g => id ∈ g.memberEntityIDs).map Group.id)
    (addPolicies [] e.policies) (nodup_addPolicies nodup_nil)
  refine ⟨ps, ?_, hnodup, fun p => ?_⟩
  · unfold resolveEntityPolicies getEntityByID
    rw [run_bind, run_getByID_of_stored _ _ _ he]
    dsimp only
    rw [if_neg (by simp [hd]), run_bind, run_listGroupIDs]
    dsimp only
    rw [run_bind, run_loadGroups, run_ret, ← hps]
    rfl
  · rw [hmem, mem_addPolicies]
    have hstart :
        (∃ start ∈ ((loaded L w.store).filter fun g => id ∈ g.memberEntityIDs).map Group.id,
        GrantedAbove w.store start p) ↔ GrantedToEntity w.store id p := by
      constructor
      · rintro ⟨start, hstart, hp⟩
        obtain ⟨g, hg, rfl⟩ := mem_map.1 hstart
        obtain ⟨hmem, hin⟩ := mem_filter.1 hg
        obtain ⟨gid, hgid⟩ := mem_loaded.1 hmem
        rw [hown gid g hgid] at hp
        exact ⟨gid, g, hgid, of_decide_eq_true hin, hp⟩
      · rintro ⟨gid, g, hgid, hin, hp⟩
        refine ⟨gid, mem_map.2 ⟨g, ?_, hown gid g hgid⟩, hp⟩
        exact mem_filter.2 ⟨mem_loaded.2 ⟨gid, hgid⟩, decide_eq_true hin⟩
    rw [hstart]
    simp

theorem run_matchedGroupIDs (mount : Bytes) (externalGroups : List Bytes) :
    run (handle L) (matchedGroupIDs mount externalGroups) w =
      ((externalGroups.filterMap fun ext =>
        (groupAliases.find w.store (mount, ext)).map GroupAlias.groupID).dedup, w) := by
  have hone : ∀ ext, run (handle L) ((getGroupAliasByMount mount ext).bind fun r =>
      .ret (r.toOption.map GroupAlias.groupID)) w =
        ((groupAliases.find w.store (mount, ext)).map GroupAlias.groupID, w) := by
    intro ext
    obtain ⟨r, hrun, hr⟩ := run_getByLabel groupAliases L w (mount, ext)
    rw [getGroupAliasByMount, run_bind, hrun, run_ret, hr]
  unfold matchedGroupIDs
  rw [run_bind, run_collect _ hone]
  rfl

theorem run_resolveExternalGroupPolicies (M : Listing) (hown : OwnIDs w.store) (mount : Bytes)
    (externalGroups : List Bytes) :
    ∃ ps, run (handle L) (resolveExternalGroupPolicies M.order mount externalGroups) w =
        (some ps, w) ∧
      ps.Nodup ∧ ∀ p, p ∈ ps ↔ GrantedToExternal w.store mount externalGroups p := by
  unfold resolveExternalGroupPolicies
  split_ifs with hext
  · refine ⟨[], rfl, nodup_nil, fun p => ⟨nofun, ?_⟩⟩
    rintro ⟨ext, hmem, -⟩
    rw [hext] at hmem
    cases hmem
  · rw [run_bind, run_matchedGroupIDs]
    dsimp only
    generalize hmatched : (externalGroups.filterMap fun ext =>
      (groupAliases.find w.store (mount, ext)).map GroupAlias.groupID).dedup = matched
    have hmem : ∀ p, (∃ start ∈ matched, GrantedAbove w.store start p) ↔
        GrantedToExternal w.store mount externalGroups p := by
      intro p
      rw [← hmatched]
      constructor
      · rintro ⟨start, hstart, hp⟩
        obtain ⟨ext, hin, hfind⟩ := mem_filterMap.1 (mem_dedup.1 hstart)
        obtain ⟨a, ha, rfl⟩ := Option.map_eq_some_iff.1 hfind
        exact ⟨ext, hin, a, ha, hp⟩
      · rintro ⟨ext, hin, a, ha, hp⟩
        refine ⟨a.groupID, mem_dedup.2 (mem_filterMap.2 ⟨ext, hin, ?_⟩), hp⟩
        rw [ha]
        rfl
    split_ifs with hnil
    · refine ⟨[], rfl, nodup_nil, fun p => ?_⟩
      rw [← hmem p, hnil]
      simp
    · obtain ⟨ps, hps, hnodup, hps'⟩ :=
        walkUp_policies (L := L) hown M (M.order matched.toFinset) [] nodup_nil
      refine ⟨ps, ?_, hnodup, fun p => ?_⟩
      · rw [run_bind, run_listGroupIDs]
        dsimp only
        rw [run_bind, run_loadGroups, run_ret, ← hps]
        rfl
      · rw [hps', ← hmem p]
        simp [M.mem_order]

end

/-- The resolvers return, each once, the policies of the groups above. -/
theorem resolve_upward (L M : Listing) (w : LogicalWorld) (hown : OwnIDs w.store) :
    (∀ id e, entities.stored w.store id = some e → e.disabled = false →
      ∃ ps, run (handle L) (resolveEntityPolicies M.order id) w = (some ps, w) ∧ ps.Nodup ∧
        ∀ p, p ∈ ps ↔ p ∈ e.policies ∨ GrantedToEntity w.store id p) ∧
    ∀ mount externalGroups,
      ∃ ps, run (handle L) (resolveExternalGroupPolicies M.order mount externalGroups) w =
          (some ps, w) ∧
        ps.Nodup ∧ ∀ p, p ∈ ps ↔ GrantedToExternal w.store mount externalGroups p :=
  ⟨fun _ _ he hd => run_resolveEntityPolicies M hown he hd,
    fun mount externalGroups => run_resolveExternalGroupPolicies M hown mount externalGroups⟩

/-- An entity "e" in the group "a"; the groups "a" and "b" list each other. -/
def cyclicGroups : LogicalStore :=
  ((Finmap.insert (entities.idKey (ascii "e")) (.entity ⟨ascii "e", ascii "e", [ascii "p"], false⟩)
    (∅ : LogicalStore)).insert
    (groups.idKey (ascii "a"))
      (.group ⟨ascii "a", ascii "a", [ascii "q"], [ascii "e"], [ascii "b"]⟩)).insert
    (groups.idKey (ascii "b"))
      (.group ⟨ascii "b", ascii "b", [ascii "r", ascii "p"], [], [ascii "a"]⟩)

theorem ownIDs_cyclicGroups : OwnIDs cyclicGroups := by
  intro id g h
  unfold Kind.stored cyclicGroups at h
  simp only [lookup_insert] at h
  split_ifs at h with hb ha he
  · cases h
    exact (append_cancel_left hb).symm
  · cases h
    exact (append_cancel_left ha).symm
  · cases h
  · cases h

theorem resolve_upward_cycle :
    OwnIDs cyclicGroups ∧
      ∃ ps, run (handle sorted) (resolveEntityPolicies sorted.order (ascii "e"))
          ⟨cyclicGroups, fun _ => 0⟩ = (some ps, ⟨cyclicGroups, fun _ => 0⟩) ∧
        ps.Nodup ∧ ascii "p" ∈ ps ∧ ascii "q" ∈ ps ∧ ascii "r" ∈ ps := by
  have hown := ownIDs_cyclicGroups
  obtain ⟨ps, hrun, hnodup, hmem⟩ :=
    (resolve_upward sorted sorted ⟨cyclicGroups, fun _ => 0⟩ hown).1
    (ascii "e") ⟨ascii "e", ascii "e", [ascii "p"], false⟩ (by decide +kernel) rfl
  have ha : groups.stored cyclicGroups (ascii "a") =
      some ⟨ascii "a", ascii "a", [ascii "q"], [ascii "e"], [ascii "b"]⟩ := by decide +kernel
  have hb : groups.stored cyclicGroups (ascii "b") =
      some ⟨ascii "b", ascii "b", [ascii "r", ascii "p"], [], [ascii "a"]⟩ := by decide +kernel
  refine ⟨hown, ps, hrun, hnodup, (hmem _).2 (Or.inl mem_cons_self), (hmem _).2 (Or.inr ?_),
    (hmem _).2 (Or.inr ?_)⟩
  · exact ⟨_, _, ha, mem_cons_self, _, _, .refl, ha, mem_cons_self⟩
  · exact ⟨_, _, ha, mem_cons_self, _, _, .single ⟨_, hb, mem_cons_self⟩, hb,
      mem_cons_self⟩

end Tuck.Identity
