/-
  The cubbyhole: private entries of a token under "cubbyhole/<token>/". They are meant to go
  with the token. Every revocation purges them and so does garbage collection; the
  deletion of an exhausted token in `TrackUse` does not.

  `Tidy` relates the stores before and after a run: no entry was added, and a token that is
  gone has left none. Every operation is tidy except a use that finds the limit of a token
  with entries exceeded (`cubbyholes_owned`, `exhausted_leaves_entry`).
-/
import Tuck.Core.TokenRuns

namespace Tuck.Core

open Tuck.Base Prog
open Tuck.Token hiding id

/-! ## The store -/

/-- What `PurgeToken` lists. -/
def holeOf (id : Bytes) : Bytes := cubbyholePrefix ++ (id ++ [0x2F])

def cubbyholeKey (id path : Bytes) : Bytes := holeOf id ++ path

/-- `Store.Put`; `value` is the JSON text of the object. -/
def cubbyholePut (id path value : Bytes) : Logical Unit :=
  KV.put .storage (cubbyholeKey id path) (.raw value)

/-- `Store.Get`; the value as it is stored. -/
def cubbyholeGet (id path : Bytes) : Logical Record :=
  (KV.get .storage (cubbyholeKey id path)).andThen fun
    | none => .ret (.error .notFound)
    | some r => .ret (.ok r)

/-- `Store.Delete`. -/
def cubbyholeDelete (id path : Bytes) : Logical Unit := KV.delete .storage (cubbyholeKey id path)

/-- `Store.List`. -/
def cubbyholeList (id pathPrefix : Bytes) : Logical (List Bytes) :=
  (KV.list .storage (holeOf id ++ pathPrefix)).andThen fun keys =>
    .ret (.ok (keys.map (·.drop (holeOf id ++ pathPrefix).length)))

/-! ## Runs -/

inductive HoleOp where
  | token (op : Op) (depth : Nat)
  | put (id path value : Bytes) (now : Int)
  | get (id path : Bytes) (now : Int)
  | delete (id path : Bytes) (now : Int)
  | list (id pathPrefix : Bytes) (now : Int)

section

variable (sha256 : Bytes → Bytes)

/-- The requests to the cubbyhole pass `requireToken` first, and all but the listing need a path. -/
def HoleOp.code : HoleOp → KV.Code Record Unit
  | .token op depth => (op.code sha256 depth).ignore
  | .put id path value now =>
      ((useToken sha256 id now).andThen fun _ =>
        if path = [] then .ret (.ok ()) else cubbyholePut id path value).ignore
  | .get id path now =>
      ((useToken sha256 id now).andThen fun _ =>
        if path = [] then .ret (.error .notFound) else cubbyholeGet id path).ignore
  | .delete id path now =>
      ((useToken sha256 id now).andThen fun _ =>
        if path = [] then .ret (.ok ()) else cubbyholeDelete id path).ignore
  | .list id pathPrefix now =>
      ((useToken sha256 id now).andThen fun _ => cubbyholeList id pathPrefix).ignore

def stepHole (L : KV.Listing) (w : LogicalWorld) (op : HoleOp) : LogicalWorld :=
  (run (KV.handle L) (op.code sha256) w).2

/-- Every entry belongs to a stored token. -/
def Owned (s : LogicalStore) : Prop :=
  ∀ k, (s.lookup k).isSome = true → cubbyholePrefix <+: k →
    ∃ id, (storedToken sha256 s id).isSome = true ∧ holeOf id <+: k

/-- The token of the request that the operation starts with. -/
def HoleOp.user : HoleOp → Option (Bytes × Int)
  | .token (.use id now) _ => some (id, now)
  | .token (.create creator _ _ now _) _ => some (creator, now)
  | .token (.createFromRole creator _ _ _ now _) _ => some (creator, now)
  | .token _ _ => none
  | .put id _ _ now | .get id _ now | .delete id _ now | .list id _ now => some (id, now)

/-- No token that has entries is used beyond its limit. -/
def Sparing (w : LogicalWorld) (op : HoleOp) : Prop :=
  ∀ u ∈ op.user, (validToken sha256 w.store u.1 u.2).isSome = true →
    exhausted sha256 w.store u.1 = true → KV.under w.store (holeOf u.1) = ∅

instance (w : LogicalWorld) (op : HoleOp) : Decidable (Sparing sha256 w op) :=
  inferInstanceAs (Decidable (∀ u ∈ op.user, _ → _ → _ = _))

end

/-! ## Tidy changes -/

section

variable (sha256 : Bytes → Bytes)

/-- Tokens lie under the hash of their ID. -/
def OwnKeys (s : LogicalStore) : Prop :=
  ∀ k t, s.lookup k = some (.token t) → k = tokenKey sha256 t.id

/-- No entry is added, and a token that is gone has no entries. -/
structure Tidy (s s' : LogicalStore) : Prop where
  fewer : ∀ k, cubbyholePrefix <+: k → (s'.lookup k).isSome = true → (s.lookup k).isSome = true
  swept : ∀ id, (storedToken sha256 s id).isSome = true →
    (storedToken sha256 s' id).isSome = true ∨ ∀ k, holeOf id <+: k → s'.lookup k = none

/-- A run that keeps tokens under their keys and is tidy. -/
def Neat (L : KV.Listing) {α : Type} (p : KV.Code Record α) (w : LogicalWorld) : Prop :=
  OwnKeys sha256 w.store → OwnKeys sha256 (run (KV.handle L) p w).2.store ∧
    Tidy sha256 w.store (run (KV.handle L) p w).2.store

end

section

variable {sha256 : Bytes → Bytes} {L : KV.Listing} {s s' s'' : LogicalStore} {w : LogicalWorld}
  {α β : Type}

theorem prefix_of_holeOf {id k : Bytes} (h : holeOf id <+: k) : cubbyholePrefix <+: k :=
  (List.prefix_append _ _).trans h

theorem Tidy.refl (s : LogicalStore) : Tidy sha256 s s := ⟨fun _ _ h => h, fun _ h => .inl h⟩

theorem Tidy.trans (h : Tidy sha256 s s') (h' : Tidy sha256 s' s'') : Tidy sha256 s s'' where
  fewer k hk hs := h.fewer k hk (h'.fewer k hk hs)
  swept id hid := by
    obtain hid' | hnone := h.swept id hid
    · exact h'.swept id hid'
    · -- no entry comes back
      refine .inr fun k hk => Option.not_isSome_iff_eq_none.1 fun hs => ?_
      have := h'.fewer k (prefix_of_holeOf hk) hs
      rw [hnone k hk] at this
      cases this

theorem Owned.tidy (h : Owned sha256 s) (ht : Tidy sha256 s s') : Owned sha256 s' := by
  intro k hk hpre
  obtain ⟨id, hid, hhole⟩ := h k (ht.fewer k hpre hk) hpre
  obtain hid' | hnone := ht.swept id hid
  · exact ⟨id, hid', hhole⟩
  · rw [hnone k hhole] at hk
    cases hk

theorem Neat.bind {p : KV.Code Record α} {f : α → KV.Code Record β} (hp : Neat sha256 L p w)
    (hf : Neat sha256 L (f (run (KV.handle L) p w).1) (run (KV.handle L) p w).2) :
    Neat sha256 L (p.bind f) w := by
  intro hown
  obtain ⟨hown', htidy⟩ := hp hown
  obtain ⟨hown'', htidy'⟩ := hf hown'
  rw [run_bind]
  exact ⟨hown'', htidy.trans htidy'⟩

theorem Neat.ret (a : α) : Neat sha256 L (.ret a) w := fun hown => ⟨hown, .refl _⟩

theorem Neat.ignore {p : KV.Code Record α} (hp : Neat sha256 L p w) : Neat sha256 L p.ignore w :=
  hp.bind (.ret ())

theorem Neat.andThen {p : Logical α} {f : α → Logical β} (hp : Neat sha256 L p w)
    (hf : ∀ a, (run (KV.handle L) p w).1 = .ok a →
      Neat sha256 L (f a) (run (KV.handle L) p w).2) :
    Neat sha256 L (p.andThen f) w := by
  refine hp.bind ?_
  split
  · next a heq => exact hf a heq
  · exact .ret _

/-- A run that leaves the store as it is. -/
theorem Neat.of_same {p : KV.Code Record α} (h : (run (KV.handle L) p w).2.store = w.store) :
    Neat sha256 L p w := by
  intro hown
  rw [h]
  exact ⟨hown, .refl _⟩

theorem Neat.each {f : β → KV.Code Record α} (hf : ∀ x w, Neat sha256 L (f x) w) (xs : List β) :
    Neat sha256 L (each f xs) w := by
  induction xs generalizing w with
  | nil => exact .ret ()
  | cons x xs ih => exact (hf x w).bind ih

/-! ## Each operation -/

theorem not_hole_tokenKey (id : Bytes) : ¬cubbyholePrefix <+: tokenKey sha256 id := by
  rw [← List.append_nil cubbyholePrefix]
  exact not_cubbyhole (by decide)

theorem not_hole_accessorKey (acc : Bytes) : ¬cubbyholePrefix <+: accessorKey acc := by
  rw [← List.append_nil cubbyholePrefix]
  exact not_cubbyhole (by decide)

theorem not_hole_childKey (p c : Bytes) : ¬cubbyholePrefix <+: childKey sha256 p c := by
  unfold childKey childrenOf
  rw [← List.append_nil cubbyholePrefix, List.append_assoc]
  exact not_cubbyhole (by decide)

/-- A run that only removes records: no token goes that has entries in the end. -/
theorem Neat.of_fewer {p : KV.Code Record α} (hrun : (run (KV.handle L) p w).2.store = s')
    (hsub : ∀ k r, s'.lookup k = some r → w.store.lookup k = some r)
    (hkept : ∀ id, s'.lookup (tokenKey sha256 id) = w.store.lookup (tokenKey sha256 id) ∨
      ((storedToken sha256 w.store id).isSome = true → ∀ k, holeOf id <+: k → s'.lookup k = none)) :
    Neat sha256 L p w := by
  intro hown
  rw [hrun]
  refine ⟨fun k t hk => hown k t (hsub k _ hk), fun k _ hk => ?_, fun id hid => ?_⟩
  · obtain ⟨r, hr⟩ := Option.isSome_iff_exists.1 hk
    exact Option.isSome_iff_exists.2 ⟨r, hsub k r hr⟩
  · refine (hkept id).imp (fun heq => ?_) fun hnone => hnone hid
    rwa [storedToken, heq]

/-- What was not there is not there when records are removed. -/
theorem lookup_none_of_fewer (hsub : ∀ k r, s'.lookup k = some r → s.lookup k = some r) {k : Bytes}
    (h : s.lookup k = none) : s'.lookup k = none := by
  refine Option.eq_none_iff_forall_ne_some.2 fun r hr => ?_
  have hbefore := hsub k r hr
  rw [h] at hbefore
  cases hbefore

theorem OwnKeys.id_eq (h : OwnKeys sha256 s) (hsha : Function.Injective sha256) {id : Bytes}
    {tok : Token} (htok : storedToken sha256 s id = some tok) : tok.id = id := by
  obtain ⟨r, hr, hdec⟩ := Option.bind_eq_some_iff.1 htok
  cases r with
  | token t =>
    obtain rfl := Option.some.inj hdec
    exact ((tokenKey_inj hsha).1 (h _ _ hr)).symm
  | _ => cases hdec

theorem neat_put (tok : Token) : Neat sha256 L (Token.put sha256 tok) w := by
  intro hown
  rw [run_put]
  refine ⟨fun k t hk => ?_, fun k hpre hk => ?_, fun id hid => .inl ?_⟩
  · dsimp only at hk
    rw [lookup_putStore] at hk
    split_ifs at hk with h1 h2 h3
    · cases hk
    · cases hk
    · obtain rfl := Record.token.inj (Option.some.inj hk)
      exact h3
    · exact hown k t hk
  · dsimp only at hk
    rwa [lookup_putStore, if_neg fun h => not_hole_childKey _ _ (h.2 ▸ hpre),
      if_neg fun h => not_hole_accessorKey _ (h.2 ▸ hpre),
      if_neg fun h => not_hole_tokenKey _ (h ▸ hpre)] at hk
  · dsimp only
    unfold storedToken at hid ⊢
    rw [lookup_putStore, if_neg fun h => tokenKey_ne_childKey _ _ _ h.2,
      if_neg fun h => tokenKey_ne_accessorKey _ _ h.2]
    split_ifs
    · rfl
    · exact hid

/-- The records that a purge leaves. -/
theorem lookup_purge {id k : Bytes} {r : Record} :
    (KV.wipe L s (holeOf id)).lookup k = some r ↔ s.lookup k = some r ∧ ¬holeOf id <+: k := by
  rw [KV.lookup_wipe]
  split_ifs with h <;> simp [h]

theorem lookup_purge_tokenKey (id id' : Bytes) :
    (KV.wipe L s (holeOf id)).lookup (tokenKey sha256 id') = s.lookup (tokenKey sha256 id') := by
  rw [KV.lookup_wipe, if_neg fun h => not_hole_tokenKey _ (prefix_of_holeOf h)]

theorem run_purge (id : Bytes) :
    run (KV.handle L) (purgeToken id) w =
      (.ok (), { w with store := KV.wipe L w.store (holeOf id) }) := run_purgeToken L id w

theorem neat_purgeToken (id : Bytes) : Neat sha256 L (purgeToken id) w :=
  .of_fewer (by rw [run_purge]) (fun _ _ hk => (lookup_purge.1 hk).1)
    fun id' => .inl (lookup_purge_tokenKey id id')

theorem neat_renewToken (id : Bytes) (ttl now now' : Int) :
    Neat sha256 L (renewToken sha256 id ttl now now') w := by
  refine (Neat.of_same (by rw [run_get])).bind ?_
  split
  · exact .ret _
  · split_ifs
    · exact .ret _
    · exact .ret _
    · exact (neat_put _).andThen fun _ _ => .ret _

theorem neat_narrowToken (id : Bytes) (allowed : List Bytes) (now : Int) :
    Neat sha256 L (narrowToken sha256 id allowed now) w := by
  refine (Neat.of_same (by rw [run_get])).bind ?_
  split
  · exact .ret _
  · dsimp only
    split_ifs
    · exact .ret _
    · exact .ret _
    · exact (neat_put _).bind (.ret _)

theorem neat_createToken (displayName : Bytes) (policies : List Bytes) (ttl now : Int)
    (opts : List TokenOpt) :
    Neat sha256 L (createToken sha256 displayName policies ttl now opts) w := by
  have hgenerate : (run (KV.handle L) (generate displayName policies ttl now) w).2.store =
      w.store := by
    unfold generate
    simp only [run_andThen, KV.run_rand, run_ret]
  exact (Neat.of_same hgenerate).andThen fun tok _ => (neat_put _).andThen fun _ _ => .ret _

theorem neat_treeLoop {f : Bytes → KV.Code Record (Option (Except Err Unit))}
    (hf : ∀ c w, Neat sha256 L (f c) w) (cs : List Bytes) : Neat sha256 L (treeLoop f cs) w := by
  induction cs generalizing w with
  | nil => exact .ret _
  | cons c cs ih =>
    refine (hf c w).bind ?_
    split
    · exact .ret _
    · exact ih

variable (hsha : Function.Injective sha256)

include hsha

theorem lookup_deleteStore_tokenKey {id id' : Bytes} (hne : id' ≠ id) :
    (deleteStore sha256 s id).lookup (tokenKey sha256 id') = s.lookup (tokenKey sha256 id') := by
  ext r
  refine lookup_deleteStore_eq_some.trans (and_iff_left ⟨fun heq => ?_, fun tok _ => ?_⟩)
  · exact hne ((tokenKey_inj hsha).1 heq)
  · exact ⟨fun _ => tokenKey_ne_accessorKey _ _, fun _ => tokenKey_ne_childKey _ _ _⟩

/-- Deleting a token without entries. -/
theorem neat_delete {id : Bytes} (hnone : ∀ k, holeOf id <+: k → w.store.lookup k = none) :
    Neat sha256 L (Token.delete sha256 id) w := by
  have hsub :
      ∀ k r, (deleteStore sha256 w.store id).lookup k = some r → w.store.lookup k = some r :=
    fun k r hk => (lookup_deleteStore_eq_some.1 hk).1
  refine .of_fewer (by rw [run_delete]) hsub fun id' => ?_
  by_cases heq : id' = id
  · exact .inr fun _ k hk => lookup_none_of_fewer hsub (hnone k (heq ▸ hk))
  · exact .inl (lookup_deleteStore_tokenKey hsha heq)

theorem neat_revokeToken (id : Bytes) : Neat sha256 L (revokeToken sha256 id) w := by
  refine (neat_purgeToken id).ignore.bind (neat_delete hsha fun k hk => ?_)
  rw [run_ignore, run_purge]
  exact (KV.lookup_wipe ..).trans (if_pos hk)

/-- Garbage collection deletes first and purges then. -/
theorem neat_deleteThenPurge (id : Bytes) :
    Neat sha256 L ((Token.delete sha256 id).ignore.bind fun _ => (purgeToken id).ignore) w := by
  have hrun : run (KV.handle L)
      ((Token.delete sha256 id).ignore.bind fun _ => (purgeToken id).ignore) w =
        ((), { w with store := KV.wipe L (deleteStore sha256 w.store id) (holeOf id) }) := by
    simp only [run_bind, run_ignore, run_delete, run_purge]
  refine .of_fewer (by rw [hrun])
    (fun k r hk => (lookup_deleteStore_eq_some.1 (lookup_purge.1 hk).1).1) fun id' => ?_
  by_cases heq : id' = id
  · exact .inr fun _ k hk => (KV.lookup_wipe ..).trans (if_pos (heq ▸ hk))
  · exact .inl ((lookup_purge_tokenKey _ _).trans (lookup_deleteStore_tokenKey hsha heq))

theorem neat_runGC (now : Int) : Neat sha256 L (runGC sha256 now) w := by
  have hlist : (run (KV.handle L) (listExpired now) w).2.store = w.store := by
    unfold listExpired readAll
    simp only [run_andThen, KV.run_list, run_bind, run_collect_getAs, run_ret]
  refine (Neat.of_same hlist).bind ?_
  split
  · exact .ret _
  · exact Neat.each (fun id w => neat_deleteThenPurge hsha id) _

theorem neat_revokeTokenTree (depth : Nat) (id : Bytes) :
    Neat sha256 L (revokeTokenTree sha256 depth id) w := by
  induction depth generalizing id w with
  | zero => exact .ret _
  | succ depth ih =>
    refine (Neat.of_same (by rw [run_children])).bind (Neat.bind ?_ ?_)
    · rw [run_children]
      exact neat_treeLoop (fun c w => ih c) _
    · split
      · exact .ret _
      · -- the same two steps as for a single token
        have hsplit : ((purgeToken id).ignore.bind fun _ =>
            (Token.delete sha256 id).bind fun r => .ret (some r) :
              KV.Code Record (Option (Except Err Unit))) =
            (revokeToken sha256 id).bind fun r => .ret (some r) := (bind_assoc _ _ _).symm
        rw [hsplit]
        exact (neat_revokeToken hsha id).bind (.ret _)

/-- Deletion by accessor, if the token that the index names is not stored or has no entries. -/
theorem neat_deleteByAccessor {acc : Bytes}
    (hclear : ∀ id, decodeAs Record.accessor? (w.store.lookup (accessorKey acc)) = .ok id →
      (storedToken sha256 w.store id).isSome = true →
        ∀ k, holeOf id <+: k → w.store.lookup k = none) :
    Neat sha256 L (deleteByAccessor sha256 acc) w := by
  cases hdec : decodeAs Record.accessor? (w.store.lookup (accessorKey acc)) with
  | error e =>
    refine Neat.of_same ?_
    unfold deleteByAccessor
    rw [run_bind, run_getAs, hdec]
    cases e <;> rfl
  | ok id =>
    have hsub : ∀ k r, (deleteByAccessorStore sha256 w.store acc id).lookup k = some r →
        w.store.lookup k = some r :=
      fun k r hk => (lookup_deleteByAccessorStore_eq_some.1 hk).1
    refine .of_fewer ?_ hsub fun id' => ?_
    · unfold deleteByAccessor deleteByAccessorStore
      rw [run_bind, run_getAs, hdec]
      rfl
    · by_cases heq : id' = id
      · subst heq
        exact .inr fun hid' k hk => lookup_none_of_fewer hsub (hclear id' hdec hid' k hk)
      · left
        ext r
        refine lookup_deleteByAccessorStore_eq_some.trans (and_iff_left ?_)
        exact ⟨fun h => heq ((tokenKey_inj hsha).1 h), tokenKey_ne_accessorKey _ _⟩

/-- Revocation by accessor purges the token that it then deletes. -/
theorem neat_revokeTokenByAccessor (acc : Bytes) :
    Neat sha256 L (revokeTokenByAccessor sha256 acc) w := by
  intro hown
  unfold revokeTokenByAccessor
  cases hdec : decodeAs Record.accessor? (w.store.lookup (accessorKey acc)) with
  | error e =>
    have hread : ∃ e', run (KV.handle L) (getByAccessor sha256 acc) w = (.error e', w) := by
      unfold getByAccessor
      rw [run_bind, run_getAs, hdec]
      cases e <;> exact ⟨_, rfl⟩
    obtain ⟨e', hread⟩ := hread
    refine Neat.bind (.of_same (by rw [hread])) ?_ hown
    rw [hread]
    refine (Neat.ret ()).bind (neat_deleteByAccessor hsha fun id hid => ?_)
    rw [run_ret, hdec] at hid
    cases hid
  | ok id =>
    have hread : run (KV.handle L) (getByAccessor sha256 acc) w =
        (decodeAs Record.token? (w.store.lookup (tokenKey sha256 id)), w) := by
      unfold getByAccessor
      rw [run_bind, run_getAs, hdec]
      rfl
    refine Neat.bind (.of_same (by rw [hread])) ?_ hown
    rw [hread]
    cases htok : decodeAs Record.token? (w.store.lookup (tokenKey sha256 id)) with
    | error e =>
      refine (Neat.ret ()).bind (neat_deleteByAccessor hsha fun id' hid' hstored => ?_)
      rw [run_ret] at hid' hstored
      obtain rfl := Except.ok.inj (hdec.symm.trans hid')
      obtain ⟨tok, hst⟩ := Option.isSome_iff_exists.1 hstored
      rw [decodeAs_eq_ok.2 hst] at htok
      cases htok
    | ok tok =>
      -- the token that is purged is the one that the index names
      have hid : tok.id = id := hown.id_eq hsha (decodeAs_eq_ok.1 htok)
      refine (neat_purgeToken tok.id).ignore.bind (neat_deleteByAccessor hsha ?_)
      rw [run_ignore, run_purge]
      intro id' hid' _ k hk
      dsimp only at hid' ⊢
      rw [KV.lookup_wipe, if_neg fun h => not_hole_accessorKey _ (prefix_of_holeOf h), hdec] at hid'
      obtain rfl := Except.ok.inj hid'
      rw [KV.lookup_wipe, hid, if_pos hk]

/-- A use is tidy, if it does not find the limit of a token with entries exceeded. -/
theorem neat_useToken {id : Bytes} {now : Int}
    (hspare : (validToken sha256 w.store id now).isSome = true →
      exhausted sha256 w.store id = true → KV.under w.store (holeOf id) = ∅) :
    Neat sha256 L (useToken sha256 id now) w := by
  intro hown
  have hauth := run_authenticate (L := L) (w := w) sha256 id now
  refine Neat.andThen (.of_same (by rw [hauth])) (fun tok hok => ?_) hown
  rw [hauth] at hok ⊢
  cases hv : validToken sha256 w.store id now with
  | none =>
    rw [hv] at hok
    cases hok
  | some tok' =>
    refine (Neat.of_same (by rw [run_get])).bind ?_
    split
    · exact .ret _
    · next tok heq =>
      have hst : storedToken sha256 w.store id = some tok := decodeAs_eq_ok.1 heq
      split_ifs with hzero hlimit
      · exact .ret _
      · refine (neat_delete hsha fun k hk => ?_).ignore.bind (.ret _)
        have hempty : KV.under w.store (holeOf id) = ∅ := by
          refine hspare (by rw [hv]; rfl) ?_
          rw [exhausted, hst]
          exact decide_eq_true ⟨hzero, hlimit⟩
        rw [hown.id_eq hsha hst] at hk
        refine Option.not_isSome_iff_eq_none.1 fun hs => ?_
        have hmem : k ∈ KV.under w.store (holeOf id) := KV.mem_under.2 ⟨hs, hk⟩
        rw [hempty] at hmem
        exact absurd hmem (Finset.notMem_empty k)
      · exact (neat_put _).ignore.bind (.ret _)

/-- A token that was used is stored. -/
theorem stored_of_useToken {id : Bytes} {now : Int} (hown : OwnKeys sha256 w.store)
    (h : (run (KV.handle L) (useToken sha256 id now) w).1 = .ok ()) :
    (storedToken sha256 (run (KV.handle L) (useToken sha256 id now) w).2.store id).isSome =
      true := by
  revert h
  unfold useToken trackUse
  rw [run_andThen, run_authenticate]
  cases validToken sha256 w.store id now with
  | none => exact nofun
  | some tok' =>
    dsimp only
    rw [run_bind, run_get]
    cases hdec : decodeAs Record.token? (w.store.lookup (tokenKey sha256 id)) with
    | error e => exact nofun
    | ok tok =>
      have hst : storedToken sha256 w.store id = some tok := decodeAs_eq_ok.1 hdec
      dsimp only
      split_ifs
      · intro _
        exact Option.isSome_iff_exists.2 ⟨tok, hst⟩
      · intro h
        rw [run_bind] at h
        cases h
      · intro _
        rw [run_bind, run_ignore, run_put]
        refine Option.isSome_iff_exists.2 ⟨{ tok with useCount := tok.useCount + 1 }, ?_⟩
        rw [← hown.id_eq hsha hst]
        exact storedToken_putStore_self _ { tok with useCount := tok.useCount + 1 }

theorem neat_op {op : Op} {depth : Nat} (hspare : Sparing sha256 w (.token op depth)) :
    Neat sha256 L (op.code sha256 depth) w := by
  cases op with
  | issue origin displayName policies ttl now entity =>
    refine (neat_createToken displayName policies ttl now _).bind (Neat.bind ?_ (.ret _))
    split
    · unfold attachEntityToToken
      split
      · exact .ret _
      · exact (neat_put _).ignore
    · exact .ret _
  | create creator req ns now now' =>
    refine Neat.bind ?_ (.ret _)
    exact (neat_useToken hsha (hspare (creator, now) rfl)).andThen fun _ _ =>
      neat_createToken _ _ _ _ _
  | createFromRole creator roleName displayName ns now now' =>
    refine Neat.bind ?_ (.ret _)
    refine (neat_useToken hsha (hspare (creator, now) rfl)).andThen fun _ _ => ?_
    exact (Neat.of_same (by rw [run_getAs])).andThen fun _ _ => neat_createToken _ _ _ _ _
  | renew id ttl now now' => exact (neat_renewToken id ttl now now').bind (.ret _)
  | use id now => exact (neat_useToken hsha (hspare (id, now) rfl)).bind (.ret _)
  | narrow id allowed now => exact (neat_narrowToken id allowed now).bind (.ret _)
  | gc now => exact (neat_runGC hsha now).bind (.ret _)
  | revoke id => exact (neat_revokeToken hsha id).bind (.ret _)
  | revokeTree id => exact (neat_revokeTokenTree hsha depth id).bind (.ret _)
  | revokeByAccessor acc => exact (neat_revokeTokenByAccessor hsha acc).bind (.ret _)

omit hsha in
theorem hole_cubbyholeKey (id path : Bytes) : holeOf id <+: cubbyholeKey id path :=
  List.prefix_append _ _

omit hsha in
theorem tokenKey_ne_cubbyholeKey (id id' path : Bytes) :
    tokenKey sha256 id ≠ cubbyholeKey id' path := fun h =>
  not_hole_tokenKey id (h ▸ prefix_of_holeOf (hole_cubbyholeKey id' path))

omit hsha in
/-- An entry of a stored token may be added. -/
theorem Owned.insert {id path : Bytes} {r : Record} (h : Owned sha256 s)
    (hid : (storedToken sha256 s id).isSome = true) :
    Owned sha256 (s.insert (cubbyholeKey id path) r) := by
  have htok (id' : Bytes) : storedToken sha256 (s.insert (cubbyholeKey id path) r) id' =
      storedToken sha256 s id' := by
    unfold storedToken
    rw [KV.lookup_insert, if_neg (tokenKey_ne_cubbyholeKey _ _ _)]
  intro k hk hpre
  rw [KV.lookup_insert] at hk
  split_ifs at hk with heq
  · exact ⟨id, (htok id).symm ▸ hid, heq ▸ hole_cubbyholeKey id path⟩
  · obtain ⟨id', hid', hhole⟩ := h k hk hpre
    exact ⟨id', (htok id').symm ▸ hid', hhole⟩

omit hsha in
theorem neat_cubbyholeDelete (id path : Bytes) : Neat sha256 L (cubbyholeDelete id path) w := by
  have hrun : (run (KV.handle L) (cubbyholeDelete id path) w).2.store =
      w.store.erase (cubbyholeKey id path) := rfl
  refine .of_fewer hrun (fun k r hk => ?_)
    fun id' => .inl (Finmap.lookup_erase_ne (tokenKey_ne_cubbyholeKey _ _ _))
  rw [KV.lookup_erase] at hk
  split_ifs at hk
  exact hk

omit hsha in
theorem neat_cubbyholeGet (id path : Bytes) : Neat sha256 L (cubbyholeGet id path) w := by
  refine Neat.andThen (.of_same rfl) fun r _ => ?_
  cases r with
  | none => exact .ret _
  | some r => exact .ret _

omit hsha in
/-- What an operation does that adds no entry. -/
theorem Owned.neat {α : Type} {p : KV.Code Record α} (hown : OwnKeys sha256 w.store)
    (h : Owned sha256 w.store) (hp : Neat sha256 L p w) :
    OwnKeys sha256 (run (KV.handle L) p w).2.store ∧
      Owned sha256 (run (KV.handle L) p w).2.store :=
  ⟨(hp hown).1, h.tidy (hp hown).2⟩

/-- One operation keeps the entries owned. -/
theorem Owned.step {op : HoleOp} (hown : OwnKeys sha256 w.store) (h : Owned sha256 w.store)
    (hspare : Sparing sha256 w op) :
    OwnKeys sha256 (stepHole sha256 L w op).store ∧
      Owned sha256 (stepHole sha256 L w op).store := by
  unfold stepHole
  cases op with
  | token op depth => exact h.neat hown (neat_op hsha hspare).ignore
  | put id path value now =>
    have huse : Neat sha256 L (useToken sha256 id now) w :=
      neat_useToken hsha (hspare (id, now) rfl)
    simp only [HoleOp.code]
    by_cases hpath : path = []
    · rw [if_pos hpath]
      exact h.neat hown (huse.andThen fun _ _ => .ret _).ignore
    · rw [if_neg hpath, run_ignore, run_andThen]
      obtain ⟨hown', howned⟩ := h.neat hown huse
      have hstored : (run (KV.handle L) (useToken sha256 id now) w).1 = .ok () → _ :=
        stored_of_useToken hsha hown
      revert hown' howned hstored
      generalize run (KV.handle L) (useToken sha256 id now) w = out
      intro hown' howned hstored
      obtain ⟨r, w'⟩ := out
      cases r with
      | error e => exact ⟨hown', howned⟩
      | ok _ =>
        refine ⟨fun k t hk => ?_, howned.insert (hstored rfl)⟩
        have hk :
            (w'.store.insert (cubbyholeKey id path) (.raw value)).lookup k = some (.token t) := hk
        rw [KV.lookup_insert] at hk
        split_ifs at hk
        · cases hk
        · exact hown' k t hk
  | get id path now =>
    refine h.neat hown ((neat_useToken hsha (hspare (id, now) rfl)).andThen fun _ _ => ?_).ignore
    split_ifs
    · exact .ret _
    · exact neat_cubbyholeGet id path
  | delete id path now =>
    refine h.neat hown ((neat_useToken hsha (hspare (id, now) rfl)).andThen fun _ _ => ?_).ignore
    split_ifs
    · exact .ret _
    · exact neat_cubbyholeDelete id path
  | list id pathPrefix now =>
    refine h.neat hown ((neat_useToken hsha (hspare (id, now) rfl)).andThen fun _ _ => ?_).ignore
    exact .of_same rfl

omit hsha in
theorem not_owned (id path : Bytes) (hentry : (s.lookup (cubbyholeKey id path)).isSome = true)
    (htokens : KV.under s tokenPrefix = ∅) : ¬Owned sha256 s := by
  intro h
  obtain ⟨id', hid', -⟩ := h _ hentry (prefix_of_holeOf (hole_cubbyholeKey id path))
  obtain ⟨tok, htok⟩ := Option.isSome_iff_exists.1 hid'
  obtain ⟨r, hr, -⟩ := Option.bind_eq_some_iff.1 htok
  have hmem : tokenKey sha256 id' ∈ KV.under s tokenPrefix :=
    KV.mem_under.2 ⟨Option.isSome_iff_exists.2 ⟨r, hr⟩, List.prefix_append tokenPrefix _⟩
  rw [htokens] at hmem
  exact absurd hmem (Finset.notMem_empty _)

/-- In every run in which no token with entries is used beyond its limit, every entry of the
    cubbyhole belongs to a stored token. -/
theorem cubbyholes_owned {ops : List HoleOp} (hown : OwnKeys sha256 w.store)
    (howned : Owned sha256 w.store) (hmeets : Meets (stepHole sha256 L) (Sparing sha256) w ops) :
    Owned sha256 (runs (stepHole sha256 L) w ops).store := by
  have hrun := hmeets.holds (P := fun w => OwnKeys sha256 w.store ∧ Owned sha256 w.store)
    ⟨hown, howned⟩ fun w op hspare hw => hw.2.step hsha hw.1 hspare
  exact hrun.2

end

/-! ### A token for one use -/

def emptyWorld : LogicalWorld where
  store := ∅
  rng := fun n => UInt8.ofNat n

/-- The IDs of the first two tokens. -/
def firstID : Bytes := drawnID emptyWorld.rng

def secondID : Bytes := drawnID (emptyWorld.rng.drop 48)

/-- The first token creates one for a single use, which writes an entry; the first is revoked. -/
def oneUse : List HoleOp :=
  [.token (.issue .root (ascii "root") [] 0 0 none) 0,
    .token (.create firstID ⟨ascii "ci", [], 0, false, 0, 1, 0, true, false⟩ [] 0 0) 0,
    .token (.revoke firstID) 0, .put secondID (ascii "k") (ascii "\x7b\x7d") 0]

theorem ownKeys_emptyWorld : OwnKeys (fun b => b) emptyWorld.store := nofun

theorem owned_emptyWorld : Owned (fun b => b) emptyWorld.store := nofun

theorem cubbyholes_owned_oneUse :
    Owned (fun b => b) (runs (stepHole (fun b => b) KV.sorted) emptyWorld
      (oneUse ++ [.token (.revoke secondID) 0, .token (.use secondID 0) 0])).store :=
  cubbyholes_owned Function.injective_id ownKeys_emptyWorld owned_emptyWorld (by decide +kernel)

/-- The second use deletes the token and leaves its entry. -/
theorem exhausted_leaves_entry :
    ¬Owned (fun b => b) (runs (stepHole (fun b => b) KV.sorted) emptyWorld
      (oneUse ++ [.token (.use secondID 0) 0])).store :=
  not_owned secondID (ascii "k") (by decide +kernel) (by decide +kernel)

end Tuck.Core
