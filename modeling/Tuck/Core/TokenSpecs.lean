/-
  What the token operations of the core do to the stored tokens when no call fails, in the
  terms of `Token.Changes`: one specification for each operation.
-/
import Tuck.Core.Access
import Tuck.Token.Changes

namespace Tuck.Core

open Tuck.Base Tuck.Token Prog

section

variable (sha256 : Bytes → Bytes) (L : KV.Listing) (P : Token → Prop) {α : Type}

/-- The run returns `a`, draws nothing, and makes changes that delete the tokens of `R`. -/
def Did (p : KV.Code Record α) (w : LogicalWorld) (a : α) (R : Set Bytes) : Prop :=
  ∃ s', run (KV.handle L) p w = (a, { w with store := s' }) ∧ Changes sha256 P w.store R s'

end

variable {sha256 : Bytes → Bytes} {L : KV.Listing} {P : Token → Prop} {w : LogicalWorld}

namespace Did

variable {α β : Type} {a : α} {b : β} {R R' : Set Bytes}

theorem ret (a : α) : Did sha256 L P (.ret a) w a ∅ := ⟨w.store, rfl, .refl _⟩

variable {p : KV.Code Record α} {f : α → KV.Code Record β}

/-- Sequencing; the second run starts from what the first one left. -/
theorem bind (hp : Did sha256 L P p w a R)
    (hf : ∀ s', Changes sha256 P w.store R s' → Did sha256 L P (f a) { w with store := s' } b R') :
    Did sha256 L P (p.bind f) w b (R ∪ R') := by
  obtain ⟨s', hrun, hch⟩ := hp
  obtain ⟨s'', hrun', hch'⟩ := hf s' hch
  exact ⟨s'', by rw [run_bind, hrun, hrun'], hch.trans hch'⟩

theorem ignore (hp : Did sha256 L P p w a R) :
    Did sha256 L P p.ignore w () R := by
  obtain ⟨s', hrun, hch⟩ := hp
  exact ⟨s', by rw [run_ignore, hrun], hch⟩

theorem congr (hp : Did sha256 L P p w a R) (hR : R = R') :
    Did sha256 L P p w a R' := hR ▸ hp

/-- A read leaves everything as it is. -/
theorem of_run (hrun : run (KV.handle L) p w = (a, w)) :
    Did sha256 L P p w a ∅ := ⟨w.store, hrun, .refl _⟩

/-- Continue after a read. -/
theorem read
    (hf : Did sha256 L P (f a) w b R) (hrun : run (KV.handle L) p w = (a, w)) :
    Did sha256 L P (p.bind f) w b R := by
  obtain ⟨s', hrun', hch⟩ := hf
  exact ⟨s', by rw [run_bind, hrun, hrun'], hch⟩

theorem readOk {p : Logical α} {f : α → Logical β} {b : Except Err β}
    (hf : Did sha256 L P (f a) w b R) (hrun : run (KV.handle L) p w = (.ok a, w)) :
    Did sha256 L P (p.andThen f) w b R := by
  obtain ⟨s', hrun', hch⟩ := hf
  exact ⟨s', by rw [run_andThen, hrun, ← hrun'], hch⟩

theorem exists_read
    (hrun : run (KV.handle L) p w = (a, w)) (hf : ∃ b, Did sha256 L P (f a) w b R) :
    ∃ b, Did sha256 L P (p.bind f) w b R := by
  obtain ⟨b, hb⟩ := hf
  exact ⟨b, hb.read hrun⟩

theorem map (hp : Did sha256 L P p w a R) (f : α → β) :
    Did sha256 L P (p.bind fun r => .ret (f r)) w (f a) R := by
  obtain ⟨s', hrun, hch⟩ := hp
  exact ⟨s', by rw [run_bind, hrun, run_ret], hch⟩

theorem thenOk {p : Logical α} (hp : Did sha256 L P p w (.ok a) R) (b : β) :
    Did sha256 L P (p.andThen fun _ => .ret (.ok b)) w (.ok b) R := by
  obtain ⟨s', hrun, hch⟩ := hp
  exact ⟨s', by rw [run_andThen, hrun]; rfl, hch⟩

/-- Deleting for each element of a list. -/
theorem each {f : Bytes → KV.Code Record Unit} (hf : ∀ x w, Did sha256 L P (f x) w () {x})
    (xs : List Bytes) : Did sha256 L P (each f xs) w () {x | x ∈ xs} := by
  induction xs generalizing w with
  | nil => exact (ret ()).congr (by simp)
  | cons x xs ih =>
    refine ((hf x w).bind fun s' _ => ih).congr ?_
    ext y
    simp

end Did

/-! ## The token store and the cubbyhole -/

theorem run_purgeToken (L : KV.Listing) (id : Bytes) (w : LogicalWorld) :
    run (KV.handle L) (purgeToken id) w =
      (.ok (), { w with store := KV.wipe L w.store (cubbyholePrefix ++ (id ++ [0x2F])) }) := by
  unfold purgeToken
  rw [run_andThen, KV.run_list]
  simp only [run_bind, KV.run_each_delete, run_ret]
  rfl

theorem not_cubbyhole {p x k : Bytes} (h : overlaps cubbyholePrefix p = false) :
    ¬cubbyholePrefix ++ x <+: p ++ k := by
  rintro ⟨y, hy⟩
  rw [List.append_assoc] at hy
  exact append_ne_append h _ _ hy

theorem sameTokens_wipe (L : KV.Listing) (s : LogicalStore) (x : Bytes) :
    SameTokens sha256 s (KV.wipe L s (cubbyholePrefix ++ x)) where
  shrinks k r hk := by
    rw [KV.lookup_wipe] at hk
    split_ifs at hk
    exact hk
  token id := (KV.lookup_wipe ..).trans (if_neg (not_cubbyhole (by decide)))
  accessor acc := (KV.lookup_wipe ..).trans (if_neg (not_cubbyhole (by decide)))
  child p c := by
    rw [KV.lookup_wipe, if_neg]
    unfold childKey childrenOf
    rw [List.append_assoc]
    exact not_cubbyhole (by decide)

theorem did_purgeToken (id : Bytes) : Did sha256 L P (purgeToken id) w (.ok ()) ∅ :=
  ⟨_, run_purgeToken L id w, .same (sameTokens_wipe L _ _)⟩

theorem did_delete (id : Bytes) : Did sha256 L P (Token.delete sha256 id) w (.ok ()) {id} :=
  ⟨_, run_delete sha256 L w id, .delete _ id⟩

theorem did_put {old t : Token} (hold : Stored sha256 w.store old) (hkin : Kin old t) :
    Did sha256 L P (Token.put sha256 t) w (.ok ()) ∅ :=
  ⟨_, run_put sha256 L w t, .update old t hold hkin⟩

/-- What `Token.get` returns. -/
theorem run_get (id : Bytes) :
    run (KV.handle L) (Token.get sha256 id) w =
      (decodeAs Record.token? (w.store.lookup (tokenKey sha256 id)), w) := rfl

/-- Reading a token finds the stored one, or fails. -/
theorem run_get_cases (L : KV.Listing) (w : LogicalWorld) (id : Bytes) :
    (∃ tok, storedToken sha256 w.store id = some tok ∧
        run (KV.handle L) (Token.get sha256 id) w = (.ok tok, w)) ∨
      storedToken sha256 w.store id = none ∧
        ∃ e, run (KV.handle L) (Token.get sha256 id) w = (.error e, w) := by
  rw [run_get]
  cases h : decodeAs Record.token? (w.store.lookup (tokenKey sha256 id)) with
  | ok tok => exact .inl ⟨tok, decodeAs_eq_ok.1 h, rfl⟩
  | error e =>
    refine .inr ⟨Option.eq_none_iff_forall_ne_some.2 fun tok htok => ?_, e, rfl⟩
    have hok := decodeAs_eq_ok.2 htok
    rw [h] at hok
    cases hok

section

variable {acc : Bytes} (h : (w.store.lookup (accessorKey acc)).bind Record.accessor? = none)

include h

theorem decode_missing :
    decodeAs Record.accessor? (w.store.lookup (accessorKey acc)) = .error .notFound ∨
      decodeAs Record.accessor? (w.store.lookup (accessorKey acc)) = .error .decode := by
  cases hl : w.store.lookup (accessorKey acc) with
  | none => exact .inl rfl
  | some r =>
    rw [hl, Option.bind_some] at h
    exact .inr (by simp only [decodeAs, h])

theorem run_getByAccessor_missing :
    run (KV.handle L) (getByAccessor sha256 acc) w = (.error .notFound, w) := by
  unfold getByAccessor
  rw [run_bind, run_getAs]
  obtain hdec | hdec := decode_missing h <;> rw [hdec] <;> rfl

theorem run_deleteByAccessor_missing :
    run (KV.handle L) (deleteByAccessor sha256 acc) w = (.error .notFound, w) := by
  unfold deleteByAccessor
  rw [run_bind, run_getAs]
  obtain hdec | hdec := decode_missing h <;> rw [hdec] <;> rfl

end

/-! ## Single tokens -/

theorem did_revokeToken (id : Bytes) :
    Did sha256 L P (revokeToken sha256 id) w (.ok ()) {id} :=
  ((did_purgeToken id).ignore.bind fun _ _ => did_delete id).congr (Set.empty_union _)

/-- The next use of the token exceeds its limit. -/
def exhausted (sha256 : Bytes → Bytes) (s : LogicalStore) (id : Bytes) : Bool :=
  (storedToken sha256 s id).any fun tok => tok.maxUses ≠ 0 ∧ tok.maxUses < tok.useCount + 1

section

variable (hsha : Function.Injective sha256) (hwf : Wf sha256 w.store)

include hsha hwf

/-- A use writes the token with a new count, or deletes it when it is exhausted. -/
theorem did_trackUse (id : Bytes) :
    ∃ r, Did sha256 L P (trackUse sha256 id) w r (if exhausted sha256 w.store id then {id} else ∅) ∧
      (r = .ok () → exhausted sha256 w.store id = false) := by
  unfold trackUse exhausted
  obtain ⟨tok, hst, hget⟩ | ⟨hst, e, hget⟩ := run_get_cases L w id
  · obtain ⟨hstored, rfl⟩ := (storedToken_eq_some hsha hwf).1 hst
    rw [hst, Option.any_some]
    by_cases hun : tok.maxUses = 0
    · refine ⟨.ok (), Did.read ?_ hget, fun _ => by simp [hun]⟩
      simp only [hun, if_true, ne_eq, not_true_eq_false, false_and, decide_false]
      exact .ret _
    · by_cases hlt : tok.maxUses < tok.useCount + 1
      · refine ⟨.error .tokenInvalid, Did.read ?_ hget, fun h => by cases h⟩
        simp only [hun, if_false, hlt, if_true, ne_eq, not_false_eq_true, true_and, decide_true]
        exact (did_delete tok.id).ignore.map _
      · refine ⟨.ok (), Did.read ?_ hget, fun _ => by simp [hlt]⟩
        simp only [hun, if_false, hlt, and_false, decide_false, Bool.false_eq_true]
        exact (did_put hstored (by exact ⟨rfl, rfl, rfl, rfl⟩)).ignore.map _
  · rw [hst]
    exact ⟨.error .tokenInvalid, Did.read (.ret _) hget, fun _ => rfl⟩

/-- A renewal rewrites the token, if anything. -/
theorem did_renewToken (id : Bytes) (ttl now now' : Int) :
    ∃ r, Did sha256 L P (renewToken sha256 id ttl now now') w r ∅ := by
  unfold renewToken
  obtain ⟨tok, hst, hget⟩ | ⟨hst, e, hget⟩ := run_get_cases L w id
  · obtain ⟨hstored, rfl⟩ := (storedToken_eq_some hsha hwf).1 hst
    refine Did.exists_read hget ?_
    dsimp only
    split_ifs
    · exact ⟨_, .ret _⟩
    · exact ⟨_, .ret _⟩
    · exact ⟨_, (did_put hstored (by exact ⟨rfl, rfl, rfl, rfl⟩)).thenOk _⟩
  · exact ⟨.error .tokenInvalid, Did.read (.ret _) hget⟩

/-- Narrowing rewrites the token, if anything. -/
theorem did_narrowToken (id : Bytes) (allowed : List Bytes) (now : Int) :
    ∃ r, Did sha256 L P (narrowToken sha256 id allowed now) w r ∅ := by
  unfold narrowToken
  obtain ⟨tok, hst, hget⟩ | ⟨hst, e, hget⟩ := run_get_cases L w id
  · obtain ⟨hstored, rfl⟩ := (storedToken_eq_some hsha hwf).1 hst
    refine Did.exists_read hget ?_
    dsimp only
    split_ifs
    · exact ⟨_, .ret _⟩
    · exact ⟨_, .ret _⟩
    · exact ⟨_, (did_put hstored (by exact ⟨rfl, rfl, rfl, rfl⟩)).map Except.isOk⟩
  · exact ⟨false, Did.read (.ret _) hget⟩

end

/-! ## Deletion by accessor and garbage collection -/

section

variable (hwf : Wf sha256 w.store)

include hwf

/-- Deletion by accessor finds the token of the accessor, or none and changes nothing. -/
theorem did_revokeTokenByAccessor (acc : Bytes)
    (hP : ∀ t, Stored sha256 w.store t → t.accessor = acc → P t) :
    (∃ t, Stored sha256 w.store t ∧ t.accessor = acc ∧
        Did sha256 L P (revokeTokenByAccessor sha256 acc) w (.ok ()) {t.id}) ∨
      ((∀ t, Stored sha256 w.store t → t.accessor ≠ [] → t.accessor ≠ acc) ∧
        Did sha256 L P (revokeTokenByAccessor sha256 acc) w (.error .notFound) ∅) := by
  cases hacc : (w.store.lookup (accessorKey acc)).bind Record.accessor? with
  | some id =>
    left
    obtain ⟨r, hr, hdec⟩ := Option.bind_eq_some_iff.1 hacc
    cases r with
    | accessor id' =>
      obtain rfl := Option.some.inj hdec
      obtain ⟨t, ht, hne, hkey, rfl⟩ := (hwf.accessor_iff _ _).1 hr
      obtain rfl := accessorKey_inj.1 hkey
      refine ⟨t, ht, rfl, ?_⟩
      have hby : run (KV.handle L) (getByAccessor sha256 t.accessor) w = (.ok t, w) := by
        unfold getByAccessor
        rw [run_bind, run_getAs, hr]
        exact (run_get t.id).trans (by rw [ht]; rfl)
      refine Did.read ?_ hby
      have hdel (s' : LogicalStore) (hs' : SameTokens sha256 w.store s') :
          Did sha256 L P (deleteByAccessor sha256 t.accessor) { w with store := s' }
            (.ok ()) {t.id} := by
        refine ⟨deleteByAccessorStore sha256 s' t.accessor t.id, ?_,
          .deleteByAccessor t (hs'.stored.2 ht) (hP t ht rfl)⟩
        unfold deleteByAccessor deleteByAccessorStore
        rw [run_bind, run_getAs, hs'.accessor, hr]
        rfl
      obtain ⟨s'', hrun, hch⟩ := hdel _ (sameTokens_wipe L w.store (t.id ++ [0x2F]))
      refine ⟨s'', ?_,
        (Changes.trans (.same (sameTokens_wipe L w.store (t.id ++ [0x2F]))) hch).congr
        (Set.empty_union _)⟩
      rw [run_bind, run_ignore, run_purgeToken]
      exact hrun
    | _ => cases hdec
  | none =>
    right
    refine ⟨fun t ht hne hacc' => ?_, ?_⟩
    · rw [← hacc', (hwf.accessor_iff _ _).2 ⟨t, ht, hne, rfl, rfl⟩] at hacc
      cases hacc
    · refine Did.read ?_ (run_getByAccessor_missing hacc)
      exact Did.read (.of_run (run_deleteByAccessor_missing hacc)) rfl

theorem mem_readAll {t : Token} :
    t ∈ (L.order (KV.under w.store tokenPrefix)).filterMap
        (fun k => (w.store.lookup k).bind Record.token?) ↔ Stored sha256 w.store t := by
  rw [List.mem_filterMap]
  constructor
  · rintro ⟨k, -, hk⟩
    obtain ⟨r, hr, hdec⟩ := Option.bind_eq_some_iff.1 hk
    cases r with
    | token u =>
      obtain rfl := Option.some.inj hdec
      rw [Stored, ← hwf.token_key k u hr]
      exact hr
    | _ => cases hdec
  · intro ht
    refine ⟨tokenKey sha256 t.id, L.mem_order.2 (KV.mem_under.2 ⟨?_, List.prefix_append ..⟩), ?_⟩
    · rw [ht]
      rfl
    · rw [ht]
      rfl

/-- Garbage collection deletes the expired tokens. -/
theorem did_runGC (now : Int) :
    Did sha256 L P (runGC sha256 now) w ()
      {x | ∃ t, Stored sha256 w.store t ∧ t.isExpired now = true ∧ t.id = x} := by
  have hlist : run (KV.handle L) (listExpired now) w =
      (.ok ((((L.order (KV.under w.store tokenPrefix)).filterMap
        fun k => (w.store.lookup k).bind Record.token?).filter
          fun t => t.isExpired now).map Token.id), w) := by
    unfold listExpired readAll
    simp only [run_andThen, KV.run_list, run_bind, run_collect_getAs, run_ret]
  refine Did.read ?_ hlist
  refine (Did.each (fun x w => ?_) _).congr ?_
  · exact ((did_delete x).ignore.bind fun _ _ => (did_purgeToken x).ignore).congr
      (Set.union_empty _)
  · ext x
    simp only [Set.mem_ofPred_eq, List.mem_map, List.mem_filter, mem_readAll (L := L) hwf,
      and_assoc]

end

/-! ## Creation -/

/-- The ID that the random source gives next. -/
def drawnID (rng : Stream' UInt8) : Bytes := ascii "tuck_" ++ rawURLEncode (rng.take 32)

/-- The accessor that the random source gives next. -/
def drawnAccessor (rng : Stream' UInt8) : Bytes :=
  ascii "tuck_acc_" ++ rawURLEncode ((rng.drop 32).take 16)

/-- The token that `Generate` makes of the random bytes. -/
def drawnToken (rng : Stream' UInt8) (displayName : Bytes) (policies : List Bytes) (ttl now : Int) :
    Token where
  id := drawnID rng
  accessor := drawnAccessor rng
  displayName := displayName
  policies := policies
  ns := []
  entityID := []
  authMethod := []
  createdAt := now
  expiresAt := if 0 < ttl then some (now + ttl) else none
  renewable := false
  maxTTL := 0
  maxUses := 0
  useCount := 0
  period := 0
  parentID := []
  orphan := false

/-- What `createToken` does when no call fails. -/
theorem run_createToken_drawn (sha256 : Bytes → Bytes) (L : KV.Listing) (w : LogicalWorld)
    (displayName : Bytes) (policies : List Bytes) (ttl now : Int) (opts : List TokenOpt)
    {tok : Token}
    (htok : tok = opts.foldl (fun t o => o t) (drawnToken w.rng displayName policies ttl now)) :
    run (KV.handle L) (createToken sha256 displayName policies ttl now opts) w =
      (.ok tok, ⟨putStore sha256 w.store tok, (w.rng.drop 32).drop 16⟩) := by
  subst htok
  unfold createToken generate
  simp only [run_andThen, KV.run_rand, run_ret, run_put]
  rfl

/-- The token that `createToken` writes is new, and the options decide on the rest of it. -/
theorem run_createToken (sha256 : Bytes → Bytes) (L : KV.Listing) (w : LogicalWorld)
    (displayName : Bytes) (policies : List Bytes) (ttl now : Int) (opts : List TokenOpt) :
    ∃ tok₀, tok₀.id = drawnID w.rng ∧ tok₀.accessor = drawnAccessor w.rng ∧ tok₀.parentID = [] ∧
      tok₀.orphan = false ∧ ∃ rng', run (KV.handle L)
        (createToken sha256 displayName policies ttl now opts) w =
          (.ok (opts.foldl (fun t o => o t) tok₀),
            ⟨putStore sha256 w.store (opts.foldl (fun t o => o t) tok₀), rng'⟩) :=
  ⟨_, rfl, rfl, rfl, rfl, _, run_createToken_drawn sha256 L w displayName policies ttl now opts rfl⟩

/-- Options that leave a token its place in the indexes. -/
theorem kin_foldl {opts : List TokenOpt} (h : ∀ o ∈ opts, ∀ t, Kin t (o t)) (t : Token) :
    Kin t (opts.foldl (fun t o => o t) t) := by
  induction opts generalizing t with
  | nil => exact .refl t
  | cons o opts ih =>
    exact (h o (List.mem_cons_self ..) t).trans
      (ih (fun o' ho' => h o' (List.mem_cons_of_mem o ho')) (o t))

end Tuck.Core
