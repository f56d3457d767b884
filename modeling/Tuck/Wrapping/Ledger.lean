/-
  The accounting of one wrapping store. The counters are what was counted, modulo the width
  of a counter, and every wrap is accounted for: the responses that were wrapped are those
  that were unwrapped, expired or revoked and those that are still stored (`Ledger`).

  Every operation but a wrap removes records and counts each of them once; `Settles` says
  which ones it removed, and that the rest is as before.
-/
import Tuck.Wrapping.Store

namespace Tuck.Wrapping

open Tuck.Base Prog KV

/-! ## Counters -/

def Stats.get : Tally → Stats → UInt64
  | .wrapped, st => st.wrapped
  | .unwrapped, st => st.unwrapped
  | .expired, st => st.expired
  | .revoked, st => st.revoked

/-- The counters show the numbers `n`. -/
def Counted (st : Stats) (n : Tally → Nat) : Prop := ∀ t, st.get t = UInt64.ofNat (n t)

/-- One more of `t`. -/
def plusOne (t : Tally) (n : Tally → Nat) : Tally → Nat := Function.update n t (n t + 1)

variable {n : Tally → Nat}

theorem Counted.count {st : Stats} (h : Counted st n) (t : Tally) :
    Counted (st.count t) (plusOne t n) := by
  intro u
  have hadd : ∀ m : Nat, UInt64.ofNat (m + 1) = UInt64.ofNat m + 1 := fun m => UInt64.ofNat_add m 1
  by_cases hu : u = t
  · subst hu
    rw [plusOne, Function.update_self, hadd, ← h u]
    cases u <;> rfl
  · rw [plusOne, Function.update_of_ne hu, ← h u]
    cases u <;> cases t <;> first | rfl | exact absurd rfl hu

/-- The counters in memory and those that are stored show `n`; what is stored can be read. -/
structure Counters (s : LogicalStore) (mem : Option Stats) (n : Tally → Nat) : Prop where
  stored : ∀ r, s.lookup statsKey = some r → ∃ st, r = .wrapStats st ∧ Counted st n
  fresh : s.lookup statsKey = none → ∀ t, n t = 0
  synced : ∀ st, mem = some st → Counted st n

section

variable {s : LogicalStore} {mem : Option Stats} {n : Tally → Nat} {L : Listing}

theorem Counters.load {w : LogicalWorld} (h : Counters w.store mem n) (now : Int) :
    ∃ st, run (handle L) (loadStats now mem) w = (.ok st, w) ∧ Counted st n := by
  cases mem with
  | some st => exact ⟨st, rfl, h.synced st rfl⟩
  | none =>
    unfold loadStats
    rw [run_andThen, run_get]
    cases hr : w.store.lookup statsKey with
    | none =>
      refine ⟨_, rfl, fun t => ?_⟩
      rw [h.fresh hr t]
      cases t <;> rfl
    | some r =>
      obtain ⟨st, rfl, hst⟩ := h.stored r hr
      refine ⟨_, rfl, fun t => ?_⟩
      rw [← hst t]
      cases t <;> rfl

theorem Counters.bump {w : LogicalWorld} (h : Counters w.store mem n) (t : Tally) (now : Int) :
    ∃ st, run (handle L) (bump t now mem) w =
        (some st, { w with store := w.store.insert statsKey (.wrapStats st) }) ∧
      Counters (w.store.insert statsKey (.wrapStats st)) (some st) (plusOne t n) := by
  obtain ⟨st, hrun, hst⟩ := h.load (L := L) now
  have hcount := hst.count t
  refine ⟨st.count t, ?_, ⟨fun r hr => ?_, fun hnone => ?_, fun st' hst' => ?_⟩⟩
  · unfold Wrapping.bump
    rw [run_bind, hrun]
    rfl
  · rw [lookup_insert, if_pos rfl] at hr
    cases hr
    exact ⟨_, rfl, hcount⟩
  · rw [lookup_insert, if_pos rfl] at hnone
    cases hnone
  · cases hst'
    exact hcount

end

/-! ## The ledger -/

structure State where
  w : LogicalWorld
  /-- The counters in memory. -/
  mem : Option Stats

/-- The records that are stored. -/
def State.records (s : State) : Finset Bytes := under s.w.store storagePrefix

/-- Every wrap is accounted for. -/
structure Ledger (s : State) (n : Tally → Nat) : Prop where
  counters : Counters s.w.store s.mem n
  balance : n .wrapped = n .unwrapped + n .expired + n .revoked + s.records.card

theorem not_prefix_statsKey : ¬ storagePrefix <+: statsKey := by decide

theorem statsKey_ne {k : Bytes} (h : storagePrefix <+: k) : k ≠ statsKey := by
  rintro rfl
  exact not_prefix_statsKey h

/-- The operation removed the records `R` and counted each of them. -/
structure Settles (s : State) (n : Tally → Nat) (R : Set Bytes) (s' : State) (n' : Tally → Nat) :
    Prop where
  ledger : Ledger s' n'
  wrapped : n' .wrapped = n .wrapped
  removed : ∀ k ∈ R, storagePrefix <+: k → s'.w.store.lookup k = none
  kept : ∀ k, k ∉ R → storagePrefix <+: k → s'.w.store.lookup k = s.w.store.lookup k

variable {s : State}

theorem Settles.idle {s' : State} (h : Ledger s' n) (hstore : s'.w.store = s.w.store) :
    Settles s n ∅ s' n where
  ledger := h
  wrapped := rfl
  removed := fun _ hk => absurd hk (Set.notMem_empty _)
  kept := fun k _ _ => by rw [hstore]

theorem Settles.trans {s' s'' : State} {n' n'' : Tally → Nat} {R R' : Set Bytes}
    (h : Settles s n R s' n') (h' : Settles s' n' R' s'' n'') : Settles s n (R ∪ R') s'' n'' where
  ledger := h'.ledger
  wrapped := h'.wrapped.trans h.wrapped
  removed k hk hpre := by
    by_cases hk' : k ∈ R'
    · exact h'.removed k hk' hpre
    · rw [h'.kept k hk' hpre]
      exact h.removed k (hk.resolve_right hk') hpre
  kept k hk hpre := by
    rw [Set.mem_union, not_or] at hk
    rw [h'.kept k hk.2 hpre, h.kept k hk.1 hpre]

theorem plusOne_self (t : Tally) (n : Tally → Nat) : plusOne t n t = n t + 1 :=
  Function.update_self ..

theorem plusOne_of_ne {t u : Tally} (h : u ≠ t) (n : Tally → Nat) : plusOne t n u = n u :=
  Function.update_of_ne h ..

/-- A record is written or deleted, and counted. -/
theorem Ledger.bump (h : Ledger s n) {w : LogicalWorld} {k : Bytes} (hpre : storagePrefix <+: k)
    (hw : ∀ k' ≠ k, w.store.lookup k' = s.w.store.lookup k') (L : Listing) (t : Tally) (now : Int) :
    ∃ st w', run (handle L) (Wrapping.bump t now s.mem) w = (some st, w') ∧
      Counters w'.store (some st) (plusOne t n) ∧
      ∀ k', storagePrefix <+: k' → w'.store.lookup k' = w.store.lookup k' := by
  have hstats := hw statsKey (statsKey_ne hpre).symm
  have hc : Counters w.store s.mem n :=
    ⟨fun r hr => h.counters.stored r (hstats ▸ hr), fun hr => h.counters.fresh (hstats ▸ hr),
      h.counters.synced⟩
  obtain ⟨st, hrun, hst⟩ := hc.bump (L := L) t now
  exact ⟨st, _, hrun, hst, fun k' hk' => Finmap.lookup_insert_of_ne _ (statsKey_ne hk')⟩

/-- A record is deleted and counted. -/
theorem Ledger.remove {k : Bytes} (h : Ledger s n)
    (hk : k ∈ s.records) {t : Tally} (ht : t ≠ .wrapped) (L : Listing) (now : Int) :
    ∃ st w', run (handle L) (Wrapping.bump t now s.mem) { s.w with store := s.w.store.erase k } =
        (some st, w') ∧
      Settles s n {k} ⟨w', some st⟩ (plusOne t n) := by
  obtain ⟨st, w', hrun, hst, hsame⟩ := h.bump (w := { s.w with store := s.w.store.erase k })
    (mem_under.1 hk).2 (fun k' hne => Finmap.lookup_erase_ne hne) L t now
  have hlook : ∀ k', storagePrefix <+: k' →
      w'.store.lookup k' = if k' = k then none else s.w.store.lookup k' :=
    fun k' hk' => (hsame k' hk').trans (lookup_erase ..)
  have hrec : under w'.store storagePrefix = s.records.erase k := by
    ext k'
    rw [Finset.mem_erase, State.records, mem_under, mem_under]
    by_cases hk' : storagePrefix <+: k'
    · rw [hlook k' hk']
      split_ifs with heq <;> simp [heq, hk']
    · simp [hk']
  refine ⟨st, w', hrun, ⟨hst, ?_⟩, plusOne_of_ne ht.symm n, ?_, fun k' hne hk' => ?_⟩
  · show plusOne t n .wrapped = _ + (under _ storagePrefix).card
    have hcard := Finset.card_erase_add_one hk
    have hb := h.balance
    rw [hrec]
    cases t with
    | wrapped => exact absurd rfl ht
    | _ =>
      simp [plusOne, Function.update]
      omega
  · rintro k' rfl hk'
    exact (hlook k' hk').trans (if_pos rfl)
  · exact (hlook k' hk').trans (if_neg hne)

/-! ## The operations -/

/-- An operation in a state: its result and the state it leaves. -/
def exec {β : Type} (L : Listing) (p : Option Stats → Code Record (β × Option Stats)) (s : State) :
    β × State :=
  let r := run (handle L) (p s.mem) s.w
  (r.1.1, ⟨r.2, r.1.2⟩)

section

variable {s : State} {n : Tally → Nat} (L : Listing)

theorem unmarshal_some {e : Record} {r : WrapRecord} (h : unmarshal e = some r) :
    e = .wrapped r := by
  cases e with
  | wrapped r' =>
    simp only [unmarshal] at h
    split at h
    · split_ifs at h
      cases h
      rfl
    · cases h
  | _ => cases h

theorem mem_records {k : Bytes} {e : Record} (hpre : storagePrefix <+: k)
    (h : s.w.store.lookup k = some e) : k ∈ s.records :=
  mem_under.2 ⟨by rw [h]; rfl, hpre⟩

/-- An operation on the record of an ID fails, or finds the record. -/
theorem exec_record {α : Type} {p : Act α} {id : Bytes}
    {q : Option Stats → Except Err WrapRecord → Code Record (Except Err α × Option Stats)}
    (hp : ∀ mem, p mem = if id = [] then .ret (.error .notFound, mem)
      else (getAs unmarshal (storagePrefix ++ id)).bind (q mem))
    (herr : ∀ mem e, q mem (.error e) = .ret (.error e, mem)) :
    (∃ e, exec L p s = (.error e, s)) ∨
      ∃ r, s.w.store.lookup (storagePrefix ++ id) = some (.wrapped r) ∧
        exec L p s = exec L (fun mem => q mem (.ok r)) s := by
  unfold exec
  rw [hp]
  split_ifs with hid
  · exact Or.inl ⟨_, rfl⟩
  rw [run_bind, run_getAs]
  cases hd : decodeAs unmarshal (s.w.store.lookup (storagePrefix ++ id)) with
  | error e =>
    rw [herr]
    exact Or.inl ⟨e, rfl⟩
  | ok r =>
    obtain ⟨e, he, hr⟩ := Option.bind_eq_some_iff.1 (decodeAs_eq_ok.1 hd)
    exact Or.inr ⟨r, by rw [he, unmarshal_some hr], rfl⟩

/-- What is made of a result afterwards changes nothing in the store. -/
theorem exec_map {α β : Type} (p : Option Stats → Code Record (α × Option Stats)) (g : α → β) :
    exec L (fun mem => (p mem).bind fun res => .ret (g res.1, res.2)) s =
      (g (exec L p s).1, (exec L p s).2) := by
  unfold exec
  rw [run_bind, run_ret]

/-- The loop of a scan: the records it returns were stored, and those it removes are counted. -/
theorem exec_scanKeys (now : Int) (ks : List Bytes) (hks : KV.HavePrefix storagePrefix ks)
    (h : Ledger s n) :
    ∃ R n', Settles s n R (exec L (scanKeys now ks) s).2 n' ∧
      ∀ e ∈ (exec L (scanKeys now ks) s).1, storagePrefix <+: e.1 ∧
        s.w.store.lookup e.1 = some (.wrapped e.2) := by
  induction ks generalizing s n with
  | nil => exact ⟨∅, n, .idle h rfl, nofun⟩
  | cons k ks ih =>
    have hpre := hks k List.mem_cons_self
    have hrest : KV.HavePrefix storagePrefix ks := fun k' hk' => hks k' (List.mem_cons_of_mem k hk')
    unfold exec scanKeys
    rw [run_bind, run_getAs]
    cases he : s.w.store.lookup k with
    | none => exact ih hrest h
    | some e =>
      cases hr : unmarshal e with
      | none =>
        simp only [decodeAs, hr]
        exact ih hrest h
      | some r =>
        simp only [decodeAs, hr]
        by_cases hexp : r.expiresAt < now
        · obtain ⟨st, w', hrun, hset⟩ :=
            h.remove (mem_records hpre he) (t := .expired) (by decide) L now
          simp only [if_pos hexp, run_bind, run_delete, hrun]
          obtain ⟨R, n', hset', hlive⟩ := ih hrest hset.ledger
          refine ⟨_, n', hset.trans hset', fun e' he' => ?_⟩
          obtain ⟨hpre', hlook⟩ := hlive e' he'
          refine ⟨hpre', ?_⟩
          -- what the rest of the loop finds is not the record removed here
          by_cases heq : e'.1 = k
          · rw [hset.removed e'.1 heq hpre'] at hlook
            cases hlook
          · rw [← hset.kept e'.1 heq hpre']
            exact hlook
        · simp only [if_neg hexp, run_bind, run_ret]
          obtain ⟨R, n', hset', hlive⟩ := ih hrest h
          refine ⟨R, n', hset', fun e' he' => ?_⟩
          rcases List.mem_cons.1 he' with rfl | he'
          · exact ⟨hpre, by rw [he, unmarshal_some hr]⟩
          · exact hlive e' he'

variable (h : Ledger s n)

include h

/-- What an unwrap does: it hands out the payload of a record that has not expired, and the
    record is gone. -/
theorem exec_unwrap (token : Bytes) (now : Int) :
    ∃ R n', Settles s n R (exec L (unwrap token now) s).2 n' ∧
      ∀ x, (exec L (unwrap token now) s).1 = .ok x →
        ∃ r, s.w.store.lookup (storagePrefix ++ tokenID token) = some (.wrapped r) ∧
          x = r.payload ∧ now ≤ r.expiresAt ∧ storagePrefix ++ tokenID token ∈ R := by
  obtain ⟨e, he⟩ | ⟨r, hr, he⟩ :=
    exec_record L (p := unwrap token now) (s := s) (fun _ => rfl) fun _ _ => rfl
  · rw [he]
    exact ⟨∅, n, .idle h rfl, fun _ h => by cases h⟩
  · have hk := mem_records (List.prefix_append ..) hr
    rw [he]
    simp only [exec, run_bind, run_delete]
    by_cases hexp : r.expiresAt < now
    · obtain ⟨st, w', hrun, hset⟩ := h.remove hk (t := .expired) (by decide) L now
      simp only [if_pos hexp, run_bind, hrun, run_ret]
      exact ⟨_, _, hset, fun _ h => by cases h⟩
    · obtain ⟨st, w', hrun, hset⟩ := h.remove hk (t := .unwrapped) (by decide) L now
      simp only [if_neg hexp, run_bind, hrun, run_ret]
      refine ⟨_, _, hset, fun x hx => ?_⟩
      cases hx
      exact ⟨r, hr, rfl, Int.not_lt.1 hexp, rfl⟩

theorem exec_lookup (token : Bytes) (now : Int) :
    ∃ R n', Settles s n R (exec L (lookup token now) s).2 n' := by
  obtain ⟨e, he⟩ | ⟨r, hr, he⟩ :=
    exec_record L (p := Wrapping.lookup token now) (s := s) (fun _ => rfl) fun _ _ => rfl
  · rw [he]
    exact ⟨∅, n, .idle h rfl⟩
  · have hk := mem_records (List.prefix_append ..) hr
    rw [he]
    unfold exec
    by_cases hexp : r.expiresAt < now
    · obtain ⟨st, w', hrun, hset⟩ := h.remove hk (t := .expired) (by decide) L now
      simp only [if_pos hexp, run_bind, run_delete, hrun, run_ret]
      exact ⟨_, _, hset⟩
    · simp only [if_neg hexp]
      exact ⟨∅, n, .idle h rfl⟩

/-- Whatever a revocation reports, the record is gone. -/
theorem exec_revokeKey {key : Bytes} (hpre : storagePrefix <+: key) (now : Int) :
    ∃ n', Settles s n {key} (exec L (revokeKey key now) s).2 n' := by
  unfold exec revokeKey
  rw [run_bind, run_get]
  cases he : s.w.store.lookup key with
  | none =>
    refine ⟨n, h, rfl, ?_, fun _ _ _ => rfl⟩
    rintro k rfl -
    exact he
  | some e =>
    have hk := mem_records hpre he
    simp only [run_bind, run_delete]
    have hbump : ∀ t, t ≠ .wrapped → ∀ res : Except Err Unit,
        ∃ n', Settles s n {key}
          ⟨(run (handle L) ((bump t now s.mem).bind fun mem => .ret (res, mem))
            { s.w with store := s.w.store.erase key }).2,
          (run (handle L) ((bump t now s.mem).bind fun mem => .ret (res, mem))
            { s.w with store := s.w.store.erase key }).1.2⟩ n' := by
      intro t ht res
      obtain ⟨st, w', hrun, hset⟩ := h.remove hk ht L now
      rw [run_bind, hrun]
      exact ⟨_, hset⟩
    cases hr : unmarshal e with
    | none => exact hbump .revoked (by decide) _
    | some r =>
      dsimp only
      split_ifs
      · exact hbump .expired (by decide) _
      · exact hbump .revoked (by decide) _

theorem exec_revoke (token : Bytes) (now : Int) :
    ∃ R n', Settles s n R (exec L (revoke token now) s).2 n' ∧
      (tokenID token ≠ [] → storagePrefix ++ tokenID token ∈ R) := by
  unfold revoke
  by_cases hid : tokenID token = []
  · simp only [if_pos hid]
    exact ⟨∅, n, .idle h rfl, fun hne => absurd hid hne⟩
  · simp only [if_neg hid]
    obtain ⟨n', hset⟩ := exec_revokeKey L h (List.prefix_append storagePrefix (tokenID token)) now
    exact ⟨_, n', hset, fun _ => rfl⟩

theorem exec_scan (now : Int) :
    ∃ R n' live, Settles s n R (exec L (scan now) s).2 n' ∧
      (exec L (scan now) s).1 = .ok live ∧
      ∀ e ∈ live, storagePrefix <+: e.1 ∧ s.w.store.lookup e.1 = some (.wrapped e.2) := by
  have hks : KV.HavePrefix storagePrefix (L.order (under s.w.store storagePrefix)) :=
    fun k hk => (mem_under.1 (L.mem_order.1 hk)).2
  obtain ⟨R, n', hset, hlive⟩ := exec_scanKeys L now _ hks h
  unfold exec scan
  rw [run_bind, run_list]
  simp only [run_bind, run_ret]
  exact ⟨R, n', _, hset, rfl, hlive⟩

theorem exec_revokeExpired (now : Int) :
    ∃ R n', Settles s n R (exec L (revokeExpired now) s).2 n' := by
  obtain ⟨R, n', live, hset, -, -⟩ := exec_scan L h now
  unfold revokeExpired
  rw [exec_map L (scan now) fun r => r.map fun _ => ()]
  exact ⟨R, n', hset⟩

theorem exec_list (sha256 : Bytes → Bytes) (keep : Option (Capsule → Bool)) (now : Int) :
    ∃ R n', Settles s n R (exec L (list sha256 keep now) s).2 n' := by
  obtain ⟨R, n', live, hset, -, -⟩ := exec_scan L h now
  unfold list
  rw [exec_map L (scan now) fun r => r.map _]
  exact ⟨R, n', hset⟩

/-- A revocation by accessor that succeeds has removed a record with that accessor. -/
theorem exec_revokeByAccessor (sha256 : Bytes → Bytes) (accessor : Bytes)
    (allow : Option (Capsule → Bool)) (now later : Int) :
    ∃ R n', Settles s n R (exec L (revokeByAccessor sha256 accessor allow now later) s).2 n' ∧
      ((exec L (revokeByAccessor sha256 accessor allow now later) s).1 = .ok () →
        ∃ k ∈ R, k ∈ s.records ∧ accessorOf sha256 (trimPrefix k storagePrefix) = accessor) := by
  unfold revokeByAccessor
  by_cases hacc : (!hasPrefix accessor accessorPrefix) = true
  · simp only [if_pos hacc]
    exact ⟨∅, n, .idle h rfl, nofun⟩
  · simp only [if_neg hacc]
    obtain ⟨R, n', live, hset, hok, hlive⟩ := exec_scan L h now
    have hrun : run (handle L) (scan now s.mem) s.w =
        ((.ok live, (exec L (scan now) s).2.mem), (exec L (scan now) s).2.w) := by
      rw [← hok]
      rfl
    unfold exec
    rw [run_bind, hrun]
    dsimp only
    split
    · exact ⟨R, n', hset, nofun⟩
    · next key r hfind =>
      obtain ⟨hpre, hlook⟩ := hlive _ (List.mem_of_find?_eq_some hfind)
      split_ifs
      · obtain ⟨n'', hset'⟩ := exec_revokeKey L hset.ledger hpre later
        exact ⟨_, n'', hset.trans hset', fun _ =>
          ⟨key, Or.inr rfl, mem_records hpre hlook, by simpa using List.find?_some hfind⟩⟩
      · exact ⟨R, n', hset, nofun⟩

/-- The counters are read, and no record is touched. -/
theorem exec_stats (now : Int) :
    ∃ st, (exec L (stats now) s).1 = .ok st ∧ Counted st n ∧
      Settles s n ∅ (exec L (stats now) s).2 n := by
  obtain ⟨st, hrun, hst⟩ := h.counters.load (L := L) now
  unfold exec stats
  rw [run_bind, hrun]
  refine ⟨st, rfl, hst, .idle ⟨{ h.counters with synced := fun st' hst' => ?_ }, h.balance⟩ rfl⟩
  cases hst'
  exact hst

/-- The counters in memory are lost with the process. -/
theorem Ledger.restart : Ledger ⟨s.w, none⟩ n where
  counters := ⟨h.counters.stored, h.counters.fresh, nofun⟩
  balance := h.balance

omit h

/-- The ID that the random source gives next. -/
def nextID (s : State) : Bytes := rawURLEncode (s.w.rng.take 32)

variable {payload : Option Bytes}

theorem exec_wrap_none (hp : marshalPayload payload = none) (ttl : Int)
    (m : Creator) (now : Int) :
    exec L (wrapWithMeta payload ttl m now) s =
      (.error .encode, ⟨{ s.w with rng := s.w.rng.drop 32 }, s.mem⟩) := by
  unfold exec wrapWithMeta
  rw [run_bind, run_rand]
  simp only [hp, run_ret]

theorem exec_wrap_reply {text : Bytes}
    (hp : marshalPayload payload = some text) (ttl : Int) (m : Creator) (now : Int) :
    (exec L (wrapWithMeta payload ttl m now) s).1 =
      .ok (tokenPrefix ++ nextID s, now + effectiveTTL ttl) := by
  unfold exec wrapWithMeta
  rw [run_bind, run_rand]
  simp only [hp, run_bind, run_put, run_ret]
  rfl

/-- A wrap stores its record under a new ID and counts it. -/
theorem exec_wrap_some (h : Ledger s n) {text : Bytes}
    (hp : marshalPayload payload = some text) (ttl : Int) (m : Creator) (now : Int)
    (hfresh : s.w.store.lookup (storagePrefix ++ nextID s) = none) :
    ∃ s', exec L (wrapWithMeta payload ttl m now) s =
        (.ok (tokenPrefix ++ nextID s, now + effectiveTTL ttl), s') ∧
      Ledger s' (plusOne .wrapped n) ∧
      ∀ k, storagePrefix <+: k → s'.w.store.lookup k =
        if k = storagePrefix ++ nextID s then some (.wrapped (wrapRecord text ttl m now))
        else s.w.store.lookup k := by
  have hpre : storagePrefix <+: storagePrefix ++ nextID s := List.prefix_append ..
  obtain ⟨st, w', hrun, hst, hsame⟩ := h.bump (w := ⟨s.w.store.insert (storagePrefix ++ nextID s)
    (.wrapped (wrapRecord text ttl m now)), s.w.rng.drop 32⟩) hpre
    (fun k' hne => Finmap.lookup_insert_of_ne _ hne) L .wrapped now
  have hlook : ∀ k, storagePrefix <+: k → w'.store.lookup k =
      if k = storagePrefix ++ nextID s then some (.wrapped (wrapRecord text ttl m now))
      else s.w.store.lookup k :=
    fun k hk => (hsame k hk).trans (lookup_insert ..)
  have hrec : under w'.store storagePrefix = insert (storagePrefix ++ nextID s) s.records := by
    ext k
    rw [Finset.mem_insert, State.records, mem_under, mem_under]
    by_cases hk : storagePrefix <+: k
    · rw [hlook k hk]
      split_ifs with heq <;> simp [heq, hk]
    · have hne : k ≠ storagePrefix ++ nextID s := by
        rintro rfl
        exact hk hpre
      simp [hk, hne]
  have hnew : storagePrefix ++ nextID s ∉ s.records := by
    intro hmem
    have hsome := (mem_under.1 hmem).1
    rw [hfresh] at hsome
    cases hsome
  refine ⟨⟨w', some st⟩, ?_, ⟨hst, ?_⟩, hlook⟩
  · refine Prod.ext (exec_wrap_reply L hp ttl m now) ?_
    unfold exec wrapWithMeta
    rw [run_bind, run_rand]
    simp only [hp, run_bind, run_put]
    rw [nextID] at hrun
    rw [hrun]
    rfl
  · show plusOne .wrapped n .wrapped = _ + (under _ storagePrefix).card
    have hb := h.balance
    rw [hrec, Finset.card_insert_of_notMem hnew]
    simp [plusOne, Function.update]
    omega

end

end Tuck.Wrapping
