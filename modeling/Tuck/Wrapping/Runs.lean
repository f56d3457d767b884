/-
  Runs of one wrapping store, with restarts. In every state the counters account for every
  wrap, and those in memory are those that are stored; and a payload is handed out at most
  once, before it expires and before its token is revoked, as the JSON value it was
  (`wrapping_accounts`).

  The invariant (`Sourced`) ties each stored record to the call that wrapped it: no call after
  that one has spent its token. It needs that IDs are drawn once, and that a revocation by
  accessor hits the record it means.
-/
import Tuck.Wrapping.Ledger

namespace Tuck.Wrapping

open Tuck.Base List

/-! ## Runs -/

/-- A call to the store, with its readings of the clock, or a restart of the process. -/
inductive Call where
  | wrap (payload : Option Bytes) (ttl : Int) (m : Creator) (now : Int)
  | unwrap (token : Bytes) (now : Int)
  | lookup (token : Bytes) (now : Int)
  | revoke (token : Bytes) (now : Int)
  | revokeByAccessor (accessor : Bytes) (allow : Option (Capsule → Bool)) (now later : Int)
  | list (keep : Option (Capsule → Bool)) (now : Int)
  | revokeExpired (now : Int)
  | stats (now : Int)
  | restart

inductive Reply where
  | token (token : Bytes) (expiresAt : Int)
  | payload (text : Bytes)
  | info (i : TokenInfo)
  | capsules (cs : List Capsule)
  | stats (st : Stats)
  | done
  | failed (e : Err)

def Reply.of {α : Type} (f : α → Reply) : Except Err α → Reply
  | .ok a => f a
  | .error e => .failed e

section

variable (L : KV.Listing) (sha256 : Bytes → Bytes)

/-- An operation, its result made a reply. -/
def answer {α : Type} (f : α → Reply) (a : Act α) (s : State) : Reply × State :=
  (Reply.of f (exec L a s).1, (exec L a s).2)

def step : Call → State → Reply × State
  | .wrap payload ttl m now => answer L (fun r => .token r.1 r.2) (wrapWithMeta payload ttl m now)
  | .unwrap token now => answer L .payload (unwrap token now)
  | .lookup token now => answer L .info (Wrapping.lookup token now)
  | .revoke token now => answer L (fun _ => .done) (revoke token now)
  | .revokeByAccessor accessor allow now later =>
      answer L (fun _ => .done) (revokeByAccessor sha256 accessor allow now later)
  | .list keep now => answer L .capsules (Wrapping.list sha256 keep now)
  | .revokeExpired now => answer L (fun _ => .done) (revokeExpired now)
  | .stats now => answer L .stats (Wrapping.stats now)
  | .restart => fun s => (.done, ⟨s.w, none⟩)

/-- What was called and answered, and the state in the end. -/
def run : State → List Call → List (Call × Reply) × State
  | s, [] => ([], s)
  | s, c :: cs =>
      let r := step L sha256 c s
      ((c, r.1) :: (run r.2 cs).1, (run r.2 cs).2)

/-- An event of a run is the step of a call in the state that the calls before it leave. -/
theorem run_split {s : State} {cs : List Call} {t₁ t₂ : List (Call × Reply)} {e : Call × Reply}
    (h : (run L sha256 s cs).1 = t₁ ++ e :: t₂) :
    ∃ cs₁, t₁ = (run L sha256 s cs₁).1 ∧
      e.2 = (step L sha256 e.1 (run L sha256 s cs₁).2).1 := by
  induction t₁ generalizing s cs with
  | nil =>
    cases cs with
    | nil => cases h
    | cons c cs =>
      obtain ⟨rfl, -⟩ := List.cons.inj h
      exact ⟨[], rfl, rfl⟩
  | cons e' t₁ ih =>
    cases cs with
    | nil => cases h
    | cons c cs =>
      obtain ⟨rfl, htail⟩ := List.cons.inj h
      obtain ⟨cs₁, rfl, he⟩ := ih htail
      exact ⟨c :: cs₁, rfl, he⟩

end

/-! ## Tokens and what spends them -/

/-- The token that a call has handed out. -/
def tokenOf : Call × Reply → Option Bytes
  | (_, .token token _) => some token
  | _ => none

/-- The tokens of a run are drawn once, and their accessors differ. -/
structure Fresh (sha256 : Bytes → Bytes) (t : List (Call × Reply)) : Prop where
  tokens : (t.filterMap tokenOf).Nodup
  accessors : ∀ x ∈ t.filterMap tokenOf, ∀ y ∈ t.filterMap tokenOf,
    accessorOf sha256 (tokenID x) = accessorOf sha256 (tokenID y) → x = y

/-- The call has unwrapped the token, or revoked it. -/
def Spends (sha256 : Bytes → Bytes) (token : Bytes) : Call × Reply → Prop
  | (.unwrap tok _, .payload _) => tok = token
  | (.revoke tok _, _) => tok = token
  | (.revokeByAccessor accessor _ _ _, .done) => accessor = accessorOf sha256 (tokenID token)
  | _ => False

theorem tokenID_append (id : Bytes) : tokenID (tokenPrefix ++ id) = id := by
  rw [tokenID, if_pos (hasPrefix_iff.2 (prefix_append ..)), trimPrefix_append]

theorem eq_append_tokenID {token : Bytes} (h : tokenID token ≠ []) :
    token = tokenPrefix ++ tokenID token := by
  unfold tokenID at h ⊢
  split_ifs at h ⊢ with hpre
  · obtain ⟨id, rfl⟩ := hasPrefix_iff.1 hpre
    rw [trimPrefix_append]
  · exact absurd rfl h

theorem Fresh.of_append {sha256 : Bytes → Bytes} {t u : List (Call × Reply)}
    (h : Fresh sha256 (t ++ u)) : Fresh sha256 t where
  tokens := by
    have hn := h.tokens
    rw [filterMap_append] at hn
    exact hn.of_append_left
  accessors x hx y hy := by
    have hsub : ∀ z, z ∈ t.filterMap tokenOf → z ∈ (t ++ u).filterMap tokenOf := by
      intro z hz
      rw [filterMap_append]
      exact mem_append_left _ hz
    exact h.accessors x (hsub x hx) y (hsub y hy)

/-- A token is not handed out again. -/
theorem Fresh.notMem {sha256 : Bytes → Bytes} {t₁ t₂ : List (Call × Reply)} {e e' : Call × Reply}
    {token : Bytes} (h : Fresh sha256 (t₁ ++ e :: t₂)) (he : tokenOf e = some token)
    (he' : tokenOf e' = some token) : e' ∉ t₂ := by
  intro hmem
  have hn := h.tokens
  rw [filterMap_append, filterMap_cons_some he] at hn
  exact (nodup_cons.1 hn.of_append_right).1 (mem_filterMap.2 ⟨e', hmem, he'⟩)

/-- In a run with fresh tokens a token is handed out at one place. -/
theorem Fresh.unique {sha256 : Bytes → Bytes} {t₁ t₂ u₁ u₂ : List (Call × Reply)}
    {e e' : Call × Reply} {token : Bytes} (h : Fresh sha256 (t₁ ++ e :: t₂))
    (heq : t₁ ++ e :: t₂ = u₁ ++ e' :: u₂) (he : tokenOf e = some token)
    (he' : tokenOf e' = some token) : t₂ = u₂ := by
  have hlate := h.notMem he he'
  have hearly := (heq ▸ h).notMem he' he
  obtain ⟨a, -, ha⟩ | ⟨a, -, ha⟩ := append_eq_append_iff.1 heq
  · cases a with
    | nil => exact (List.cons.inj ha).2
    | cons x a => exact absurd ((List.cons.inj ha).2 ▸ mem_append_right _ mem_cons_self) hlate
  · cases a with
    | nil => exact (List.cons.inj ha).2.symm
    | cons x a => exact absurd ((List.cons.inj ha).2 ▸ mem_append_right _ mem_cons_self) hearly

/-! ## Where the records come from -/

section

variable (sha256 : Bytes → Bytes)

/-- The record is that of a call of the run, and no later call has spent its token. -/
def Source (t : List (Call × Reply)) (token : Bytes) (r : WrapRecord) : Prop :=
  ∃ t₁ t₂ payload ttl m now text,
    t = t₁ ++ (.wrap payload ttl m now, .token token (now + effectiveTTL ttl)) :: t₂ ∧
      marshalPayload payload = some text ∧ r = wrapRecord text ttl m now ∧
      ∀ e ∈ t₂, ¬ Spends sha256 token e

/-- Every stored record has its source. -/
def Sourced (t : List (Call × Reply)) (s : State) : Prop :=
  ∀ id e, s.w.store.lookup (storagePrefix ++ id) = some e →
    id ≠ [] ∧ ∃ r, e = .wrapped r ∧ Source sha256 t (tokenPrefix ++ id) r

variable {sha256} {t : List (Call × Reply)} {s s' : State}

theorem Source.mem_tokens {token : Bytes} {r : WrapRecord} (h : Source sha256 t token r) :
    token ∈ t.filterMap tokenOf := by
  obtain ⟨t₁, t₂, payload, ttl, m, now, text, rfl, -⟩ := h
  exact mem_filterMap.2 ⟨_, mem_append_right _ mem_cons_self, rfl⟩

theorem Source.append {token : Bytes} {r : WrapRecord} (h : Source sha256 t token r)
    {e : Call × Reply} (he : ¬ Spends sha256 token e) : Source sha256 (t ++ [e]) token r := by
  obtain ⟨t₁, t₂, payload, ttl, m, now, text, rfl, htext, hr, ht⟩ := h
  refine ⟨t₁, t₂ ++ [e], payload, ttl, m, now, text, by simp, htext, hr, fun e' he' => ?_⟩
  rcases mem_append.1 he' with he' | he'
  · exact ht e' he'
  · rw [mem_singleton.1 he']
    exact he

/-- The state of a run: the ledger holds and every record has its source. -/
structure Inv (sha256 : Bytes → Bytes) (t : List (Call × Reply)) (s : State) : Prop where
  ledger : ∃ n, Ledger s n ∧ n .wrapped ≤ t.length
  sourced : Sourced sha256 t s

/-- A call that removes records, if it spends only tokens whose records it removes. -/
theorem Inv.settle {n n' : Tally → Nat} {R : Set Bytes} {e : Call × Reply}
    (hn : n .wrapped ≤ t.length) (h : Sourced sha256 t s) (hset : Settles s n R s' n')
    (hspend : ∀ id, id ≠ [] → tokenPrefix ++ id ∈ t.filterMap tokenOf →
      Spends sha256 (tokenPrefix ++ id) e → storagePrefix ++ id ∈ R) :
    Inv sha256 (t ++ [e]) s' where
  ledger := by
    refine ⟨n', hset.ledger, ?_⟩
    rw [hset.wrapped, length_append]
    omega
  sourced := by
    intro id x hx
    have hpre : storagePrefix <+: storagePrefix ++ id := prefix_append ..
    by_cases hR : storagePrefix ++ id ∈ R
    · rw [hset.removed _ hR hpre] at hx
      cases hx
    · rw [hset.kept _ hR hpre] at hx
      obtain ⟨hid, r, hr, hsrc⟩ := h id x hx
      exact ⟨hid, r, hr, hsrc.append fun hsp => hR (hspend id hid hsrc.mem_tokens hsp)⟩

theorem nextID_ne_nil (s : State) : nextID s ≠ [] :=
  rawURLEncode_ne_nil (cons_ne_nil _ _)

variable (L : KV.Listing)

theorem Inv.wrap (h : Inv sha256 t s) (payload : Option Bytes) (ttl : Int) (m : Creator) (now : Int)
    (hfresh : Fresh sha256
      (t ++ [(.wrap payload ttl m now, (step L sha256 (.wrap payload ttl m now) s).1)])) :
    Inv sha256 (t ++ [(.wrap payload ttl m now, (step L sha256 (.wrap payload ttl m now) s).1)])
      (step L sha256 (.wrap payload ttl m now) s).2 := by
  obtain ⟨n, hledger, hn⟩ := h.ledger
  have hstep : step L sha256 (.wrap payload ttl m now) s =
      (Reply.of (fun r => .token r.1 r.2) (exec L (wrapWithMeta payload ttl m now) s).1,
        (exec L (wrapWithMeta payload ttl m now) s).2) := rfl
  cases hp : marshalPayload payload with
  | none =>
    rw [exec_wrap_none L hp] at hstep
    rw [hstep]
    exact Inv.settle hn h.sourced (.idle { hledger with } rfl) fun _ _ _ hsp => hsp.elim
  | some text =>
    have hreply : (step L sha256 (.wrap payload ttl m now) s).1 =
        .token (tokenPrefix ++ nextID s) (now + effectiveTTL ttl) := by
      rw [hstep, exec_wrap_reply L hp]
      rfl
    rw [hreply] at hfresh ⊢
    have hnew : s.w.store.lookup (storagePrefix ++ nextID s) = none := by
      by_contra hne
      obtain ⟨x, hx⟩ := Option.ne_none_iff_exists'.1 hne
      obtain ⟨-, r, -, hsrc⟩ := h.sourced _ x hx
      have hn := hfresh.tokens
      rw [filterMap_append, nodup_append] at hn
      exact hn.2.2 _ hsrc.mem_tokens _ mem_cons_self rfl
    obtain ⟨s', hrun, hledger', hlook⟩ := exec_wrap_some L hledger hp ttl m now hnew
    rw [hrun] at hstep
    rw [hstep]
    refine ⟨⟨_, hledger', ?_⟩, fun id x hx => ?_⟩
    · rw [plusOne_self, length_append]
      exact Nat.succ_le_succ hn
    · rw [hlook _ (prefix_append ..)] at hx
      split_ifs at hx with hid
      · cases hx
        rw [append_cancel_left hid]
        exact ⟨nextID_ne_nil s, _, rfl, t, [], payload, ttl, m, now, text, rfl, hp, rfl, nofun⟩
      · obtain ⟨hne, r, hr, hsrc⟩ := h.sourced id x hx
        exact ⟨hne, r, hr, hsrc.append fun hsp => hsp.elim⟩

/-- One call keeps the invariant. -/
theorem Inv.step (h : Inv sha256 t s) (c : Call)
    (hfresh : Fresh sha256 (t ++ [(c, (step L sha256 c s).1)])) :
    Inv sha256 (t ++ [(c, (step L sha256 c s).1)]) (step L sha256 c s).2 := by
  obtain ⟨n, hledger, hn⟩ := h.ledger
  cases c with
  | wrap payload ttl m now => exact h.wrap L payload ttl m now hfresh
  | unwrap token now =>
    obtain ⟨R, n', hset, hok⟩ := exec_unwrap L hledger token now
    refine Inv.settle hn h.sourced hset fun id hid _ hsp => ?_
    cases hr : (exec L (unwrap token now) s).1 with
    | error e => simp only [Wrapping.step, answer, hr, Reply.of, Spends] at hsp
    | ok x =>
      simp only [Wrapping.step, answer, hr, Reply.of, Spends] at hsp
      obtain ⟨-, -, -, -, hmem⟩ := hok x hr
      rwa [hsp, tokenID_append] at hmem
  | lookup token now =>
    obtain ⟨R, n', hset⟩ := exec_lookup L hledger token now
    exact Inv.settle hn h.sourced hset fun _ _ _ hsp => hsp.elim
  | revoke token now =>
    obtain ⟨R, n', hset, hmem⟩ := exec_revoke L hledger token now
    refine Inv.settle hn h.sourced hset fun id hid _ hsp => ?_
    have htok : token = tokenPrefix ++ id := hsp
    rw [htok, tokenID_append] at hmem
    exact hmem hid
  | revokeByAccessor accessor allow now later =>
    obtain ⟨R, n', hset, hok⟩ := exec_revokeByAccessor L hledger sha256 accessor allow now later
    refine Inv.settle hn h.sourced hset fun id hid htok hsp => ?_
    cases hr : (exec L (revokeByAccessor sha256 accessor allow now later) s).1 with
    | error e => simp only [Wrapping.step, answer, hr, Reply.of, Spends] at hsp
    | ok x =>
      simp only [Wrapping.step, answer, hr, Reply.of, Spends] at hsp
      obtain ⟨k, hkR, hk, hacc⟩ := hok hr
      obtain ⟨hsome, id', rfl⟩ := KV.mem_under.1 hk
      obtain ⟨x', hx'⟩ := Option.isSome_iff_exists.1 hsome
      obtain ⟨-, r', -, hsrc⟩ := h.sourced id' x' hx'
      rw [trimPrefix_append] at hacc
      -- both records have the accessor, so that they are one
      have heq := hfresh.of_append.accessors _ hsrc.mem_tokens _ htok
        (by rw [tokenID_append, hacc, hsp])
      rwa [append_cancel_left heq] at hkR
  | list keep now =>
    obtain ⟨R, n', hset⟩ := exec_list L hledger sha256 keep now
    exact Inv.settle hn h.sourced hset fun _ _ _ hsp => hsp.elim
  | revokeExpired now =>
    obtain ⟨R, n', hset⟩ := exec_revokeExpired L hledger now
    exact Inv.settle hn h.sourced hset fun _ _ _ hsp => hsp.elim
  | stats now =>
    obtain ⟨st, -, -, hset⟩ := exec_stats L hledger now
    exact Inv.settle hn h.sourced hset fun _ _ _ hsp => hsp.elim
  | restart =>
    exact Inv.settle hn h.sourced (.idle hledger.restart rfl) fun _ _ _ hsp => hsp.elim

/-- And so does a run. -/
theorem Inv.run (h : Inv sha256 t s) (cs : List Call)
    (hfresh : Fresh sha256 (t ++ (run L sha256 s cs).1)) :
    Inv sha256 (t ++ (run L sha256 s cs).1) (run L sha256 s cs).2 := by
  induction cs generalizing t s with
  | nil =>
    show Inv sha256 (t ++ []) s
    rw [append_nil]
    exact h
  | cons c cs ih =>
    have happ : t ++ (Wrapping.run L sha256 s (c :: cs)).1 =
        t ++ [(c, (Wrapping.step L sha256 c s).1)] ++
          (Wrapping.run L sha256 (Wrapping.step L sha256 c s).2 cs).1 := by
      rw [append_assoc]
      rfl
    rw [happ] at hfresh ⊢
    exact ih (h.step L c hfresh.of_append) hfresh

end

/-! ## The accounts -/

/-- The counters that are stored. -/
def State.storedStats (s : State) : Stats :=
  ((s.w.store.lookup statsKey).bind Record.wrapStats?).getD ⟨0, 0, 0, 0, none⟩

/-- The counters of a store: those in memory, once they are there. -/
def State.counters (s : State) : Stats := s.mem.getD s.storedStats

/-- An empty store, before its first call. -/
def start (rng : Stream' UInt8) : State := ⟨⟨∅, rng⟩, none⟩

theorem inv_start (sha256 : Bytes → Bytes) (rng : Stream' UInt8) : Inv sha256 [] (start rng) where
  ledger := by
    refine ⟨fun _ => 0, ⟨⟨fun r hr => ?_, fun _ _ => rfl, nofun⟩, rfl⟩, Nat.le_refl 0⟩
    cases hr
  sourced := by
    intro id e he
    cases he

section

variable {s : State} {n : Tally → Nat}

theorem Ledger.storedStats (h : Ledger s n) : Counted s.storedStats n := by
  unfold State.storedStats
  cases hr : s.w.store.lookup statsKey with
  | none =>
    intro t
    rw [h.counters.fresh hr t]
    cases t <;> rfl
  | some r =>
    obtain ⟨st, rfl, hst⟩ := h.counters.stored r hr
    exact hst

theorem Ledger.counted (h : Ledger s n) : Counted s.counters n := by
  unfold State.counters
  cases hm : s.mem with
  | none => exact h.storedStats
  | some st => exact h.counters.synced st hm

theorem Ledger.counters_eq (h : Ledger s n) : s.counters.wrapped =
    s.counters.unwrapped + s.counters.expired + s.counters.revoked +
      UInt64.ofNat s.records.card := by
  have hc := h.counted
  have hw := hc .wrapped
  have hu := hc .unwrapped
  have he := hc .expired
  have hr := hc .revoked
  simp only [Stats.get] at hw hu he hr
  rw [hw, hu, he, hr, h.balance, UInt64.ofNat_add, UInt64.ofNat_add, UInt64.ofNat_add]

theorem Ledger.toNat_eq (h : Ledger s n) (hlt : n .wrapped < 2 ^ 64) : s.counters.wrapped.toNat =
    s.counters.unwrapped.toNat + s.counters.expired.toNat + s.counters.revoked.toNat +
      s.records.card := by
  have hb := h.balance
  have hget : ∀ t, n t < 2 ^ 64 → (s.counters.get t).toNat = n t := by
    intro t ht
    rw [h.counted t]
    exact Nat.mod_eq_of_lt ht
  have hw := hget .wrapped hlt
  have hu := hget .unwrapped (by omega)
  have he := hget .expired (by omega)
  have hr := hget .revoked (by omega)
  simp only [Stats.get] at hw hu he hr
  omega

end

/-- The payload that an unwrap hands out is the value that was wrapped under the token; it has
    not expired, the token was not spent since, and no later call hands it out again. -/
def FirstUse (sha256 : Bytes → Bytes) (t₁ : List (Call × Reply)) (token : Bytes) (now : Int)
    (x : Bytes) (t₂ : List (Call × Reply)) : Prop :=
  ∃ t₃ t₄ payload ttl m now₀ j,
    t₁ = t₃ ++ (.wrap payload ttl m now₀, .token token (now₀ + effectiveTTL ttl)) :: t₄ ∧
    Json.parse (payload.getD (ascii "null")) = some j ∧ Json.parse x = some j ∧
    now ≤ now₀ + effectiveTTL ttl ∧ (∀ e ∈ t₄, ¬ Spends sha256 token e) ∧
    ∀ now' x', (Call.unwrap token now', Reply.payload x') ∉ t₂

/-- The accounts of a run that has the history `t` and leads to `s`. -/
structure Accounts (L : KV.Listing) (sha256 : Bytes → Bytes) (t : List (Call × Reply)) (s : State) :
    Prop where
  /-- In the arithmetic of the counters. -/
  balance : s.counters.wrapped = s.counters.unwrapped + s.counters.expired + s.counters.revoked +
    UInt64.ofNat s.records.card
  /-- As numbers, as long as no counter can have gone round. -/
  exact : t.length < 2 ^ 64 → s.counters.wrapped.toNat = s.counters.unwrapped.toNat +
    s.counters.expired.toNat + s.counters.revoked.toNat + s.records.card
  /-- What is in memory is what is stored. -/
  synced : ∀ st, s.mem = some st → ∀ u, st.get u = s.storedStats.get u
  /-- A restarted store has the same counters. -/
  reloaded : ∀ now, ∃ st, (step L sha256 (.stats now) (step L sha256 .restart s).2).1 = .stats st ∧
    ∀ u, st.get u = s.counters.get u
  once : ∀ t₁ token now x t₂, t = t₁ ++ (.unwrap token now, .payload x) :: t₂ →
    FirstUse sha256 t₁ token now x t₂

section

variable {L : KV.Listing} {sha256 : Bytes → Bytes} {rng : Stream' UInt8}

theorem parse_marshalPayload {payload : Option Bytes} {text : Bytes}
    (h : marshalPayload payload = some text) :
    ∃ j, Json.parse (payload.getD (ascii "null")) = some j ∧ Json.parse text = some j := by
  cases payload with
  | none =>
    cases h
    exact ⟨.null, rfl, rfl⟩
  | some p =>
    have hp : compact p = some text := h
    have heq := parse_compact hp
    cases hj : Json.parse p with
    | none => simp only [compact, hj] at hp; cases hp
    | some j => exact ⟨j, hj, heq.trans hj⟩

variable {cs : List Call} {t₁ t₂ : List (Call × Reply)} {token x : Bytes} {now : Int}
  (ht : (run L sha256 (start rng) cs).1 = t₁ ++ (.unwrap token now, .payload x) :: t₂)
  (hfresh : Fresh sha256 (run L sha256 (start rng) cs).1)

include ht hfresh

/-- What an unwrap of a run hands out has its source before it. -/
theorem source_of_unwrap :
    ∃ r, Source sha256 t₁ token r ∧ x = r.payload ∧ now ≤ r.expiresAt := by
  obtain ⟨cs₁, rfl, hreply⟩ := run_split L sha256 ht
  rw [ht] at hfresh
  have hinv := (inv_start sha256 rng).run L cs₁ hfresh.of_append
  obtain ⟨n, hledger, -⟩ := hinv.ledger
  obtain ⟨R, n', hset, hok⟩ := exec_unwrap L hledger token now
  cases hr : (exec L (unwrap token now) (run L sha256 (start rng) cs₁).2).1 with
  | error e => simp only [step, answer, hr, Reply.of] at hreply; cases hreply
  | ok x' =>
    simp only [step, answer, hr, Reply.of] at hreply
    cases hreply
    obtain ⟨r, hlook, hx, hnow, -⟩ := hok x hr
    obtain ⟨hid, r', heq, hsrc⟩ := hinv.sourced _ _ hlook
    cases heq
    rw [← eq_append_tokenID hid] at hsrc
    exact ⟨r, hsrc, hx, hnow⟩

theorem firstUse_of_unwrap : FirstUse sha256 t₁ token now x t₂ := by
  obtain ⟨r, ⟨t₃, t₄, payload, ttl, m, now₀, text, ht₁, htext, rfl, hspent⟩, rfl, hnow⟩ :=
    source_of_unwrap ht hfresh
  obtain ⟨j, hj, hj'⟩ := parse_marshalPayload htext
  refine ⟨t₃, t₄, payload, ttl, m, now₀, j, ht₁, hj, hj', hnow, hspent, fun now' x' hmem => ?_⟩
  -- a second unwrap has its source in the same wrap, and the first one lies in between
  obtain ⟨u₁, u₂, rfl⟩ := append_of_mem hmem
  have ht' : (run L sha256 (start rng) cs).1 =
      (t₁ ++ (.unwrap token now, .payload x) :: u₁) ++ (.unwrap token now', .payload x') :: u₂ := by
    rw [ht]
    simp
  obtain ⟨r', ⟨t₃', t₄', payload', ttl', m', now₀', text', ht₁', -, -, hspent'⟩, -, -⟩ :=
    source_of_unwrap ht' hfresh
  rw [ht'] at hfresh
  rw [ht₁, append_assoc, cons_append] at ht₁'
  have hfresh' : Fresh sha256 (t₃ ++
      (.wrap payload ttl m now₀, .token token (now₀ + effectiveTTL ttl)) ::
        (t₄ ++ (.unwrap token now, .payload x) :: u₁)) := by
    have := hfresh.of_append
    rwa [ht₁, append_assoc, cons_append] at this
  have htail := hfresh'.unique ht₁' rfl rfl
  have hfirst : (.unwrap token now, .payload x) ∈ t₄' := by
    rw [← htail]
    exact mem_append_right _ mem_cons_self
  exact hspent' _ hfirst rfl

end

/-- Response wrapping keeps its accounts, and hands out a payload once. -/
theorem wrapping_accounts (L : KV.Listing) (sha256 : Bytes → Bytes) (rng : Stream' UInt8)
    (cs : List Call) (hfresh : Fresh sha256 (run L sha256 (start rng) cs).1) :
    Accounts L sha256 (run L sha256 (start rng) cs).1 (run L sha256 (start rng) cs).2 := by
  obtain ⟨⟨n, hledger, hn⟩, -⟩ := (inv_start sha256 rng).run L cs hfresh
  rw [nil_append] at hn
  refine ⟨hledger.counters_eq, fun hlt => hledger.toNat_eq (by omega), fun st hst u => ?_,
    fun now => ?_, fun t₁ token now x t₂ ht => firstUse_of_unwrap ht hfresh⟩
  · rw [hledger.counters.synced st hst u, hledger.storedStats u]
  · obtain ⟨st, hok, hst, -⟩ := exec_stats L hledger.restart now
    refine ⟨st, ?_, fun u => ?_⟩
    · show Reply.of .stats (exec L (Wrapping.stats now) ⟨_, none⟩).1 = _
      rw [hok]
      rfl
    · rw [hst u, hledger.counted u]

/-- Two responses are wrapped; one is unwrapped, and again, the other one revoked after a
    restart. -/
def twoResponses : List Call :=
  let id (k : Nat) :=
    rawURLEncode (((Stream'.drop k fun i => UInt8.ofNat i) : Stream' UInt8).take 32)
  [.wrap (some (ascii " [1, 2]")) 0 ⟨[], [], [], [], []⟩ 0,
    .wrap none (-1) ⟨[], [], [], [], []⟩ 0,
    .unwrap (tokenPrefix ++ id 0) 10,
    .unwrap (tokenPrefix ++ id 0) 11,
    .restart,
    .revoke (tokenPrefix ++ id 32) 12]

/-- A stand-in for the hash: the ID behind the fixed text. -/
def idBehindText (x : Bytes) : Bytes := x.drop 23

def twoResponsesRun : List (Call × Reply) × State :=
  run KV.sorted idBehindText (start fun i => UInt8.ofNat i) twoResponses

theorem wrapping_accounts_twoResponses :
    Fresh idBehindText twoResponsesRun.1 ∧
      Accounts KV.sorted idBehindText twoResponsesRun.1 twoResponsesRun.2 := by
  have hfresh : Fresh idBehindText twoResponsesRun.1 := ⟨by decide +kernel, by decide +kernel⟩
  exact ⟨hfresh, wrapping_accounts _ _ _ _ hfresh⟩

end Tuck.Wrapping
