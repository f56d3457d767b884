/-
  The use limit of a token, with requests side by side. `TrackUse` reads the record, adds one
  and writes it back, and drops the error of the write.

  Under two conditions the limit holds in every interleaving (`use_limit`): no write of a use
  count fails, and every write of the token's record finds what its writer last saw. Each gate
  that lets a request in has then taken one from what is left of the limit (`Pool.tally`).
  Two requests that read the same count both pass, and so does every request while writes
  fail, as on a node that is not the leader (`use_limit_overrun`).
-/
import Tuck.Core.TokenRaces
import Tuck.Api.Server

namespace Tuck.Api

open Tuck.Base Tuck.Core Prog KV
open Tuck.Token hiding id

/-! ## Requests as threads -/

/-- What runs beside each other: the gate of a request, a token operation, or another program. -/
inductive Act where
  | request (h : Headers) (now : Int)
  | job (j : Job)
  | other (p : Code Record Unit)

section

variable (sha256 : Bytes → Bytes)

/-- A thread returns the token of a request that the gate lets in. -/
def Act.code : Act → Code Record (Option Bytes)
  | .request h now =>
      (requireToken sha256 h now).bind fun r => .ret (if r.isOk then some h.token else none)
  | .job j => (j.code sha256).bind fun _ => .ret none
  | .other p => p.bind fun _ => .ret none

def Act.memory : Act → Memory
  | .job j => j.memory sha256
  | _ => fun _ => none

abbrev GatePool := Pool (Call Record) Call.Reply Memory LogicalWorld (Option Bytes)

def startActs (w : LogicalWorld) (acts : List Act) : GatePool :=
  ⟨w, acts.map fun a => ⟨a.code sha256, a.memory sha256⟩⟩

variable (t : Bytes)

/-- A write of the record of `t` finds what the writer last saw. -/
def lastSeenOf (w : LogicalWorld) (m : Memory) : Call Record → Prop
  | .put k _ => k = tokenKey sha256 t →
      (w.store.lookup k).bind Record.token? = (m k).bind Record.token?
  | _ => True

instance (w : LogicalWorld) (m : Memory) : ∀ c, Decidable (lastSeenOf sha256 t w m c)
  | .put _ _ => inferInstanceAs (Decidable (_ → _ = _))
  | .get _ | .delete _ | .list _ | .rand _ => isTrue trivial

/-- The write of a use count of `t`: the record last seen with a higher count, within the limit. -/
def CountsUse (m : Memory) : Call Record → Prop
  | .put k v => k = tokenKey sha256 t ∧ ∃ tok ∈ v.token?, ∃ old ∈ (m k).bind Record.token?,
      old.useCount < tok.useCount ∧ tok.useCount ≤ tok.maxUses
  | _ => False

instance (m : Memory) : ∀ c, Decidable (CountsUse sha256 t m c)
  | .put k v => inferInstanceAs (Decidable (k = tokenKey sha256 t ∧
      ∃ tok ∈ v.token?, ∃ old ∈ (m k).bind Record.token?, _ ∧ _))
  | .get _ | .delete _ | .list _ | .rand _ => isFalse id

/-- The pool counts uses: a write of the record is of what was last seen, and no write of a
    use count fails. -/
def Orderly (p : GatePool) (i : Nat × Bool) : Prop :=
  p.Guarded (lastSeenOf sha256 t) i ∧ p.Reliable (CountsUse sha256 t) i

instance (p : GatePool) (i : Nat × Bool) : Decidable (Orderly sha256 t p i) :=
  inferInstanceAs (Decidable (_ ∧ _))

/-- A request with `t` was let in. -/
def passedWith (o : Option Bytes) : Bool := o == some t

end

/-! ## What a call does to the record of the token -/

section

variable (sha256 : Bytes → Bytes) (t acc : Bytes)

/-- A rewrite of a token keeps the limit and does not take back uses. -/
def KeepsCount (old tok : Token) : Prop := tok.maxUses = old.maxUses ∧ old.useCount ≤ tok.useCount

/-- What a thread may call: the record of `t` is only written over one that it has seen. -/
def MayWrite (m : Memory) : Call Record → Prop
  | .put k v => Core.Fits sha256 t acc k v ∧ (k = tokenKey sha256 t →
      ∃ old tok, v = .token tok ∧ m k = some (.token old) ∧ KeepsCount old tok)
  | _ => True

/-- A call that does not write the record of `t`. -/
def Elsewhere : Call Record → Prop
  | .put k v => Core.Fits sha256 t acc k v ∧ k ≠ tokenKey sha256 t
  | _ => True

/-- The invariant: records fit their keys, and `t`, while it is stored, has the limit `n`. -/
def Limited (n : Int) (w : LogicalWorld) : Prop :=
  Fitting sha256 t acc w ∧ ∀ tok, storedToken sha256 w.store t = some tok → tok.maxUses = n

/-- What a read can return then. -/
def limited (n : Int) : (c : Call Record) → c.Reply → Prop
  | .get k, r => fitting sha256 t acc (.get k) r ∧
      (k = tokenKey sha256 t → ∀ tok, r = some (.token tok) → tok.maxUses = n)
  | _, _ => True

/-- What is left of the limit. -/
def remaining (w : LogicalWorld) : Nat :=
  match storedToken sha256 w.store t with
  | some tok => (tok.maxUses - tok.useCount).toNat
  | none => 0

end

section

variable {sha256 : Bytes → Bytes} {t acc : Bytes} {n : Int} {L : Listing} {w : LogicalWorld}
  {m : Memory} {c : Call Record}

theorem MayCall.mayWrite (h : MayCall sha256 t acc KeepsCount m c) : MayWrite sha256 t acc m c := by
  cases c with
  | put k v =>
    obtain ⟨hfits, htok, hkey⟩ := h
    refine ⟨hfits, fun hk => ?_⟩
    obtain ⟨tok, rfl⟩ := hkey t hk
    obtain ⟨old, hold, hkeeps⟩ := htok tok rfl
    exact ⟨old, tok, rfl, hold, hkeeps⟩
  | _ => trivial

theorem Elsewhere.mayWrite (h : Elsewhere sha256 t acc c) : MayWrite sha256 t acc m c := by
  cases c with
  | put k v => exact ⟨h.1, fun hk => absurd hk h.2⟩
  | _ => trivial

theorem fitting_of_limited (r : c.Reply) (h : limited sha256 t acc n c r) :
    fitting sha256 t acc c r := by
  cases c with
  | get k => exact h.1
  | _ => trivial

/-- Everything a call can do to the record of `t`. -/
theorem storedToken_handle (hc : MayWrite sha256 t acc m c) (hseen : lastSeenOf sha256 t w m c) :
    (¬CountsUse sha256 t m c ∧
        (storedToken sha256 (handle L c w).2.store t = storedToken sha256 w.store t ∨
          storedToken sha256 (handle L c w).2.store t = none)) ∨
      ∃ old tok, c = .put (tokenKey sha256 t) (.token tok) ∧
        m (tokenKey sha256 t) = some (.token old) ∧ KeepsCount old tok ∧
        storedToken sha256 w.store t = some old ∧
        storedToken sha256 (handle L c w).2.store t = some tok := by
  unfold storedToken
  cases c with
  | put k v =>
    by_cases hk : k = tokenKey sha256 t
    · subst hk
      obtain ⟨old, tok, rfl, hold, hkeeps⟩ := hc.2 rfl
      refine .inr ⟨old, tok, rfl, hold, hkeeps, ?_, ?_⟩
      · rw [hseen rfl, hold]
        rfl
      · simp only [handle, lookup_insert, if_true]
        rfl
    · refine .inl ⟨fun h => hk h.1, .inl ?_⟩
      simp only [handle, lookup_insert, if_neg (Ne.symm hk)]
  | delete k =>
    refine .inl ⟨id, ?_⟩
    simp only [handle, lookup_erase]
    split_ifs
    · exact .inr rfl
    · exact .inl rfl
  | get _ | list _ | rand _ => exact .inl ⟨id, .inl rfl⟩

theorem limited_handle (c : Call Record) (h : Limited sha256 t acc n w) :
    limited sha256 t acc n c (handle L c w).1 := by
  cases c with
  | get k =>
    refine ⟨fitting_handle L w (.get k) h.1, fun hk tok htok => h.2 tok ?_⟩
    have hread : w.store.lookup k = some (.token tok) := htok
    rw [storedToken, ← hk, hread]
    rfl
  | _ => trivial

theorem Limited.step (h : Limited sha256 t acc n w) (hc : MayWrite sha256 t acc m c)
    (hseen : lastSeenOf sha256 t w m c) : Limited sha256 t acc n (handle L c w).2 := by
  refine ⟨h.1.handle L fun k v hput => ?_, fun tok htok => ?_⟩
  · subst hput
    exact hc.1
  obtain ⟨-, heq | heq⟩ | ⟨old, tok', -, -, hkeeps, hold, htok'⟩ :=
    storedToken_handle (L := L) hc hseen
  · exact h.2 tok (heq ▸ htok)
  · rw [heq] at htok
    cases htok
  · rw [htok'] at htok
    obtain rfl := Option.some.inj htok
    rw [hkeeps.1]
    exact h.2 old hold

/-- No call adds to what is left. -/
theorem remaining_le (hc : MayWrite sha256 t acc m c) (hseen : lastSeenOf sha256 t w m c) :
    remaining sha256 t (handle L c w).2 ≤ remaining sha256 t w := by
  unfold remaining
  obtain ⟨-, heq | heq⟩ | ⟨old, tok, -, -, hkeeps, hold, htok⟩ :=
    storedToken_handle (L := L) hc hseen
  · rw [heq]
  · rw [heq]
    exact Nat.zero_le _
  · rw [hold, htok]
    obtain ⟨hmax, hcount⟩ := hkeeps
    dsimp only
    omega

/-- The write of a use count takes one. -/
theorem remaining_lt (hc : MayWrite sha256 t acc m c) (hseen : lastSeenOf sha256 t w m c)
    (hcounts : CountsUse sha256 t m c) :
    remaining sha256 t (handle L c w).2 + 1 ≤ remaining sha256 t w := by
  unfold remaining
  obtain ⟨hnot, -⟩ | ⟨old, tok, rfl, hm, hkeeps, hold, htok⟩ := storedToken_handle (L := L) hc hseen
  · exact absurd hcounts hnot
  · obtain ⟨-, tok', htok', old', hold', hlt, hle⟩ := hcounts
    rw [hm] at hold'
    obtain rfl := Option.some.inj htok'
    obtain rfl := Option.some.inj hold'
    rw [hold, htok]
    have hmax := hkeeps.1
    dsimp only
    omega

/-! ## Each thread -/

theorem Job.keepsCount (j : Job) : j.Keeps KeepsCount := by
  match j with
  | .use _ => exact fun tok => ⟨rfl, by dsimp only; omega⟩
  | .renew _ _ _ _ | .narrow _ _ _ | .attach _ (some (_, _)) => exact fun _ => ⟨rfl, le_rfl⟩
  | .attach _ none | .revoke _ | .revokeTree _ _ | .revokeByAccessor _ | .gc _ => trivial

theorem traced_requireToken (h : Headers) (now : Int) (m : Memory) :
    Traced learn (fitting sha256 t acc) (MayCall sha256 t acc KeepsCount) (fun _ _ => True) m
      (requireToken sha256 h now) := by
  have hread {α : Type} (decode : Record → Option α) (k : Bytes) (m : Memory) :
      Traced learn (fitting sha256 t acc) (MayCall sha256 t acc KeepsCount) (fun _ _ => True) m
        (getAs decode k) := traced_of_noToken (calls_read lenient_noToken decode k) m
  unfold requireToken
  split_ifs
  · trivial
  · refine Traced.seq ?_ fun m r => ?_
    · refine Traced.seq (hread _ _ _) fun m r => ?_
      cases r <;> trivial
    cases r with
    | error e => trivial
    | ok tok =>
      refine Traced.seq (traced_trackUse (Job.keepsCount (.use h.token)) m) fun m r => ?_
      cases r with
      | error e => trivial
      | ok _ =>
        dsimp only
        split
        · trivial
        · split_ifs
          · trivial
          · refine Traced.seq (hread _ _ _) fun m r => ?_
            cases r <;> trivial

/-- Every thread is traced. -/
theorem Act.traced {a : Act}
    (hheld : ∀ tok entity, a = .job (.attach tok entity) → tok.accessor = acc → tok.id = t)
    (hother : ∀ p, a = .other p →
      Calls (limited sha256 t acc n) (Elsewhere sha256 t acc) p) :
    Traced learn (limited sha256 t acc n) (MayWrite sha256 t acc) (fun _ _ => True)
      (a.memory sha256) (a.code sha256) := by
  cases a with
  | request h now =>
    exact Traced.seq ((traced_requireToken h now _).mono (fun _ r => fitting_of_limited r)
      fun _ _ => MayCall.mayWrite) fun _ _ => trivial
  | job j =>
    refine Traced.seq ?_ fun _ _ => trivial
    exact (Job.traced (Job.keepsCount j) fun tok entity heq => hheld tok entity (heq ▸ rfl)).mono
      (fun _ r => fitting_of_limited r) fun _ _ => MayCall.mayWrite
  | other p =>
    exact Traced.seq (Traced.of_calls (hother p rfl) (fun _ _ => Elsewhere.mayWrite) _)
      fun _ _ => trivial

/-- After reading `t` the thread has seen it, with its limit. -/
theorem owes_get {α : Type} {f : Except Err Token → Code Record α}
    {hit : Memory → Call Record → Prop} {success : α → Prop} {m : Memory}
    (hok : ∀ m' tok, m' (tokenKey sha256 t) = some (.token tok) →
      tokenKey sha256 t = tokenKey sha256 tok.id → tok.maxUses = n →
      Owes learn (limited sha256 t acc n) hit success m' (f (.ok tok)))
    (herr : ∀ m' e, Owes learn (limited sha256 t acc n) hit success m' (f (.error e))) :
    Owes learn (limited sha256 t acc n) hit success m ((Token.get sha256 t).bind f) := by
  refine .inr ⟨herr _ _, fun r hr => ?_⟩
  cases r with
  | none => exact herr _ _
  | some e =>
    cases e with
    | token tok =>
      exact hok _ tok (Function.update_self ..) (hr.1 _ rfl).1 (hr.2 rfl tok rfl)
    | _ => exact herr _ _

/-- A gate that lets a request with `t` in comes to the write of a use count. -/
theorem owes_trackUse {α : Type} {f : Except Err Unit → Code Record α} {success : α → Prop}
    (hn : n ≠ 0) (hf : ∀ m e, Owes learn (limited sha256 t acc n) (CountsUse sha256 t) success m
      (f (.error e))) (m : Memory) :
    Owes learn (limited sha256 t acc n) (CountsUse sha256 t) success m
      ((trackUse sha256 t).bind f) := by
  rw [trackUse, bind_assoc]
  refine owes_get (fun m' tok hseen hkey hmax => ?_) fun m' e => hf m' _
  dsimp only
  rw [if_neg (hmax ▸ hn)]
  split_ifs with hlimit
  · rw [bind_assoc]
    exact Owes.of_rest fun m _ => hf m _
  · -- the record was read in the step before, so this write is the use count
    refine .inl ⟨hkey.symm, _, rfl, tok, ?_, ?_, ?_⟩
    · rw [← hkey, hseen]
      rfl
    · dsimp only
      omega
    · dsimp only
      omega

theorem Act.owes (hn : n ≠ 0) (a : Act) :
    Owes learn (limited sha256 t acc n) (CountsUse sha256 t) (fun o => passedWith t o = true)
      (a.memory sha256) (a.code sha256) := by
  cases a with
  | request h now =>
    by_cases ht : h.token = t
    · obtain ⟨token, ns⟩ := h
      obtain rfl : token = t := ht
      simp only [Act.code, requireToken]
      split_ifs
      · exact nofun
      · simp only [bind_assoc]
        refine Owes.of_rest fun m r => ?_
        cases r with
        | error e => exact nofun
        | ok tok =>
          dsimp only
          rw [bind_assoc]
          refine owes_trackUse hn (fun m e => ?_) m
          exact nofun
    · refine Owes.of_rest fun m r => ?_
      simp only [Owes, passedWith]
      split_ifs
      · simpa using ht
      · exact nofun
  | job j => exact Owes.of_rest fun m r => nofun
  | other p => exact Owes.of_rest fun m r => nofun

/-- Writing a token with another key and another accessor. -/
theorem calls_put_elsewhere {reply : (c : Call Record) → c.Reply → Prop} {tok : Token}
    (hid : tokenKey sha256 tok.id ≠ tokenKey sha256 t) (hacc : tok.accessor ≠ acc) :
    Calls reply (Elsewhere sha256 t acc) (Token.put sha256 tok) := by
  have htoken : Elsewhere sha256 t acc (.put (tokenKey sha256 tok.id) (.token tok)) :=
    ⟨⟨rfl, fun h => absurd h hacc⟩, hid⟩
  have haccessor : Elsewhere sha256 t acc (.put (accessorKey tok.accessor) (.accessor tok.id)) :=
    ⟨fun hk => absurd (accessorKey_inj.1 hk) hacc, fun hk => tokenKey_ne_accessorKey t _ hk.symm⟩
  have hchild : Elsewhere sha256 t acc
      (.put (childKey sha256 tok.parentID tok.id) (.child tok.id)) :=
    ⟨trivial, fun hk => tokenKey_ne_childKey t _ _ hk.symm⟩
  refine (Calls.attempt htoken).andThen fun _ => ?_
  exact (Calls.only fun _ => (Calls.attempt haccessor).ignore).bind fun _ =>
    (Calls.only fun _ => (Calls.attempt hchild).ignore).bind fun _ => trivial

/-! ## All interleavings -/

/-- In every interleaving in which each write of the token's record finds what its writer last
    saw and no write of a use count fails, at most `n` requests with it are let in. -/
theorem use_limit {tok : Token} {acts : List Act} {sched : List (Nat × Bool)}
    (hfit : Fitting sha256 t acc w) (hstored : storedToken sha256 w.store t = some tok)
    (hmax : tok.maxUses = n) (hn : 0 < n) (hunused : tok.useCount = 0)
    (hheld : ∀ tok' entity, .job (.attach tok' entity) ∈ acts → tok'.accessor = acc → tok'.id = t)
    (hother : ∀ p, .other p ∈ acts →
      Calls (limited sha256 t acc n) (Elsewhere sha256 t acc) p)
    (hmeets : Meets (Pool.step (handle L) learn) (Orderly sha256 t)
      (startActs sha256 w acts) sched) :
    ((runs (Pool.step (handle L) learn) (startActs sha256 w acts) sched).count (passedWith t) :
      Int) ≤ n := by
  have hlimited : Limited sha256 t acc n w := by
    refine ⟨hfit, fun tok' htok' => ?_⟩
    rw [hstored] at htok'
    obtain rfl := Option.some.inj htok'
    exact hmax
  have hinv : (startActs sha256 w acts).Inv learn (limited sha256 t acc n)
      (MayWrite sha256 t acc) (Limited sha256 t acc n) := by
    refine ⟨hlimited, fun th hth => ?_⟩
    obtain ⟨a, ha, rfl⟩ := List.mem_map.1 hth
    exact Act.traced (fun tok' entity heq => hheld tok' entity (heq ▸ ha))
      fun p heq => hother p (heq ▸ ha)
  have howes : ∀ th ∈ (startActs sha256 w acts).threads,
      Owes learn (limited sha256 t acc n) (CountsUse sha256 t) (fun o => passedWith t o = true)
        th.memory th.code := by
    intro th hth
    obtain ⟨a, -, rfl⟩ := List.mem_map.1 hth
    exact a.owes hn.ne'
  have hreply : ∀ w c, Limited sha256 t acc n w →
      limited sha256 t acc n c (handle L c w).1 := fun w c hw => limited_handle c hw
  have hstep : ∀ w m c, Limited sha256 t acc n w → MayWrite sha256 t acc m c →
      lastSeenOf sha256 t w m c → Limited sha256 t acc n (handle L c w).2 :=
    fun w m c hw hc hseen => hw.step hc hseen
  have hcount := Pool.tally hreply hstep (remaining sha256 t) hinv hmeets
    (fun w m c _ hc hseen => remaining_le hc hseen)
    (fun w m c _ hc hseen hcounts => remaining_lt hc hseen hcounts) howes
  have hstart : remaining sha256 t (startActs sha256 w acts).world = (n - 0).toNat := by
    simp only [startActs, remaining, hstored, hmax, hunused]
  rw [hstart] at hcount
  omega

end

/-! ### A token for one use -/

def onceToken : Token :=
  { plainToken (ascii "t") [] [ascii "dev"] with accessor := ascii "a", maxUses := 1 }

def onceWorld : LogicalWorld where
  store := ((∅ : LogicalStore).insert (accessorKey (ascii "a")) (.accessor (ascii "t"))).insert
    (tokenKey (fun b => b) (ascii "t")) (.token onceToken)
  rng := fun _ => 0

def onceRequest : Act := .request ⟨ascii "t", []⟩ 0

theorem fitting_onceWorld : Fitting (fun b => b) (ascii "t") (ascii "a") onceWorld := by
  intro k r hr
  simp only [onceWorld, lookup_insert] at hr
  split_ifs at hr with h1 h2
  · obtain rfl := Option.some.inj hr
    exact ⟨h1, fun _ => rfl⟩
  · obtain rfl := Option.some.inj hr
    exact fun _ => rfl
  · cases hr

/-- Two requests one after the other, with the creation of another token and a renewal beside
    them. -/
theorem use_limit_inTurn :
    ((runs (Pool.step (handle sorted) learn)
      (startActs (fun b => b) onceWorld [onceRequest, onceRequest, .job (.renew (ascii "t") 0 0 0),
        .other ((Token.put (fun b => b) (plainToken (ascii "u") [] [])).ignore)])
      [(0, true), (3, true), (0, true), (2, true), (0, true), (0, true), (1, true), (1, true),
        (1, true), (1, true), (1, true)]).count (passedWith (ascii "t")) : Int) ≤ 1 := by
  refine use_limit fitting_onceWorld rfl rfl (by decide) rfl (by simp [onceRequest]) ?_
    (by decide +kernel)
  intro p hp
  obtain rfl : p = (Token.put (fun b => b) (plainToken (ascii "u") [] [])).ignore := by
    simpa [onceRequest] using hp
  exact (calls_put_elsewhere (by decide) (by decide)).ignore

/-- The limit is one. Two requests that read the record before either writes it are both let
    in, and three in turn while no write of the record succeeds. -/
theorem use_limit_overrun :
    (runs (Pool.step (handle sorted) learn)
      (startActs (fun b => b) onceWorld [onceRequest, onceRequest])
      [(0, true), (1, true), (0, true), (1, true), (0, true), (1, true), (0, true),
        (1, true)]).count (passedWith (ascii "t")) = 2 ∧
    (runs (Pool.step (handle sorted) learn)
      (startActs (fun b => b) onceWorld [onceRequest, onceRequest, onceRequest])
      [(0, true), (0, true), (0, false), (1, true), (1, true), (1, false), (2, true), (2, true),
        (2, false)]).count (passedWith (ascii "t")) = 3 := by
  decide +kernel

end Tuck.Api
