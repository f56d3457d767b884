/-
  The token operations side by side, at the granularity of single storage calls, any of which
  may fail. An operation that changes a token writes back the whole record it has read, so
  what it writes can be out of date by then.

  `lastSeen` is the guard: a write of a token finds the record that the writer last saw.
  In every interleaving whose steps meet it a revocation that returned nil is final, and a
  policy that narrowing removed stays out (`revocation_final`). Without it a use count brings
  a revoked token back and a renewal a removed policy (`write_back_revives`).
-/
import Tuck.Base.Threads
import Tuck.Core.TokenSpecs

namespace Tuck.Core

open Tuck.Base Prog KV
open Tuck.Token hiding id

/-! ## The operations as threads -/

/-- What a thread has last seen under each key. -/
abbrev Memory := Bytes → Option Record

def learn : Memory → (c : Call Record) → c.Reply → Memory
  | m, .get k, r => Function.update m k r
  | m, .put k v, _ => Function.update m k (some v)
  | m, .delete k, _ => Function.update m k none
  | m, .list _, _ => m
  | m, .rand _, _ => m

inductive Job where
  | revoke (id : Bytes)
  | revokeTree (depth : Nat) (id : Bytes)
  | revokeByAccessor (acc : Bytes)
  | gc (now : Int)
  | use (id : Bytes)
  | renew (id : Bytes) (ttl now now' : Int)
  | narrow (id : Bytes) (allowed : List Bytes) (now : Int)
  | attach (tok : Token) (entity : Option (Bytes × List Bytes))

/-- What a job returns. -/
inductive Out where
  | revoked (r : Option (Except Err Unit))
  | collected (ids : List Bytes)
  | narrowed (b : Bool)
  | other
  deriving DecidableEq

section

variable (sha256 : Bytes → Bytes)

/-- `runGC`, with the IDs whose deletion returned nil. -/
def gcCollect (now : Int) : Code Record (List Bytes) :=
  (listExpired now).bind fun
    | .error _ => .ret []
    | .ok expired => collect (fun id => (Token.delete sha256 id).bind fun r =>
        (purgeToken id).ignore.bind fun _ => .ret (if r.isOk then some id else none)) expired

def Job.code : Job → Code Record Out
  | .revoke id => (revokeToken sha256 id).bind fun r => .ret (.revoked (some r))
  | .revokeTree depth id => (revokeTokenTree sha256 depth id).bind fun r => .ret (.revoked r)
  | .revokeByAccessor acc =>
      (revokeTokenByAccessor sha256 acc).bind fun r => .ret (.revoked (some r))
  | .gc now => (gcCollect sha256 now).bind fun ids => .ret (.collected ids)
  | .use id => (trackUse sha256 id).bind fun _ => .ret .other
  | .renew id ttl now now' => (renewToken sha256 id ttl now now').bind fun _ => .ret .other
  | .narrow id allowed now => (narrowToken sha256 id allowed now).bind fun b => .ret (.narrowed b)
  | .attach tok entity => (attachEntityToToken sha256 tok entity).bind fun _ => .ret .other

/-- What a job knows when it starts: a login holds the token it has created. -/
def Job.memory : Job → Memory
  | .attach tok _ => Function.update (fun _ => none) (tokenKey sha256 tok.id) (some (.token tok))
  | _ => fun _ => none

abbrev TokenPool := Pool (Call Record) Call.Reply Memory LogicalWorld Out

def startJobs (w : LogicalWorld) (jobs : List Job) : TokenPool :=
  ⟨w, jobs.map fun j => ⟨j.code sha256, j.memory sha256⟩⟩

/-- A write of a token finds what the writer last saw. -/
def lastSeen (w : LogicalWorld) (m : Memory) : Call Record → Prop
  | .put k v => v.token?.isSome = true →
      (w.store.lookup k).bind Record.token? = (m k).bind Record.token?
  | _ => True

instance (w : LogicalWorld) (m : Memory) : ∀ c, Decidable (lastSeen w m c)
  | .put _ _ => inferInstanceAs (Decidable (_ → _ = _))
  | .get _ => isTrue trivial
  | .delete _ => isTrue trivial
  | .list _ => isTrue trivial
  | .rand _ => isTrue trivial

end

/-! ## What the threads write -/

section

variable (sha256 : Bytes → Bytes) (t acc : Bytes)

/-- A record under its key: a token lies under its own ID and has the accessor `acc` only if
    it is `t`, and `acc` leads to `t` in the index. -/
def Fits (k : Bytes) : Record → Prop
  | .token tok => k = tokenKey sha256 tok.id ∧ (tok.accessor = acc → tok.id = t)
  | .accessor id => k = accessorKey acc → id = t
  | _ => True

/-- The invariant of the store. -/
def Fitting (w : LogicalWorld) : Prop :=
  ∀ k r, w.store.lookup k = some r → Fits sha256 t acc k r

/-- What a read can return then. -/
def fitting : (c : Call Record) → c.Reply → Prop
  | .get k, r => ∀ e, r = some e → Fits sha256 t acc k e
  | _, _ => True

variable (keeps : Token → Token → Prop)

/-- What a thread may call: a token is written over one that the thread has seen. -/
def MayCall (m : Memory) : Call Record → Prop
  | .put k v => Fits sha256 t acc k v ∧
      (∀ tok, v = .token tok → ∃ old, m k = some (.token old) ∧ keeps old tok) ∧
      ∀ id, k = tokenKey sha256 id → ∃ tok, v = .token tok
  | _ => True

/-- A call that writes no token. -/
def NoToken : Call Record → Prop
  | .put k v => Fits sha256 t acc k v ∧ (∀ tok, v ≠ .token tok) ∧ ∀ id, k ≠ tokenKey sha256 id
  | _ => True

end

section

variable {sha256 : Bytes → Bytes} {t acc : Bytes} {keeps : Token → Token → Prop}

theorem NoToken.mayCall (m : Memory) (c : Call Record) (h : NoToken sha256 t acc c) :
    MayCall sha256 t acc keeps m c := by
  cases c with
  | put k v =>
    obtain ⟨hfits, htok, hkey⟩ := h
    exact ⟨hfits, fun tok htok' => absurd htok' (htok tok), fun id hid => absurd hid (hkey id)⟩
  | _ => trivial

theorem fitting_handle (L : Listing) (w : LogicalWorld) (c : Call Record)
    (h : Fitting sha256 t acc w) : fitting sha256 t acc c (handle L c w).1 := by
  cases c with
  | get k => exact fun e he => h k e he
  | _ => trivial

theorem Fitting.handle (L : KV.Listing) {w : LogicalWorld} {c : KV.Call Record}
    (h : Fitting sha256 t acc w) (hc : ∀ k v, c = .put k v → Fits sha256 t acc k v) :
    Fitting sha256 t acc (KV.handle L c w).2 := by
  cases c with
  | put k v =>
    intro k' r hr
    simp only [KV.handle, KV.lookup_insert] at hr
    split_ifs at hr with hk
    · obtain rfl := Option.some.inj hr
      exact hk ▸ hc k v rfl
    · exact h k' r hr
  | delete k =>
    intro k' r hr
    simp only [KV.handle, KV.lookup_erase] at hr
    split_ifs at hr
    exact h k' r hr
  | _ => exact h

theorem Fitting.step (L : KV.Listing) (w : LogicalWorld) (m : Memory) (c : KV.Call Record)
    (h : Fitting sha256 t acc w) (hc : MayCall sha256 t acc keeps m c) :
    Fitting sha256 t acc (KV.handle L c w).2 := by
  refine h.handle L fun k v hput => ?_
  subst hput
  exact hc.1

/-- What holds of no record, and of a record written over one of which it holds, stays true of
    the record of `t`. -/
theorem token_stable {Z : Option Token → Prop} (hnone : Z none)
    (hkeeps : ∀ old tok, keeps old tok → Z (some old) → Z (some tok)) (L : Listing)
    {w : LogicalWorld} {m : Memory} {c : Call Record} (hc : MayCall sha256 t acc keeps m c)
    (hseen : lastSeen w m c) (h : Z (storedToken sha256 w.store t)) :
    Z (storedToken sha256 (handle L c w).2.store t) := by
  unfold storedToken at h ⊢
  cases c with
  | put k v =>
    simp only [handle, lookup_insert]
    split_ifs with hk
    · -- the writer has seen the record that is there
      obtain ⟨-, hwrite, hkey⟩ := hc
      obtain ⟨tok, rfl⟩ := hkey t hk.symm
      obtain ⟨old, hold, hkept⟩ := hwrite tok rfl
      have hstored := hseen rfl
      rw [hold, ← hk] at hstored
      rw [hstored] at h
      exact hkeeps old tok hkept h
    · exact h
  | delete k =>
    simp only [handle, lookup_erase]
    split_ifs
    · exact hnone
    · exact h
  | _ => exact h

/-! ## Programs that only read and delete -/

/-- What `calls_*` below ask of a predicate: reads, listings and deletions satisfy it. -/
structure Lenient (P : Call Record → Prop) : Prop where
  get : ∀ k, P (.get k)
  list : ∀ k, P (.list k)
  delete : ∀ k, P (.delete k)

section

variable {reply : (c : Call Record) → c.Reply → Prop} {P : Call Record → Prop} (hP : Lenient P)

include hP

theorem calls_read {α : Type} (decode : Record → Option α) (k : Bytes) :
    Calls reply P (getAs decode k) :=
  (Calls.attempt (hP.get k)).andThen fun _ => trivial

theorem calls_purgeToken (id : Bytes) : Calls reply P (purgeToken id) := by
  refine (Calls.attempt (hP.list _)).andThen fun keys => Calls.bind ?_ fun _ => trivial
  exact Calls.each fun k _ => Calls.attempt (hP.delete k)

theorem calls_tokenDelete (id : Bytes) : Calls reply P (Token.delete sha256 id) := by
  refine (calls_read hP _ _).bind fun r => Calls.bind ?_ fun _ => Calls.attempt (hP.delete _)
  cases r with
  | error e => trivial
  | ok tok =>
    exact (Calls.only fun _ => (Calls.attempt (hP.delete _)).ignore).bind fun _ =>
      Calls.only fun _ => (Calls.attempt (hP.delete _)).ignore

theorem calls_revokeToken (id : Bytes) : Calls reply P (revokeToken sha256 id) :=
  (calls_purgeToken hP id).ignore.bind fun _ => calls_tokenDelete hP id

theorem calls_getByAccessor (a : Bytes) : Calls reply P (getByAccessor sha256 a) := by
  refine (calls_read hP _ _).bind fun r => ?_
  split
  · exact calls_read hP _ _
  · trivial
  · trivial

theorem calls_revokeTokenByAccessor (a : Bytes) :
    Calls reply P (revokeTokenByAccessor sha256 a) := by
  refine (calls_getByAccessor hP a).bind fun r => Calls.bind ?_ fun _ => ?_
  · cases r with
    | error e => trivial
    | ok tok => exact (calls_purgeToken hP tok.id).ignore
  · refine (calls_read hP _ _).bind fun r => ?_
    split
    · exact (Calls.attempt (hP.delete _)).ignore.bind fun _ => Calls.attempt (hP.delete _)
    · trivial
    · trivial

theorem calls_collect_read {α : Type} (decode : Record → Option α) (ks : List Bytes) :
    Calls reply P (collect (fun k => (getAs decode k).bind fun r => .ret r.toOption) ks) :=
  Calls.collect fun k _ => (calls_read hP decode k).bind fun _ => trivial

theorem calls_revokeTokenTree (depth : Nat) (id : Bytes) :
    Calls reply P (revokeTokenTree sha256 depth id) := by
  induction depth generalizing id with
  | zero => trivial
  | succ depth ih =>
    have hloop : ∀ cs, Calls reply P (treeLoop (revokeTokenTree sha256 depth) cs) := by
      intro cs
      induction cs with
      | nil => trivial
      | cons c cs ihcs =>
        refine (ih c).bind fun r => ?_
        cases r with
        | none => trivial
        | some _ => exact ihcs
    refine Calls.bind ?_ fun r => Calls.bind ?_ fun r' => ?_
    · refine (Calls.attempt (hP.list _)).andThen fun keys => Calls.bind ?_ fun _ => trivial
      exact calls_collect_read hP _ keys
    · cases r with
      | error e => trivial
      | ok cs => exact hloop cs
    · cases r' with
      | none => trivial
      | some _ =>
        exact (calls_purgeToken hP id).ignore.bind fun _ =>
          (calls_tokenDelete hP id).bind fun _ => trivial

theorem calls_gcCollect (now : Int) : Calls reply P (gcCollect sha256 now) := by
  refine Calls.bind ?_ fun r => ?_
  · refine Calls.andThen ?_ fun toks => trivial
    refine (Calls.attempt (hP.list _)).andThen fun keys => Calls.bind ?_ fun _ => trivial
    exact calls_collect_read hP _ keys
  · cases r with
    | error e => trivial
    | ok expired =>
      exact Calls.collect fun id _ => (calls_tokenDelete hP id).bind fun _ =>
        (calls_purgeToken hP id).ignore.bind fun _ => trivial

end

/-! ## Each operation as a thread -/

variable {id : Bytes} {α : Type}

/-- A thread that writes tokens only as `keeps` asks for. -/
abbrev Writes (sha256 : Bytes → Bytes) (t acc : Bytes) (keeps : Token → Token → Prop) (m : Memory)
    (p : Code Record α) : Prop :=
  Traced learn (fitting sha256 t acc) (MayCall sha256 t acc keeps) (fun _ _ => True) m p

/-- After reading a token the thread has seen it, and it fits. -/
theorem traced_get {f : Except Err Token → Code Record α} {m : Memory}
    (hok : ∀ m' tok, m' (tokenKey sha256 tok.id) = some (.token tok) →
      Fits sha256 t acc (tokenKey sha256 tok.id) (.token tok) →
      Writes sha256 t acc keeps m' (f (.ok tok)))
    (herr : ∀ m' e, Writes sha256 t acc keeps m' (f (.error e))) :
    Writes sha256 t acc keeps m ((Token.get sha256 id).bind f) := by
  refine ⟨trivial, herr _ _, fun r hr => ?_⟩
  cases r with
  | none => exact herr _ _
  | some e =>
    cases e with
    | token tok =>
      have hfits := hr _ rfl
      refine hok _ tok ?_ ⟨rfl, hfits.2⟩
      rw [← hfits.1]
      exact Function.update_self ..
    | _ => exact herr _ _

/-- Writing a token over one that the thread has seen. -/
theorem traced_put {m : Memory} {old tok : Token}
    (hold : m (tokenKey sha256 tok.id) = some (.token old)) (hkeeps : keeps old tok)
    (hfits : Fits sha256 t acc (tokenKey sha256 tok.id) (.token tok)) :
    Writes sha256 t acc keeps m (Token.put sha256 tok) := by
  refine Traced.bind ⟨⟨hfits, ?_, fun _ _ => ⟨tok, rfl⟩⟩, trivial, fun r _ => ?_⟩
  · intro tok' htok'
    obtain rfl := Record.token.inj htok'
    exact ⟨old, hold, hkeeps⟩
  · have hacc : NoToken sha256 t acc (.put (accessorKey tok.accessor) (.accessor tok.id)) :=
      ⟨fun hk => hfits.2 (accessorKey_inj.1 hk), fun _ => nofun,
        fun id hk => tokenKey_ne_accessorKey id _ hk.symm⟩
    have hchild :
        NoToken sha256 t acc (.put (childKey sha256 tok.parentID tok.id) (.child tok.id)) :=
      ⟨trivial, fun _ => nofun, fun id hk => tokenKey_ne_childKey id _ _ hk.symm⟩
    refine Traced.of_calls (P := NoToken sha256 t acc) ?_ NoToken.mayCall _
    exact (Calls.only fun _ => (Calls.attempt hacc).ignore).bind fun _ =>
      (Calls.only fun _ => (Calls.attempt hchild).ignore).bind fun _ => trivial

/-- The jobs that rewrite a token keep what `keeps` asks for. -/
def Job.Keeps (keeps : Token → Token → Prop) : Job → Prop
  | .use _ => ∀ tok, keeps tok { tok with useCount := tok.useCount + 1 }
  | .renew _ ttl _ now' => ∀ tok,
      keeps tok { tok with expiresAt := some (renewedExpiry tok ttl now') }
  | .narrow _ allowed _ => ∀ tok, keeps tok { tok with policies := intersect tok.policies allowed }
  | .attach _ (some (eid, extra)) => ∀ tok,
      keeps tok { tok with entityID := eid, policies := mergePolicies [] (tok.policies ++ extra) }
  | _ => True

theorem lenient_noToken : Lenient (NoToken sha256 t acc) :=
  ⟨fun _ => trivial, fun _ => trivial, fun _ => trivial⟩

theorem traced_of_noToken {p : Code Record α}
    (hp : Calls (fitting sha256 t acc) (NoToken sha256 t acc) p) (m : Memory) :
    Writes sha256 t acc keeps m p :=
  Traced.of_calls hp NoToken.mayCall m

theorem traced_trackUse (hkeeps : (Job.use id).Keeps keeps) (m : Memory) :
    Writes sha256 t acc keeps m (trackUse sha256 id) := by
  refine traced_get (fun m' tok hseen hfits => ?_) fun _ _ => trivial
  dsimp only
  split_ifs
  · trivial
  · refine Traced.seq ?_ fun _ _ => trivial
    exact traced_of_noToken (calls_tokenDelete lenient_noToken tok.id).ignore m'
  · refine Traced.seq (Traced.seq ?_ fun _ _ => trivial) fun _ _ => trivial
    exact traced_put hseen (hkeeps tok) hfits

variable {now : Int}

theorem traced_renewToken {ttl now' : Int}
    (hkeeps : (Job.renew id ttl now now').Keeps keeps) (m : Memory) :
    Writes sha256 t acc keeps m (renewToken sha256 id ttl now now') := by
  refine traced_get (fun m' tok hseen hfits => ?_) fun _ _ => trivial
  dsimp only
  split_ifs
  · trivial
  · trivial
  · refine Traced.seq (traced_put hseen (hkeeps tok) hfits) fun _ r => ?_
    cases r <;> trivial

theorem traced_narrowToken {allowed : List Bytes}
    (hkeeps : (Job.narrow id allowed now).Keeps keeps) (m : Memory) :
    Writes sha256 t acc keeps m (narrowToken sha256 id allowed now) := by
  refine traced_get (fun m' tok hseen hfits => ?_) fun _ _ => trivial
  dsimp only
  split_ifs
  · trivial
  · trivial
  · exact Traced.seq (traced_put hseen (hkeeps tok) hfits) fun _ r => trivial

theorem traced_attachEntityToToken {tok : Token} {entity : Option (Bytes × List Bytes)}
    (hkeeps : (Job.attach tok entity).Keeps keeps)
    (hfits : Fits sha256 t acc (tokenKey sha256 tok.id) (.token tok)) :
    Writes sha256 t acc keeps ((Job.attach tok entity).memory sha256)
      (attachEntityToToken sha256 tok entity) := by
  match entity with
  | none => trivial
  | some (eid, extra) =>
    have hheld : (Job.attach tok (some (eid, extra))).memory sha256 (tokenKey sha256 tok.id) =
        some (.token tok) := by
      rw [Job.memory, Function.update_self]
    refine Traced.seq ?_ fun _ _ => trivial
    exact traced_put hheld (hkeeps tok) hfits

/-- Every job is a traced thread. -/
theorem Job.traced {job : Job} (hkeeps : job.Keeps keeps)
    (hfits : ∀ tok entity, job = .attach tok entity → tok.accessor = acc → tok.id = t) :
    Writes sha256 t acc keeps (job.memory sha256) (job.code sha256) := by
  cases job with
  | revoke id =>
    exact Traced.seq (traced_of_noToken (calls_revokeToken lenient_noToken id) _) fun _ _ => trivial
  | revokeTree depth id =>
    exact Traced.seq (traced_of_noToken (calls_revokeTokenTree lenient_noToken depth id) _)
      fun _ _ => trivial
  | revokeByAccessor a =>
    exact Traced.seq (traced_of_noToken (calls_revokeTokenByAccessor lenient_noToken a) _)
      fun _ _ => trivial
  | gc now =>
    exact Traced.seq (traced_of_noToken (calls_gcCollect lenient_noToken now) _) fun _ _ => trivial
  | use id => exact Traced.seq (traced_trackUse hkeeps _) fun _ _ => trivial
  | renew id ttl now now' => exact Traced.seq (traced_renewToken hkeeps _) fun _ _ => trivial
  | narrow id allowed now => exact Traced.seq (traced_narrowToken hkeeps _) fun _ _ => trivial
  | attach tok entity =>
    exact Traced.seq (traced_attachEntityToToken hkeeps ⟨rfl, hfits tok entity rfl⟩)
      fun _ _ => trivial

/-! ## What a revocation that returned nil has done -/

/-- The record of `t` is deleted. -/
def Deletes (sha256 : Bytes → Bytes) (t : Bytes) (c : Call Record) : Prop :=
  c = .delete (tokenKey sha256 t)

/-- The job is a revocation of `t`, whose accessor is `acc`, and returned nil. -/
def Job.Revoked (t acc : Bytes) : Job → Out → Prop
  | .revoke id, .revoked r => id = t ∧ r = some (.ok ())
  | .revokeTree _ id, .revoked r => id = t ∧ r = some (.ok ())
  | .revokeByAccessor a, .revoked r => a = acc ∧ r = some (.ok ())
  | .gc _, .collected ids => t ∈ ids
  | _, _ => False

/-- A program that succeeds only if it deletes the record of `t`. -/
abbrev MustDelete (sha256 : Bytes → Bytes) (t acc : Bytes) (success : α → Prop)
    (p : Code Record α) : Prop := Must (fitting sha256 t acc) (Deletes sha256 t) success p

theorem must_tokenDelete :
    MustDelete sha256 t acc (fun r => r = .ok ()) (Token.delete sha256 t) := by
  refine Must.of_rest fun r => Must.of_rest fun _ => ⟨?_, .inl rfl⟩
  exact nofun

theorem must_revokeToken :
    MustDelete sha256 t acc (fun r => r = .ok ()) (revokeToken sha256 t) :=
  Must.of_rest fun _ => must_tokenDelete

theorem must_revokeTokenTree (depth : Nat) :
    MustDelete sha256 t acc (fun r => r = some (.ok ())) (revokeTokenTree sha256 depth t) := by
  cases depth with
  | zero => exact nofun
  | succ depth =>
    refine Must.of_rest fun r => Must.of_rest fun r' => ?_
    cases r' with
    | none => exact nofun
    | some _ =>
      refine Must.of_rest fun _ => must_tokenDelete.bind fun r hr => ?_
      exact fun h => hr (Option.some.inj h)

theorem must_revokeTokenByAccessor :
    MustDelete sha256 t acc (fun r => r = .ok ()) (revokeTokenByAccessor sha256 acc) := by
  refine Must.of_rest fun r => Must.of_rest fun _ => ?_
  -- the index leads to `t`, or the call returns an error
  refine ⟨nofun, .inr fun e he => ?_⟩
  cases e with
  | none => exact nofun
  | some e =>
    cases e with
    | accessor id =>
      obtain rfl : id = t := he _ rfl rfl
      exact Must.of_rest (p := ignore (KV.delete Err.storage (accessorKey acc)))
        (f := fun _ => KV.delete Err.storage (tokenKey sha256 id)) fun _ => ⟨nofun, .inl rfl⟩
    | _ => exact nofun

theorem must_gcCollect (now : Int) :
    MustDelete sha256 t acc (fun ids => t ∈ ids) (gcCollect sha256 now) := by
  refine Must.of_rest fun r => ?_
  cases r with
  | error e => exact List.not_mem_nil
  | ok expired =>
    dsimp only
    induction expired with
    | nil => exact List.not_mem_nil
    | cons x xs ih =>
      have hbody : MustDelete sha256 t acc (fun a => a = some t)
          ((Token.delete sha256 x).bind fun r =>
            (purgeToken x).ignore.bind fun _ => .ret (if r.isOk then some x else none)) := by
        by_cases hx : x = t
        · subst hx
          refine must_tokenDelete.bind fun r hr => Must.of_rest fun _ => ?_
          cases r with
          | ok _ => exact absurd rfl hr
          | error e => exact nofun
        · refine Must.of_rest fun r => Must.of_rest fun _ => ?_
          intro h
          split_ifs at h
          exact hx (Option.some.inj h)
      refine hbody.bind fun a ha => ih.bind fun as has => ?_
      intro hmem
      obtain hmem | hmem := List.mem_append.1 hmem
      · exact ha (Option.mem_toList.1 hmem)
      · exact has hmem

theorem Job.must (job : Job) :
    MustDelete sha256 t acc (job.Revoked t acc) (job.code sha256) := by
  cases job with
  | revoke id =>
    by_cases hid : id = t
    · subst hid
      exact must_revokeToken.bind fun r hr h => hr (Option.some.inj h.2)
    · exact Must.of_rest fun r h => hid h.1
  | revokeTree depth id =>
    by_cases hid : id = t
    · subst hid
      exact (must_revokeTokenTree depth).bind fun r hr h => hr h.2
    · exact Must.of_rest fun r h => hid h.1
  | revokeByAccessor a =>
    by_cases ha : a = acc
    · subst ha
      exact must_revokeTokenByAccessor.bind fun r hr h => hr (Option.some.inj h.2)
    · exact Must.of_rest fun r h => ha h.1
  | gc now => exact (must_gcCollect now).bind fun ids hids h => hids h
  | use | renew | narrow | attach => exact Must.of_rest fun r h => h

/-! ## What narrowing has done -/

/-- A record of `t` without the policy is written. -/
def WritesWithout (sha256 : Bytes → Bytes) (t policy : Bytes) (c : Call Record) : Prop :=
  ∃ tok, c = .put (tokenKey sha256 t) (.token tok) ∧ policy ∉ tok.policies

theorem must_get {hit : Call Record → Prop} {success : α → Prop}
    {f : Except Err Token → Code Record α}
    (hok : ∀ tok, tokenKey sha256 id = tokenKey sha256 tok.id →
      Must (fitting sha256 t acc) hit success (f (.ok tok)))
    (herr : ∀ e, Must (fitting sha256 t acc) hit success (f (.error e))) :
    Must (fitting sha256 t acc) hit success ((Token.get sha256 id).bind f) := by
  refine ⟨herr _, .inr fun r hr => ?_⟩
  cases r with
  | none => exact herr _
  | some e =>
    cases e with
    | token tok => exact hok tok (hr _ rfl).1
    | _ => exact herr _

variable {policy : Bytes}

theorem must_narrowToken {allowed : List Bytes}
    (hpolicy : policy ∉ allowed) :
    Must (fitting sha256 t acc) (WritesWithout sha256 t policy) (fun b => b = true)
      (narrowToken sha256 t allowed now) := by
  refine must_get (fun tok hkey => ?_) fun _ => nofun
  dsimp only
  split_ifs
  · exact nofun
  · exact nofun
  · refine ⟨nofun, .inl ⟨{ tok with policies := intersect tok.policies allowed }, ?_, ?_⟩⟩
    · rw [hkey]
    · exact fun hmem => hpolicy (of_decide_eq_true (List.mem_filter.1 hmem).2)

theorem mem_mergePolicies {p : Bytes} {ps result : List Bytes} :
    p ∈ mergePolicies result ps ↔ p ∈ result ∨ p ∈ ps := by
  induction ps generalizing result with
  | nil => simp [mergePolicies]
  | cons q ps ih =>
    rw [mergePolicies, ih]
    split_ifs with hq
    · grind
    · grind

/-- A job adds no policy but those that a login adds. -/
theorem Job.keeps_without {job : Job}
    (hextra : ∀ tok eid extra, job = .attach tok (some (eid, extra)) → policy ∉ extra) :
    job.Keeps fun old tok => policy ∉ old.policies → policy ∉ tok.policies := by
  match job with
  | .use _ | .renew _ _ _ _ => exact fun _ h => h
  | .narrow _ allowed _ => exact fun tok h hmem => h (List.mem_filter.1 hmem).1
  | .attach tok (some (eid, extra)) =>
    intro tok' h hmem
    obtain hmem | hmem := mem_mergePolicies.1 hmem
    · cases hmem
    · obtain hmem | hmem := List.mem_append.1 hmem
      · exact h hmem
      · exact hextra tok eid extra rfl hmem
  | .attach _ none | .revoke _ | .revokeTree _ _ | .revokeByAccessor _ | .gc _ => trivial

end

/-! ## All interleavings -/

section

variable {sha256 : Bytes → Bytes} {L : Listing} {t acc : Bytes} {w : LogicalWorld}
  {jobs : List Job} {sched : List (Nat × Bool)} {keeps : Token → Token → Prop}

theorem startJobs_inv (keeps : Token → Token → Prop) (hfit : Fitting sha256 t acc w)
    (hheld : ∀ tok entity, .attach tok entity ∈ jobs → tok.accessor = acc → tok.id = t)
    (hkeeps : ∀ job ∈ jobs, job.Keeps keeps) :
    (startJobs sha256 w jobs).Inv learn (fitting sha256 t acc) (MayCall sha256 t acc keeps)
      (Fitting sha256 t acc) := by
  refine ⟨hfit, fun th hth => ?_⟩
  obtain ⟨job, hjob, rfl⟩ := List.mem_map.1 hth
  exact Job.traced (hkeeps job hjob) fun tok entity heq => hheld tok entity (heq ▸ hjob)

theorem Job.keeps_true (job : Job) : job.Keeps fun _ _ => True := by
  match job with
  | .use _ | .renew _ _ _ _ | .narrow _ _ _ | .attach _ (some (_, _)) => exact fun _ => trivial
  | .attach _ none | .revoke _ | .revokeTree _ _ | .revokeByAccessor _ | .gc _ => trivial

theorem startJobs_thread {j : Nat} {job : Job} (hjob : jobs[j]? = some job)
    {th : Thread (Call Record) Call.Reply Memory Out}
    (hth : (startJobs sha256 w jobs).threads[j]? = some th) : th.code = job.code sha256 := by
  unfold startJobs at hth
  rw [List.getElem?_map, hjob] at hth
  obtain rfl := Option.some.inj hth
  rfl

/-- What the call of a thread that succeeded has brought about is true in the end. -/
theorem final_of_must {Z : Option Token → Prop} {hit : Call Record → Prop} (success : Out → Prop)
    (hfit : Fitting sha256 t acc w)
    (hheld : ∀ tok entity, .attach tok entity ∈ jobs → tok.accessor = acc → tok.id = t)
    (hkeeps : ∀ job ∈ jobs, job.Keeps keeps)
    (hmeets : Meets (Pool.step (KV.handle L) learn) (Pool.Guarded lastSeen)
      (startJobs sha256 w jobs) sched) (hnone : Z none)
    (hZ : ∀ old tok, keeps old tok → Z (some old) → Z (some tok))
    (hhit : ∀ w c, hit c → Z (storedToken sha256 (KV.handle L c w).2.store t)) {j : Nat} {job : Job}
    {out : Out} (hjob : jobs[j]? = some job)
    (hmust : Must (fitting sha256 t acc) hit success (job.code sha256))
    (hret : (runs (Pool.step (KV.handle L) learn) (startJobs sha256 w jobs) sched).result? j =
      some out) (hsucc : success out) :
    Z (storedToken sha256
      (runs (Pool.step (KV.handle L) learn) (startJobs sha256 w jobs) sched).world.store t) := by
  refine Pool.must (fun w c hw => fitting_handle L w c hw)
    (fun w m c hw hc _ => hw.step L w m c hc) hit success
    (fun w => Z (storedToken sha256 w.store t))
    (startJobs_inv keeps hfit hheld hkeeps) hmeets
    (fun w m c _ hc hseen h => token_stable hnone hZ L hc hseen h)
    (fun w m c _ _ _ hc => hhit w c hc) (fun th hth => ?_) hret hsucc
  rw [startJobs_thread hjob hth]
  exact hmust

/-- In every interleaving in which each write of a token finds what its writer last saw, a
    revocation that returned nil is final, and a policy that narrowing removed stays out
    unless a login adds it. -/
theorem revocation_final (hfit : Fitting sha256 t acc w)
    (hheld : ∀ tok entity, .attach tok entity ∈ jobs → tok.accessor = acc → tok.id = t)
    (hmeets : Meets (Pool.step (KV.handle L) learn) (Pool.Guarded lastSeen)
      (startJobs sha256 w jobs) sched) :
    let p := runs (Pool.step (KV.handle L) learn) (startJobs sha256 w jobs) sched
    (∀ (j : Nat) (job : Job) (out : Out), jobs[j]? = some job → p.result? j = some out →
      job.Revoked t acc out → ∀ now,
        (run (KV.handle L) (authenticate sha256 t now) p.world).1 = .error .tokenInvalid) ∧
      ∀ (j : Nat) (allowed : List Bytes) (now : Int) (policy : Bytes),
        jobs[j]? = some (.narrow t allowed now) → p.result? j = some (.narrowed true) →
        policy ∉ allowed →
        (∀ tok eid extra, .attach tok (some (eid, extra)) ∈ jobs → policy ∉ extra) →
          ∀ tok, storedToken sha256 p.world.store t = some tok → policy ∉ tok.policies := by
  intro p
  constructor
  · intro j job out hjob hret hrev now
    have hgone : storedToken sha256 p.world.store t = none := by
      refine final_of_must (Z := fun o => o = none) _ hfit hheld (fun job _ => job.keeps_true)
        hmeets rfl (fun _ _ _ => nofun) ?_ hjob job.must hret hrev
      rintro w c rfl
      exact congrArg (Option.bind · Record.token?) ((KV.lookup_erase _ _ _).trans (if_pos rfl))
    have hnone : validToken sha256 p.world.store t now = none := by
      unfold validToken
      rw [← storedToken, hgone]
      rfl
    rw [run_authenticate, hnone]
  · intro j allowed now policy hjob hret hpolicy hextra
    refine final_of_must (Z := fun o => ∀ tok, o = some tok → policy ∉ tok.policies)
      (fun out => out = .narrowed true) hfit hheld
      (fun job hmem => Job.keeps_without fun tok eid extra heq => hextra tok eid extra (heq ▸ hmem))
      hmeets nofun ?_ ?_ hjob
      ((must_narrowToken hpolicy).bind fun b hb h => hb (Out.narrowed.inj h)) hret rfl
    · rintro old tok hkept h _ ⟨⟩
      exact hkept (h old rfl)
    · rintro w c ⟨tok, rfl, hout⟩ tok' htok'
      unfold storedToken at htok'
      simp only [KV.handle, KV.lookup_insert, if_true] at htok'
      obtain rfl := Option.some.inj htok'
      exact hout

end

/-! ### Interleavings of two -/

/-- A renewable token with a use limit and two policies. -/
def sharedToken : Token :=
  { plainToken (ascii "t") [] [ascii "dev", ascii "ops"] with
    accessor := ascii "a", renewable := true, maxUses := 5 }

def sharedWorld : LogicalWorld where
  store := ((∅ : LogicalStore).insert (accessorKey (ascii "a")) (.accessor (ascii "t"))).insert
    (tokenKey (fun b => b) (ascii "t")) (.token sharedToken)
  rng := fun _ => 0

theorem fitting_sharedWorld : Fitting (fun b => b) (ascii "t") (ascii "a") sharedWorld := by
  intro k r hr
  simp only [sharedWorld, lookup_insert] at hr
  split_ifs at hr with h1 h2
  · obtain rfl := Option.some.inj hr
    exact ⟨h1, fun _ => rfl⟩
  · obtain rfl := Option.some.inj hr
    exact fun _ => rfl
  · cases hr

/-- A use, a narrowing and a revocation, one after the other. -/
theorem revocation_final_inTurn :
    (run (handle sorted) (authenticate (fun b => b) (ascii "t") 0)
      (runs (Pool.step (handle sorted) learn)
        (startJobs (fun b => b) sharedWorld
          [.use (ascii "t"), .narrow (ascii "t") [ascii "dev"] 0, .revoke (ascii "t")])
        (List.replicate 3 (0, true) ++ List.replicate 3 (1, true) ++
          List.replicate 4 (2, true))).world).1 = .error .tokenInvalid := by
  have hmeets : Meets (Pool.step (handle sorted) learn) (Pool.Guarded lastSeen)
      (startJobs (fun b => b) sharedWorld
        [.use (ascii "t"), .narrow (ascii "t") [ascii "dev"] 0, .revoke (ascii "t")])
      (List.replicate 3 (0, true) ++ List.replicate 3 (1, true) ++ List.replicate 4 (2, true)) := by
    decide +kernel
  obtain ⟨hfinal, -⟩ := revocation_final fitting_sharedWorld (by simp) hmeets
  exact hfinal 2 (.revoke (ascii "t")) (.revoked (some (.ok ()))) rfl (by decide +kernel)
    ⟨rfl, rfl⟩ 0

/-- The revocation runs between the read and the write of a use count. -/
def useAroundRevocation : TokenPool :=
  runs (Pool.step (handle sorted) learn)
    (startJobs (fun b => b) sharedWorld [.use (ascii "t"), .revoke (ascii "t")])
    ((0, true) :: List.replicate 4 (1, true) ++ [(0, true)])

/-- The narrowing runs between the read and the write of a renewal. -/
def renewalAroundNarrowing : TokenPool :=
  runs (Pool.step (handle sorted) learn)
    (startJobs (fun b => b) sharedWorld
      [.renew (ascii "t") 0 0 0, .narrow (ascii "t") [ascii "dev"] 0])
    ((0, true) :: List.replicate 3 (1, true) ++ [(0, true)])

/-- The token authenticates although its revocation returned nil, and has the policy back that
    narrowing removed. -/
theorem write_back_revives :
    (useAroundRevocation.result? 1 = some (.revoked (some (.ok ()))) ∧
      (run (handle sorted) (authenticate (fun b => b) (ascii "t") 0)
        useAroundRevocation.world).1.isOk = true) ∧
    (renewalAroundNarrowing.result? 1 = some (.narrowed true) ∧
      (storedToken (fun b => b) renewalAroundNarrowing.world.store (ascii "t")).map Token.policies =
        some [ascii "dev", ascii "ops"]) := by
  decide +kernel

end Tuck.Core
