/-
  The use limit of a SecretID, with logins and destructions side by side, at the granularity of
  single storage calls, any of which may fail.

  A login takes a use in a call of its own after it has read the record, and drops the error of
  that call. If no such call fails, and each finds the record that its login has read, then no
  more logins succeed than the SecretID has uses, and none that starts after its destruction
  (`secretID_limit`). Otherwise two logins can take the same use, a login whose write fails
  takes none, and a write can bring a destroyed record back (`secretID_overrun`).
-/
import Tuck.AppRole.Store
import Tuck.Base.Threads

namespace Tuck.AppRole

open Tuck.Base Prog KV

/-! ## Logins as threads -/

/-- What runs side by side. -/
inductive Act where
  | login (roleID secretIDVal remoteIP : Bytes) (now : Int)
  | destroy (id : Bytes)

/-- What a thread returns. -/
inductive Outcome where
  | loggedIn (id : Bytes)
  | destroyed (id : Bytes)
  | failed
  deriving DecidableEq

def Act.code (cidrContains : List Bytes → Bytes → Bool) : Act → Code Record Outcome
  | .login roleID secretIDVal remoteIP now =>
      (AppRole.login cidrContains roleID secretIDVal remoteIP now).bind fun r =>
        .ret (if r.isOk then .loggedIn secretIDVal else .failed)
  | .destroy id => (destroySecretID id).bind fun r =>
      .ret (if r.isOk then .destroyed id else .failed)

/-- What a thread knows: its time, and the record of the SecretID once it has read it. -/
structure Seen where
  now : Int
  read : Option SecretID
  deriving DecidableEq

def Act.seen : Act → Seen
  | .login _ _ _ now => ⟨now, none⟩
  | .destroy _ => ⟨0, none⟩

abbrev ActPool := Pool (Call Record) Call.Reply Seen LogicalWorld Outcome

def startActs (cidrContains : List Bytes → Bytes → Bool) (w : LogicalWorld) (acts : List Act) :
    ActPool :=
  ⟨w, acts.map fun a => ⟨a.code cidrContains, a.seen⟩⟩

section

variable (id : Bytes)

/-- A thread remembers what it has read of the SecretID `id`. -/
def learn (m : Seen) : (c : Call Record) → c.Reply → Seen
  | .get k, r => if k = secretKey id then { m with read := r.bind Record.secretID? } else m
  | _, _ => m

def stepAct (L : Listing) : ActPool → Nat × Bool → ActPool := Pool.step (handle L) (learn id)

/-- The SecretID that is stored. -/
def stored (s : LogicalStore) : Option SecretID := (s.lookup (secretKey id)).bind Record.secretID?

/-- The call takes a use of the SecretID: it writes the record back, or deletes one that was read
    and has not expired. -/
def TakesUse (m : Seen) : Call Record → Prop
  | .put k _ => k = secretKey id
  | .delete k => k = secretKey id ∧ (m.read.any fun sid => !sid.isExpired m.now) = true
  | _ => False

instance (m : Seen) : ∀ c, Decidable (TakesUse id m c)
  | .put _ _ => inferInstanceAs (Decidable (_ = _))
  | .delete _ => inferInstanceAs (Decidable (_ ∧ _))
  | .get _ | .list _ | .rand _ => isFalse fun h => h

/-- A call that takes a use finds the record that its login has read. -/
def FindsRead (w : LogicalWorld) (m : Seen) (c : Call Record) : Prop :=
  TakesUse id m c → stored id w.store = m.read

instance (w : LogicalWorld) (m : Seen) (c : Call Record) : Decidable (FindsRead id w m c) :=
  inferInstanceAs (Decidable (_ → _))

/-- The step does not let a use go wrong: its call does not fail and finds what was read. -/
def Orderly (p : ActPool) (i : Nat × Bool) : Prop :=
  p.Guarded (FindsRead id) i ∧ p.Reliable (TakesUse id) i

instance (p : ActPool) (i : Nat × Bool) : Decidable (Orderly id p i) :=
  inferInstanceAs (Decidable (_ ∧ _))

/-- The limit, for a run of a pool: at most `n` logins with `id` succeed, and none that has not
    made a call before `id` is destroyed. -/
def LimitKept (n : Int) (step : ActPool → Nat × Bool → ActPool) (p : ActPool)
    (sched : List (Nat × Bool)) : Prop :=
  (((runs step p sched).count (· == .loggedIn id) : Nat) : Int) ≤ n ∧
    ∀ before after, sched = before ++ after →
      ∀ i j, (runs step p before).result? j = some (.destroyed id) → (∀ ok, (i, ok) ∉ before) →
        (runs step p sched).result? i ≠ some (.loggedIn id)

end

/-! ## What a call does to the record -/

section

variable (id : Bytes)

/-- What a thread may call: a write of the record is of the one read with a use less. -/
def MayCall (m : Seen) : Call Record → Prop
  | .put k r => k = secretKey id → ∃ sid, m.read = some sid ∧ 1 < sid.usesLeft ∧
      r = .secretID { sid with usesLeft := sid.usesLeft - 1 }
  | _ => True

/-- The SecretID, while it is stored, is limited and has uses left. -/
def Limited (w : LogicalWorld) : Prop :=
  ∀ sid, stored id w.store = some sid → 0 < sid.numUses ∧ 0 < sid.usesLeft

/-- What a read can return then. -/
def limited : (c : Call Record) → c.Reply → Prop
  | .get k, r => k = secretKey id → ∀ sid, r.bind Record.secretID? = some sid → 0 < sid.numUses
  | _, _ => True

/-- The uses that are left. -/
def usesLeft (w : LogicalWorld) : Nat := ((stored id w.store).elim 0 SecretID.usesLeft).toNat

end

section

variable {id : Bytes} {L : Listing} {w : LogicalWorld} {m : Seen} {c : Call Record}

/-- Everything a call can do to the record. -/
theorem stored_handle (hc : MayCall id m c) (hfinds : FindsRead id w m c) :
    (¬TakesUse id m c ∧ (stored id (handle L c w).2.store = stored id w.store ∨
        stored id (handle L c w).2.store = none)) ∨
      ∃ sid, stored id w.store = some sid ∧
        (stored id (handle L c w).2.store = none ∨ 1 < sid.usesLeft ∧
          stored id (handle L c w).2.store = some { sid with usesLeft := sid.usesLeft - 1 }) := by
  unfold stored
  cases c with
  | put k r =>
    by_cases hk : k = secretKey id
    · subst hk
      obtain ⟨sid, hread, hleft, rfl⟩ := hc rfl
      refine .inr ⟨sid, (hfinds rfl).trans hread, .inr ⟨hleft, ?_⟩⟩
      simp only [handle, lookup_insert, if_true]
      rfl
    · refine .inl ⟨hk, .inl ?_⟩
      simp only [handle, lookup_insert, if_neg (Ne.symm hk)]
  | delete k =>
    by_cases hk : k = secretKey id
    · have hgone : ((handle L (.delete k) w).2.store.lookup (secretKey id)).bind
          Record.secretID? = none := by
        simp only [handle, lookup_erase, if_pos hk.symm]
        rfl
      by_cases htakes : TakesUse id m (.delete k)
      · obtain ⟨sid, hread, -⟩ := (Option.any_eq_true _ _).1 htakes.2
        exact .inr ⟨sid, (hfinds htakes).trans hread, .inl hgone⟩
      · exact .inl ⟨htakes, .inr hgone⟩
    · refine .inl ⟨fun h => hk h.1, .inl ?_⟩
      simp only [handle, lookup_erase, if_neg (Ne.symm hk)]
  | get _ | list _ | rand _ => exact .inl ⟨fun h => h, .inl rfl⟩

theorem limited_handle (c : Call Record) (h : Limited id w) :
    limited id c (handle L c w).1 := by
  cases c with
  | get k =>
    intro hk sid hsid
    refine (h sid ?_).1
    rw [stored, ← hk]
    exact hsid
  | _ => trivial

theorem Limited.step (h : Limited id w) (hc : MayCall id m c) (hfinds : FindsRead id w m c) :
    Limited id (handle L c w).2 := by
  intro sid' hsid'
  obtain ⟨-, heq | heq⟩ | ⟨sid, hsid, heq | ⟨hleft, heq⟩⟩ := stored_handle (L := L) hc hfinds
  · exact h sid' (heq ▸ hsid')
  · rw [heq] at hsid'
    cases hsid'
  · rw [heq] at hsid'
    cases hsid'
  · rw [heq] at hsid'
    obtain rfl := Option.some.inj hsid'
    have hpos := (h sid hsid).1
    exact ⟨hpos, by dsimp only; omega⟩

theorem usesLeft_le (hc : MayCall id m c) (hfinds : FindsRead id w m c) :
    usesLeft id (handle L c w).2 ≤ usesLeft id w := by
  unfold usesLeft
  obtain ⟨-, heq | heq⟩ | ⟨sid, hsid, heq | ⟨hleft, heq⟩⟩ := stored_handle (L := L) hc hfinds
  · rw [heq]
  · rw [heq]
    exact Nat.zero_le _
  · rw [heq]
    exact Nat.zero_le _
  · rw [heq, hsid]
    dsimp only [Option.elim]
    omega

theorem usesLeft_lt (h : Limited id w) (hc : MayCall id m c) (hfinds : FindsRead id w m c)
    (htakes : TakesUse id m c) : usesLeft id (handle L c w).2 + 1 ≤ usesLeft id w := by
  unfold usesLeft
  obtain ⟨hnot, -⟩ | ⟨sid, hsid, heq | ⟨hleft, heq⟩⟩ := stored_handle (L := L) hc hfinds
  · exact absurd htakes hnot
  · have hpos := (h sid hsid).2
    rw [heq, hsid]
    dsimp only [Option.elim]
    omega
  · rw [heq, hsid]
    dsimp only [Option.elim]
    omega

end

/-! ## What a login calls -/

section

variable {id : Bytes} {cidrContains : List Bytes → Bytes → Bool}

theorem secretKey_inj {v : Bytes} : secretKey v = secretKey id ↔ v = id := List.append_right_inj _

theorem calls_findRole {reply : (c : Call Record) → c.Reply → Prop} (roleID : Bytes)
    (ks : List Bytes) : Calls reply Call.Reads (findRole roleID ks) := by
  induction ks with
  | nil => trivial
  | cons k ks ih =>
    refine Calls.bind ((Calls.attempt trivial).andThen fun _ => trivial) fun r => ?_
    cases r with
    | error e => exact ih
    | ok role =>
      dsimp only
      split_ifs
      · trivial
      · exact ih

theorem mayCall_of_reads {m : Seen} {c : Call Record} (h : c.Reads) : MayCall id m c := by
  cases c with
  | put k r => cases h
  | _ => trivial

theorem learn_now (m : Seen) (c : Call Record) (r : c.Reply) : (learn id m c r).now = m.now := by
  cases c with
  | get k =>
    change (if k = secretKey id then { m with read := Option.bind r Record.secretID? } else m).now =
      m.now
    split_ifs <;> rfl
  | _ => rfl

/-- After the read of the record of `id` the thread remembers it. -/
theorem read_learn (m : Seen) {r : Option Record} {sid : SecretID}
    (h : decodeAs Record.secretID? r = .ok sid) :
    (learn id m (.get (secretKey id)) r).read = some sid := by
  change (if secretKey id = secretKey id then { m with read := r.bind Record.secretID? }
    else m).read = _
  rw [if_pos rfl]
  exact decodeAs_eq_ok.1 h

variable {reply : (c : Call Record) → c.Reply → Prop}

theorem traced_consume {v : Bytes} {m : Seen} {sid : SecretID}
    (hread : v = id → m.read = some sid) :
    Traced (learn id) reply (MayCall id) (fun _ _ => True) m (consume v sid) := by
  unfold consume
  dsimp only
  split_ifs with hnum hleft
  · exact ⟨trivial, trivial, fun _ _ => trivial⟩
  · refine ⟨fun hk => ⟨sid, hread (secretKey_inj.1 hk), by omega, rfl⟩, trivial, fun _ _ => trivial⟩
  · trivial

theorem traced_loginWith {role : Role} {v remoteIP : Bytes} {now : Int} {m : Seen} {sid : SecretID}
    (hread : v = id → m.read = some sid) :
    Traced (learn id) reply (MayCall id) (fun _ _ => True) m
      (loginWith cidrContains role v remoteIP now sid) := by
  unfold loginWith
  split_ifs
  · trivial
  · exact ⟨trivial, trivial, fun _ _ => trivial⟩
  · trivial
  · exact Traced.seq (traced_consume hread) fun _ _ => trivial

theorem traced_login (roleID v remoteIP : Bytes) (now : Int) (m : Seen) :
    Traced (learn id) reply (MayCall id) (fun _ _ => True) m
      (login cidrContains roleID v remoteIP now) := by
  refine Traced.seq ⟨trivial, trivial, fun _ _ => trivial⟩ fun m r => ?_
  cases r with
  | error e => trivial
  | ok names =>
    refine Traced.seq (Traced.of_calls (calls_findRole roleID names)
      (fun m c hc => mayCall_of_reads hc) m) fun m role => ?_
    cases role with
    | none => trivial
    | some role =>
      -- the thread remembers the record it reads
      refine ⟨trivial, trivial, fun r _ => ?_⟩
      change Traced _ _ _ _ _ (bind (.ret (decodeAs Record.secretID? r)) _)
      cases hr : decodeAs Record.secretID? r with
      | error e => trivial
      | ok sid =>
        refine traced_loginWith fun hv => ?_
        rw [hv]
        exact read_learn m hr

theorem Act.traced (a : Act) :
    Traced (learn id) reply (MayCall id) (fun _ _ => True) a.seen (a.code cidrContains) := by
  cases a with
  | login roleID v remoteIP now =>
      exact Traced.seq (traced_login roleID v remoteIP now _) fun _ _ => trivial
  | destroy v => exact ⟨trivial, trivial, fun _ _ => trivial⟩

/-- A login with `id` that has read a limited SecretID succeeds only after the call that takes a
    use. -/
theorem owes_loginWith {role : Role} {remoteIP : Bytes} {m : Seen} {sid : SecretID}
    {f : Except Err LoginResult → Code Record Outcome} (hread : m.read = some sid)
    (hnum : 0 < sid.numUses) (hf : ∀ e, f (.error e) = .ret .failed) :
    Owes (learn id) reply (TakesUse id) (fun o => (o == Outcome.loggedIn id) = true) m
      ((loginWith cidrContains role id remoteIP m.now sid).bind f) := by
  unfold loginWith
  split_ifs with hrole hexp hcidr
  · rw [Prog.bind, hf]
    exact fun h => by cases h
  · rw [Prog.bind_assoc]
    refine Owes.of_rest fun m r => ?_
    rw [Prog.bind, hf]
    exact fun h => by cases h
  · rw [Prog.bind, hf]
    exact fun h => by cases h
  · unfold consume
    rw [if_pos hnum]
    dsimp only
    split_ifs
    · refine .inl ⟨rfl, ?_⟩
      rw [hread]
      exact Bool.not_eq_true' _ ▸ Bool.eq_false_iff.2 hexp
    · exact .inl rfl

/-- A login with `id` that succeeds has come to the call that takes a use. -/
theorem owes_login (roleID remoteIP : Bytes) (now : Int) :
    Owes (learn id) (limited id) (TakesUse id) (fun o => (o == Outcome.loggedIn id) = true)
      ⟨now, none⟩ ((Act.login roleID id remoteIP now).code cidrContains) := by
  have hlearn : ∀ m c r, Seen.now m = now → (learn id m c r).now = now :=
    fun m c r hm => (learn_now m c r).trans hm
  unfold Act.code login
  simp only [andThen, bind_assoc]
  refine Owes.keeping (fun m => m.now = now) hlearn rfl fun m r hm => ?_
  cases r with
  | error e => exact fun h => by cases h
  | ok names =>
    simp only [bind_assoc]
    refine Owes.keeping (fun m => m.now = now) hlearn hm fun m role hm => ?_
    cases role with
    | none => exact fun h => by cases h
    | some role =>
      refine .inr ⟨fun h => (by cases h), fun r hr => ?_⟩
      change Owes _ _ _ _ _ (bind (bind (.ret (decodeAs Record.secretID? r)) _) _)
      cases hdec : decodeAs Record.secretID? r with
      | error e => exact fun h => by cases h
      | ok sid =>
        have hnow := hlearn m (.get (secretKey id)) r hm
        obtain rfl : now = _ := hnow.symm
        exact owes_loginWith (read_learn m hdec) (hr rfl sid (decodeAs_eq_ok.1 hdec)) fun e => rfl

theorem Act.owes (a : Act) :
    Owes (learn id) (limited id) (TakesUse id) (fun o => (o == Outcome.loggedIn id) = true) a.seen
      (a.code cidrContains) := by
  cases a with
  | login roleID v remoteIP now =>
    by_cases hv : v = id
    · rw [hv]
      exact owes_login roleID remoteIP now
    · refine Owes.of_rest fun m r => ?_
      cases r with
      | error e => exact fun h => by cases h
      | ok res => simpa [Owes, Except.isOk, Except.toBool] using hv
  | destroy v =>
    refine Owes.of_rest fun m r => ?_
    cases r with
    | error e => exact fun h => by cases h
    | ok res => exact fun h => by cases h

/-- A thread that reports the destruction of `id` has deleted its record. -/
theorem Act.must_destroy (a : Act) :
    Must reply (fun c => c = .delete (secretKey id)) (fun o => o = Outcome.destroyed id)
      (a.code cidrContains) := by
  cases a with
  | login roleID v remoteIP now =>
    refine Must.of_rest fun r => ?_
    cases r with
    | error e => exact nofun
    | ok res => exact nofun
  | destroy v =>
    refine ⟨nofun, ?_⟩
    by_cases hv : v = id
    · exact .inl (by rw [hv])
    · exact .inr fun r _ h => hv (Outcome.destroyed.inj h)

/-- What a read can return when the record is gone. -/
def goneReply (id : Bytes) : (c : Call Record) → c.Reply → Prop
  | .get k, r => k = secretKey id → r.bind Record.secretID? = none
  | _, _ => True

/-- No login with `id` succeeds if it reads no record. -/
theorem Act.must_fail (a : Act) :
    Must (goneReply id) (fun _ => False) (fun o => o = Outcome.loggedIn id)
      (a.code cidrContains) := by
  cases a with
  | login roleID v remoteIP now =>
    by_cases hv : v = id
    · subst hv
      unfold Act.code AppRole.login
      simp only [andThen, bind_assoc]
      refine Must.of_rest fun r => ?_
      cases r with
      | error e => exact fun h => by cases h
      | ok names =>
        simp only [bind_assoc]
        refine Must.of_rest fun role => ?_
        cases role with
        | none => exact fun h => by cases h
        | some role =>
          refine ⟨fun h => (by cases h), .inr fun r hr => ?_⟩
          change Must _ _ _ (bind (bind (.ret (decodeAs Record.secretID? r)) _) _)
          cases hdec : decodeAs Record.secretID? r with
          | error e => exact fun h => by cases h
          | ok sid =>
            have hnone := hr rfl
            rw [decodeAs_eq_ok.1 hdec] at hnone
            cases hnone
    · refine Must.of_rest fun r => ?_
      cases r with
      | error e => exact fun h => by cases h
      | ok res => exact fun h => hv (Outcome.loggedIn.inj h)
  | destroy v =>
    refine Must.of_rest fun r => ?_
    cases r with
    | error e => exact fun h => by cases h
    | ok res => exact fun h => by cases h

end

/-! ## All interleavings -/

section

variable {id : Bytes} {cidrContains : List Bytes → Bytes → Bool} {L : Listing} {w : LogicalWorld}

/-- Once the record is gone, no call brings it back. -/
theorem gone_handle {m : Seen} {c : Call Record} (h : stored id w.store = none)
    (hc : MayCall id m c) (hfinds : FindsRead id w m c) :
    stored id (handle L c w).2.store = none := by
  obtain ⟨-, heq | heq⟩ | ⟨sid, hsid, -⟩ := stored_handle (L := L) hc hfinds
  · rw [heq, h]
  · exact heq
  · rw [h] at hsid
    cases hsid

/-- A pool in which the record is gone: a login that has still to read it fails. -/
theorem login_fails_of_gone {p : ActPool} {sched : List (Nat × Bool)} {i : Nat}
    (hinv : p.Inv (learn id) (limited id) (MayCall id) (Limited id))
    (hgone : stored id p.world.store = none)
    (hi : ∀ t, p.threads[i]? = some t →
      Must (goneReply id) (fun _ => False) (fun o => o = .loggedIn id) t.code)
    (hmeets : Meets (stepAct id L) (fun p i => p.Guarded (FindsRead id) i) p sched) :
    (runs (stepAct id L) p sched).result? i ≠ some (.loggedIn id) := by
  intro hret
  have hreply : ∀ w c, stored id w.store = none → goneReply id c (handle L c w).1 := by
    intro w c hw
    cases c with
    | get k =>
      intro hk
      rw [← hw, stored, ← hk]
      rfl
    | _ => trivial
  have hless : ∀ c r, goneReply id c r → limited id c r := by
    intro c r hr
    cases c with
    | get k =>
      intro hk sid hsid
      rw [hr hk] at hsid
      cases hsid
    | _ => trivial
  have hinv' : p.Inv (learn id) (goneReply id) (MayCall id) fun w => stored id w.store = none :=
    ⟨hgone, fun t ht => (hinv.threads t ht).mono hless fun _ _ hQ => hQ⟩
  exact Pool.must hreply (fun w m c hw hc hfinds => gone_handle hw hc hfinds) (fun _ => False)
    (fun o => o = .loggedIn id) (fun _ => False) hinv' hmeets (fun _ _ _ _ _ _ h => h)
    (fun _ _ _ _ _ _ h => h) hi hret rfl

/-- If no call that takes a use of the SecretID fails, and each finds the record that its login
    has read, the limit of the SecretID is kept. -/
theorem secretID_limit {sid : SecretID} {n : Int} {acts : List Act} {sched : List (Nat × Bool)}
    (hstored : stored id w.store = some sid) (hnum : sid.numUses = n) (hn : 0 < n)
    (hunused : sid.usesLeft = n)
    (hmeets : Meets (stepAct id L) (Orderly id) (startActs cidrContains w acts) sched) :
    LimitKept id n (stepAct id L) (startActs cidrContains w acts) sched := by
  have hlimited : Limited id w := by
    intro sid' hsid'
    rw [hstored] at hsid'
    obtain rfl := Option.some.inj hsid'
    exact ⟨hnum ▸ hn, hunused ▸ hn⟩
  have hinv : (startActs cidrContains w acts).Inv (learn id) (limited id) (MayCall id)
      (Limited id) := by
    refine ⟨hlimited, fun t ht => ?_⟩
    obtain ⟨a, -, rfl⟩ := List.mem_map.1 ht
    exact a.traced
  have hreply : ∀ w c, Limited id w → limited id c (handle L c w).1 :=
    fun w c hw => limited_handle c hw
  have hstep : ∀ w m c, Limited id w → MayCall id m c → FindsRead id w m c →
      Limited id (handle L c w).2 := fun w m c hw hc hfinds => hw.step hc hfinds
  have hguarded : ∀ {p sched}, Meets (stepAct id L) (Orderly id) p sched →
      Meets (stepAct id L) (Pool.Guarded (FindsRead id)) p sched :=
    fun h => h.imp fun _ _ horderly => horderly.1
  constructor
  · have hcount : (runs (stepAct id L) (startActs cidrContains w acts) sched).count
        (· == .loggedIn id) ≤ usesLeft id w :=
      Pool.tally hreply hstep (usesLeft id) hinv hmeets
        (fun w m c _ hc hfinds => usesLeft_le hc hfinds)
        (fun w m c hw hc hfinds htakes => usesLeft_lt hw hc hfinds htakes)
        (fun t ht => by
          obtain ⟨a, -, rfl⟩ := List.mem_map.1 ht
          exact a.owes)
    have hstart : usesLeft id w = n.toNat := by
      unfold usesLeft
      rw [hstored, ← hunused]
      rfl
    omega
  · intro before after hsched i j hdestroyed hidle
    rw [hsched] at hmeets ⊢
    obtain ⟨hbefore, hafter⟩ := meets_append.1 hmeets
    have hgone :
        stored id (runs (stepAct id L) (startActs cidrContains w acts) before).world.store =
        none := by
      refine Pool.must hreply hstep (fun c => c = .delete (secretKey id))
        (fun o => o = .destroyed id) (fun w => stored id w.store = none) hinv (hguarded hbefore)
        (fun w m c _ hc hfinds hw => gone_handle hw hc hfinds) ?_ ?_ hdestroyed rfl
      · rintro w m c - - - rfl
        simp only [stored, handle, lookup_erase, if_true]
        rfl
      · intro t ht
        obtain ⟨a, -, rfl⟩ := List.mem_map.1 (List.mem_of_getElem? ht)
        exact a.must_destroy
    rw [runs_append]
    refine login_fails_of_gone (Pool.Inv.runs hreply hstep hinv (hguarded hbefore)) hgone
      (fun t ht => ?_) (hguarded hafter)
    have hstart : (startActs cidrContains w acts).threads[i]? = some t :=
      (Pool.threads_of_idle _ hidle).symm.trans ht
    obtain ⟨a, -, rfl⟩ := List.mem_map.1 (List.mem_of_getElem? hstart)
    exact a.must_fail

end

/-! ### A SecretID with two uses -/

def ciRole : Role where
  name := ascii "ci"
  roleID := ascii "r"
  policies := [ascii "dev"]
  secretIDTTL := 0
  secretIDNumUses := 2
  tokenTTL := 0
  boundCIDRs := []
  tuckNamespace := []

def ciSecret (usesLeft : Int) : SecretID where
  id := ascii "s"
  roleName := ascii "ci"
  createdAt := 0
  expiresAt := none
  numUses := usesLeft
  usesLeft := usesLeft
  boundCIDRs := []

def ciWorld (uses : Int) : LogicalWorld where
  store := ((∅ : LogicalStore).insert (roleKey (ascii "ci")) (.appRole ciRole)).insert
    (secretKey (ascii "s")) (.secretID (ciSecret uses))
  rng := fun _ => 0

def ciLogin : Act := .login (ascii "r") (ascii "s") [] 0

/-- Two logins in turn, then a destruction and a third login. -/
theorem secretID_limit_inTurn :
    LimitKept (ascii "s") 2 (stepAct (ascii "s") sorted)
      (startActs (fun _ _ => true) (ciWorld 2) [ciLogin, ciLogin, .destroy (ascii "s"), ciLogin])
      [(0, true), (1, true), (0, true), (0, true), (0, true), (1, true), (1, true), (1, true),
        (2, true), (3, true), (3, true), (3, true)] :=
  secretID_limit rfl rfl (by decide) rfl (by decide +kernel)

/-- Two logins read a SecretID with one use before either takes it, and both succeed; two in turn
    succeed if the first cannot delete the record; and a login that has read the record writes it
    back after its destruction, so that a later login succeeds. -/
theorem secretID_overrun :
    let step := stepAct (ascii "s") sorted
    let start uses acts := startActs (fun _ _ => true) (ciWorld uses) acts
    ¬LimitKept (ascii "s") 1 step (start 1 [ciLogin, ciLogin])
        [(0, true), (0, true), (0, true), (1, true), (1, true), (1, true), (0, true), (1, true)] ∧
      ¬LimitKept (ascii "s") 1 step (start 1 [ciLogin, ciLogin])
        [(0, true), (0, true), (0, true), (0, false), (1, true), (1, true), (1, true), (1, true)] ∧
      ¬LimitKept (ascii "s") 2 step (start 2 [ciLogin, .destroy (ascii "s"), ciLogin])
        ([(0, true), (0, true), (0, true), (1, true)] ++
          [(0, true), (2, true), (2, true), (2, true), (2, true)]) := by
  intro step start
  refine ⟨fun h => ?_, fun h => ?_, fun h => ?_⟩
  · exact absurd h.1 (by decide +kernel)
  · exact absurd h.1 (by decide +kernel)
  · exact h.2 _ _ rfl 2 1 (by decide +kernel) (by decide) (by decide +kernel)

end Tuck.AppRole
