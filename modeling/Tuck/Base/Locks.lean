/-
  Programs that run side by side under locks. A task waits until nobody else holds its lock,
  then runs its program call by call, between the calls of the others, and gives the lock back
  when it returns. A task without a lock can start at any time. Completed tasks are logged in
  the order in which they give their locks back.

  `Serial` is what makes locked tasks run as if one after the other: every task has at most one
  resource, tasks with one resource share a lock, and the calls of a task leave the other
  resources alone. Then what holds of a resource after the logged tasks and is kept by each
  task run alone holds in every interleaving (`LockPool.Inv.runs`); a task that is still
  running counts as if it were run to its end.
-/
import Tuck.Base.Threads

namespace Tuck.Base

open Prog List

variable {C : Type} {R : C → Type} {M W α K Q : Type}

inductive Phase where
  | waiting
  | running
  | done
  deriving DecidableEq

/-- A task: its lock, where it stands, what is left of its program and what it remembers. -/
structure Task (C : Type) (R : C → Type) (M α K : Type) where
  lock : Option K
  phase : Phase
  code : Prog C R α
  memory : M

structure LockPool (C : Type) (R : C → Type) (M W α K : Type) where
  world : W
  tasks : List (Task C R M α K)
  log : List (Nat × α)

/-- Nobody holds the lock. -/
def LockPool.free [DecidableEq K] (p : LockPool C R M W α K) : Option K → Bool
  | none => true
  | some k => p.tasks.all fun t => !(t.phase = .running ∧ t.lock = some k)

/-- The task `i` takes its lock, makes its next call, or gives its lock back. -/
def LockPool.step [DecidableEq K] (h : (c : C) → W → R c × W) (learn : M → (c : C) → R c → M)
    (p : LockPool C R M W α K) (i : Nat) : LockPool C R M W α K :=
  match p.tasks[i]? with
  | none => p
  | some t =>
      match t.phase, t.code with
      | .done, _ => p
      | .waiting, _ =>
          if p.free t.lock then { p with tasks := p.tasks.set i { t with phase := .running } }
          else p
      | .running, .ret a =>
          { p with tasks := p.tasks.set i { t with phase := .done }, log := p.log ++ [(i, a)] }
      | .running, .call c k =>
          { p with
            world := (h c p.world).2
            tasks := p.tasks.set i
              { t with
                code := k (some (h c p.world).1)
                memory := learn t.memory c (h c p.world).1 } }

section

variable [DecidableEq K] {h : (c : C) → W → R c × W} {learn : M → (c : C) → R c → M}

theorem LockPool.free_iff {p : LockPool C R M W α K} {k : K} :
    p.free (some k) = true ↔ ∀ t ∈ p.tasks, t.phase = .running → t.lock ≠ some k := by
  simp only [LockPool.free, all_eq_true, Bool.not_eq_true', decide_eq_false_iff_not, not_and, ne_eq]

variable (h learn) in
/-- Everything a step can do. -/
theorem LockPool.step_cases (p : LockPool C R M W α K) (i : Nat) :
    p.step h learn i = p ∨ ∃ t, p.tasks[i]? = some t ∧
      ((t.phase = .waiting ∧ p.free t.lock = true ∧ p.step h learn i =
          { p with tasks := p.tasks.set i { t with phase := .running } }) ∨
        (∃ a, t.phase = .running ∧ t.code = .ret a ∧ p.step h learn i =
          { p with tasks := p.tasks.set i { t with phase := .done }, log := p.log ++ [(i, a)] }) ∨
        ∃ c k, t.phase = .running ∧ t.code = .call c k ∧ p.step h learn i =
          { p with
            world := (h c p.world).2
            tasks := p.tasks.set i
              { t with
                code := k (some (h c p.world).1)
                memory := learn t.memory c (h c p.world).1 } }) := by
  unfold LockPool.step
  cases hi : p.tasks[i]? with
  | none => exact .inl rfl
  | some t =>
    obtain ⟨lock, phase, code, m⟩ := t
    cases phase with
    | done => exact .inl rfl
    | waiting =>
      by_cases hfree : p.free lock = true
      · exact .inr ⟨_, rfl, .inl ⟨rfl, hfree, if_pos hfree⟩⟩
      · exact .inl (if_neg hfree)
    | running =>
      cases code with
      | ret a => exact .inr ⟨_, rfl, .inr (.inl ⟨a, rfl, rfl, rfl⟩)⟩
      | call c k => exact .inr ⟨_, rfl, .inr (.inr ⟨c, k, rfl, rfl, rfl⟩)⟩

end

/-! ## One after the other -/

section

variable {ts : List (Task C R M α K)} {i : Nat} {t t' : Task C R M α K}

/-- What a task list holds after one task changed. -/
theorem getElem?_set_cases {j : Nat} {u : Task C R M α K} (hi : ts[i]? = some t)
    (hj : (ts.set i t')[j]? = some u) : j = i ∧ u = t' ∨ j ≠ i ∧ ts[j]? = some u := by
  by_cases hij : i = j
  · subst hij
    rw [List.getElem?_set_self (List.getElem?_eq_some_iff.1 hi).1] at hj
    exact .inl ⟨rfl, (Option.some.inj hj).symm⟩
  · rw [List.getElem?_set_ne hij] at hj
    exact .inr ⟨fun h => hij h.symm, hj⟩

/-- Before one task changed no other task was at the resource `q` either. -/
theorem idle_of_set {res : Nat → Option Q} {q : Q} (hi : ts[i]? = some t)
    (hself : t.phase = .running → res i ≠ some q)
    (h : ∀ j u, (ts.set i t')[j]? = some u → u.phase = .running → res j ≠ some q) :
    ∀ j u, ts[j]? = some u → u.phase = .running → res j ≠ some q := by
  intro j u hj hu
  by_cases hji : j = i
  · subst hji
    cases hi.symm.trans hj
    exact hself hu
  · exact h j u (by rwa [List.getElem?_set_ne (Ne.symm hji)]) hu

end

/-- The discipline of locked tasks. `res i` is the resource of the task `i`, `own r` the calls
    allowed to a task with resource `r`, `sim q` relates worlds that the tasks of `q` cannot
    tell apart, and `good q` is what holds after the completed tasks of `q`. -/
structure Serial (h : (c : C) → W → R c × W) (reply : (c : C) → R c → Prop)
    (code : Nat → Prog C R α) (res : Nat → Option Q) (own : Option Q → C → Prop)
    (sim : Q → W → W → Prop) (good : Q → List (Nat × α) → W → Prop) : Prop where
  replies : ∀ c w, reply c (h c w).1
  same : ∀ q c w w', own (some q) c → sim q w w' →
    (h c w).1 = (h c w').1 ∧ sim q (h c w).2 (h c w').2
  apart : ∀ q r c w, own r c → r ≠ some q → sim q w (h c w).2
  respects : ∀ q l w w', sim q w w' → good q l w → good q l w'
  calls : ∀ i, Calls reply (own (res i)) (code i)
  alone : ∀ q i l w, res i = some q → good q l w →
    good q (l ++ [(i, (run h (code i) w).1)]) (run h (code i) w).2

/-- The completed tasks of a resource. -/
def logOf [DecidableEq Q] (res : Nat → Option Q) (q : Q) (log : List (Nat × α)) : List (Nat × α) :=
  log.filter fun e => res e.1 = some q

section

variable [DecidableEq Q] {res : Nat → Option Q}

theorem logOf_append_self {q : Q} {i : Nat} (hi : res i = some q) (log : List (Nat × α)) (a : α) :
    logOf res q (log ++ [(i, a)]) = logOf res q log ++ [(i, a)] := by
  simp [logOf, hi]

theorem logOf_append_other {q : Q} {i : Nat} (hi : res i ≠ some q) (log : List (Nat × α)) (a : α) :
    logOf res q (log ++ [(i, a)]) = logOf res q log := by
  simp [logOf, hi]

end

/-- A program run from worlds that its calls cannot tell apart. -/
theorem Prog.Calls.run_rel {h : (c : C) → W → R c × W} {reply : (c : C) → R c → Prop} {P : C → Prop}
    {rel : W → W → Prop} {p : Prog C R α} (hp : Calls reply P p)
    (hreply : ∀ c w, reply c (h c w).1)
    (hrel : ∀ c w w', P c → rel w w' → (h c w).1 = (h c w').1 ∧ rel (h c w).2 (h c w').2)
    {w w' : W} (hw : rel w w') :
    (run h p w).1 = (run h p w').1 ∧ rel (run h p w).2 (run h p w').2 := by
  rw [← runAllowed_all h p 0 w, ← runAllowed_all h p 0 w']
  exact hp.runAllowed_rel hreply hrel _ 0 hw

section

variable [DecidableEq K] [DecidableEq Q] {h : (c : C) → W → R c × W}
  {learn : M → (c : C) → R c → M} {reply : (c : C) → R c → Prop} {code : Nat → Prog C R α}
  {res : Nat → Option Q} {own : Option Q → C → Prop} {sim : Q → W → W → Prop}
  {good : Q → List (Nat × α) → W → Prop}

variable (reply code res own) in
/-- Tasks that keep to their locks; `stripe` is the lock of each resource. -/
structure Orderly (stripe : Q → K) (ts : List (Task C R M α K)) : Prop where
  locks : ∀ i t q, ts[i]? = some t → res i = some q → t.lock = some (stripe q)
  waiting : ∀ i t, ts[i]? = some t → t.phase = .waiting → t.code = code i
  calls : ∀ i t, ts[i]? = some t → Calls reply (own (res i)) t.code
  single : ∀ i j t u q r, ts[i]? = some t → ts[j]? = some u → t.phase = .running →
    u.phase = .running → res i = some q → res j = some r → stripe q = stripe r → i = j

variable (h reply code res own good) in
/-- The invariant of a pool of locked tasks. -/
structure LockPool.Inv (stripe : Q → K) (p : LockPool C R M W α K) : Prop where
  orderly : Orderly reply code res own stripe p.tasks
  idle : ∀ q, (∀ i t, p.tasks[i]? = some t → t.phase = .running → res i ≠ some q) →
    good q (logOf res q p.log) p.world
  busy : ∀ q i t, p.tasks[i]? = some t → t.phase = .running → res i = some q →
    good q (logOf res q p.log ++ [(i, (run h t.code p.world).1)]) (run h t.code p.world).2

variable {stripe : Q → K} {p : LockPool C R M W α K} {i : Nat} {t : Task C R M α K}

omit [DecidableEq K] [DecidableEq Q] in
/-- One task changes, and holds no lock that another one holds. -/
theorem Orderly.set {ts : List (Task C R M α K)} (hts : Orderly reply code res own stripe ts)
    {t' : Task C R M α K} (hi : ts[i]? = some t) (hlock : t'.lock = t.lock)
    (hwaiting : t'.phase = .waiting → t'.code = code i)
    (hcalls : Calls reply (own (res i)) t'.code)
    (hfree : t'.phase = .running → ∀ q r j u, res i = some q → res j = some r → j ≠ i →
      ts[j]? = some u → u.phase = .running → stripe q ≠ stripe r) :
    Orderly reply code res own stripe (ts.set i t') := by
  refine ⟨fun j u q hj => forall_set (fun j _ u hj => hts.locks j u q hj)
    (fun hq => hlock.trans (hts.locks i t q hi hq)) j u hj,
    forall_set (fun j _ => hts.waiting j) hwaiting, forall_set (fun j _ => hts.calls j) hcalls, ?_⟩
  intro j k u v q r hj hk hu hv hq hr heq
  obtain ⟨rfl, rfl⟩ | ⟨hji, hj'⟩ := getElem?_set_cases hi hj
  · obtain ⟨rfl, rfl⟩ | ⟨hki, hk'⟩ := getElem?_set_cases hi hk
    · rfl
    · exact absurd heq (hfree hu q r k v hq hr hki hk' hv)
  · obtain ⟨rfl, rfl⟩ | ⟨hki, hk'⟩ := getElem?_set_cases hi hk
    · exact absurd heq.symm (hfree hv r q j u hr hq hji hj' hu)
    · exact hts.single j k u v q r hj' hk' hu hv hq hr heq

variable (hp : p.Inv h reply code res own good stripe)

include hp

omit [DecidableEq K] in
/-- A task gives its lock back. -/
theorem LockPool.Inv.finish {a : α} (hi : p.tasks[i]? = some t) (hrun : t.phase = .running)
    (hret : t.code = .ret a) :
    LockPool.Inv h reply code res own good stripe
      { p with tasks := p.tasks.set i { t with phase := .done }, log := p.log ++ [(i, a)] } := by
  refine ⟨?_, fun q hq => ?_, fun q j u hj hu hq => ?_⟩
  · exact hp.orderly.set hi rfl nofun (hp.orderly.calls i t hi) nofun
  · by_cases hres : res i = some q
    · have hbusy := hp.busy q i t hi hrun hres
      rw [hret] at hbusy
      rw [logOf_append_self hres]
      exact hbusy
    · rw [logOf_append_other hres]
      exact hp.idle q (idle_of_set hi (fun _ => hres) hq)
  · obtain ⟨rfl, rfl⟩ | ⟨hji, hj⟩ := getElem?_set_cases hi hj
    · cases hu
    · have hres : res i ≠ some q := fun hres =>
        hji (hp.orderly.single j i u t q q hj hi hu hrun hq hres rfl)
      rw [logOf_append_other hres]
      exact hp.busy q j u hj hu hq

variable (hser : Serial h reply code res own sim good)

include hser

/-- A task takes its lock. -/
theorem LockPool.Inv.acquire (hi : p.tasks[i]? = some t) (hwait : t.phase = .waiting)
    (hfree : p.free t.lock = true) :
    LockPool.Inv h reply code res own good stripe
      { p with tasks := p.tasks.set i { t with phase := .running } } := by
  have hnobody : ∀ q r j u, res i = some q → res j = some r → p.tasks[j]? = some u →
      u.phase = .running → stripe q ≠ stripe r := by
    intro q r j u hq hr hj hrun heq
    rw [hp.orderly.locks i t q hi hq, LockPool.free_iff] at hfree
    exact hfree u (mem_of_getElem? hj) hrun (heq ▸ hp.orderly.locks j u r hj hr)
  refine ⟨?_, fun q hq => ?_, fun q j u hj hrun hq => ?_⟩
  · refine hp.orderly.set hi rfl nofun (hp.orderly.calls i t hi) ?_
    intro _ q r j u hq hr _ hj hu
    exact hnobody q r j u hq hr hj hu
  · exact hp.idle q (idle_of_set hi (fun hrun => by cases hwait.symm.trans hrun) hq)
  · obtain ⟨rfl, rfl⟩ | ⟨-, hj⟩ := getElem?_set_cases hi hj
    · have hidle := hp.idle q fun k v hk hv hr => hnobody q q k v hq hr hk hv rfl
      have hcode := hp.orderly.waiting j t hi hwait
      dsimp only
      rw [hcode]
      exact hser.alone q j _ _ hq hidle
    · exact hp.busy q j u hj hrun hq

omit [DecidableEq K] in
/-- A task makes a call. -/
theorem LockPool.Inv.call {c : C} {k : Option (R c) → Prog C R α} (hi : p.tasks[i]? = some t)
    (hrun : t.phase = .running) (hcall : t.code = .call c k) (m : M) :
    LockPool.Inv h reply code res own good stripe
      { p with
        world := (h c p.world).2
        tasks := p.tasks.set i { t with code := k (some (h c p.world).1), memory := m } } := by
  have hcalls := hp.orderly.calls i t hi
  rw [hcall] at hcalls
  refine ⟨?_, fun q hq => ?_, fun q j u hj hu hq => ?_⟩
  · refine hp.orderly.set hi rfl (fun hwait => ?_) (hcalls.2.2 _ (hser.replies c p.world)) ?_
    · cases hrun.symm.trans hwait
    · intro _ q r j u hq hr hji hj hu heq
      exact hji (hp.orderly.single i j t u q r hi hj hrun hu hq hr heq).symm
  · have hidle := idle_of_set hi (fun _ =>
      hq i _ (List.getElem?_set_self (List.getElem?_eq_some_iff.1 hi).1) hrun) hq
    have hsim := hser.apart q (res i) c p.world hcalls.1 (hidle i t hi hrun)
    exact hser.respects q _ _ _ hsim (hp.idle q hidle)
  · obtain ⟨rfl, rfl⟩ | ⟨hji, hj⟩ := getElem?_set_cases hi hj
    · have hbusy := hp.busy q j t hi hrun hq
      rw [hcall] at hbusy
      exact hbusy
    · have hres : res i ≠ some q := fun hres =>
        hji (hp.orderly.single j i u t q q hj hi hu hrun hq hres rfl)
      have hsim := hser.apart q (res i) c p.world hcalls.1 hres
      have huc := hp.orderly.calls j u hj
      rw [hq] at huc
      -- the other task goes on as if the call had not happened
      obtain ⟨hsame, hworld⟩ := huc.run_rel hser.replies (hser.same q) hsim
      rw [← hsame]
      exact hser.respects q _ _ _ hworld (hp.busy q j u hj hu hq)

theorem LockPool.Inv.step (i : Nat) :
    (p.step h learn i).Inv h reply code res own good stripe := by
  obtain heq | ⟨t, hi, ⟨hwait, hfree, heq⟩ | ⟨a, hrun, hret, heq⟩ | ⟨c, k, hrun, hcall, heq⟩⟩ :=
    p.step_cases h learn i
  · rw [heq]
    exact hp
  · rw [heq]
    exact hp.acquire hser hi hwait hfree
  · rw [heq]
    exact hp.finish hi hrun hret
  · rw [heq]
    exact hp.call hser hi hrun hcall _

theorem LockPool.Inv.runs (sched : List Nat) :
    (runs (LockPool.step h learn) p sched).Inv h reply code res own good stripe := by
  induction sched generalizing p with
  | nil => exact hp
  | cons i sched ih => exact ih (hp.step hser i)

end

/-! ## What the tasks remember -/

/-- A traced program run to its end: the result fits a memory that extends the one now. -/
theorem Traced.run {h : (c : C) → W → R c × W} {learn : M → (c : C) → R c → M}
    {reply : (c : C) → R c → Prop} {P : M → C → Prop} {post : M → α → Prop} {le : M → M → Prop}
    (hrefl : ∀ m, le m m) (htrans : ∀ {a b c}, le a b → le b c → le a c)
    (hlearn : ∀ m c r, le m (learn m c r)) (hreply : ∀ c w, reply c (h c w).1) {m : M}
    {p : Prog C R α} (hp : Traced learn reply P post m p) (w : W) :
    ∃ m', le m m' ∧ post m' (run h p w).1 := by
  induction p generalizing m w with
  | ret a => exact ⟨m, hrefl m, hp⟩
  | call c k ih =>
    obtain ⟨m', hle, hpost⟩ := ih _ (hp.2.2 _ (hreply c w)) (h c w).2
    exact ⟨m', htrans (hlearn m c _) hle, hpost⟩

/-- The log is of the tasks that are done, a task that waits remembers nothing yet, and every
    task is traced. -/
structure LockPool.Recorded (learn : M → (c : C) → R c → M) (reply : (c : C) → R c → Prop)
    (post : Nat → M → α → Prop) (m₀ : M) (p : LockPool C R M W α K) : Prop where
  logged : ∀ i a, (i, a) ∈ p.log → ∃ t, p.tasks[i]? = some t ∧ t.phase = .done ∧ t.code = .ret a
  done : ∀ (i : Nat) t, p.tasks[i]? = some t → t.phase = .done →
    ∃ a, t.code = .ret a ∧ (i, a) ∈ p.log
  fresh : ∀ (i : Nat) t, p.tasks[i]? = some t → t.phase = .waiting → t.memory = m₀
  traced : ∀ (i : Nat) t, p.tasks[i]? = some t →
    Traced learn reply (fun _ _ => True) (post i) t.memory t.code

section

variable [DecidableEq K] {h : (c : C) → W → R c × W} {learn : M → (c : C) → R c → M}
  {reply : (c : C) → R c → Prop} {post : Nat → M → α → Prop} {m₀ : M} {p : LockPool C R M W α K}
  {i : Nat} {t : Task C R M α K} (hp : p.Recorded learn reply post m₀)

include hp

omit [DecidableEq K] in
/-- A task that is not done changes. -/
theorem LockPool.Recorded.set (t' : Task C R M α K)
    (hi : p.tasks[i]? = some t) (hphase : t.phase ≠ .done) (hphase' : t'.phase = .running)
    (htraced : Traced learn reply (fun _ _ => True) (post i) t'.memory t'.code) (w : W) :
    LockPool.Recorded learn reply post m₀ { p with world := w, tasks := p.tasks.set i t' } := by
  refine ⟨fun j a hj => ?_, forall_set (fun j _ => hp.done j) fun hu => ?_,
    forall_set (fun j _ => hp.fresh j) fun hu => ?_, forall_set (fun j _ => hp.traced j) htraced⟩
  · obtain ⟨u, hu, hdone, hret⟩ := hp.logged j a hj
    refine ⟨u, ?_, hdone, hret⟩
    refine (List.getElem?_set_ne ?_).trans hu
    rintro rfl
    cases hi.symm.trans hu
    exact hphase hdone
  · cases hphase'.symm.trans hu
  · cases hphase'.symm.trans hu

omit [DecidableEq K] in
/-- A task is done. -/
theorem LockPool.Recorded.finish {a : α} (hi : p.tasks[i]? = some t) (hrun : t.phase = .running)
    (hret : t.code = .ret a) :
    LockPool.Recorded learn reply post m₀
      { p with tasks := p.tasks.set i { t with phase := .done }, log := p.log ++ [(i, a)] } := by
  have hself : (p.tasks.set i { t with phase := .done })[i]? = some { t with phase := .done } :=
    List.getElem?_set_self (List.getElem?_eq_some_iff.1 hi).1
  refine ⟨fun j b hj => ?_, forall_set (fun j _ u hj hu => ?_) fun _ =>
    ⟨a, hret, mem_append_right _ mem_cons_self⟩, forall_set (fun j _ => hp.fresh j) nofun,
    forall_set (fun j _ => hp.traced j) (hp.traced i t hi)⟩
  · obtain hj | hj := mem_append.1 hj
    · obtain ⟨u, hu, hdone, hcode⟩ := hp.logged j b hj
      refine ⟨u, ?_, hdone, hcode⟩
      refine (List.getElem?_set_ne ?_).trans hu
      rintro rfl
      cases hi.symm.trans hu
      cases hrun.symm.trans hdone
    · cases mem_singleton.1 hj
      exact ⟨_, hself, rfl, hret⟩
  · obtain ⟨b, hb, hlog⟩ := hp.done j u hj hu
    exact ⟨b, hb, mem_append_left _ hlog⟩

theorem LockPool.Recorded.step (hreply : ∀ c w, reply c (h c w).1) (i : Nat) :
    (p.step h learn i).Recorded learn reply post m₀ := by
  obtain heq | ⟨t, hi, ⟨hwait, hfree, heq⟩ | ⟨a, hrun, hret, heq⟩ | ⟨c, k, hrun, hcall, heq⟩⟩ :=
    p.step_cases h learn i
  · rw [heq]
    exact hp
  · rw [heq]
    exact hp.set { t with phase := .running } hi (by rw [hwait]; decide) rfl (hp.traced i t hi)
      p.world
  · rw [heq]
    exact hp.finish hi hrun hret
  · rw [heq]
    have htraced := hp.traced i t hi
    rw [hcall] at htraced
    exact hp.set { t with code := k _, memory := learn t.memory c _ } hi (by rw [hrun]; decide) hrun
      (htraced.2.2 _ (hreply c p.world)) _

theorem LockPool.Recorded.runs (hreply : ∀ c w, reply c (h c w).1) (sched : List Nat) :
    (runs (LockPool.step h learn) p sched).Recorded learn reply post m₀ := by
  induction sched generalizing p with
  | nil => exact hp
  | cons i sched ih => exact ih (hp.step hreply i)

end

end Tuck.Base
