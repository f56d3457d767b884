/-
  Programs that call out: a computation is a value or a call whose reply (or failure) it
  continues from. Over one handler of the calls a program can be run without faults, or
  under a plan that makes calls fail without effect and kills the process around a call.

  `Safe faulty inv post` is the program logic: `inv` holds whenever a call is to be made and
  `post` of every result, whichever calls fail when `faulty`. Its rules are stated once
  here; the proofs about a program follow the program's own binds.
-/
import Mathlib

namespace Tuck.Base

/-- A program with calls `C`, replies `R c` and result `α`; a failed call replies `none`. -/
inductive Prog (C : Type) (R : C → Type) (α : Type) where
  | ret (a : α)
  | call (c : C) (k : Option (R c) → Prog C R α)

namespace Prog

variable {C : Type} {R : C → Type} {α β γ W E : Type}

def bind : Prog C R α → (α → Prog C R β) → Prog C R β
  | ret a, f => f a
  | call c k, f => call c fun r => (k r).bind f

/-- Continue after a success, stop at an error. -/
def andThen (p : Prog C R (Except E α)) (f : α → Prog C R (Except E β)) : Prog C R (Except E β) :=
  p.bind fun
    | .ok a => f a
    | .error e => ret (.error e)

/-- A call whose failure is the error `e`. -/
def attempt (e : E) (c : C) : Prog C R (Except E (R c)) :=
  call c fun
    | some r => ret (.ok r)
    | none => ret (.error e)

/-- Run a program and ignore what it returns. -/
def ignore (p : Prog C R α) : Prog C R Unit := p.bind fun _ => ret ()

/-- Run a program only on a condition. -/
def only (b : Bool) (p : Prog C R Unit) : Prog C R Unit := if b then p else ret ()

/-! ## Loops -/

/-- Run a program for each element and ignore what it returns. -/
def each (f : β → Prog C R α) : List β → Prog C R Unit
  | [] => ret ()
  | x :: xs => (f x).bind fun _ => each f xs

/-- Run a program for each element up to the first error. -/
def eachOk (f : β → Prog C R (Except E Unit)) : List β → Prog C R (Except E Unit)
  | [] => ret (.ok ())
  | x :: xs => (f x).andThen fun _ => eachOk f xs

/-- Run a program for each element and collect the results that are there. -/
def collect (f : β → Prog C R (Option α)) : List β → Prog C R (List α)
  | [] => ret []
  | x :: xs => (f x).bind fun a => (collect f xs).bind fun as => ret (a.toList ++ as)

theorem bind_assoc (p : Prog C R α) (f : α → Prog C R β) (g : β → Prog C R γ) :
    (p.bind f).bind g = p.bind fun a => (f a).bind g := by
  induction p with
  | ret a => rfl
  | call c k ih =>
    simp only [bind]
    congr 1
    funext r
    exact ih r

/-! ## Running without faults -/

variable (h : (c : C) → W → R c × W)

def run : Prog C R α → W → α × W
  | ret a, w => (a, w)
  | call c k, w => run (k (some (h c w).1)) (h c w).2

@[simp] theorem run_ret (a : α) (w : W) : run h (ret a : Prog C R α) w = (a, w) := rfl

@[simp] theorem run_bind (p : Prog C R α) (f : α → Prog C R β) (w : W) :
    run h (p.bind f) w = run h (f (run h p w).1) (run h p w).2 := by
  induction p generalizing w with
  | ret a => rfl
  | call c k ih => exact ih _ _

@[simp] theorem run_andThen (p : Prog C R (Except E α)) (f : α → Prog C R (Except E β)) (w : W) :
    run h (p.andThen f) w =
      match (run h p w).1 with
      | .ok a => run h (f a) (run h p w).2
      | .error e => (.error e, (run h p w).2) := by
  rw [andThen, run_bind]
  split <;> simp_all

@[simp] theorem run_ignore (p : Prog C R α) (w : W) :
    run h p.ignore w = ((), (run h p w).2) := run_bind h p _ w

@[simp] theorem run_only (b : Bool) (p : Prog C R Unit) (w : W) :
    run h (only b p) w = ((), if b then (run h p w).2 else w) := by
  unfold only
  split_ifs <;> rfl

@[simp] theorem run_each (f : β → Prog C R α) (xs : List β) (w : W) :
    run h (each f xs) w = ((), xs.foldl (fun w x => (run h (f x) w).2) w) := by
  induction xs generalizing w with
  | nil => rfl
  | cons x xs ih => exact (run_bind h _ _ w).trans (ih _)

variable {w : W}

/-- A loop whose body changes nothing collects what the body finds. -/
theorem run_collect {f : β → Prog C R (Option α)} {g : β → Option α}
    (hf : ∀ x, run h (f x) w = (g x, w)) (xs : List β) :
    run h (collect f xs) w = (xs.filterMap g, w) := by
  induction xs with
  | nil => rfl
  | cons x xs ih =>
    rw [collect, run_bind, hf, run_bind, ih, List.filterMap_cons]
    cases g x <;> rfl

/-- The calls of a run without faults. -/
def trace : Prog C R α → W → List C
  | ret _, _ => []
  | call c k, w => c :: trace (k (some (h c w).1)) (h c w).2

/-! ## Running under faults -/

/-- What happens at one call. -/
inductive Fault where
  | none
  | fail
  | dieBefore
  | dieAfter
  deriving DecidableEq

/-- How a run ends. -/
inductive Outcome (W α : Type) where
  | done (a : α) (w : W)
  | died (w : W)

/-- Run under a plan with one entry for each call; past its end there are no faults. -/
def exec : List Fault → Prog C R α → W → Outcome W α
  | _, ret a, w => .done a w
  | [], call c k, w => exec [] (k (some (h c w).1)) (h c w).2
  | .none :: plan, call c k, w => exec plan (k (some (h c w).1)) (h c w).2
  | .fail :: plan, call _ k, w => exec plan (k none) w
  | .dieBefore :: _, call _ _, w => .died w
  | .dieAfter :: _, call c _, w => .died (h c w).2

/-- Run with some calls refused: the `n`-th call takes effect if `allow n` accepts it, and
    fails without effect if not. -/
def runAllowed (allow : Nat → C → Bool) : Nat → Prog C R α → W → α × W
  | _, ret a, w => (a, w)
  | n, call c k, w =>
      if allow n c then runAllowed allow (n + 1) (k (some (h c w).1)) (h c w).2
      else runAllowed allow (n + 1) (k none) w

/-- `b` and `w'` are what a run of the program from `w` can end with, if any call may fail. -/
def Can : Prog C R α → W → α → W → Prop
  | ret a, w, b, w' => a = b ∧ w = w'
  | call c k, w, b, w' => Can (k none) w b w' ∨ Can (k (some (h c w).1)) (h c w).2 b w'

variable {p : Prog C R α}

variable {h} in
theorem can_bind {f : α → Prog C R β} {w'' : W} {b : β} :
    Can h (p.bind f) w b w'' ↔ ∃ a w', Can h p w a w' ∧ Can h (f a) w' b w'' := by
  induction p generalizing w with
  | ret a =>
    constructor
    · intro hf
      exact ⟨a, w, ⟨rfl, rfl⟩, hf⟩
    · rintro ⟨_, _, ⟨rfl, rfl⟩, hf⟩
      exact hf
  | call c k ih =>
    simp only [bind, Can, ih]
    constructor
    · rintro (⟨a, w', hk, hf⟩ | ⟨a, w', hk, hf⟩)
      · exact ⟨a, w', .inl hk, hf⟩
      · exact ⟨a, w', .inr hk, hf⟩
    · rintro ⟨a, w', hk | hk, hf⟩
      · exact .inl ⟨a, w', hk, hf⟩
      · exact .inr ⟨a, w', hk, hf⟩

variable {h} in
theorem can_andThen {p : Prog C R (Except E α)} {f : α → Prog C R (Except E β)} {w'' : W} {b : β} :
    Can h (p.andThen f) w (.ok b) w'' ↔
      ∃ a w', Can h p w (.ok a) w' ∧ Can h (f a) w' (.ok b) w'' := by
  unfold andThen
  rw [can_bind]
  constructor
  · rintro ⟨r, w', hp, hf⟩
    match r with
    | .ok a => exact ⟨a, w', hp, hf⟩
    | .error e => exact absurd hf.1 (by simp)
  · rintro ⟨a, w', hp, hf⟩
    exact ⟨.ok a, w', hp, hf⟩

/-- A run asks for its own calls only. -/
theorem runAllowed_congr {allow allow' : Nat → C → Bool} {n : Nat}
    (hallow : ∀ i, n ≤ i → ∀ c, allow i c = allow' i c) (p : Prog C R α) (w : W) :
    runAllowed h allow n p w = runAllowed h allow' n p w := by
  induction p generalizing n w with
  | ret a => rfl
  | call c k ih =>
    have hlater : ∀ i, n + 1 ≤ i → ∀ c, allow i c = allow' i c := fun i hi => hallow i (by omega)
    simp only [runAllowed, hallow n le_rfl c, ih _ hlater]

/-- What a run can end with is what it ends with for some choice of refused calls. -/
theorem can_iff {w' : W} {b : α} (n : Nat) :
    Can h p w b w' ↔ ∃ allow : Nat → C → Bool, runAllowed h allow n p w = (b, w') := by
  induction p generalizing n w with
  | ret a =>
    constructor
    · rintro ⟨rfl, rfl⟩
      exact ⟨fun _ _ => true, rfl⟩
    · rintro ⟨_, heq⟩
      exact Prod.mk.inj heq
  | call c k ih =>
    -- the choice for the first call is put in front of the choices for the rest
    have later (b' : Bool) (allow : Nat → C → Bool) (q : Prog C R α) (v : W) :
        runAllowed h (fun i c => if i = n then b' else allow i c) (n + 1) q v =
          runAllowed h allow (n + 1) q v :=
      runAllowed_congr h (fun i hi c => if_neg (by omega)) q v
    constructor
    · rintro (hk | hk)
      · obtain ⟨allow, heq⟩ := (ih none (n + 1)).1 hk
        refine ⟨fun i c => if i = n then false else allow i c, ?_⟩
        simp only [runAllowed, if_true, Bool.false_eq_true, if_false]
        exact (later false allow _ _).trans heq
      · obtain ⟨allow, heq⟩ := (ih _ (n + 1)).1 hk
        refine ⟨fun i c => if i = n then true else allow i c, ?_⟩
        simp only [runAllowed, if_true]
        exact (later true allow _ _).trans heq
    · rintro ⟨allow, heq⟩
      unfold runAllowed at heq
      split_ifs at heq
      · exact .inr ((ih _ (n + 1)).2 ⟨allow, heq⟩)
      · exact .inl ((ih _ (n + 1)).2 ⟨allow, heq⟩)

/-! ## The calls a program makes -/

/-- Every call of the program satisfies `P`, as long as the replies satisfy `reply`. -/
def Calls (reply : (c : C) → R c → Prop) (P : C → Prop) : Prog C R α → Prop
  | ret _ => True
  | call c k => P c ∧ Calls reply P (k none) ∧ ∀ r, reply c r → Calls reply P (k (some r))

section

variable {reply : (c : C) → R c → Prop} {P Q : C → Prop}

variable {p : Prog C R α}

theorem Calls.bind {f : α → Prog C R β} (hp : Calls reply P p)
    (hf : ∀ a, Calls reply P (f a)) : Calls reply P (p.bind f) := by
  induction p with
  | ret a => exact hf a
  | call c k ih => exact ⟨hp.1, ih _ hp.2.1, fun r hr => ih _ (hp.2.2 r hr)⟩

theorem Calls.andThen {p : Prog C R (Except E α)} {f : α → Prog C R (Except E β)}
    (hp : Calls reply P p) (hf : ∀ a, Calls reply P (f a)) : Calls reply P (p.andThen f) := by
  refine hp.bind ?_
  rintro (e | a)
  · trivial
  · exact hf a

theorem Calls.attempt {e : E} {c : C} (hc : P c) :
    Calls reply P (attempt e c : Prog C R (Except E (R c))) :=
  ⟨hc, trivial, fun _ _ => trivial⟩

theorem Calls.ignore (hp : Calls reply P p) : Calls reply P p.ignore :=
  hp.bind fun _ => trivial

theorem Calls.only {b : Bool} {p : Prog C R Unit} (hp : b = true → Calls reply P p) :
    Calls reply P (only b p) := by
  unfold Prog.only
  split_ifs with hb
  · exact hp hb
  · trivial

variable {xs : List β}

theorem Calls.each {f : β → Prog C R α} (hf : ∀ x ∈ xs, Calls reply P (f x)) :
    Calls reply P (each f xs) := by
  induction xs with
  | nil => trivial
  | cons x xs ih =>
    exact (hf x (List.mem_cons_self ..)).bind fun _ =>
      ih fun y hy => hf y (List.mem_cons_of_mem x hy)

theorem Calls.eachOk {f : β → Prog C R (Except E Unit)}
    (hf : ∀ x ∈ xs, Calls reply P (f x)) : Calls reply P (eachOk f xs) := by
  induction xs with
  | nil => trivial
  | cons x xs ih =>
    exact (hf x (List.mem_cons_self ..)).andThen fun _ =>
      ih fun y hy => hf y (List.mem_cons_of_mem x hy)

theorem Calls.collect {f : β → Prog C R (Option α)}
    (hf : ∀ x ∈ xs, Calls reply P (f x)) : Calls reply P (collect f xs) := by
  induction xs with
  | nil => trivial
  | cons x xs ih =>
    exact (hf x (List.mem_cons_self ..)).bind fun _ =>
      (ih fun y hy => hf y (List.mem_cons_of_mem x hy)).bind fun _ => trivial

theorem Calls.imp (hp : Calls reply P p) (hPQ : ∀ c, P c → Q c) :
    Calls reply Q p := by
  induction p with
  | ret a => trivial
  | call c k ih => exact ⟨hPQ c hp.1, ih _ hp.2.1, fun r hr => ih _ (hp.2.2 r hr)⟩

/-- A relation between two worlds that every call keeps, with equal replies, makes whole runs
    equal, whichever calls are refused. -/
theorem Calls.runAllowed_rel {h : (c : C) → W → R c × W} {rel : W → W → Prop}
    (hreply : ∀ c w, reply c (h c w).1)
    (hstep : ∀ c w w', P c → rel w w' → (h c w).1 = (h c w').1 ∧ rel (h c w).2 (h c w').2)
    (allow : Nat → C → Bool) (hp : Calls reply P p) (n : Nat) {w w' : W}
    (hw : rel w w') :
    (runAllowed h allow n p w).1 = (runAllowed h allow n p w').1 ∧
      rel (runAllowed h allow n p w).2 (runAllowed h allow n p w').2 := by
  induction p generalizing n w w' with
  | ret a => exact ⟨rfl, hw⟩
  | call c k ih =>
    unfold runAllowed
    split_ifs
    · obtain ⟨heq, hrel⟩ := hstep c w w' hp.1 hw
      rw [← heq]
      exact ih _ (hp.2.2 _ (hreply c w)) _ hrel
    · exact ih _ hp.2.1 _ hw

end

theorem runAllowed_all (p : Prog C R α) (n : Nat) (w : W) :
    runAllowed h (fun _ _ => true) n p w = run h p w := by
  induction p generalizing n w with
  | ret a => rfl
  | call c k ih =>
    rw [runAllowed, if_pos rfl]
    exact ih _ _ _

/-! ## The program logic -/

/-- `inv` holds before every call, and `post` of every result; calls fail only if `faulty`. -/
def Safe (faulty : Prop) (inv : W → Prop) (post : α → W → Prop) : Prog C R α → W → Prop
  | ret a, w => post a w
  | call c k, w =>
      inv w ∧ (faulty → Safe faulty inv post (k none) w) ∧
        Safe faulty inv post (k (some (h c w).1)) (h c w).2

variable {h} {faulty : Prop} {inv : W → Prop} {post : α → W → Prop}

theorem Safe.bind {f : α → Prog C R β} {post : β → W → Prop}
    (hp : Safe h faulty inv (fun a w => Safe h faulty inv post (f a) w) p w) :
    Safe h faulty inv post (p.bind f) w := by
  induction p generalizing w with
  | ret a => exact hp
  | call c k ih =>
    obtain ⟨h1, h2, h3⟩ := hp
    exact ⟨h1, fun hf => ih _ (h2 hf), ih _ h3⟩

theorem Safe.imp {inv' : W → Prop} {post' : α → W → Prop}
    (hp : Safe h faulty inv post p w) (hi : ∀ w, inv w → inv' w)
    (hq : ∀ a w, post a w → post' a w) : Safe h faulty inv' post' p w := by
  induction p generalizing w with
  | ret a => exact hq a w hp
  | call c k ih =>
    obtain ⟨h1, h2, h3⟩ := hp
    exact ⟨hi _ h1, fun hf => ih _ (h2 hf), ih _ h3⟩

/-- What has to hold after the first of two fallible programs. -/
def Safe.Then (h : (c : C) → W → R c × W) (faulty : Prop) (inv : W → Prop)
    (post : Except E β → W → Prop) (f : α → Prog C R (Except E β)) : Except E α → W → Prop
  | .ok a, w => Safe h faulty inv post (f a) w
  | .error e, w => post (.error e) w

/-- Sequencing two fallible programs. -/
theorem Safe.andThen {p : Prog C R (Except E α)} {f : α → Prog C R (Except E β)}
    {post : Except E β → W → Prop}
    (hp : Safe h faulty inv (Safe.Then h faulty inv post f) p w) :
    Safe h faulty inv post (p.andThen f) w := by
  refine Safe.bind (hp.imp (fun _ hw => hw) ?_)
  rintro (e | a) w hw
  · exact hw
  · exact hw

theorem Safe.attempt {e : E} {c : C} {post : Except E (R c) → W → Prop} (hinv : inv w)
    (herr : faulty → post (.error e) w) (hok : post (.ok (h c w).1) (h c w).2) :
    Safe h faulty inv post (attempt e c : Prog C R (Except E (R c))) w :=
  ⟨hinv, herr, hok⟩

theorem Safe.inv_of_post (hp : Safe h faulty inv post p w) (hpost : ∀ a w, post a w → inv w) :
    inv w := by
  cases p with
  | ret a => exact hpost a w hp
  | call c k => exact hp.1

/-- However a safe program ends, its result satisfies `post`, and what a death leaves
    satisfies `inv`. -/
theorem Safe.exec (hp : Safe h True inv post p w) (hpost : ∀ a w, post a w → inv w)
    (plan : List Fault) :
    match exec h plan p w with
    | .done a w' => post a w'
    | .died w' => inv w' := by
  induction p generalizing w plan with
  | ret a => cases plan <;> exact hp
  | call c k ih =>
    obtain ⟨h1, h2, h3⟩ := hp
    match plan with
    | [] => exact ih _ h3 []
    | .none :: plan => exact ih _ h3 plan
    | .fail :: plan => exact ih _ (h2 trivial) plan
    | .dieBefore :: _ => exact h1
    | .dieAfter :: _ => exact h3.inv_of_post hpost

theorem Safe.run (hp : Safe h faulty inv post p w) :
    post (run h p w).1 (run h p w).2 := by
  induction p generalizing w with
  | ret a => exact hp
  | call c k ih => exact ih _ hp.2.2

/-! ## How a program can end -/

variable (h) in
/-- However the program ends satisfies `post`, if only calls of `mayFail` fail. -/
def Ends (mayFail : C → Prop) (post : α → W → Prop) : Prog C R α → W → Prop
  | ret a, w => post a w
  | call c k, w =>
      (mayFail c → Ends mayFail post (k none) w) ∧ Ends mayFail post (k (some (h c w).1)) (h c w).2

section

variable {mayFail : C → Prop}

variable {p : Prog C R α} {w : W}

theorem Ends.bind {f : α → Prog C R β} {post : β → W → Prop}
    (hp : Ends h mayFail (fun a w => Ends h mayFail post (f a) w) p w) :
    Ends h mayFail post (p.bind f) w := by
  induction p generalizing w with
  | ret a => exact hp
  | call c k ih => exact ⟨fun hc => ih _ (hp.1 hc), ih _ hp.2⟩

theorem Ends.imp {post' : α → W → Prop} (hp : Ends h mayFail post p w)
    (hq : ∀ a w, post a w → post' a w) : Ends h mayFail post' p w := by
  induction p generalizing w with
  | ret a => exact hq a w hp
  | call c k ih => exact ⟨fun hc => ih _ (hp.1 hc), ih _ hp.2⟩

/-- Sequencing two fallible programs. -/
theorem Ends.andThen {p : Prog C R (Except E α)} {f : α → Prog C R (Except E β)}
    {post : Except E β → W → Prop}
    (hp : Ends h mayFail (fun r w => match r with
      | .ok a => Ends h mayFail post (f a) w
      | .error e => post (.error e) w) p w) :
    Ends h mayFail post (p.andThen f) w := by
  refine Ends.bind (hp.imp ?_)
  rintro (e | a) w hw
  · exact hw
  · exact hw

/-- A program whose calls do not fail ends as it runs. -/
theorem Ends.of_run {reply : (c : C) → R c → Prop}
    (hreply : ∀ c w, reply c (h c w).1) (hp : Calls reply (fun c => ¬mayFail c) p)
    (hpost : post (Prog.run h p w).1 (Prog.run h p w).2) : Ends h mayFail post p w := by
  induction p generalizing w with
  | ret a => exact hpost
  | call c k ih => exact ⟨fun hc => absurd hc hp.1, ih _ (hp.2.2 _ (hreply c w)) hpost⟩

/-- What every call keeps holds at the end. -/
theorem Ends.of_calls {reply : (c : C) → R c → Prop} {P : C → Prop}
    (hreply : ∀ c w, reply c (h c w).1) (hp : Calls reply P p) (inv : W → Prop)
    (hstep : ∀ c w, P c → inv w → inv (h c w).2) (hw : inv w) :
    Ends h mayFail (fun _ w => inv w) p w := by
  induction p generalizing w with
  | ret a => exact hw
  | call c k ih =>
    exact ⟨fun _ => ih _ hp.2.1 hw, ih _ (hp.2.2 _ (hreply c w)) (hstep c w hp.1 hw)⟩

theorem Ends.run (hp : Ends h mayFail post p w) :
    post (run h p w).1 (run h p w).2 := by
  induction p generalizing w with
  | ret a => exact hp
  | call c k ih => exact ih _ hp.2

theorem Ends.runAllowed (hp : Ends h mayFail post p w)
    {allow : Nat → C → Bool} (hallow : ∀ n c, allow n c = false → mayFail c) (n : Nat) :
    post (runAllowed h allow n p w).1 (runAllowed h allow n p w).2 := by
  induction p generalizing w n with
  | ret a => exact hp
  | call c k ih =>
    unfold Prog.runAllowed
    split_ifs with hc
    · exact ih _ hp.2 (n + 1)
    · exact ih _ (hp.1 (hallow n c (Bool.eq_false_iff.2 hc))) (n + 1)

/-- What every call keeps, every run keeps, whichever calls are refused. -/
theorem Calls.runAllowed_inv {reply : (c : C) → R c → Prop} {P : C → Prop} (inv : W → Prop)
    (hreply : ∀ c w, reply c (h c w).1) (hstep : ∀ c w, P c → inv w → inv (h c w).2)
    (allow : Nat → C → Bool) (hp : Calls reply P p) (n : Nat) (hw : inv w) :
    inv (runAllowed h allow n p w).2 := by
  have hends : Ends h (fun _ => True) (fun _ w => inv w) p w := .of_calls hreply hp inv hstep hw
  exact hends.runAllowed (fun _ _ _ => trivial) n

end

end Prog

end Tuck.Base
