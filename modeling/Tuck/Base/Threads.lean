/-
  Programs that run side by side over one world. A step picks a thread and lets its next call
  happen, or fail without effect; what a thread has seen of the world is in its memory.

  `Traced` is the logic of one thread: every call it makes is allowed by its memory, as long
  as the replies are plausible. `Pool.inv` lifts it to all interleavings that meet a guard;
  `Pool.must` is for what a thread has brought about by the time it returns, and `Pool.tally`
  bounds how many threads can return with success, if each pays for it from one stock.
  `Pool.owned` is for a thread with a part of the world to itself.
-/
import Tuck.Base.Prog
import Tuck.Base.Machine

namespace Tuck.Base

open List

variable {C : Type} {R : C → Type} {M W α β : Type}

/-- What is left of a thread's program, and what it remembers. -/
structure Thread (C : Type) (R : C → Type) (M α : Type) where
  code : Prog C R α
  memory : M

structure Pool (C : Type) (R : C → Type) (M W α : Type) where
  world : W
  threads : List (Thread C R M α)

section

variable (h : (c : C) → W → R c × W) (learn : M → (c : C) → R c → M)

/-- The next call of a thread; if `ok` is false it fails. -/
def Thread.step (ok : Bool) (w : W) : Thread C R M α → Thread C R M α × W
  | ⟨.ret a, m⟩ => (⟨.ret a, m⟩, w)
  | ⟨.call c k, m⟩ =>
      if ok then (⟨k (some (h c w).1), learn m c (h c w).1⟩, (h c w).2) else (⟨k none, m⟩, w)

/-- The thread `i.1` makes its next call. -/
def Pool.step (p : Pool C R M W α) (i : Nat × Bool) : Pool C R M W α :=
  match p.threads[i.1]? with
  | none => p
  | some t => ⟨(t.step h learn i.2 p.world).2, p.threads.set i.1 (t.step h learn i.2 p.world).1⟩

/-- What a thread has returned. -/
def Pool.result? (p : Pool C R M W α) (j : Nat) : Option α :=
  match p.threads[j]? with
  | some ⟨.ret a, _⟩ => some a
  | _ => none

/-- The guard holds of the call that the step lets happen. -/
def Pool.Guarded (guard : W → M → C → Prop) (p : Pool C R M W α) (i : Nat × Bool) : Prop :=
  match p.threads[i.1]? with
  | some ⟨.call c _, m⟩ => i.2 = true → guard p.world m c
  | _ => True

instance (guard : W → M → C → Prop) [∀ w m c, Decidable (guard w m c)] (p : Pool C R M W α)
    (i : Nat × Bool) : Decidable (p.Guarded guard i) :=
  match hp : p.threads[i.1]? with
  | some ⟨.call c _, m⟩ =>
      decidable_of_iff (i.2 = true → guard p.world m c) (by simp only [Pool.Guarded, hp])
  | some ⟨.ret _, _⟩ => isTrue (by simp only [Pool.Guarded, hp])
  | none => isTrue (by simp only [Pool.Guarded, hp])

/-- A call of `vital` does not fail. -/
def Pool.Reliable (vital : M → C → Prop) (p : Pool C R M W α) (i : Nat × Bool) : Prop :=
  match p.threads[i.1]? with
  | some ⟨.call c _, m⟩ => vital m c → i.2 = true
  | _ => True

instance (vital : M → C → Prop) [∀ m c, Decidable (vital m c)] (p : Pool C R M W α)
    (i : Nat × Bool) : Decidable (p.Reliable vital i) :=
  match hp : p.threads[i.1]? with
  | some ⟨.call c _, m⟩ =>
      decidable_of_iff (vital m c → i.2 = true) (by simp only [Pool.Reliable, hp])
  | some ⟨.ret _, _⟩ => isTrue (by simp only [Pool.Reliable, hp])
  | none => isTrue (by simp only [Pool.Reliable, hp])

/-- How many threads have returned with success. -/
def Pool.count (success : α → Bool) (p : Pool C R M W α) : Nat :=
  ((List.range p.threads.length).filter fun j => (p.result? j).any success).length

end

/-! ## One thread -/

section

variable (learn : M → (c : C) → R c → M) (reply : (c : C) → R c → Prop) (Q : M → C → Prop)

/-- Every call satisfies `Q` of the memory, and every result `post`. -/
def Traced (post : M → α → Prop) : M → Prog C R α → Prop
  | m, .ret a => post m a
  | m, .call c k =>
      Q m c ∧ Traced post m (k none) ∧ ∀ r, reply c r → Traced post (learn m c r) (k (some r))

/-- No way to a result in `success` avoids coming to a call of `hit`. -/
def Owes (hit : M → C → Prop) (success : α → Prop) : M → Prog C R α → Prop
  | _, .ret a => ¬success a
  | m, .call c k =>
      hit m c ∨ Owes hit success m (k none) ∧
        ∀ r, reply c r → Owes hit success (learn m c r) (k (some r))

/-- No way to a result in `success` avoids a call of `hit` that succeeds. -/
def Must (hit : C → Prop) (success : α → Prop) : Prog C R α → Prop
  | .ret a => ¬success a
  | .call c k =>
      Must hit success (k none) ∧ (hit c ∨ ∀ r, reply c r → Must hit success (k (some r)))

end

section

variable {learn : M → (c : C) → R c → M} {reply : (c : C) → R c → Prop} {Q : M → C → Prop}

variable {m : M} {p : Prog C R α} {f : α → Prog C R β}

theorem Traced.bind {post : M → β → Prop}
    (hp : Traced learn reply Q (fun m a => Traced learn reply Q post m (f a)) m p) :
    Traced learn reply Q post m (p.bind f) := by
  induction p generalizing m with
  | ret a => exact hp
  | call c k ih => exact ⟨hp.1, ih _ hp.2.1, fun r hr => ih _ (hp.2.2 r hr)⟩

theorem Traced.imp {post post' : M → α → Prop}
    (hp : Traced learn reply Q post m p) (himp : ∀ m a, post m a → post' m a) :
    Traced learn reply Q post' m p := by
  induction p generalizing m with
  | ret a => exact himp m a hp
  | call c k ih => exact ⟨hp.1, ih _ hp.2.1, fun r hr => ih _ (hp.2.2 r hr)⟩

/-- Sequencing, when the rest is traced whatever the memory. -/
theorem Traced.seq {post : M → β → Prop}
    (hp : Traced learn reply Q (fun _ _ => True) m p)
    (hf : ∀ m a, Traced learn reply Q post m (f a)) :
    Traced learn reply Q post m (p.bind f) := Traced.bind (hp.imp fun m a _ => hf m a)

/-- A program whose calls are allowed whatever the memory. -/
theorem Traced.of_calls {P : C → Prop} (hp : Prog.Calls reply P p)
    (hPQ : ∀ m c, P c → Q m c) (m : M) : Traced learn reply Q (fun _ _ => True) m p := by
  induction p generalizing m with
  | ret a => trivial
  | call c k ih => exact ⟨hPQ m c hp.1, ih _ hp.2.1 m, fun r hr => ih _ (hp.2.2 r hr) _⟩

/-- A thread stays traced if less can be replied and more is allowed. -/
theorem Traced.mono {reply' : (c : C) → R c → Prop} {Q' : M → C → Prop}
    {post : M → α → Prop} (hp : Traced learn reply Q post m p)
    (hreply : ∀ c r, reply' c r → reply c r) (hQ : ∀ m c, Q m c → Q' m c) :
    Traced learn reply' Q' post m p := by
  induction p generalizing m with
  | ret a => exact hp
  | call c k ih =>
    exact ⟨hQ m c hp.1, ih _ hp.2.1, fun r hr => ih _ (hp.2.2 r (hreply c r hr))⟩

variable {success : β → Prop}

/-- What comes first does not matter, if the rest owes for every memory with what the thread
    cannot forget. -/
theorem Owes.keeping {hit : M → C → Prop} (J : M → Prop)
    (hlearn : ∀ m c r, J m → J (learn m c r)) (hm : J m)
    (hf : ∀ m a, J m → Owes learn reply hit success m (f a)) :
    Owes learn reply hit success m (p.bind f) := by
  induction p generalizing m with
  | ret a => exact hf m a hm
  | call c k ih => exact .inr ⟨ih _ hm, fun r _ => ih _ (hlearn m c r hm)⟩

/-- What comes first does not matter, if the rest owes whatever the memory. -/
theorem Owes.of_rest {hit : M → C → Prop} (hf : ∀ m a, Owes learn reply hit success m (f a)) :
    Owes learn reply hit success m (p.bind f) :=
  Owes.keeping (fun _ => True) (fun _ _ _ _ => trivial) trivial fun m a _ => hf m a

variable {hit : C → Prop}

theorem Must.bind {success : α → Prop} {success' : β → Prop}
    (hp : Must reply hit success p) (hf : ∀ a, ¬success a → Must reply hit success' (f a)) :
    Must reply hit success' (p.bind f) := by
  induction p with
  | ret a => exact hf a hp
  | call c k ih =>
    refine ⟨ih _ hp.1, hp.2.imp_right fun h r hr => ih _ (h r hr)⟩

/-- What comes first does not matter. -/
theorem Must.of_rest
    (hf : ∀ a, Must reply hit success (f a)) : Must reply hit success (p.bind f) := by
  induction p with
  | ret a => exact hf a
  | call c k ih => exact ⟨ih _, .inr fun r _ => ih _⟩

end

/-! ## All interleavings -/

/-- What holds of every entry of a list holds after one entry changed. -/
theorem forall_set {A : Type} {l : List A} {P : Nat → A → Prop} {i : Nat} {a : A}
    (h : ∀ j ≠ i, ∀ u, l[j]? = some u → P j u) (ha : P i a) :
    ∀ j u, (l.set i a)[j]? = some u → P j u := by
  intro j u hj
  rw [List.getElem?_set] at hj
  split_ifs at hj with hij hlt
  · cases hj
    exact hij ▸ ha
  · exact h j (Ne.symm hij) u hj

section

variable {h : (c : C) → W → R c × W} {learn : M → (c : C) → R c → M}

variable (h learn) in
/-- Everything a step can do. -/
theorem Pool.step_cases (p : Pool C R M W α) (i : Nat × Bool) :
    p.step h learn i = p ∨ ∃ c k m, p.threads[i.1]? = some ⟨.call c k, m⟩ ∧
      ((i.2 = true ∧ p.step h learn i =
          ⟨(h c p.world).2, p.threads.set i.1
            ⟨k (some (h c p.world).1), learn m c (h c p.world).1⟩⟩) ∨
        (i.2 = false ∧ p.step h learn i = ⟨p.world, p.threads.set i.1 ⟨k none, m⟩⟩)) := by
  unfold Pool.step
  cases hi : p.threads[i.1]? with
  | none => exact .inl rfl
  | some t =>
    obtain ⟨code, m⟩ := t
    cases code with
    | ret a =>
      left
      have hset : p.threads.set i.1 ⟨.ret a, m⟩ = p.threads := by
        obtain ⟨hlt, heq⟩ := List.getElem?_eq_some_iff.1 hi
        rw [← heq, set_getElem_self]
      simp only [Thread.step, hset]
    | call c k =>
      right
      refine ⟨c, k, m, rfl, ?_⟩
      cases hok : i.2 with
      | true => exact .inl ⟨rfl, rfl⟩
      | false => exact .inr ⟨rfl, rfl⟩

variable {sched : List (Nat × Bool)}

/-- A thread that has not been scheduled is as it was. -/
theorem Pool.threads_of_idle {i : Nat} (p : Pool C R M W α)
    (hidle : ∀ ok, (i, ok) ∉ sched) :
    (runs (Pool.step h learn) p sched).threads[i]? = p.threads[i]? := by
  induction sched generalizing p with
  | nil => rfl
  | cons j sched ih =>
    have hne : j.1 ≠ i := by
      rintro rfl
      exact hidle j.2 mem_cons_self
    have hstep : (p.step h learn j).threads[i]? = p.threads[i]? := by
      obtain heq | ⟨c, k, m, -, ⟨-, heq⟩ | ⟨-, heq⟩⟩ := p.step_cases h learn j
      · rw [heq]
      · rw [heq, List.getElem?_set_ne hne]
      · rw [heq, List.getElem?_set_ne hne]
    rw [← hstep]
    exact ih _ fun ok hmem => hidle ok (mem_cons_of_mem _ hmem)

variable {p : Pool C R M W α}

theorem Pool.result?_eq_some {j : Nat} {a : α} :
    p.result? j = some a ↔ ∃ m, p.threads[j]? = some ⟨.ret a, m⟩ := by
  unfold Pool.result?
  constructor
  · intro h
    split at h
    · next m hj => exact ⟨m, Option.some.inj h ▸ hj⟩
    · cases h
  · rintro ⟨m, hj⟩
    rw [hj]

theorem Pool.Guarded.call {guard : W → M → C → Prop} {i : Nat × Bool}
    (hg : p.Guarded guard i) {c : C} {k : Option (R c) → Prog C R α} {m : M}
    (hi : p.threads[i.1]? = some ⟨.call c k, m⟩) (hok : i.2 = true) : guard p.world m c := by
  unfold Pool.Guarded at hg
  rw [hi] at hg
  exact hg hok

variable {reply : (c : C) → R c → Prop} {Q : M → C → Prop} {guard : W → M → C → Prop} {I : W → Prop}

/-- The invariant of a pool: `I` of the world, and every thread is traced. -/
structure Pool.Inv (learn : M → (c : C) → R c → M) (reply : (c : C) → R c → Prop)
    (Q : M → C → Prop) (I : W → Prop) (p : Pool C R M W α) : Prop where
  world : I p.world
  threads : ∀ t ∈ p.threads, Traced learn reply Q (fun _ _ => True) t.memory t.code

variable (hreply : ∀ w c, I w → reply c (h c w).1)
  (hstep : ∀ w m c, I w → Q m c → guard w m c → I (h c w).2)

include hreply hstep

theorem Pool.Inv.step {i : Nat × Bool} (hinv : p.Inv learn reply Q I)
    (hguard : p.Guarded guard i) : (p.step h learn i).Inv learn reply Q I := by
  have hset : ∀ t', Traced learn reply Q (fun _ _ => True) t'.memory t'.code →
      ∀ u ∈ p.threads.set i.1 t', Traced learn reply Q (fun _ _ => True) u.memory u.code := by
    intro t' ht' u hu
    obtain hu | rfl := mem_or_eq_of_mem_set hu
    · exact hinv.threads u hu
    · exact ht'
  obtain heq | ⟨c, k, m, hi, ⟨hok, heq⟩ | ⟨-, heq⟩⟩ := p.step_cases h learn i
  · rw [heq]
    exact hinv
  · obtain ⟨hQ, -, hsome⟩ := hinv.threads _ (mem_of_getElem? hi)
    rw [heq]
    exact ⟨hstep _ m c hinv.world hQ (hguard.call hi hok), hset _ (hsome _ (hreply _ c hinv.world))⟩
  · obtain ⟨-, hnone, -⟩ := hinv.threads _ (mem_of_getElem? hi)
    rw [heq]
    exact ⟨hinv.world, hset _ hnone⟩

theorem Pool.Inv.runs (hinv : p.Inv learn reply Q I)
    (hmeets : Meets (Pool.step h learn) (Pool.Guarded guard) p sched) :
    (runs (Pool.step h learn) p sched).Inv learn reply Q I :=
  hmeets.holds hinv fun _ _ hg hp => hp.step hreply hstep hg

variable (hit : C → Prop) (success : α → Prop) (Z : W → Prop)

/-- `Z` is stable and a call of `hit` brings it about: once a thread that must make such a
    call has returned with success, `Z` holds. -/
theorem Pool.must (hinv : p.Inv learn reply Q I)
    (hmeets : Meets (Pool.step h learn) (Pool.Guarded guard) p sched)
    (hstable : ∀ w m c, I w → Q m c → guard w m c → Z w → Z (h c w).2)
    (hhit : ∀ w m c, I w → Q m c → guard w m c → hit c → Z (h c w).2)
    {j : Nat} (hj : ∀ t, p.threads[j]? = some t → Must reply hit success t.code)
    {a : α} (hret : (runs (Pool.step h learn) p sched).result? j = some a) (hsucc : success a) :
    Z (runs (Pool.step h learn) p sched).world := by
  -- at each point `Z` holds or the thread still has to make the call
  have hrun := hmeets.holds (P := fun p => p.Inv learn reply Q I ∧ (Z p.world ∨
      ∀ l t, p.threads[l]? = some t → l = j → Must reply hit success t.code))
    ⟨hinv, .inr fun l t ht hl => hj t (hl ▸ ht)⟩ ?_
  · obtain ⟨m, hj'⟩ := Pool.result?_eq_some.mp hret
    exact hrun.2.resolve_right fun hmust => hmust j _ hj' rfl hsucc
  rintro p i hg ⟨hp, hor⟩
  refine ⟨hp.step hreply hstep hg, ?_⟩
  obtain heq | ⟨c, k, m, hi, ⟨hok, heq⟩ | ⟨-, heq⟩⟩ := p.step_cases h learn i
  · rw [heq]
    exact hor
  · have hQ := (hp.threads _ (mem_of_getElem? hi)).1
    have hguard := hg.call hi hok
    rw [heq]
    obtain hZ | hmust := hor
    · exact .inl (hstable _ m c hp.world hQ hguard hZ)
    by_cases hhitc : hit c
    · exact .inl (hhit _ m c hp.world hQ hguard hhitc)
    · refine .inr (forall_set (fun l _ => hmust l) fun hij => ?_)
      exact ((hmust _ _ hi hij).2.resolve_left hhitc) _ (hreply _ c hp.world)
  · rw [heq]
    exact hor.imp_right fun hmust => forall_set (fun l _ => hmust l) fun hij => (hmust _ _ hi hij).1

omit hit success Z hreply hstep in
/-- What one thread has made of its part of the world, which the others leave alone: `rel` relates
    the world to its memory, and with its result comes what its program guarantees. -/
theorem Pool.owned {j : Nat} {rel : W → M → Prop} {post : M → α → Prop} {foreign : C → Prop}
    (hreply : ∀ c w, reply c (h c w).1)
    (hown : ∀ w m c, Q m c → rel w m → rel (h c w).2 (learn m c (h c w).1))
    (hother : ∀ w m c, foreign c → rel w m → rel (h c w).2 m)
    (hj : ∀ t, p.threads[j]? = some t → rel p.world t.memory ∧
      Traced learn reply Q post t.memory t.code)
    (hothers : ∀ i t, i ≠ j → p.threads[i]? = some t → Prog.Calls reply foreign t.code)
    {a : α} (hret : (runs (Pool.step h learn) p sched).result? j = some a) :
    ∃ m, rel (runs (Pool.step h learn) p sched).world m ∧ post m a := by
  have hrun : ∀ l t, (runs (Pool.step h learn) p sched).threads[l]? = some t →
      (l = j → rel (runs (Pool.step h learn) p sched).world t.memory ∧
        Traced learn reply Q post t.memory t.code) ∧
      (l ≠ j → Prog.Calls reply foreign t.code) := by
    induction sched generalizing p with
    | nil => exact fun l t ht => ⟨fun hl => hj t (hl ▸ ht), fun hl => hothers l t hl ht⟩
    | cons i sched ih =>
      have hstep : ∀ l t, (p.step h learn i).threads[l]? = some t →
          (l = j → rel (p.step h learn i).world t.memory ∧
            Traced learn reply Q post t.memory t.code) ∧
          (l ≠ j → Prog.Calls reply foreign t.code) := by
        obtain heq | ⟨c, k, m, hi, ⟨-, heq⟩ | ⟨-, heq⟩⟩ := p.step_cases h learn i
        · rw [heq]
          exact fun l t ht => ⟨fun hl => hj t (hl ▸ ht), fun hl => hothers l t hl ht⟩
        · rw [heq]
          refine forall_set (fun l hl t ht => ⟨fun hlj => ?_, fun hlj => hothers l t hlj ht⟩)
            ⟨fun hij => ?_, fun hij => (hothers _ _ hij hi).2.2 _ (hreply c p.world)⟩
          · obtain ⟨hrel, htraced⟩ := hj t (hlj ▸ ht)
            exact ⟨hother _ _ c (hothers _ _ (fun hij => hl (hlj.trans hij.symm)) hi).1 hrel,
              htraced⟩
          · obtain ⟨hrel, hQ, -, hsome⟩ := hj _ (hij ▸ hi)
            exact ⟨hown _ m c hQ hrel, hsome _ (hreply c p.world)⟩
        · rw [heq]
          refine forall_set
            (fun l _ t ht => ⟨fun hl => hj t (hl ▸ ht), fun hl => hothers l t hl ht⟩)
            ⟨fun hij => ?_, fun hij => (hothers _ _ hij hi).2.1⟩
          obtain ⟨hrel, -, hnone, -⟩ := hj _ (hij ▸ hi)
          exact ⟨hrel, hnone⟩
      exact ih (fun t ht => (hstep j t ht).1 rfl) (fun l t hl ht => (hstep l t ht).2 hl) hret
  obtain ⟨m, hj'⟩ := Pool.result?_eq_some.mp hret
  exact ⟨m, (hrun j _ hj').1 rfl⟩

omit hit success Z hreply hstep in
theorem Pool.count_le {success : α → Bool} {paid : Finset Nat}
    (h : ∀ j a, p.result? j = some a → success a = true → j ∈ paid) :
    p.count success ≤ paid.card := by
  unfold Pool.count
  rw [← toFinset_card_of_nodup (List.Nodup.filter _ nodup_range)]
  refine Finset.card_le_card fun j hj => ?_
  rw [mem_toFinset, mem_filter, Option.any_eq_true_iff_get] at hj
  obtain ⟨-, hsome, hsucc⟩ := hj
  exact h j _ (Option.some_get hsome).symm hsucc

omit hit success Z in
/-- If every thread comes to a call of `hit` before it succeeds, such calls do not fail, and
    each takes one from a stock that no call adds to, then no more threads succeed than the
    stock has at the start. -/
theorem Pool.tally {hit : M → C → Prop}
    {success : α → Bool} (stock : W → Nat) (hinv : p.Inv learn reply Q I)
    (hmeets : Meets (Pool.step h learn) (fun p i => p.Guarded guard i ∧ p.Reliable hit i) p sched)
    (hfree : ∀ w m c, I w → Q m c → guard w m c → stock (h c w).2 ≤ stock w)
    (hpay : ∀ w m c, I w → Q m c → guard w m c → hit m c → stock (h c w).2 + 1 ≤ stock w)
    (howes : ∀ t ∈ p.threads, Owes learn reply hit (fun a => success a = true) t.memory t.code) :
    (runs (Pool.step h learn) p sched).count success ≤ stock p.world := by
  -- `paid` are the threads that have made the call
  have hrun := hmeets.holds (P := fun q => q.Inv learn reply Q I ∧ ∃ paid : Finset Nat,
      (∀ j t, q.threads[j]? = some t → j ∉ paid →
        Owes learn reply hit (fun a => success a = true) t.memory t.code) ∧
      paid.card + stock q.world ≤ stock p.world)
    ⟨hinv, ∅, fun j t hj _ => howes t (mem_of_getElem? hj), by simp⟩ ?_
  · obtain ⟨-, paid, howe, hle⟩ := hrun
    refine le_trans (Pool.count_le fun j a hret hsucc => ?_) (le_trans (Nat.le_add_right _ _) hle)
    by_contra hj
    obtain ⟨m, hj'⟩ := Pool.result?_eq_some.mp hret
    exact howe j _ hj' hj hsucc
  rintro q i ⟨hguard, hrel⟩ ⟨hq, paid, howe, hle⟩
  refine ⟨hq.step hreply hstep hguard, ?_⟩
  obtain heq | ⟨c, k, m, hi, hcase⟩ := q.step_cases h learn i
  · rw [heq]
    exact ⟨paid, howe, hle⟩
  have hQ := (hq.threads _ (mem_of_getElem? hi)).1
  have hmine : i.1 ∉ paid → Owes learn reply hit (fun a => success a = true) m (.call c k) :=
    fun hnot => howe i.1 _ hi hnot
  obtain ⟨hok, heq⟩ | ⟨hok, heq⟩ := hcase
  · have hg := hguard.call hi hok
    rw [heq]
    by_cases hhit : hit m c
    · have hpaid := hpay _ m c hq.world hQ hg hhit
      refine ⟨insert i.1 paid, forall_set (fun l _ t ht hnot => howe l t ht fun hmem =>
        hnot (Finset.mem_insert_of_mem hmem)) fun hnot => ?_, ?_⟩
      · exact absurd (Finset.mem_insert_self _ _) hnot
      · have hcard := Finset.card_insert_le i.1 paid
        dsimp only
        omega
    · refine ⟨paid, forall_set (fun l _ => howe l) fun hnot => ?_, ?_⟩
      · obtain h' | ⟨-, hsome⟩ := hmine hnot
        · exact absurd h' hhit
        · exact hsome _ (hreply _ c hq.world)
      · have hless := hfree _ m c hq.world hQ hg
        dsimp only
        omega
  · rw [heq]
    refine ⟨paid, forall_set (fun l _ => howe l) fun hnot => ?_, hle⟩
    obtain hhit | ⟨hnone, -⟩ := hmine hnot
    · unfold Pool.Reliable at hrel
      rw [hi] at hrel
      exact absurd (hrel hhit) (by simp [hok])
    · exact hnone

end

end Tuck.Base
