/-
  Where the records of a store come from. The tasks of a pool remember what they wrote and what
  they read (`Trace`); a record that is stored, or was read, under a key that was absent at the
  start was written by some task (`Sourced`).
-/
import Tuck.Base.KV
import Tuck.Base.Locks

namespace Tuck.Base

open KV

variable {V α K : Type}

/-- The records that a task wrote and the records that it read. -/
structure Trace (V : Type) where
  puts : List (Bytes × V)
  gets : List (Bytes × V)

namespace Trace

def empty : Trace V := ⟨[], []⟩

def learn (m : Trace V) (c : Call V) (r : c.Reply) : Trace V :=
  match c, r with
  | .get k, some v => { m with gets := (k, v) :: m.gets }
  | .put k v, _ => { m with puts := (k, v) :: m.puts }
  | _, _ => m

/-- What the second remembers more is later. -/
def le (m m' : Trace V) : Prop := m.puts ⊆ m'.puts ∧ m.gets ⊆ m'.gets

theorem le_refl (m : Trace V) : m.le m := ⟨List.Subset.refl _, List.Subset.refl _⟩

theorem le_trans {a b c : Trace V} (hab : a.le b) (hbc : b.le c) : a.le c :=
  ⟨List.Subset.trans hab.1 hbc.1, List.Subset.trans hab.2 hbc.2⟩

theorem le_learn (m : Trace V) (c : Call V) (r : c.Reply) : m.le (m.learn c r) := by
  cases c with
  | get k =>
    cases r with
    | none => exact m.le_refl
    | some v => exact ⟨List.Subset.refl _, List.subset_cons_self _ _⟩
  | put k v => exact ⟨List.subset_cons_self _ _, List.Subset.refl _⟩
  | delete k => exact m.le_refl
  | list pre => exact m.le_refl
  | rand n => exact m.le_refl

end Trace

abbrev KVPool (V α K : Type) := LockPool (Call V) Call.Reply (Trace V) (KV.World V) α K

/-- Some task wrote the record. -/
def Origin (ts : List (Task (Call V) Call.Reply (Trace V) α K)) (k : Bytes) (r : V) : Prop :=
  ∃ j : Nat, ∃ t, ts[j]? = some t ∧ (k, r) ∈ t.memory.puts

/-- The records under keys of `A` were written by the tasks. -/
structure Sourced (A : Set Bytes) (p : KVPool V α K) : Prop where
  stored : ∀ k ∈ A, ∀ r, p.world.store.lookup k = some r → Origin p.tasks k r
  seen : ∀ k ∈ A, ∀ r, ∀ t ∈ p.tasks, (k, r) ∈ t.memory.gets → Origin p.tasks k r

section

variable {A : Set Bytes} {ts : List (Task (Call V) Call.Reply (Trace V) α K)} {i : Nat}
  {t : Task (Call V) Call.Reply (Trace V) α K}
  (t' : Task (Call V) Call.Reply (Trace V) α K)

/-- A task forgets nothing. -/
theorem Origin.set {k : Bytes} {r : V} (h : Origin ts k r) (hi : ts[i]? = some t)
    (hle : t.memory.le t'.memory) : Origin (ts.set i t') k r := by
  obtain ⟨j, u, hj, hmem⟩ := h
  by_cases hij : i = j
  · subst hij
    cases hi.symm.trans hj
    exact ⟨i, t', List.getElem?_set_self (List.getElem?_eq_some_iff.1 hi).1, hle.1 hmem⟩
  · exact ⟨j, u, (List.getElem?_set_ne hij).trans hj, hmem⟩

theorem Sourced.set {p : KVPool V α K} (hp : Sourced A p) (hi : p.tasks[i]? = some t)
    (hle : t.memory.le t'.memory) {w : KV.World V} {log : List (Nat × α)}
    (hstored : ∀ k ∈ A, ∀ r, w.store.lookup k = some r →
      p.world.store.lookup k = some r ∨ (k, r) ∈ t'.memory.puts)
    (hseen : ∀ k ∈ A, ∀ r, (k, r) ∈ t'.memory.gets →
      (k, r) ∈ t.memory.gets ∨ p.world.store.lookup k = some r) :
    Sourced A ⟨w, p.tasks.set i t', log⟩ := by
  refine ⟨fun k hk r hr => ?_, fun k hk r u hu hmem => ?_⟩
  · obtain hold | hnew := hstored k hk r hr
    · exact (hp.stored k hk r hold).set t' hi hle
    · exact ⟨i, t', List.getElem?_set_self (List.getElem?_eq_some_iff.1 hi).1, hnew⟩
  · obtain hu | rfl := List.mem_or_eq_of_mem_set hu
    · exact (hp.seen k hk r u hu hmem).set t' hi hle
    · obtain hold | hread := hseen k hk r hmem
      · exact (hp.seen k hk r t (List.mem_of_getElem? hi) hold).set _ hi hle
      · exact (hp.stored k hk r hread).set _ hi hle

theorem Sourced.step [DecidableEq K] (L : Listing) {p : KVPool V α K} (hp : Sourced A p)
    (i : Nat) : Sourced A (p.step (handle L) Trace.learn i) := by
  obtain heq | ⟨t, hi, ⟨hwait, hfree, heq⟩ | ⟨a, hrun, hret, heq⟩ | ⟨c, k, hrun, hcall, heq⟩⟩ :=
    p.step_cases (handle L) Trace.learn i
  · rw [heq]
    exact hp
  · rw [heq]
    exact hp.set { t with phase := .running } hi t.memory.le_refl (fun _ _ _ => .inl)
      fun _ _ _ => .inl
  · rw [heq]
    exact hp.set { t with phase := .done } hi t.memory.le_refl (fun _ _ _ => .inl) fun _ _ _ => .inl
  · rw [heq]
    refine hp.set _ hi (t.memory.le_learn c _) (fun key _ r hr => ?_) fun key _ r hr => ?_
    · cases c with
      | put k' v =>
        rw [handle, lookup_insert] at hr
        split_ifs at hr with hkey
        · obtain rfl := Option.some.inj hr
          exact .inr (hkey ▸ List.mem_cons_self)
        · exact .inl hr
      | delete k' =>
        rw [handle, lookup_erase] at hr
        split_ifs at hr
        exact .inl hr
      | get k' => exact .inl hr
      | list pre => exact .inl hr
      | rand n => exact .inl hr
    · cases c with
      | get k' =>
        dsimp only [handle] at hr
        cases hlook : p.world.store.lookup k' with
        | none =>
          rw [hlook] at hr
          exact .inl hr
        | some v =>
          rw [hlook] at hr
          obtain hr | hr := List.mem_cons.1 hr
          · cases hr
            exact .inr hlook
          · exact .inl hr
      | put k' v => exact .inl hr
      | delete k' => exact .inl hr
      | list pre => exact .inl hr
      | rand n => exact .inl hr

theorem Sourced.runs [DecidableEq K] (L : Listing) {p : KVPool V α K} (hp : Sourced A p)
    (sched : List Nat) : Sourced A (runs (LockPool.step (handle L) Trace.learn) p sched) := by
  induction sched generalizing p with
  | nil => exact hp
  | cons i sched ih => exact ih (hp.step L i)

end

/-! ## Programs that remember what they wrote -/

theorem Trace.mem_puts_learn {m : Trace V} {c : Call V} {r : c.Reply} {k : Bytes} {v : V}
    (h : (k, v) ∈ (m.learn c r).puts) : (k, v) ∈ m.puts ∨ c = .put k v := by
  cases c with
  | put k' v' =>
    obtain h | h := List.mem_cons.1 h
    · cases h
      exact .inr rfl
    · exact .inl h
  | get k' =>
    cases r with
    | none => exact .inl h
    | some v' => exact .inl h
  | delete k' => exact .inl h
  | list pre => exact .inl h
  | rand n => exact .inl h

/-- A program whose calls write only what `may` allows. -/
theorem traced_puts {P : Call V → Prop} {may : Bytes → V → Prop} {p : Code V α}
    (hp : Prog.Calls Call.Plausible P p) (hP : ∀ k v, P (.put k v) → may k v) {m : Trace V}
    (hm : ∀ k v, (k, v) ∈ m.puts → may k v) :
    Traced Trace.learn Call.Plausible (fun _ _ => True)
      (fun m' _ => ∀ k v, (k, v) ∈ m'.puts → may k v) m p := by
  induction p generalizing m with
  | ret a => exact hm
  | call c next ih =>
    refine ⟨trivial, ih _ hp.2.1 hm, fun r hr => ih _ (hp.2.2 r hr) fun k v hkv => ?_⟩
    obtain hold | rfl := Trace.mem_puts_learn hkv
    · exact hm k v hold
    · exact hP k v hp.1

end Tuck.Base
