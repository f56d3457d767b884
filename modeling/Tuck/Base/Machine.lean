/-
  Runs of a machine: a state, inputs and a step function. A run is a list of inputs; what
  has to hold at each step is a relation between the state before and the input.

  `Meets ok s is` says that every step of the run meets `ok`. Invariants are proved from one
  step (`Meets.holds`, `Meets.of_budget`), whatever the machine.
-/
import Mathlib

namespace Tuck.Base

variable {S I : Type} (step : S → I → S)

/-- The state after a run. -/
def runs (s : S) (is : List I) : S := is.foldl step s

/-- Every step of the run meets `ok`. -/
def Meets (ok : S → I → Prop) : S → List I → Prop
  | _, [] => True
  | s, i :: is => ok s i ∧ Meets ok (step s i) is

instance (ok : S → I → Prop) [∀ s i, Decidable (ok s i)] :
    ∀ (s : S) (is : List I), Decidable (Meets step ok s is)
  | _, [] => isTrue trivial
  | s, i :: is =>
      have := instDecidableMeets ok (step s i) is
      inferInstanceAs (Decidable (ok s i ∧ Meets step ok (step s i) is))

variable {step}

theorem runs_append (s : S) (is js : List I) :
    runs step s (is ++ js) = runs step (runs step s is) js := List.foldl_append

variable {is : List I} {s : S} {ok : S → I → Prop}

theorem meets_append {js : List I} :
    Meets step ok s (is ++ js) ↔ Meets step ok s is ∧ Meets step ok (runs step s is) js := by
  induction is generalizing s with
  | nil => exact ⟨fun h => ⟨trivial, h⟩, And.right⟩
  | cons i is ih =>
    rw [List.cons_append, Meets, Meets, ih, and_assoc]
    rfl

theorem Meets.imp {ok' : S → I → Prop} (h : Meets step ok s is)
    (himp : ∀ s i, ok s i → ok' s i) : Meets step ok' s is := by
  induction is generalizing s with
  | nil => trivial
  | cons i is ih => exact ⟨himp s i h.1, ih h.2⟩

/-- A property that every allowed step keeps holds after every allowed run. -/
theorem Meets.holds {P : S → Prop}
    (h : Meets step ok s is) (hs : P s) (hstep : ∀ s i, ok s i → P s → P (step s i)) :
    P (runs step s is) := by
  induction is generalizing s with
  | nil => exact hs
  | cons i is ih => exact ih h.2 (hstep s i h.1 hs)

/-- If allowed steps keep an invariant, and under the invariant they are allowed by another
    condition as well, then so is every step of an allowed run. -/
theorem Meets.transfer {ok' : S → I → Prop} {P : S → Prop}
    (h : Meets step ok s is) (hs : P s) (hstep : ∀ s i, ok s i → P s → ok' s i ∧ P (step s i)) :
    Meets step ok' s is := by
  induction is generalizing s with
  | nil => trivial
  | cons i is ih =>
    obtain ⟨hok, hnext⟩ := hstep s i h.1 hs
    exact ⟨hok, ih h.2 hnext⟩

/-- An invariant indexed by what the inputs have cost so far: if every step within the budget
    gives `ok` and the invariant again, then every run within the budget meets `ok`. -/
theorem Meets.of_budget {guard : I → Prop} (cost : I → Nat) (budget : Nat)
    {P : Nat → S → Prop} {n : Nat} (hs : P n s) (hguard : ∀ i ∈ is, guard i)
    (hcost : n + (is.map cost).sum ≤ budget)
    (hstep : ∀ n s i, guard i → n + cost i ≤ budget → P n s → ok s i ∧ P (n + cost i) (step s i)) :
    Meets step ok s is := by
  induction is generalizing n s with
  | nil => trivial
  | cons i is ih =>
    rw [List.map_cons, List.sum_cons] at hcost
    obtain ⟨hok, hs'⟩ := hstep n s i (hguard i (by simp)) (by omega) hs
    exact ⟨hok, ih hs' (fun j hj => hguard j (List.mem_cons_of_mem i hj)) (by omega)⟩

/-! ## Machines that reply -/

section

variable {T R : Type} (f : S → I → R × S) (g : T → I → R × T)

/-- The replies of a run, and the state after it. -/
def converse (s : S) : List I → List R × S
  | [] => ([], s)
  | i :: is => ((f s i).1 :: (converse (f s i).2 is).1, (converse (f s i).2 is).2)

variable {f g}

/-- Two machines whose steps reply the same from related states reply the same in every run. -/
theorem converse_eq_of_related (rel : S → T → Prop) {ok : I → Prop} {s : S} {t : T} {is : List I}
    (hok : ∀ i ∈ is, ok i) (hrel : rel s t)
    (hstep : ∀ s t i, ok i → rel s t → (f s i).1 = (g t i).1 ∧ rel (f s i).2 (g t i).2) :
    (converse f s is).1 = (converse g t is).1 ∧ rel (converse f s is).2 (converse g t is).2 := by
  induction is generalizing s t with
  | nil => exact ⟨rfl, hrel⟩
  | cons i is ih =>
    obtain ⟨hi, his⟩ := List.forall_mem_cons.mp hok
    obtain ⟨hreply, hnext⟩ := hstep s t i hi hrel
    obtain ⟨hreplies, hend⟩ := ih his hnext
    exact ⟨congrArg₂ List.cons hreply hreplies, hend⟩

end

end Tuck.Base
