/-
  Sagas: tasks that are done in turn, each with what undoes it. The first task that fails ends
  the saga, and what was done is undone, the last task first; errors of the undoing are dropped.

  `Ends.saga` and `Traced.saga` are the rules: an invariant of the tasks that are done, and for
  the way back one of the tasks that are still to be undone (`Ends.undo`).
-/
import Tuck.Base.Threads

namespace Tuck.Base

open Prog

variable {C : Type} {R : C → Type} {E M W T : Type}

/-- How a task is done, and what undoes it, if anything is to be undone. -/
structure SagaStep (C : Type) (R : C → Type) (E : Type) where
  forward : Prog C R (Except E Unit)
  undo : Option (Prog C R (Except E Unit))

/-- The tasks in turn; `undo` is the stack of what undoes the tasks before. -/
def saga (step : T → SagaStep C R E) :
    List T → List (Prog C R (Except E Unit)) → Prog C R (Except E Unit)
  | [], _ => .ret (.ok ())
  | t :: ts, undo =>
      (step t).forward.bind fun
        | .ok _ => saga step ts ((step t).undo.toList ++ undo)
        | .error e => (each (fun u => u) undo).bind fun _ => .ret (.error e)

/-- The stack after some tasks. -/
def undoStack (step : T → SagaStep C R E) (done : List T) : List (Prog C R (Except E Unit)) :=
  (done.filterMap fun t => (step t).undo).reverse

variable {step : T → SagaStep C R E}

theorem undoStack_append (done : List T) (t : T) :
    undoStack step (done ++ [t]) = (step t).undo.toList ++ undoStack step done := by
  unfold undoStack
  rw [List.filterMap_append, List.reverse_append]
  cases ht : (step t).undo with
  | none => simp [ht]
  | some u => simp [ht]

/-! ## How a saga can end -/

/-- `good` after a success, `bad` after a failure. -/
def OkOr {α : Type} (good bad : W → Prop) : Except E α → W → Prop
  | .ok _, w => good w
  | .error _, w => bad w

section

variable {h : (c : C) → W → R c × W} {mayFail : C → Prop}

variable (h mayFail) in
/-- However the undoing of a task ends satisfies `post`. -/
def UndoEnds (s : SagaStep C R E) (post : W → Prop) (w : W) : Prop :=
  match s.undo with
  | some u => Ends h mayFail (fun _ w => post w) u w
  | none => post w

/-- What the undoing of the tasks makes of a state, one task after the other. -/
theorem Prog.Ends.undo (back : List T → W → Prop)
    (hundo : ∀ done t w, back (done ++ [t]) w → UndoEnds h mayFail (step t) (back done) w)
    (done : List T) {w : W} (hw : back done w) :
    Ends h mayFail (fun _ w => back [] w) (each (fun u => u) (undoStack step done)) w := by
  induction done using List.reverseRecOn generalizing w with
  | nil => exact hw
  | append_singleton done t ih =>
    have hstep := hundo done t w hw
    unfold UndoEnds at hstep
    rw [undoStack_append]
    cases ht : (step t).undo with
    | none =>
      rw [ht] at hstep
      exact ih hstep
    | some u =>
      rw [ht] at hstep
      exact Ends.bind (hstep.imp fun _ w hw => ih hw)

/-- A saga that succeeds has done all tasks; one that fails has undone what it had done. -/
theorem Prog.Ends.saga (inv back : List T → W → Prop) {tasks : List T}
    (hforward : ∀ done t w, done ++ [t] <+: tasks → inv done w →
      Ends h mayFail (OkOr (inv (done ++ [t])) (inv done)) (step t).forward w)
    (hback : ∀ done w, done <+: tasks → inv done w → back done w)
    (hundo : ∀ done t w, back (done ++ [t]) w → UndoEnds h mayFail (step t) (back done) w)
    {w : W} (hw : inv [] w) :
    Ends h mayFail (OkOr (inv tasks) (back [])) (Base.saga step tasks []) w := by
  -- the rest of the tasks, from a state in which some are done
  have hrest : ∀ rest done w, done ++ rest = tasks → inv done w →
      Ends h mayFail (OkOr (inv tasks) (back []))
        (Base.saga step rest (undoStack step done)) w := by
    intro rest
    induction rest with
    | nil =>
      intro done w htasks hw
      rw [List.append_nil] at htasks
      exact htasks ▸ hw
    | cons t rest ih =>
      intro done w htasks hw
      have hprefix : done ++ [t] <+: tasks := ⟨rest, by simp [← htasks]⟩
      refine Ends.bind ((hforward done t w hprefix hw).imp fun r w hr => ?_)
      cases r with
      | ok a =>
        have hnext := ih (done ++ [t]) w (by simp [← htasks]) hr
        rwa [undoStack_append] at hnext
      | error e =>
        have hdone : done <+: tasks := (List.prefix_append done [t]).trans hprefix
        have hundone := Ends.undo back hundo done (hback done w hdone hr)
        exact Ends.bind (hundone.imp fun _ _ hw => hw)
  exact hrest tasks [] w rfl hw

end

theorem Prog.Calls.saga {reply : (c : C) → R c → Prop} {P : C → Prop} {tasks : List T}
    (hforward : ∀ t ∈ tasks, Calls reply P (step t).forward)
    (hundo : ∀ t ∈ tasks, ∀ u ∈ (step t).undo, Calls reply P u) :
    Calls reply P (Base.saga step tasks []) := by
  have hrest : ∀ rest undo, (∀ t ∈ rest, t ∈ tasks) → (∀ u ∈ undo, Calls reply P u) →
      Calls reply P (Base.saga step rest undo) := by
    intro rest
    induction rest with
    | nil => exact fun _ _ _ => trivial
    | cons t rest ih =>
      intro undo hmem hu
      have ht := hmem t List.mem_cons_self
      refine Calls.bind (hforward t ht) fun r => ?_
      cases r with
      | ok a =>
        refine ih _ (fun t' ht' => hmem t' (List.mem_cons_of_mem t ht')) fun u hmemu => ?_
        obtain hmemu | hmemu := List.mem_append.1 hmemu
        · exact hundo t ht u (Option.mem_toList.1 hmemu)
        · exact hu u hmemu
      | error e => exact Calls.bind (Calls.each hu) fun _ => trivial
  exact hrest tasks [] (fun _ ht => ht) nofun

/-! ## What a thread with a saga remembers -/

section

variable {learn : M → (c : C) → R c → M} {reply : (c : C) → R c → Prop} {Q : M → C → Prop}

/-- If all tasks and undoings make allowed calls, a saga does; if it succeeds, the thread
    remembers what it knows after all tasks. -/
theorem Traced.saga (inv : List T → M → Prop) {tasks : List T}
    (hforward : ∀ done t m, done ++ [t] <+: tasks → inv done m →
      Traced learn reply Q (fun m r => r.isOk = true → inv (done ++ [t]) m) m (step t).forward)
    (hundo : ∀ t ∈ tasks, ∀ u ∈ (step t).undo, ∀ m, Traced learn reply Q (fun _ _ => True) m u)
    {m : M} (hm : inv [] m) :
    Traced learn reply Q (fun m r => r.isOk = true → inv tasks m) m (Base.saga step tasks []) := by
  have hstack : ∀ undo : List (Prog C R (Except E Unit)),
      (∀ u ∈ undo, ∀ m, Traced learn reply Q (fun _ _ => True) m u) → ∀ m,
        Traced learn reply Q (fun _ _ => True) m (each (fun u => u) undo) := by
    intro undo
    induction undo with
    | nil => exact fun _ _ => trivial
    | cons u undo ih =>
      intro hu m
      exact Traced.seq (hu u List.mem_cons_self m) fun m _ =>
        ih (fun u' hu' => hu u' (List.mem_cons_of_mem u hu')) m
  have hrest : ∀ rest done undo m, done ++ rest = tasks → inv done m →
      (∀ u ∈ undo, ∀ m, Traced learn reply Q (fun _ _ => True) m u) →
      Traced learn reply Q (fun m r => r.isOk = true → inv tasks m) m
        (Base.saga step rest undo) := by
    intro rest
    induction rest with
    | nil =>
      intro done undo m htasks hm _ _
      rw [List.append_nil] at htasks
      exact htasks ▸ hm
    | cons t rest ih =>
      intro done undo m htasks hm hu
      have hprefix : done ++ [t] <+: tasks := ⟨rest, by simp [← htasks]⟩
      refine Traced.bind ((hforward done t m hprefix hm).imp fun m r hr => ?_)
      cases r with
      | ok a =>
        refine ih (done ++ [t]) _ m (by simp [← htasks]) (hr rfl) fun u hmem => ?_
        obtain hmem | hmem := List.mem_append.1 hmem
        · exact hundo t (by simp [← htasks]) u (Option.mem_toList.1 hmem)
        · exact hu u hmem
      | error e => exact Traced.seq (hstack undo hu m) fun m _ => nofun
  exact hrest tasks [] [] m rfl hm nofun

end

end Tuck.Base
