/-
  Counting by periods in slots that are used again.

  A slot holds the tally of one period and starts over when a record of another period arrives.
  So what can be read for a period are the records after the last one of another period
  (`Slot.read_foldl`, `Slot.read_bank`): all of them exactly if no record of the period is followed
  by one of another period in the same slot (`survivors_eq_iff`).
-/
import Mathlib.Data.List.DropRight
import Mathlib.Data.List.Basic

namespace Tuck.Base

open List

/-- A slot: the period it holds and the tally of that period. -/
structure Slot (τ : Type) where
  period : Int
  tally : τ

section

variable {ρ τ ι : Type} [DecidableEq ι] (zero : τ) (bump : τ → ρ → τ) (per : ρ → Int)
  (idx : Int → ι)

/-- Account a record of the period `p`. -/
def Slot.record (s : Slot τ) (p : Int) (r : ρ) : Slot τ :=
  let s := if s.period ≠ p then ⟨p, zero⟩ else s
  { s with tally := bump s.tally r }

/-- The tally of the period `p`. -/
def Slot.read (s : Slot τ) (p : Int) : τ := if s.period = p then s.tally else zero

/-- The records of the period `p` that its slot still counts. -/
def survivors (rs : List ρ) (p : Int) : List ρ :=
  (rs.filter fun r => idx (per r) = idx p).rtakeWhile fun r => per r = p

/-! ## What a slot counts -/

theorem Slot.read_record (s : Slot τ) (q : Int) (r : ρ) (p : Int) :
    (s.record zero bump q r).read zero p = if q = p then bump (s.read zero p) r else zero := by
  unfold Slot.record Slot.read
  by_cases hs : s.period = q
  · subst hs
    split_ifs <;> simp_all
  · by_cases hq : q = p
    · subst hq
      simp [hs]
    · simp [hs, hq]

theorem Slot.read_foldl (s : Slot τ) (hs : s.tally = zero) (rs : List ρ) (p : Int) :
    (rs.foldl (fun s r => s.record zero bump (per r) r) s).read zero p =
      (rs.rtakeWhile fun r => per r = p).foldl bump zero := by
  induction rs using List.reverseRecOn with
  | nil =>
    unfold Slot.read
    split_ifs
    · exact hs
    · rfl
  | append_singleton rs r ih =>
    rw [foldl_append, foldl_cons, foldl_nil, Slot.read_record, rtakeWhile_concat]
    split_ifs with h1 h2 h2
    · rw [foldl_append, ih]
      rfl
    · exact absurd (decide_eq_true h1) h2
    · exact absurd (of_decide_eq_true h2) h1
    · rfl

/-- A slot that has counted something holds the period of one of its records. -/
theorem Slot.period_foldl (s : Slot τ) (rs : List ρ) :
    rs = [] ∨ ∃ r ∈ rs, (rs.foldl (fun s r => s.record zero bump (per r) r) s).period = per r := by
  cases rs using List.reverseRecOn with
  | nil => exact .inl rfl
  | append_singleton rs r =>
    refine .inr ⟨r, mem_append_right _ (mem_singleton_self r), ?_⟩
    rw [foldl_append, foldl_cons, foldl_nil]
    unfold Slot.record
    dsimp only
    split_ifs with h
    · rfl
    · exact not_not.1 h

/-- The slots of a bank do not see each other's records. -/
theorem foldl_bank (s : ι → Slot τ) (rs : List ρ) (i : ι) :
    rs.foldl (fun s r => Function.update s (idx (per r))
        ((s (idx (per r))).record zero bump (per r) r)) s i =
      (rs.filter fun r => idx (per r) = i).foldl
        (fun s r => s.record zero bump (per r) r) (s i) := by
  induction rs generalizing s with
  | nil => rfl
  | cons r rs ih =>
    rw [foldl_cons, ih]
    by_cases h : idx (per r) = i
    · subst h
      rw [filter_cons_of_pos (by simp), foldl_cons, Function.update_self]
    · rw [filter_cons_of_neg (by simpa using h), Function.update_of_ne (Ne.symm h)]

theorem Slot.read_bank (s : ι → Slot τ) (hs : ∀ i, (s i).tally = zero) (rs : List ρ) (p : Int) :
    (rs.foldl (fun s r => Function.update s (idx (per r))
        ((s (idx (per r))).record zero bump (per r) r)) s (idx p)).read zero p =
      (survivors per idx rs p).foldl bump zero := by
  rw [foldl_bank, Slot.read_foldl zero bump per (s (idx p)) (hs _)]
  rfl

end

/-! ## When it counts them all -/

section

variable {ρ ι : Type} [DecidableEq ι] {per : ρ → Int} {idx : Int → ι} {rs : List ρ}

theorem rtakeWhile_sublist_filter (q : ρ → Bool) (rs : List ρ) :
    (rs.rtakeWhile q).Sublist (rs.filter q) := by
  have h : (rs.rtakeWhile q).filter q = rs.rtakeWhile q :=
    filter_eq_self.2 fun r hr => mem_rtakeWhile_imp hr
  rw [← h]
  exact (rtakeWhile_suffix q rs).sublist.filter q

theorem rtakeWhile_eq_filter_iff (q : ρ → Bool) (rs : List ρ) :
    rs.rtakeWhile q = rs.filter q ↔ rs.Pairwise fun a b => q a = true → q b = true := by
  induction rs using List.reverseRecOn with
  | nil => simp
  | append_singleton rs r ih =>
    rw [rtakeWhile_concat, filter_append, pairwise_append]
    by_cases hr : q r = true
    · rw [if_pos hr, filter_cons_of_pos hr, filter_nil, append_cancel_right_eq, ih]
      simp [hr]
    · -- the last record ends what was counted: there must have been nothing
      rw [if_neg hr, filter_cons_of_neg hr, filter_nil, append_nil, eq_comm,
        filter_eq_nil_iff]
      refine ⟨fun h => ⟨?_, pairwise_singleton .., ?_⟩, fun h a ha haq => ?_⟩
      · exact List.Pairwise.imp_of_mem (fun ha _ _ hq => absurd hq (h _ ha)) (pairwise_of_forall
          (fun _ _ => trivial) : rs.Pairwise fun _ _ => True)
      · exact fun a ha b _ haq => absurd haq (h a ha)
      · exact hr (h.2.2 a ha r (mem_singleton_self r) haq)

theorem filter_same_slot (rs : List ρ) (p : Int) :
    ((rs.filter fun r => idx (per r) = idx p).filter fun r => per r = p) =
      rs.filter fun r => per r = p := by
  rw [filter_filter]
  refine filter_congr fun r _ => ?_
  by_cases h : per r = p
  · simp [h]
  · simp [h]

theorem survivors_sublist (rs : List ρ) (p : Int) :
    (survivors per idx rs p).Sublist (rs.filter fun r => per r = p) := by
  rw [← @filter_same_slot ρ ι _ per idx rs p]
  exact rtakeWhile_sublist_filter _ _

theorem survivors_eq_iff (rs : List ρ) (p : Int) :
    (survivors per idx rs p = rs.filter fun r => per r = p) ↔
      rs.Pairwise fun a b => per a = p → idx (per b) = idx p → per b = p := by
  rw [← @filter_same_slot ρ ι _ per idx rs p]
  unfold survivors
  rw [rtakeWhile_eq_filter_iff, pairwise_filter]
  refine List.Pairwise.iff fun a b => ?_
  simp only [decide_eq_true_eq]
  constructor
  · rintro h rfl hb
    exact h rfl hb rfl
  · intro h _ hb ha
    exact h ha hb

/-- It is enough to compare the numbers. -/
theorem survivors_eq_iff_length (rs : List ρ) (p : Int) :
    (survivors per idx rs p).length = (rs.filter fun r => per r = p).length ↔
      survivors per idx rs p = rs.filter fun r => per r = p :=
  ⟨(survivors_sublist rs p).eq_of_length, congrArg List.length⟩

end

end Tuck.Base
