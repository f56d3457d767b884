/-
  A worklist over a graph that may have cycles: nodes are taken from a queue, marked, and
  their successors that are not marked yet are queued. What is marked in the end is what can
  be reached from the first queue (`mem_walk`), and with fuel for every queued node the loop
  gets there (`walk_isSome`).
-/
import Mathlib

namespace Tuck.Base

open List Finset

section

variable {α : Type} [DecidableEq α] (succ : α → List α)

/-- The loop, from a queue and the nodes marked so far. -/
def walk : Nat → List α → Finset α → Option (Finset α)
  | _, [], marked => some marked
  | 0, _ :: _, _ => none
  | n + 1, x :: queue, marked =>
      if x ∈ marked then walk n queue marked
      else
        walk n (queue ++ (succ x).filter fun y => y ∉ insert x marked) (insert x marked)

/-- One step from a node to a successor. -/
def Step (x y : α) : Prop := y ∈ succ x

/-- Some node of `xs` leads to `y`. -/
def ReachedFrom (xs : List α) (y : α) : Prop := ∃ x ∈ xs, Relation.ReflTransGen (Step succ) x y

variable {succ} {n : Nat} {queue : List α} {marked r : Finset α}

theorem marked_subset_walk (h : walk succ n queue marked = some r) : marked ⊆ r := by
  fun_induction walk succ n queue marked with
  | case1 n marked => cases h; exact Finset.Subset.refl _
  | case2 marked x queue => cases h
  | case3 n x queue marked hx ih => exact ih h
  | case4 n x queue marked hx ih => exact (subset_insert x marked).trans (ih h)

theorem queue_subset_walk (h : walk succ n queue marked = some r) : ∀ x ∈ queue, x ∈ r := by
  fun_induction walk succ n queue marked with
  | case1 n marked => nofun
  | case2 marked x queue => cases h
  | case3 n x queue marked hx ih =>
    intro y hy
    rcases mem_cons.1 hy with rfl | hy
    · exact marked_subset_walk h hx
    · exact ih h y hy
  | case4 n x queue marked hx ih =>
    intro y hy
    rcases mem_cons.1 hy with rfl | hy
    · exact marked_subset_walk h (mem_insert_self y marked)
    · exact ih h y (mem_append_left _ hy)

/-- What is marked is closed under successors, if the successors of what was marked before are
    marked or queued. -/
theorem walk_closed (hinv : ∀ x ∈ marked, ∀ y ∈ succ x, y ∈ marked ∨ y ∈ queue)
    (h : walk succ n queue marked = some r) : ∀ x ∈ r, ∀ y ∈ succ x, y ∈ r := by
  fun_induction walk succ n queue marked with
  | case1 n marked =>
    cases h
    exact fun x hx y hy => (hinv x hx y hy).resolve_right not_mem_nil
  | case2 marked x queue => cases h
  | case3 n x queue marked hx ih =>
    refine ih (fun z hz y hy => ?_) h
    rcases hinv z hz y hy with hm | hq
    · exact Or.inl hm
    · rcases mem_cons.1 hq with rfl | hq
      · exact Or.inl hx
      · exact Or.inr hq
  | case4 n x queue marked hx ih =>
    refine ih (fun z hz y hy => ?_) h
    by_cases hy' : y ∈ insert x marked
    · exact Or.inl hy'
    · refine Or.inr ?_
      rcases mem_insert.1 hz with rfl | hz
      · exact mem_append_right _ (mem_filter.2 ⟨hy, decide_eq_true hy'⟩)
      · rcases hinv z hz y hy with hm | hq
        · exact absurd (mem_insert_of_mem hm) hy'
        · rcases mem_cons.1 hq with rfl | hq
          · exact absurd (mem_insert_self y marked) hy'
          · exact mem_append_left _ hq

theorem walk_sound (h : walk succ n queue marked = some r) :
    ∀ y ∈ r, y ∈ marked ∨ ReachedFrom succ queue y := by
  fun_induction walk succ n queue marked with
  | case1 n marked => cases h; exact fun y hy => Or.inl hy
  | case2 marked x queue => cases h
  | case3 n x queue marked hx ih =>
    intro y hy
    rcases ih h y hy with hm | ⟨z, hz, hr⟩
    · exact Or.inl hm
    · exact Or.inr ⟨z, mem_cons_of_mem x hz, hr⟩
  | case4 n x queue marked hx ih =>
    intro y hy
    rcases ih h y hy with hm | ⟨z, hz, hr⟩
    · rcases mem_insert.1 hm with rfl | hm
      · exact Or.inr ⟨y, mem_cons_self, .refl⟩
      · exact Or.inl hm
    · rcases mem_append.1 hz with hz | hz
      · exact Or.inr ⟨z, mem_cons_of_mem x hz, hr⟩
      · have hstep : Step succ x z := (mem_filter.1 hz).1
        exact Or.inr ⟨x, mem_cons_self, .head hstep hr⟩

/-- The loop marks what can be reached from its queue. -/
theorem mem_walk (h : walk succ n queue ∅ = some r) {y : α} : y ∈ r ↔ ReachedFrom succ queue y := by
  constructor
  · intro hy
    exact (walk_sound h y hy).resolve_left (notMem_empty y)
  · rintro ⟨x, hx, hr⟩
    have hclosed := walk_closed (fun x hx => absurd hx (notMem_empty x)) h
    induction hr with
    | refl => exact queue_subset_walk h x hx
    | tail _ hstep ih => exact hclosed _ ih _ hstep

/-- Fuel for the queue and for the successors of every node still to be marked is enough. -/
theorem walk_isSome {G : Finset α} {d : Nat} (hG : ∀ x, ∀ y ∈ succ x, y ∈ G)
    (hd : ∀ x, (succ x).length ≤ d)
    (hn : queue.length + ((queue.toFinset ∪ G) \ marked).card * d ≤ n) :
    (walk succ n queue marked).isSome = true := by
  fun_induction walk succ n queue marked with
  | case1 n marked => rfl
  | case2 marked x queue => simp at hn
  | case3 n x queue marked hx ih =>
    refine ih ?_
    have hsub : (queue.toFinset ∪ G) \ marked ⊆ ((x :: queue).toFinset ∪ G) \ marked := by
      refine Finset.sdiff_subset_sdiff (Finset.union_subset_union_left ?_) (Finset.Subset.refl _)
      rw [toFinset_cons]
      exact Finset.subset_insert ..
    have hmul := Nat.mul_le_mul_right d (Finset.card_le_card hsub)
    rw [length_cons] at hn
    omega
  | case4 n x queue marked hx ih =>
    refine ih ?_
    have hmem : x ∈ ((x :: queue).toFinset ∪ G) \ marked := by simp [hx]
    have hsub : ((queue ++ (succ x).filter fun y => y ∉ insert x marked).toFinset ∪ G) \
        insert x marked ⊆ (((x :: queue).toFinset ∪ G) \ marked).erase x := by
      intro y hy
      rw [Finset.mem_sdiff, Finset.mem_union, Finset.mem_insert, not_or] at hy
      obtain ⟨hy, hyx, hym⟩ := hy
      refine Finset.mem_erase.2 ⟨hyx, Finset.mem_sdiff.2 ⟨?_, hym⟩⟩
      rcases hy with hy | hy
      · rcases mem_append.1 (mem_toFinset.1 hy) with hy | hy
        · exact Finset.mem_union_left _ (mem_toFinset.2 (mem_cons_of_mem x hy))
        · exact Finset.mem_union_right _ (hG x y (mem_filter.1 hy).1)
      · exact Finset.mem_union_right _ hy
    have hcard := Finset.card_le_card hsub
    rw [Finset.card_erase_of_mem hmem] at hcard
    have hpos : 0 < (((x :: queue).toFinset ∪ G) \ marked).card := Finset.card_pos.2 ⟨x, hmem⟩
    have hfilter : ((succ x).filter fun y => y ∉ insert x marked).length ≤ d :=
      (length_filter_le ..).trans (hd x)
    generalize (((x :: queue).toFinset ∪ G) \ marked).card = c at hn hcard hpos
    have hmul := Nat.mul_le_mul_right d hcard
    have hsplit : c * d = (c - 1) * d + d := by
      rw [Nat.sub_mul, Nat.one_mul, Nat.sub_add_cancel (Nat.le_mul_of_pos_left d hpos)]
    rw [length_cons] at hn
    rw [length_append]
    omega

end

end Tuck.Base
