/-
  The buffer of the most recent audit entries (`Ring`), with its three readers.

  The readers compute the cells they visit in different ways: `Snapshot` and `After` go forward
  from the oldest entry, `Query` back from the newest. All of them see the list of the last
  entries that were appended (`window_appendAll`, `backwards_appendAll`), so the buffer behaves as
  that list (`ring_semantics`).
-/
import Tuck.Audit.Entry
import Tuck.Base.Cyclic

namespace Tuck.Audit

open Tuck.Base List

/-! ## The buffer -/

/-- `Ring`: there is a cell to write to, and not more entries than cells. -/
structure Ring where
  buf : List Entry
  next : Nat
  n : Nat
  last : UInt64
  next_lt : next < buf.length
  n_le : n ≤ buf.length

def newRing (capacity : Int) : Ring where
  buf := List.replicate (if capacity < 1 then 1 else capacity.toNat) .zero
  next := 0
  n := 0
  last := 0
  next_lt := by
    rw [length_replicate]
    split_ifs <;> omega
  n_le := Nat.zero_le _

namespace Ring

def append (r : Ring) (e : Entry) : Ring where
  buf := r.buf.set r.next e
  next := (r.next + 1) % r.buf.length
  n := if r.n < r.buf.length then r.n + 1 else r.n
  last := if r.last < e.seq then e.seq else r.last
  next_lt := by
    rw [length_set]
    exact Nat.mod_lt _ (Nat.zero_lt_of_lt r.next_lt)
  n_le := by
    have := r.n_le
    rw [length_set]
    split_ifs <;> omega

/-- `buf[i % len(buf)]`. -/
def cell (r : Ring) (i : Nat) : Entry :=
  r.buf.get ⟨i % r.buf.length, Nat.mod_lt _ (Nat.zero_lt_of_lt r.next_lt)⟩

/-- The entries in the order in which `snapshotLocked` and `After` visit them. -/
def window (r : Ring) : List Entry :=
  let start := (r.next + r.buf.length - r.n) % r.buf.length
  (List.range r.n).map fun i => r.cell (start + i)

/-- The entries in the order in which `Query` visits them. -/
def backwards (r : Ring) : List Entry :=
  (List.range r.n).map fun i => r.cell (r.next + 2 * r.buf.length - 1 - i)

def snapshot (r : Ring) : List Entry := r.window

/-- The loop of `After`, on the entries that are left; `gap` is decided at the first one that
    it takes. -/
def afterLoop (seq : UInt64) (limit : Int) : List Entry → List Entry → Bool → List Entry × Bool
  | [], out, gap => (out, gap)
  | e :: es, out, gap =>
      if e.seq ≤ seq then afterLoop seq limit es out gap
      else
        let gap := gap || (out.isEmpty && seq != 0 && decide (seq + 1 < e.seq))
        let out := out ++ [e]
        if 0 < limit ∧ limit ≤ out.length then (out, gap) else afterLoop seq limit es out gap

def after (r : Ring) (seq : UInt64) (limit : Int) : List Entry × Bool :=
  afterLoop seq limit r.window [] false

/-- The loop of `Query`. -/
def queryLoop (f : Entry → Bool) (limit : Int) : List Entry → List Entry → Nat → List Entry × Nat
  | [], out, matched => (out, matched)
  | e :: es, out, matched =>
      if f e then
        queryLoop f limit es (if limit ≤ 0 ∨ out.length < limit then out ++ [e] else out)
          (matched + 1)
      else queryLoop f limit es out matched

/-- `Query`; `f` is the `Match` of a filter. -/
def query (r : Ring) (f : Entry → Bool) (limit : Int) : List Entry × Nat :=
  queryLoop f limit r.backwards [] 0

end Ring

/-! ## The list it stands for -/

/-- The number of cells of a ring. -/
def cellCount (capacity : Int) : Nat := (max capacity 1).toNat

/-- The last entries, as many as there are cells. -/
def kept (capacity : Int) (xs : List Entry) : List Entry := xs.drop (xs.length - cellCount capacity)

/-- The entries before them. -/
def overwritten (capacity : Int) (xs : List Entry) : List Entry :=
  xs.take (xs.length - cellCount capacity)

/-- At most `limit` of them; all if it is not positive. -/
def atMost (limit : Int) (xs : List Entry) : List Entry :=
  if limit ≤ 0 then xs else xs.take limit.toNat

/-- The numbers of the entries are `s₀`, `s₀ + 1` and so on. -/
def Consecutive (s₀ : Nat) (xs : List Entry) : Prop :=
  ∀ (i : Nat) (e : Entry), xs[i]? = some e → e.seq.toNat = s₀ + i

/-! ## The cells -/

namespace Ring

theorem length_buf_append (r : Ring) (e : Entry) : (r.append e).buf.length = r.buf.length :=
  length_set ..

theorem length_buf_newRing (capacity : Int) :
    (newRing capacity).buf.length = cellCount capacity := by
  unfold newRing cellCount
  rw [length_replicate]
  split_ifs <;> omega

theorem getElem?_cell (r : Ring) (i : Nat) : r.buf[i % r.buf.length]? = some (r.cell i) :=
  List.getElem?_eq_getElem _

variable {xs : List Entry}

/-- The cells after a run of `Append`. -/
theorem holds_foldl {r : Ring} (h : Cyclic.Holds r.buf r.next r.n xs)
    (ys : List Entry) :
    Cyclic.Holds (ys.foldl append r).buf (ys.foldl append r).next (ys.foldl append r).n (xs ++ ys) ∧
      (ys.foldl append r).buf.length = r.buf.length := by
  induction ys generalizing r xs with
  | nil => exact ⟨by rwa [append_nil], rfl⟩
  | cons y ys ih =>
    obtain ⟨hholds, hlen⟩ := ih (r := r.append y) (h.push (Nat.zero_lt_of_lt r.next_lt) y)
    rw [append_assoc] at hholds
    exact ⟨hholds, hlen.trans (r.length_buf_append y)⟩

theorem holds_appendAll (capacity : Int) (xs : List Entry) :
    Cyclic.Holds (xs.foldl append (newRing capacity)).buf (xs.foldl append (newRing capacity)).next
      (xs.foldl append (newRing capacity)).n xs ∧
      (xs.foldl append (newRing capacity)).buf.length = cellCount capacity := by
  obtain ⟨hholds, hlen⟩ := holds_foldl (r := newRing capacity) (Cyclic.Holds.nil _) xs
  exact ⟨hholds, hlen.trans (length_buf_newRing capacity)⟩

theorem length_kept {r : Ring} {capacity : Int}
    (h : Cyclic.Holds r.buf r.next r.n xs) (hlen : r.buf.length = cellCount capacity) :
    (kept capacity xs).length = r.n := by
  have hn := h.n_eq
  unfold kept
  rw [length_drop]
  omega

theorem window_appendAll (capacity : Int) (xs : List Entry) :
    (xs.foldl append (newRing capacity)).window = kept capacity xs := by
  obtain ⟨hholds, hlen⟩ := holds_appendAll capacity xs
  generalize xs.foldl append (newRing capacity) = r at hholds hlen
  refine ext_getElem? fun i => ?_
  by_cases hi : i < r.n
  · have hcell := hholds.oldest hi
    rw [getElem?_cell, hlen] at hcell
    simp only [window, List.getElem?_map, List.getElem?_range hi, Option.map_some]
    rw [hlen]
    exact hcell
  · rw [List.getElem?_eq_none (by simpa [window] using hi),
      List.getElem?_eq_none (by rw [length_kept hholds hlen]; omega)]

theorem backwards_appendAll (capacity : Int) (xs : List Entry) :
    (xs.foldl append (newRing capacity)).backwards = (kept capacity xs).reverse := by
  obtain ⟨hholds, hlen⟩ := holds_appendAll capacity xs
  generalize xs.foldl append (newRing capacity) = r at hholds hlen
  refine ext_getElem? fun i => ?_
  by_cases hi : i < r.n
  · have hcell := hholds.newest hi
    rw [getElem?_cell, hlen] at hcell
    simp only [backwards, List.getElem?_map, List.getElem?_range hi, Option.map_some]
    rw [hlen]
    exact hcell
  · rw [List.getElem?_eq_none (by simpa [backwards] using hi),
      List.getElem?_eq_none (by rw [length_reverse, length_kept hholds hlen]; omega)]

/-! ## The loops of the readers -/

variable {limit : Int}

theorem atMost_of_length_le (h : 0 < limit → xs.length ≤ limit) :
    atMost limit xs = xs := by
  unfold atMost
  split_ifs with hlimit
  · rfl
  · exact take_of_length_le (by omega)

/-- A list that has reached the limit takes no more entries. -/
theorem atMost_append_of_length (h : limit = xs.length)
    (hpos : 0 < limit) (ys : List Entry) : atMost limit (xs ++ ys) = xs := by
  unfold atMost
  rw [if_neg (by omega)]
  exact take_left' (by omega)

theorem afterLoop_fst {seq : UInt64} {out : List Entry}
    (h : 0 < limit → out.length < limit) (es : List Entry) (gap : Bool) :
    (afterLoop seq limit es out gap).1 = atMost limit (out ++ es.filter fun e => seq < e.seq) := by
  induction es generalizing out gap with
  | nil =>
    rw [filter_nil, append_nil]
    exact (atMost_of_length_le fun hpos => (h hpos).le).symm
  | cons e es ih =>
    unfold afterLoop
    split_ifs with hseq
    · rw [filter_cons_of_neg (by simpa using hseq)]
      exact ih h gap
    have hcons : out ++ (e :: es).filter (fun e => seq < e.seq) =
        (out ++ [e]) ++ es.filter fun e => seq < e.seq := by
      rw [filter_cons_of_pos (by simpa using hseq), append_assoc, singleton_append]
    have hlen : (out ++ [e]).length = out.length + 1 := length_append
    rw [hcons]
    dsimp only
    split_ifs with hfull
    · have hlimit : limit = (out ++ [e]).length := by
        have := h hfull.1
        omega
      exact (atMost_append_of_length hlimit hfull.1 _).symm
    · exact ih (by omega) _

/-- The gap is decided by the first entry that is taken. -/
theorem afterLoop_snd (seq : UInt64) (limit : Int) (es out : List Entry) (gap : Bool) :
    (afterLoop seq limit es out gap).2 = (gap || (out.isEmpty && seq != 0 &&
      (es.filter fun e => seq < e.seq).head?.any fun e => seq + 1 < e.seq)) := by
  induction es generalizing out gap with
  | nil => simp [afterLoop]
  | cons e es ih =>
    unfold afterLoop
    split_ifs with hseq
    · rw [filter_cons_of_neg (by simpa using hseq)]
      exact ih out gap
    rw [filter_cons_of_pos (by simpa using hseq)]
    dsimp only
    split_ifs with hfull
    · simp
    · rw [ih]
      simp

theorem queryLoop_eq {f : Entry → Bool} {out : List Entry}
    (h : 0 < limit → out.length ≤ limit) (es : List Entry) (matched : Nat) :
    queryLoop f limit es out matched =
      (atMost limit (out ++ es.filter f), matched + (es.filter f).length) := by
  induction es generalizing out matched with
  | nil =>
    rw [filter_nil, append_nil, atMost_of_length_le h]
    rfl
  | cons e es ih =>
    unfold queryLoop
    split_ifs with hf hroom
    · rw [ih (by rw [length_append, length_singleton]; omega),
        filter_cons_of_pos hf, append_assoc, singleton_append, length_cons]
      congr 1
      omega
    · have hlimit : limit = out.length := by
        have := h (by omega)
        omega
      rw [ih h, filter_cons_of_pos hf, length_cons,
        atMost_append_of_length hlimit (by omega), atMost_append_of_length hlimit (by omega)]
      congr 1
      omega
    · rw [ih h, filter_cons_of_neg hf]

end Ring

/-! ## The entries after a number -/

variable {xs : List Entry} {s₀ : Nat}

theorem Consecutive.tail {e : Entry} (h : Consecutive s₀ (e :: xs)) :
    Consecutive (s₀ + 1) xs := by
  intro i e' hi
  have := h (i + 1) e' (by rwa [List.getElem?_cons_succ])
  omega

theorem Consecutive.drop (h : Consecutive s₀ xs) (k : Nat) :
    Consecutive (s₀ + k) (xs.drop k) := by
  intro i e hi
  rw [List.getElem?_drop] at hi
  have := h (k + i) e hi
  omega

/-- Of consecutive entries, those above a number are the ones from some place on. -/
theorem filter_consecutive (h : Consecutive s₀ xs) (seq : UInt64) :
    (xs.filter fun e => seq < e.seq) = xs.drop (seq.toNat + 1 - s₀) := by
  induction xs generalizing s₀ with
  | nil => rw [drop_nil, filter_nil]
  | cons e xs ih =>
    have he : e.seq.toNat = s₀ := h 0 e rfl
    have ih := ih h.tail
    by_cases hlt : seq < e.seq
    · have hzero : seq.toNat + 1 - s₀ = 0 := by
        rw [UInt64.lt_iff_toNat_lt] at hlt
        omega
      rw [filter_cons_of_pos (by simpa using hlt), ih, hzero, drop_zero,
        show seq.toNat + 1 - (s₀ + 1) = 0 by omega, drop_zero]
    · have hsucc : seq.toNat + 1 - s₀ = seq.toNat + 1 - (s₀ + 1) + 1 := by
        rw [UInt64.lt_iff_toNat_lt] at hlt
        omega
      rw [filter_cons_of_neg (by simpa using hlt), ih, hsucc, drop_succ_cons]

/-- The first entry above a number leaves a gap exactly if the list starts after the next one. -/
theorem gap_consecutive {a : Nat} (h : Consecutive a xs) (seq : UInt64) :
    ((xs.filter fun e => seq < e.seq).head?.any fun e => seq + 1 < e.seq) =
      decide (xs ≠ [] ∧ seq.toNat + 1 < a) := by
  rw [filter_consecutive h, List.head?_drop]
  cases he : xs[seq.toNat + 1 - a]? with
  | none =>
    have hlen := List.getElem?_eq_none_iff.1 he
    have : ¬(xs ≠ [] ∧ seq.toNat + 1 < a) := by
      rintro ⟨hne, hlt⟩
      have := length_pos_of_ne_nil hne
      omega
    simp [this]
  | some e =>
    have hseq := h _ e he
    have hne : xs ≠ [] := by
      rintro rfl
      cases he
    have hbound := e.seq.toNat_lt
    -- a number that is followed by another one is not the largest
    have hadd : (seq + 1).toNat = seq.toNat + 1 := by
      rw [UInt64.toNat_add]
      exact Nat.mod_eq_of_lt (by simp only [UInt64.toNat_one]; omega)
    simp only [Option.any_some, UInt64.lt_iff_toNat_lt, hadd, hne, ne_eq, not_false_eq_true,
      true_and]
    rw [decide_eq_decide]
    omega

theorem exists_mem_overwritten_iff (h : Consecutive s₀ xs)
    (capacity : Int) {seq : UInt64} (hs₀ : s₀ ≤ seq.toNat + 1) :
    (∃ e ∈ overwritten capacity xs, seq < e.seq) ↔
      kept capacity xs ≠ [] ∧ seq.toNat + 1 < s₀ + (xs.length - cellCount capacity) := by
  have hpos : 0 < cellCount capacity := by unfold cellCount; omega
  constructor
  · rintro ⟨e, he, hlt⟩
    obtain ⟨i, hi⟩ := List.getElem?_of_mem he
    unfold overwritten at hi
    rw [List.getElem?_take] at hi
    split_ifs at hi with hlen
    have hseq := h i e hi
    rw [UInt64.lt_iff_toNat_lt] at hlt
    refine ⟨ne_nil_of_length_pos ?_, by omega⟩
    unfold kept
    rw [length_drop]
    omega
  · rintro ⟨-, hlt⟩
    -- the entry just before the oldest one that is kept
    have hi : xs.length - cellCount capacity - 1 < xs.length := by omega
    refine ⟨xs[xs.length - cellCount capacity - 1], ?_, ?_⟩
    · exact mem_take_iff_getElem.2 ⟨_, by omega, rfl⟩
    · have hseq := h _ _ (List.getElem?_eq_getElem hi)
      rw [UInt64.lt_iff_toNat_lt]
      omega

/-! ## The semantics -/

/-- The readers of a ring after any run of `Append`, in terms of the entries appended. The numbers
    of the entries matter to `After` alone. -/
theorem ring_semantics (h : Consecutive s₀ xs) (capacity : Int) :
    let r := xs.foldl Ring.append (newRing capacity)
    r.snapshot = kept capacity xs ∧
      (∀ f limit, r.query f limit = (atMost limit ((kept capacity xs).reverse.filter f),
        ((kept capacity xs).filter f).length)) ∧
      ∀ (seq : UInt64) (limit : Int), max 1 (s₀ - 1) ≤ seq.toNat →
        r.after seq limit = (atMost limit ((kept capacity xs).filter fun e => seq < e.seq),
          decide (∃ e ∈ overwritten capacity xs, seq < e.seq)) := by
  refine ⟨Ring.window_appendAll capacity xs, fun f limit => ?_, fun seq limit hseq => ?_⟩
  · unfold Ring.query
    rw [Ring.backwards_appendAll, Ring.queryLoop_eq (fun hpos => by simpa using hpos.le),
      nil_append, Nat.zero_add, filter_reverse, length_reverse]
  · have hne : (seq != 0) = true := by
      rw [bne_iff_ne]
      rintro rfl
      rw [UInt64.toNat_zero] at hseq
      omega
    unfold Ring.after
    refine Prod.ext ?_ ?_
    · rw [Ring.window_appendAll, Ring.afterLoop_fst (fun hpos => by simpa using hpos)]
      rfl
    · have hkept : Consecutive (s₀ + (xs.length - cellCount capacity)) (kept capacity xs) :=
        h.drop _
      rw [Ring.window_appendAll, Ring.afterLoop_snd, gap_consecutive hkept, hne]
      simp only [Bool.false_or, isEmpty_nil, Bool.true_and, decide_eq_decide]
      exact (exists_mem_overwritten_iff h capacity (by omega)).symm

/-- Entries that differ in their number only. -/
def numbered (seq : UInt64) : Entry := { Entry.zero with seq := seq }

/-- Ten entries in four cells: the entries after the eighth are there, some of those after the
    second are not. -/
theorem ring_semantics_tenEntries :
    let r := ([1, 2, 3, 4, 5, 6, 7, 8, 9, 10].map numbered).foldl Ring.append (newRing 4)
    r.snapshot = [7, 8, 9, 10].map numbered ∧ r.after 8 0 = ([9, 10].map numbered, false) ∧
      r.after 2 0 = ([7, 8, 9, 10].map numbered, true) := by
  have hseq : Consecutive 1 ([1, 2, 3, 4, 5, 6, 7, 8, 9, 10].map numbered) := by
    intro i e hi
    have hlt : i < 10 := by simpa using (List.getElem?_eq_some_iff.1 hi).1
    interval_cases i <;> cases hi <;> rfl
  obtain ⟨hsnapshot, -, hafter⟩ := ring_semantics hseq 4
  refine ⟨hsnapshot, (hafter 8 0 (by decide)).trans ?_, (hafter 2 0 (by decide)).trans ?_⟩
  · decide +kernel
  · decide +kernel

end Tuck.Audit
