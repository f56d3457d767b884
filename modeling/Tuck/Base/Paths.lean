/-
  Paths with '/' between their segments.

  Every path of a request goes through `path.Clean` after a '/' has been put before it, and
  is used without that '/'. `clean` is this composition: empty and "." segments are dropped,
  ".." takes back the segment before it, and at the top it has no effect. A cleaned path is
  a list of names (`IsName`) joined by '/', and cleaning it again changes nothing.
-/
import Tuck.Base.Bytes

namespace Tuck.Base

open List

def slash : UInt8 := 0x2F

/-- One segment of a path; the segments kept so far are in reverse order. -/
def cleanStep (kept : List Bytes) (seg : Bytes) : List Bytes :=
  if seg = [] ∨ seg = ascii "." then kept
  else if seg = ascii ".." then kept.tail
  else seg :: kept

/-- The segments of the cleaned path. -/
def cleanSegments (p : Bytes) : List Bytes := ((p.splitOn slash).foldl cleanStep []).reverse

/-- `path.Clean("/" + p)[1:]`. -/
def clean (p : Bytes) : Bytes := joinWith slash (cleanSegments p)

/-- A segment that stands for itself. -/
def IsName (seg : Bytes) : Prop := seg ≠ [] ∧ seg ≠ ascii "." ∧ seg ≠ ascii ".." ∧ slash ∉ seg

instance : DecidablePred IsName := fun seg =>
  inferInstanceAs (Decidable (seg ≠ [] ∧ seg ≠ ascii "." ∧ seg ≠ ascii ".." ∧ slash ∉ seg))

/-- The segments of a path; the empty path has none. -/
def segments (p : Bytes) : List Bytes := if p = [] then [] else p.splitOn slash

theorem slash_notMem_splitOn {p seg : Bytes} (h : seg ∈ p.splitOn slash) : slash ∉ seg := by
  induction p generalizing seg with
  | nil =>
    rw [splitOn_nil, mem_singleton] at h
    rw [h]
    exact not_mem_nil
  | cons b p ih =>
    rw [List.splitOn, splitOnP_cons_eq_if_modifyHead] at h
    split_ifs at h with hb
    · obtain rfl | h := mem_cons.1 h
      · exact not_mem_nil
      · exact ih h
    · cases hp : p.splitOnP (· == slash) with
      | nil => exact absurd hp (splitOnP_ne_nil _ _)
      | cons x xs =>
        rw [hp, modifyHead_cons] at h
        have htail : ∀ y ∈ x :: xs, slash ∉ y := fun y hy => ih (by rw [List.splitOn, hp]; exact hy)
        obtain rfl | h := mem_cons.1 h
        · rw [mem_cons, not_or]
          exact ⟨fun heq => hb (beq_iff_eq.2 heq.symm), htail x (mem_cons_self ..)⟩
        · exact htail seg (mem_cons_of_mem x h)

/-! ## What is left of a path -/

theorem isName_cleanStep {kept : List Bytes} {seg : Bytes} (hkept : ∀ x ∈ kept, IsName x)
    (hseg : slash ∉ seg) : ∀ x ∈ cleanStep kept seg, IsName x := by
  unfold cleanStep
  split_ifs with h1 h2
  · exact hkept
  · exact fun x hx => hkept x (mem_of_mem_tail hx)
  · intro x hx
    obtain rfl | hx := mem_cons.1 hx
    · rw [not_or] at h1
      exact ⟨h1.1, h1.2, h2, hseg⟩
    · exact hkept x hx

theorem isName_foldl {segs kept : List Bytes} (hkept : ∀ x ∈ kept, IsName x)
    (hsegs : ∀ x ∈ segs, slash ∉ x) : ∀ x ∈ segs.foldl cleanStep kept, IsName x := by
  induction segs generalizing kept with
  | nil => exact hkept
  | cons s segs ih =>
    exact ih (isName_cleanStep hkept (hsegs s (mem_cons_self ..)))
      fun x hx => hsegs x (mem_cons_of_mem s hx)

theorem isName_of_mem_cleanSegments {p seg : Bytes} (h : seg ∈ cleanSegments p) : IsName seg :=
  isName_foldl (fun _ hx => absurd hx not_mem_nil) (fun _ hx => slash_notMem_splitOn hx) seg
    (mem_reverse.1 h)

theorem joinWith_eq_nil_iff {xs : List Bytes} (h : ∀ x ∈ xs, x ≠ []) :
    joinWith slash xs = [] ↔ xs = [] := by
  match xs with
  | [] => exact iff_of_true rfl rfl
  | [x] => exact iff_of_false (h x (mem_singleton_self x)) (cons_ne_nil x [])
  | x :: y :: ys =>
    refine iff_of_false ?_ (cons_ne_nil x _)
    rw [joinWith_cons]
    exact append_ne_nil_of_right_ne_nil x (cons_ne_nil _ _)

/-- The segments of a cleaned path are those that cleaning kept. -/
theorem segments_clean (p : Bytes) : segments (clean p) = cleanSegments p := by
  have hname : ∀ x ∈ cleanSegments p, IsName x := fun x hx => isName_of_mem_cleanSegments hx
  unfold segments
  split_ifs with h
  · exact ((joinWith_eq_nil_iff fun x hx => (hname x hx).1).1 h).symm
  · have hne : cleanSegments p ≠ [] := fun hnil => h (by rw [clean, hnil]; rfl)
    exact splitOn_joinWith hne fun x hx => (hname x hx).2.2.2

/-- A cleaned path has no empty, "." or ".." segment. -/
theorem isName_of_mem_clean {p seg : Bytes} (h : seg ∈ segments (clean p)) : IsName seg :=
  isName_of_mem_cleanSegments (segments_clean p ▸ h)

/-! ## Cleaning twice -/

theorem foldl_cleanStep_of_isName {segs kept : List Bytes} (h : ∀ x ∈ segs, IsName x) :
    segs.foldl cleanStep kept = segs.reverse ++ kept := by
  induction segs generalizing kept with
  | nil => rfl
  | cons s segs ih =>
    obtain ⟨h1, h2, h3, -⟩ := h s (mem_cons_self ..)
    have hstep : cleanStep kept s = s :: kept := by
      rw [cleanStep, if_neg (not_or.2 ⟨h1, h2⟩), if_neg h3]
    rw [foldl_cons, hstep, ih fun x hx => h x (mem_cons_of_mem s hx), reverse_cons,
      append_assoc]
    rfl

theorem cleanSegments_of_isName {p : Bytes} (h : ∀ x ∈ segments p, IsName x) :
    cleanSegments p = segments p := by
  unfold segments cleanSegments at *
  split_ifs at h ⊢ with hp
  · rw [hp]
    decide
  · rw [foldl_cleanStep_of_isName h, append_nil, reverse_reverse]

/-- A path without empty, "." and ".." segments is left as it is. -/
theorem clean_of_isName {p : Bytes} (h : ∀ x ∈ segments p, IsName x) : clean p = p := by
  rw [clean, cleanSegments_of_isName h, segments]
  split_ifs with hp
  · exact hp.symm
  · exact joinWith_splitOn p

@[simp] theorem clean_clean (p : Bytes) : clean (clean p) = clean p :=
  clean_of_isName fun _ hx => isName_of_mem_clean hx

example : clean (ascii "/a//./b/../c/") = ascii "a/c" := by decide

example : clean (ascii "../../x") = ascii "x" := by decide

/-! ## Listings -/

/-- `strings.HasSuffix(p, "/")`. -/
def endsInSlash (p : Bytes) : Bool := p.getLast? = some slash

/-- The path with a '/' at its end. -/
def withSlash (p : Bytes) : Bytes := if endsInSlash p then p else p ++ [slash]

theorem prefix_withSlash (p : Bytes) : p <+: withSlash p := by
  unfold withSlash
  split_ifs
  · exact prefix_rfl
  · exact prefix_append p _

/-- The direct child that a path below a folder belongs to: a folder, with its '/', or the
    path itself. -/
def childName (rel : Bytes) : Bytes :=
  if slash ∈ rel then rel.takeWhile (· ≠ slash) ++ [slash] else rel

/-- Each name once, in the order of first occurrence. -/
def distinct (names : List Bytes) : List Bytes :=
  names.foldl (fun seen name => if name ∈ seen then seen else seen ++ [name]) []

/-- The listing of a folder: the keys without `trim` and then `query`, reduced to direct
    children, sorted. -/
def childNames (trim query : Bytes) (keys : List Bytes) : List Bytes :=
  let rels := (keys.map fun k => trimPrefix (trimPrefix k trim) query).filter (· ≠ [])
  (distinct (rels.map childName)).insertionSort (· ≤ ·)

end Tuck.Base
