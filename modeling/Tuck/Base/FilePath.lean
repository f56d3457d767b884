/-
  File paths as `path/filepath` cleans and joins them.

  A cleaned path is the list of its elements, with a mark if it begins at the root. What a name
  does to the path it is joined to depends on two things only: how often it goes up beyond its
  own beginning, and which elements it leaves (`relative`, `foldl_lexStep`). A name that leaves
  one element and goes nowhere up names a direct child.
-/
import Tuck.Base.Paths
import Tuck.Base.Text

namespace Tuck.Base

open List

def dotdot : Bytes := ascii ".."

/-- The path one element up, last element first; above a beginning that is not the root there
    is always one more. -/
def up (rooted : Bool) : List Bytes → List Bytes
  | [] => if rooted then [] else [dotdot]
  | x :: rest => if x = dotdot then dotdot :: x :: rest else rest

/-- One element of a path that is being cleaned. -/
def lexStep (rooted : Bool) (kept : List Bytes) (seg : Bytes) : List Bytes :=
  if seg = [] ∨ seg = ascii "." then kept
  else if seg = dotdot then up rooted kept
  else seg :: kept

/-- A cleaned path. -/
structure FilePath where
  rooted : Bool
  parts : List Bytes
  deriving DecidableEq

namespace FilePath

def clean (p : Bytes) : FilePath :=
  let rooted := decide (p.head? = some slash)
  ⟨rooted, ((p.splitOn slash).foldl (lexStep rooted) []).reverse⟩

/-- `filepath.Join` of two elements. -/
def join (dir name : Bytes) : FilePath := clean (if dir = [] then name else dir ++ slash :: name)

/-- `filepath.Dir` of a cleaned path. -/
def dir (p : FilePath) : FilePath := { p with parts := p.parts.dropLast }

/-- `filepath.Base` of a cleaned path. -/
def base (p : FilePath) : Bytes :=
  p.parts.getLast?.getD (if p.rooted then [slash] else ascii ".")

theorem base_mem {p : FilePath} (h : p.parts ≠ []) : p.base ∈ p.parts := by
  rw [base, List.getLast?_eq_some_getLast h]
  exact getLast_mem h

/-- The path of a direct child. -/
def child (p : FilePath) (name : Bytes) : FilePath := { p with parts := p.parts ++ [name] }

/-- The operating system refuses paths with a NUL byte. -/
def hasNul (p : FilePath) : Bool := p.parts.any fun x => x.contains 0

@[simp] theorem dir_child (p : FilePath) (name : Bytes) : (p.child name).dir = p := by
  unfold dir child
  simp only [dropLast_concat]

@[simp] theorem base_child (p : FilePath) (name : Bytes) : (p.child name).base = name := by
  unfold base child
  rw [List.getLast?_concat]
  rfl

end FilePath

/-- `filepath.Base` of any path. -/
def filepathBase (p : Bytes) : Bytes :=
  if p = [] then ascii "."
  else if trimRight slash p = [] then [slash]
  else ((trimRight slash p).splitOn slash).getLastD []

/-! ## Names -/

/-- One element of a name: the elements it leaves so far, last first, and how often it went
    up beyond its beginning. -/
def relStep : List Bytes × Nat → Bytes → List Bytes × Nat
  | (kept, ups), seg =>
      if seg = [] ∨ seg = ascii "." then (kept, ups)
      else if seg = dotdot then
        match kept with
        | [] => ([], ups + 1)
        | _ :: kept => (kept, ups)
      else (seg :: kept, ups)

def relative (name : Bytes) : List Bytes × Nat := (name.splitOn slash).foldl relStep ([], 0)

theorem isName_relStep {st : List Bytes × Nat} {seg : Bytes} (hst : ∀ x ∈ st.1, IsName x)
    (hseg : slash ∉ seg) : ∀ x ∈ (relStep st seg).1, IsName x := by
  obtain ⟨kept, ups⟩ := st
  unfold relStep
  simp only
  split_ifs with hskip hup
  · exact hst
  · cases kept with
    | nil => exact hst
    | cons y kept => exact fun x hx => hst x (mem_cons_of_mem y hx)
  · intro x hx
    rcases mem_cons.mp hx with rfl | hx
    · rw [not_or] at hskip
      exact ⟨hskip.1, hskip.2, hup, hseg⟩
    · exact hst x hx

theorem isName_foldl_relStep {segs : List Bytes} (h : ∀ seg ∈ segs, slash ∉ seg) :
    ∀ x ∈ (segs.foldl relStep ([], 0)).1, IsName x := by
  induction segs using List.reverseRecOn with
  | nil => exact fun x hx => absurd hx not_mem_nil
  | append_singleton segs seg ih =>
    rw [foldl_append]
    exact isName_relStep (ih fun s hs => h s (mem_append_left _ hs))
      (h seg (mem_append_right _ (mem_singleton_self seg)))

/-- The elements that a name leaves are names. -/
theorem isName_of_mem_relative {name x : Bytes} (h : x ∈ (relative name).1) : IsName x :=
  isName_foldl_relStep (fun _ => slash_notMem_splitOn) x h

/-- What the elements of a name do to a path: first it goes up, then down to what is left. -/
theorem foldl_lexStep (rooted : Bool) (kept : List Bytes) {segs : List Bytes}
    (h : ∀ seg ∈ segs, slash ∉ seg) :
    segs.foldl (lexStep rooted) kept =
      (segs.foldl relStep ([], 0)).1 ++ (up rooted)^[(segs.foldl relStep ([], 0)).2] kept := by
  induction segs using List.reverseRecOn with
  | nil => rfl
  | append_singleton segs seg ih =>
    have hsegs : ∀ s ∈ segs, slash ∉ s := fun s hs => h s (mem_append_left _ hs)
    have hnames := isName_foldl_relStep hsegs
    rw [foldl_append, foldl_append, ih hsegs]
    generalize segs.foldl relStep ([], 0) = st at hnames
    obtain ⟨left, ups⟩ := st
    simp only [foldl_cons, foldl_nil, lexStep, relStep]
    split_ifs
    · rfl
    · cases left with
      | nil => exact (Function.iterate_succ_apply' (up rooted) ups kept).symm
      | cons x left =>
        have hx : x ≠ dotdot := (hnames x mem_cons_self).2.2.1
        simp only [cons_append, up, if_neg hx]
    · rfl

theorem splitOn_append_slash (a b : Bytes) :
    (a ++ slash :: b).splitOn slash = a.splitOn slash ++ b.splitOn slash := by
  have ha : a.splitOn slash ≠ [] := splitOnP_ne_nil _ _
  have hb : b.splitOn slash ≠ [] := splitOnP_ne_nil _ _
  have hjoin : a ++ slash :: b = joinWith slash (a.splitOn slash ++ b.splitOn slash) := by
    rw [joinWith_append ha hb, joinWith_splitOn, joinWith_splitOn]
  rw [hjoin]
  refine splitOn_joinWith (append_ne_nil_of_left_ne_nil ha _) fun x hx => ?_
  rcases mem_append.mp hx with hx | hx
  · exact slash_notMem_splitOn hx
  · exact slash_notMem_splitOn hx

namespace FilePath

/-- Where a name leads from a directory. -/
theorem join_eq {dir : Bytes} (hdir : dir ≠ []) (name : Bytes) :
    join dir name = ⟨(clean dir).rooted,
      ((relative name).1 ++
        (up (clean dir).rooted)^[(relative name).2] (clean dir).parts.reverse).reverse⟩ := by
  have hhead : (dir ++ slash :: name).head? = dir.head? := by
    cases dir with
    | nil => exact absurd rfl hdir
    | cons b dir => rfl
  unfold join clean
  simp only [if_neg hdir, hhead, reverse_reverse]
  rw [splitOn_append_slash, foldl_append, foldl_lexStep _ _ fun _ => slash_notMem_splitOn]
  rfl

/-- A name that cleans to one element names a direct child. -/
theorem join_of_plain {dir name n : Bytes} (hdir : dir ≠ []) (h : relative name = ([n], 0)) :
    join dir name = (clean dir).child n := by
  rw [join_eq hdir, h]
  simp only [Function.iterate_zero, id_eq, singleton_append, reverse_cons,
    reverse_reverse, child]

end FilePath

/-! ## Names that lead elsewhere -/

/-- A name that is none of these. -/
def freshName (names : List Bytes) : Bytes :=
  List.replicate ((names.map List.length).sum + 1) 0x61

theorem freshName_notMem (names : List Bytes) : freshName names ∉ names := by
  intro h
  have hle : (freshName names).length ≤ (names.map List.length).sum :=
    single_le_sum (fun _ _ => Nat.zero_le _) _ (mem_map_of_mem h)
  rw [freshName, length_replicate] at hle
  omega

theorem mem_freshName {names : List Bytes} {b : UInt8} (h : b ∈ freshName names) : b = 0x61 :=
  eq_of_mem_replicate h

theorem isName_freshName (names : List Bytes) : IsName (freshName names) := by
  have hmem : (0x61 : UInt8) ∈ freshName names := by
    rw [freshName, replicate_succ]
    exact mem_cons_self
  refine ⟨ne_nil_of_mem hmem, fun h => ?_, fun h => ?_, fun h => ?_⟩
  · rw [h] at hmem
    exact absurd hmem (by decide)
  · rw [h] at hmem
    exact absurd hmem (by decide)
  · exact absurd (mem_freshName h) (by decide)

/-- A directory from which the name, if it does not name a child of every directory, leads
    elsewhere: deep enough to go up in, with elements that the name does not know. -/
def decoy (name : Bytes) : Bytes :=
  slash :: joinWith slash (List.replicate ((relative name).2 + 1) (freshName (relative name).1))

theorem clean_rooted {segs : List Bytes} (hne : segs ≠ []) (h : ∀ seg ∈ segs, IsName seg) :
    FilePath.clean (slash :: joinWith slash segs) = ⟨true, segs⟩ := by
  have hsplit : (slash :: joinWith slash segs).splitOn slash = [] :: segs := by
    rw [List.splitOn, splitOnP_cons_eq_if_modifyHead, if_pos (beq_self_eq_true slash)]
    exact congrArg _ (splitOn_joinWith hne fun seg hseg => (h seg hseg).2.2.2)
  have hfold : ∀ kept, segs.foldl (lexStep true) kept = segs.reverse ++ kept := by
    clear hne hsplit
    induction segs with
    | nil => exact fun kept => rfl
    | cons seg segs ih =>
      obtain ⟨h1, h2, h3, -⟩ := h seg mem_cons_self
      intro kept
      have hstep : lexStep true kept seg = seg :: kept := by
        rw [lexStep, if_neg (not_or.mpr ⟨h1, h2⟩), dotdot, if_neg h3]
      rw [foldl_cons, hstep, ih fun s hs => h s (mem_cons_of_mem seg hs),
        reverse_cons, append_assoc]
      rfl
  unfold FilePath.clean
  simp only [List.head?_cons, decide_true, hsplit, foldl_cons]
  rw [show lexStep true [] [] = [] from rfl, hfold, append_nil, reverse_reverse]

theorem iterate_up_replicate {x : Bytes} (hx : x ≠ dotdot) (k m : Nat) :
    (up true)^[k] (List.replicate (k + m) x) = List.replicate m x := by
  induction k with
  | zero => rw [Nat.zero_add]; rfl
  | succ k ih =>
    rw [Function.iterate_succ_apply, Nat.succ_add, replicate_succ]
    have hup : up true (x :: List.replicate (k + m) x) = List.replicate (k + m) x := by
      rw [up, if_neg hx]
    rw [hup, ih]

theorem clean_decoy (name : Bytes) : FilePath.clean (decoy name) =
    ⟨true, List.replicate ((relative name).2 + 1) (freshName (relative name).1)⟩ := by
  refine clean_rooted (ne_nil_of_mem (mem_replicate.mpr ⟨Nat.succ_ne_zero _, rfl⟩)) ?_
  intro seg hseg
  rw [eq_of_mem_replicate hseg]
  exact isName_freshName _

theorem join_decoy (name : Bytes) : FilePath.join (decoy name) name =
    ⟨true, freshName (relative name).1 :: (relative name).1.reverse⟩ := by
  have hfresh : freshName (relative name).1 ≠ dotdot := (isName_freshName _).2.2.1
  have hne : decoy name ≠ [] := cons_ne_nil _ _
  rw [FilePath.join_eq hne, clean_decoy, reverse_replicate, iterate_up_replicate hfresh,
    reverse_append]
  rfl

/-- From its decoy, only a name that cleans to one element leads to a child. -/
theorem relative_of_join_decoy {name n : Bytes}
    (h : FilePath.join (decoy name) name = (FilePath.clean (decoy name)).child n) :
    relative name = ([n], 0) := by
  rw [join_decoy, clean_decoy] at h
  generalize relative name = rel at h ⊢
  obtain ⟨left, ups⟩ := rel
  have hparts : freshName left :: left.reverse =
      List.replicate (ups + 1) (freshName left) ++ [n] := congrArg FilePath.parts h
  rw [replicate_succ, cons_append, List.cons.injEq] at hparts
  cases ups with
  | zero =>
    have hleft : left.reverse = [n] := hparts.2
    rw [reverse_eq_iff] at hleft
    rw [hleft]
    rfl
  | succ k =>
    have hmem : freshName left ∈ left.reverse := by
      rw [hparts.2, replicate_succ]
      exact mem_cons_self
    exact absurd (mem_reverse.mp hmem) (freshName_notMem left)

end Tuck.Base
