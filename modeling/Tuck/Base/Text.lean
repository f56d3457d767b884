/-
  Texts as `strings` and `net/url` trim, cut and decode them.
-/
import Tuck.Base.Json

namespace Tuck.Base

/-! ## Trimming -/

/-- The UTF-8 texts of the characters that `unicode.IsSpace` accepts. -/
def spaces : List Bytes :=
  [[0x09], [0x0A], [0x0B], [0x0C], [0x0D], [0x20], [0xC2, 0x85], [0xC2, 0xA0], [0xE1, 0x9A, 0x80],
    [0xE2, 0x80, 0x80], [0xE2, 0x80, 0x81], [0xE2, 0x80, 0x82], [0xE2, 0x80, 0x83],
    [0xE2, 0x80, 0x84], [0xE2, 0x80, 0x85], [0xE2, 0x80, 0x86], [0xE2, 0x80, 0x87],
    [0xE2, 0x80, 0x88], [0xE2, 0x80, 0x89], [0xE2, 0x80, 0x8A], [0xE2, 0x80, 0xA8],
    [0xE2, 0x80, 0xA9], [0xE2, 0x80, 0xAF], [0xE2, 0x81, 0x9F], [0xE3, 0x80, 0x80]]

/-- Drop texts of the list from the front, at most as many as the fuel says. -/
def dropFront (texts : List Bytes) : Nat → Bytes → Bytes
  | 0, s => s
  | fuel + 1, s =>
      match texts.find? fun t => hasPrefix s t with
      | some t => dropFront texts fuel (s.drop t.length)
      | none => s

def trimSpace (s : Bytes) : Bytes :=
  let front := dropFront spaces s.length s
  (dropFront (spaces.map List.reverse) front.length front.reverse).reverse

/-- `strings.TrimLeft(s, cutset)` for a cutset of one byte. -/
def trimLeft (b : UInt8) (s : Bytes) : Bytes := s.dropWhile (· == b)

/-- `strings.TrimRight(s, cutset)` for a cutset of one byte. -/
def trimRight (b : UInt8) (s : Bytes) : Bytes := (s.reverse.dropWhile (· == b)).reverse

theorem trimLeft_of_head {b : UInt8} {s : Bytes} (h : s.head? ≠ some b) : trimLeft b s = s := by
  cases s with
  | nil => rfl
  | cons c s =>
    refine List.dropWhile_cons_of_neg fun hc => h ?_
    rw [beq_iff_eq.mp hc]
    rfl

theorem head_trimLeft (b : UInt8) (s : Bytes) : (trimLeft b s).head? ≠ some b := by
  intro h
  have hnot := List.head?_dropWhile_not (· == b) s
  rw [show (s.dropWhile (· == b)).head? = some b from h] at hnot
  exact absurd hnot (by simp)

/-! ## URLs -/

/-- The part of a text before the first occurrence of a byte. -/
def upTo (b : UInt8) (s : Bytes) : Bytes := s.takeWhile (· != b)

theorem upTo_of_notMem {b : UInt8} {s : Bytes} (h : b ∉ s) : upTo b s = s := by
  refine List.takeWhile_eq_self_iff.mpr fun c hc => ?_
  rw [bne_iff_ne]
  rintro rfl
  exact h hc

/-- `url.unescape` of a path. -/
def percentDecode : Bytes → Option Bytes
  | [] => some []
  | b :: s =>
      if b = 0x25 then
        match s with
        | x :: y :: t =>
            match hexVal x, hexVal y with
            | some m, some n => (percentDecode t).map (UInt8.ofNat (16 * m + n) :: ·)
            | _, _ => none
        | _ => none
      else (percentDecode s).map (b :: ·)

theorem percentDecode_of_notMem {s : Bytes} (h : (0x25 : UInt8) ∉ s) :
    percentDecode s = some s := by
  induction s with
  | nil => rfl
  | cons b s ih =>
    rw [List.mem_cons, not_or] at h
    rw [percentDecode.eq_def]
    simp only [if_neg (Ne.symm h.1), ih h.2, Option.map_some]

/-- The path of a URL, from what follows the host: `url.Parse` refuses control characters, cuts
    the fragment and the query, and decodes what is left. -/
def urlPath (s : Bytes) : Option Bytes :=
  if s.any (fun b => b < 0x20 || b == 0x7F) then none
  else percentDecode (upTo 0x3F (upTo 0x23 s))

/-- The query of a URL. -/
def urlQuery (s : Bytes) : Bytes := ((upTo 0x23 s).dropWhile (· != 0x3F)).tail

/-- A text that a URL takes for its path. -/
theorem urlPath_of_plain {s : Bytes} (hctl : ∀ b ∈ s, ¬ (b < 0x20 || b == 0x7F) = true)
    (hfrag : (0x23 : UInt8) ∉ s) (hquery : (0x3F : UInt8) ∉ s) (hesc : (0x25 : UInt8) ∉ s) :
    urlPath s = some s ∧ urlQuery s = [] := by
  have hnone : s.any (fun b => b < 0x20 || b == 0x7F) = false := by
    rw [List.any_eq_false]
    exact hctl
  have hcut : s.dropWhile (· != (0x3F : UInt8)) = [] := by
    refine List.dropWhile_eq_nil_iff.mpr fun c hc => ?_
    rw [bne_iff_ne]
    rintro rfl
    exact hquery hc
  constructor
  · rw [urlPath, hnone, upTo_of_notMem hfrag, upTo_of_notMem hquery]
    exact percentDecode_of_notMem hesc
  · rw [urlQuery, upTo_of_notMem hfrag, hcut]
    rfl

end Tuck.Base
