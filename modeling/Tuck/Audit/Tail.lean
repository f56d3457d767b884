/-
  The tail of the log file: what `readTail` finds when the file is opened again.

  It looks at the last 64 KiB only, and takes the last line that ends there with its newline.
  On a file of whole records it finds the last one (`readTail_last`), unless that record
  starts before the window: then it finds none (`readTail_outside`).
-/
import Tuck.Audit.RoundTrip

namespace Tuck.Audit

open Tuck.Base List

/-! ## Lines -/

/-- The newline. -/
abbrev nl : UInt8 := 0x0A

/-- A record as it stands in the file. -/
def lineOf (e : Entry) : Bytes := e.marshal ++ [nl]

theorem nl_notMem_marshal (e : Entry) : nl ∉ e.marshal := by
  intro h
  exact absurd (printable_iff.mp (printable_marshal e) nl h) (by decide)

theorem dropLast_modifyHead {α : Type} (f : α → α) (l : List α) :
    (l.modifyHead f).dropLast = l.dropLast.modifyHead f := by
  cases l with
  | nil => rfl
  | cons a l => cases l <;> rfl

theorem fileLines_nil : fileLines [] = [] := rfl

theorem fileLines_nl (s : Bytes) : fileLines (nl :: s) = [] :: fileLines s := by
  have hsplit : (nl :: s).splitOn nl = [] :: s.splitOn nl := by
    simp [List.splitOn, splitOnP_cons_eq_if_modifyHead]
  have hne : s.splitOn nl ≠ [] := splitOnP_ne_nil _ s
  rw [fileLines, hsplit, dropLast_cons_of_ne_nil hne, fileLines]

theorem fileLines_cons {b : UInt8} (hb : b ≠ nl) (s : Bytes) :
    fileLines (b :: s) = (fileLines s).modifyHead (b :: ·) := by
  have hsplit : (b :: s).splitOn nl = (s.splitOn nl).modifyHead (b :: ·) := by
    simp [List.splitOn, splitOnP_cons_eq_if_modifyHead, hb]
  rw [fileLines, hsplit, dropLast_modifyHead, fileLines]

/-- A piece without a newline is not a line yet. -/
theorem fileLines_of_notMem {s : Bytes} (h : nl ∉ s) : fileLines s = [] := by
  induction s with
  | nil => rfl
  | cons b s ih =>
    obtain ⟨hb, hs⟩ := not_or.mp (fun hc => h (mem_cons.mpr hc))
    rw [fileLines_cons (Ne.symm hb), ih hs]
    rfl

theorem fileLines_line {s : Bytes} (h : nl ∉ s) (rest : Bytes) :
    fileLines (s ++ nl :: rest) = s :: fileLines rest := by
  induction s with
  | nil => exact fileLines_nl rest
  | cons b s ih =>
    obtain ⟨hb, hs⟩ := not_or.mp (fun hc => h (mem_cons.mpr hc))
    rw [cons_append, fileLines_cons (Ne.symm hb), ih hs]
    rfl

/-- What is appended to a file leaves its complete lines as they are. -/
theorem fileLines_prefix (s t : Bytes) : fileLines s <+: fileLines (s ++ t) := by
  induction s with
  | nil => exact nil_prefix
  | cons b s ih =>
    obtain ⟨rest, hrest⟩ := ih
    by_cases hb : b = nl
    · subst hb
      rw [cons_append, fileLines_nl, fileLines_nl, ← hrest]
      exact prefix_append (_ :: _) rest
    · rw [cons_append, fileLines_cons hb, fileLines_cons hb, ← hrest]
      cases fileLines s with
      | nil => exact nil_prefix
      | cons l ls => exact prefix_append (_ :: ls) rest

theorem fileLines_records (records : List Entry) {rest : Bytes} :
    fileLines (records.flatMap lineOf ++ rest) = records.map Entry.marshal ++ fileLines rest := by
  induction records with
  | nil => rfl
  | cons e records ih =>
    rw [flatMap_cons, append_assoc, lineOf, append_assoc, singleton_append,
      fileLines_line (nl_notMem_marshal e), ih, map_cons, cons_append]

/-- There are as many complete lines as newlines. -/
theorem length_fileLines (s : Bytes) : (fileLines s).length = s.count nl := by
  induction s with
  | nil => rfl
  | cons b s ih =>
    by_cases hb : b = nl
    · subst hb
      rw [fileLines_nl, length_cons, ih, count_cons_self]
    · rw [fileLines_cons hb, length_modifyHead, ih, count_cons_of_ne hb]

/-! ## Reading the tail -/

/-- `readTail`, looking at the last `window` bytes: hash and number of the last complete record
    there, or none. -/
def readTailIn (window : Nat) (file : Bytes) : Bytes × UInt64 :=
  let off := file.length - window
  let upto := (file.drop off).rdropWhile fun b => b != nl
  if upto = [] then ([], 0)
  else
    let buf := upto.dropLast
    let last := buf.rtakeWhile fun b => b != nl
    -- the only line in the window is cut at its start
    if last.length = buf.length ∧ 0 < off then ([], 0)
    else match unmarshal last with
      | some e => if e.hash.length = 64 then (e.hash, e.seq) else ([], 0)
      | none => ([], 0)

/-- How much of the file `readTail` looks at. -/
def tailWindow : Nat := 65536

def readTail (file : Bytes) : Bytes × UInt64 := readTailIn tailWindow file

theorem rdropWhile_line (a l : Bytes) :
    (a ++ (l ++ [nl])).rdropWhile (fun b => b != nl) = a ++ (l ++ [nl]) := by
  rw [← append_assoc, rdropWhile_concat_neg _ _ _ (by decide)]

theorem rtakeWhile_line {l : Bytes} (hl : nl ∉ l) {a : Bytes} (ha : a = [] ∨ a.getLast? = some nl) :
    (a ++ l).rtakeWhile (fun b => b != nl) = l := by
  have hall : ∀ b ∈ l.reverse, (b != nl) = true := by
    intro b hb
    rw [mem_reverse] at hb
    exact bne_iff_ne.mpr fun h => hl (h ▸ hb)
  have hstop : a.reverse.takeWhile (fun b => b != nl) = [] := by
    rcases ha with rfl | ha
    · rfl
    · obtain ⟨a', rfl⟩ := List.getLast?_eq_some_iff.mp ha
      rw [reverse_append]
      rfl
  rw [List.rtakeWhile, reverse_append, takeWhile_append_of_pos hall, hstop, append_nil,
    reverse_reverse]

/-- The last line of the file starts within the window, or it is the first. -/
def InWindow (file : Bytes) : Prop :=
  file.length ≤ tailWindow ∨ ((fileLines file).getLastD []).length + 2 ≤ tailWindow

instance (file : Bytes) : Decidable (InWindow file) := by unfold InWindow; infer_instance

section

variable {window : Nat} {a : Bytes} {e : Entry}

theorem length_line : (a ++ lineOf e).length = a.length + (e.marshal.length + 1) := by
  rw [length_append, lineOf, length_append, length_singleton]

/-- The last record is found if it starts within the window. -/
theorem readTail_last (ha : a = [] ∨ a.getLast? = some nl) (he : e.Valid) (hh : e.hash.length = 64)
    (hwin : (a ++ lineOf e).length ≤ window ∨ e.marshal.length + 2 ≤ window) :
    readTailIn window (a ++ lineOf e) = (e.hash, e.seq) := by
  obtain ⟨off, hoff⟩ : ∃ off, (a ++ lineOf e).length - window = off := ⟨_, rfl⟩
  have hlen := length_line (a := a) (e := e)
  -- the window holds the record and, unless it is the first, the newline before it
  have hle : off ≤ a.length := by omega
  have hlt : off = 0 ∨ off < a.length := by omega
  have hrest : a.drop off = [] ∨ (a.drop off).getLast? = some nl := by
    rcases ha with rfl | ha
    · left; exact drop_nil
    · rcases hlt with h0 | hlt
      · right; rw [h0, drop_zero]; exact ha
      · right; rw [List.getLast?_drop, if_neg (by omega)]; exact ha
  have hdrop : (a ++ lineOf e).drop off = a.drop off ++ (e.marshal ++ [nl]) := by
    rw [drop_append_of_le_length hle, lineOf]
  have hbuf : (a.drop off ++ (e.marshal ++ [nl])).dropLast = a.drop off ++ e.marshal := by
    rw [← append_assoc, dropLast_concat]
  unfold readTailIn
  simp only [hoff]
  rw [hdrop, rdropWhile_line, if_neg (by simp), hbuf,
    rtakeWhile_line (nl_notMem_marshal e) hrest, if_neg, unmarshal_of_valid he]
  · exact if_pos hh
  · rintro ⟨heq, hpos⟩
    rw [length_append, length_drop] at heq
    omega

/-- A last record that starts before the window is not found. -/
theorem readTail_outside (hpos : 0 < window) (hbig : window < (a ++ lineOf e).length)
    (hlong : window < e.marshal.length + 2) : readTailIn window (a ++ lineOf e) = ([], 0) := by
  obtain ⟨off, hoff⟩ : ∃ off, (a ++ lineOf e).length - window = off := ⟨_, rfl⟩
  have hlen := length_line (a := a) (e := e)
  have hge : a.length ≤ off := by omega
  have hin : off - a.length ≤ e.marshal.length := by omega
  have hdrop : (a ++ lineOf e).drop off = [] ++ (e.marshal.drop (off - a.length) ++ [nl]) := by
    rw [drop_append, drop_eq_nil_of_le hge, lineOf, drop_append_of_le_length hin]
  have hnl : nl ∉ e.marshal.drop (off - a.length) := fun h =>
    nl_notMem_marshal e (mem_of_mem_drop h)
  have hlast := rtakeWhile_line (a := []) hnl (Or.inl rfl)
  unfold readTailIn
  simp only [hoff]
  rw [hdrop, rdropWhile_line, if_neg (by simp), nil_append, dropLast_concat]
  rw [nil_append] at hlast
  rw [hlast, if_pos ⟨rfl, by omega⟩]

end

end Tuck.Audit
