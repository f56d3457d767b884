/-
  The two verifiers agree. `VerifyFile` checks every record in a window with the one before it and
  builds its result field by field; on a file of records that is the result of `VerifyEntries` on
  all of them (`verifyFile_agrees`). Only the count of legacy records differs where the check
  fails: `VerifyEntries` counts the failing record, `VerifyFile` does not.
-/
import Tuck.Audit.Tail

namespace Tuck.Audit

open Tuck.Base List

/-- Two results with the same fields, the legacy count apart unless the check passed. -/
structure Agree (r r' : VerifyResult) : Prop where
  ok : r.ok = r'.ok
  checked : r.checked = r'.checked
  firstBroken : r.firstBroken = r'.firstBroken
  brokenSeq : r.brokenSeq = r'.brokenSeq
  reason : r.reason = r'.reason
  fromGenesis : r.fromGenesis = r'.fromGenesis
  headHash : r.headHash = r'.headHash
  legacy : r.ok = true → r.legacy = r'.legacy

/-- The texts of the records among the lines. -/
def recordLines (lines : List Bytes) : List Bytes := (lines.map trimLine).filter (· ≠ [])

section

variable {sha : Bytes → Bytes}

/-- What a line that is not blank holds. -/
theorem recordLines_cons {line : Bytes} (h : trimLine line ≠ []) (lines : List Bytes) :
    recordLines (line :: lines) = trimLine line :: recordLines lines := by
  unfold recordLines
  rw [map_cons, filter_cons_of_pos (by simpa using h)]

/-- A record that passes behind another one passes on its own. -/
theorem checkRecord_first {prev : Option Entry} {e : Entry} (h : checkRecord sha [] prev e = none) :
    checkRecord sha [] none e = none := by
  unfold checkRecord at h ⊢
  by_cases hhash : computeHash sha e = [] ∨ computeHash sha e ≠ e.hash
  · rw [if_pos hhash] at h
    cases h
  · rw [if_neg hhash]
    exact if_neg fun hanchor => hanchor.1 rfl

/-- The invariant: the last record passed its own check, and both loops hold the same result. -/
theorem verifyLines_agree {lines : List Bytes} {es : List Entry} {prev : Option Entry}
    (hprev : ∀ p ∈ prev, checkRecord sha [] none p = none)
    (hsize : ∀ l ∈ recordLines lines, l.length ≤ maxVerifyLine)
    (hes : (recordLines lines).mapM unmarshal = some es) (idx : Nat) (res : VerifyResult) :
    Agree (verifyLines sha prev idx res lines) (verifyFrom sha [] prev idx res es) := by
  induction lines generalizing es prev idx res with
  | nil =>
    obtain rfl : es = [] := by simpa [recordLines] using hes.symm
    exact ⟨rfl, rfl, rfl, rfl, rfl, rfl, rfl, fun _ => rfl⟩
  | cons line lines ih =>
    by_cases hblank : trimLine line = []
    · have hskip : recordLines (line :: lines) = recordLines lines := by simp [recordLines, hblank]
      rw [hskip] at hsize hes
      rw [verifyLines]
      dsimp only
      rw [if_pos hblank]
      exact ih hprev hsize hes idx res
    · rw [recordLines_cons hblank] at hsize hes
      obtain ⟨hle, hsize⟩ := forall_mem_cons.1 hsize
      simp only [mapM_cons, Option.bind_eq_bind, Option.bind_eq_some_iff, Option.pure_def,
        Option.some.injEq] at hes
      obtain ⟨e, he, es', hes', rfl⟩ := hes
      obtain ⟨hok, hreason⟩ := verifyEntries_toList hprev e
      rw [verifyLines, verifyFrom]
      dsimp only
      rw [if_neg hblank, if_neg (Nat.not_lt.2 hle), he]
      dsimp only
      cases hcheck : checkRecord sha [] prev e with
      | some reason =>
        have hbad :
            (verifyEntries sha (prev.toList ++ [e]) []).ok = false := by rw [hok, hcheck]; rfl
        rw [if_pos hbad, hreason reason hcheck]
        dsimp only
        split_ifs <;> exact ⟨rfl, rfl, rfl, rfl, rfl, rfl, rfl, fun h => by cases h⟩
      | none =>
        rw [hcheck] at hok
        rw [if_neg (by rw [hok]; decide)]
        dsimp only
        have hown : ∀ p ∈ some e, checkRecord sha [] none p = none := by
          rintro p ⟨⟩
          exact checkRecord_first hcheck
        split_ifs <;> exact ih hown hsize hes' (idx + 1) _

/-- A last line without its newline is no line. -/
theorem fileLines_tail (s : Bytes) {tail : Bytes} (h : nl ∉ tail) :
    fileLines (s ++ nl :: tail) = fileLines (s ++ [nl]) := by
  induction s with
  | nil => rw [nil_append, nil_append, fileLines_nl, fileLines_nl, fileLines_of_notMem h]; rfl
  | cons b s ih =>
    by_cases hb : b = nl
    · rw [hb, cons_append, cons_append, fileLines_nl, fileLines_nl, ih]
    · rw [cons_append, cons_append, fileLines_cons hb, fileLines_cons hb, ih]

/-- On a file whose lines are records, the streaming verifier gives the result of the list verifier;
    and what stands behind the last newline changes nothing. -/
theorem verifyFile_agrees {file : Bytes} {es : List Entry}
    (hsize : ∀ l ∈ recordLines (fileLines file), l.length ≤ maxVerifyLine)
    (hes : (recordLines (fileLines file)).mapM unmarshal = some es) :
    Agree (verifyFile sha file) (verifyEntries sha es []) ∧
      ∀ body tail : Bytes, file = body ++ tail → (body = [] ∨ body.getLast? = some nl) → nl ∉ tail →
        verifyFile sha file = verifyFile sha body := by
  refine ⟨verifyLines_agree (fun p hp => by cases hp) hsize hes 0 VerifyResult.init, ?_⟩
  rintro body tail rfl hbody htail
  unfold verifyFile
  obtain rfl | hlast := hbody
  · rw [nil_append, fileLines_of_notMem htail]
    rfl
  · obtain ⟨s, rfl⟩ := List.getLast?_eq_some_iff.1 hlast
    rw [append_assoc, singleton_append, fileLines_tail s htail]

end

/-- A file of two records of one chain, with a blank line and a piece of another record behind
    them. -/
def chainFile : Bytes := sampleChain.flatMap lineOf ++ [nl, 0x7B]

theorem verifyFile_agrees_chain :
    (verifyFile lengthSha chainFile).ok = true ∧ (verifyFile lengthSha chainFile).checked = 2 ∧
      Agree (verifyFile lengthSha chainFile) (verifyEntries lengthSha sampleChain []) :=
  ⟨by decide +kernel, by decide +kernel,
    (verifyFile_agrees (by decide +kernel) (by decide +kernel)).1⟩

end Tuck.Audit
