/-
  The audit chain: the dispatcher that seals records and the logger that appends them to
  the primary file, and the two verifiers (`VerifyEntries` over records, `VerifyFile` over
  the bytes of a log file).

  SHA-256 is the parameter `sha`. Sinks, the in-memory window and the counters of the
  dispatcher do not touch the primary file and are not modelled.
-/
import Tuck.Audit.Entry

namespace Tuck.Audit

open Tuck.Base

/-- The previous hash of the very first record. -/
def genesisHash : Bytes := List.replicate 64 0x30

/-! ## Classifying a request -/

/-- One rune of `strings.ToUpper`, as far as it can end up an ASCII letter: the dotless i
    and the long s are the only other runes whose upper case is one. -/
def upperChunk : Chunk → Bytes
  | .rune [b] => if 0x61 ≤ b.toNat ∧ b.toNat ≤ 0x7A then [b - 32] else [b]
  | .rune r =>
      if r = [0xC4, 0xB1] then [0x49] else if r = [0xC5, 0xBF] then [0x53] else r
  | .bad _ => [0xEF, 0xBF, 0xBD]

def toUpper (s : Bytes) : Bytes := (chunks s).flatMap upperChunk

/-- `Operation`: read, write, delete, list, login or other. -/
def operation (method path : Bytes) : Bytes :=
  let p := trimPrefix path (ascii "/v1/")
  if hasPrefix p (ascii "auth/") ∧ ascii "/login" <:+: p then ascii "login"
  else
    let m := toUpper method
    if m = ascii "GET" ∨ m = ascii "HEAD" then ascii "read"
    else if m = ascii "LIST" then ascii "list"
    else if m = ascii "PUT" ∨ m = ascii "POST" ∨ m = ascii "PATCH" then ascii "write"
    else if m = ascii "DELETE" then ascii "delete"
    else ascii "other"

section

variable (sha : Bytes → Bytes)

/-- `ComputeHash`: the hex digest of the record encoded with its hash empty. -/
def computeHash (e : Entry) : Bytes := hexEncode (sha { e with hash := [] }.marshal)

/-! ## Writing -/

/-- The logger and what it has written. -/
structure Logger where
  prevHash : Bytes
  out : Bytes

/-- `Logger.Write`: a sealed record is written verbatim, any other is chained here. -/
def Logger.write (l : Logger) (e : Entry) : Logger :=
  let e :=
    if e.hash = [] then
      let e := { e with prevHash := l.prevHash }
      { e with hash := computeHash sha e }
    else e
  if e.hash = [] then l
  else { prevHash := e.hash, out := l.out ++ (e.marshal ++ [0x0A]) }

/-- The chain state of the dispatcher, with its primary logger. -/
structure Dispatcher where
  seq : UInt64
  prevHash : Bytes
  logger : Logger

/-- A dispatcher over a fresh log file. -/
def Dispatcher.fresh : Dispatcher := ⟨0, genesisHash, ⟨genesisHash, []⟩⟩

/-- The record as `Dispatcher.Log` seals it. -/
def Dispatcher.seal (d : Dispatcher) (e : Entry) : Entry :=
  let e := if e.operation = [] then { e with operation := operation e.method e.path } else e
  let e := { e with seq := d.seq + 1, prevHash := d.prevHash }
  { e with hash := computeHash sha e }

def Dispatcher.log (d : Dispatcher) (e : Entry) : Dispatcher :=
  let e := d.seal sha e
  { seq := e.seq, prevHash := e.hash, logger := d.logger.write sha e }

/-- Log a sequence of records. -/
def Dispatcher.logAll (d : Dispatcher) (es : List Entry) : Dispatcher :=
  es.foldl (fun d e => d.log sha e) d

/-- `Dispatcher.Head`, the hash. -/
def Dispatcher.head (d : Dispatcher) : Bytes := d.prevHash

/-- The bytes of the primary log file. -/
def Dispatcher.file (d : Dispatcher) : Bytes := d.logger.out

/-! ## Verifying -/

structure VerifyResult where
  ok : Bool
  checked : Nat
  firstBroken : Int
  brokenSeq : UInt64
  reason : Bytes
  legacy : Nat
  fromGenesis : Bool
  headHash : Bytes
  deriving DecidableEq

def VerifyResult.init : VerifyResult := ⟨true, 0, -1, 0, [], 0, false, []⟩

/-- The check of one record against its predecessor, or against the anchor when it is the
    first; the reason when it fails. -/
def checkRecord (anchor : Bytes) (prev : Option Entry) (e : Entry) : Option Bytes :=
  if computeHash sha e = [] ∨ computeHash sha e ≠ e.hash then
    some (ascii "record hash does not match its content")
  else
    match prev with
    | some p =>
        if e.prevHash ≠ p.hash then some (ascii "prev_hash does not match the previous record")
        else if p.seq ≠ 0 ∧ e.seq ≠ 0 ∧ e.seq ≠ p.seq + 1 then
          some (ascii "sequence gap: " ++ decimal e.seq.toNat ++ ascii " follows " ++
            decimal p.seq.toNat)
        else none
    | none =>
        if anchor ≠ [] ∧ e.prevHash ≠ anchor then
          some (ascii "first record does not link to the expected anchor")
        else none

/-- The loop of `VerifyEntries` from record `i` on. -/
def verifyFrom (anchor : Bytes) (prev : Option Entry) (i : Nat) (res : VerifyResult) :
    List Entry → VerifyResult
  | [] => res
  | e :: es =>
      let res := { res with checked := res.checked + 1 }
      let res := if e.seq = 0 then { res with legacy := res.legacy + 1 } else res
      match checkRecord sha anchor prev e with
      | some reason =>
          { res with ok := false, firstBroken := i, brokenSeq := e.seq, reason := reason }
      | none =>
          let res := if i = 0 then { res with fromGenesis := e.prevHash == genesisHash } else res
          verifyFrom anchor (some e) (i + 1) { res with headHash := e.hash } es

def verifyEntries (entries : List Entry) (anchor : Bytes) : VerifyResult :=
  verifyFrom sha anchor none 0 VerifyResult.init entries

def maxVerifyLine : Nat := 1048576

/-- The complete lines of a file; a last line without its newline is not part of the log. -/
def fileLines (file : Bytes) : List Bytes := (file.splitOn 0x0A).dropLast

/-- `bytes.TrimRight(line, "\r\n")`. -/
def trimLine (line : Bytes) : Bytes := line.rdropWhile fun b => b == 0x0D || b == 0x0A

/-- The loop of `VerifyFile` over the lines of the file. -/
def verifyLines (prev : Option Entry) (idx : Nat) (res : VerifyResult) : List Bytes → VerifyResult
  | [] => res
  | line :: lines =>
      let line := trimLine line
      if line = [] then verifyLines prev idx res lines
      else if maxVerifyLine < line.length then
        { res with checked := res.checked + 1, ok := false, firstBroken := idx,
                   reason := ascii "record is too large" }
      else
        match unmarshal line with
        | none =>
            { res with checked := res.checked + 1, ok := false, firstBroken := idx,
                       reason := ascii "line is not a valid audit record" }
        | some e =>
            let r := verifyEntries sha (prev.toList ++ [e]) []
            if r.ok = false then
              { res with checked := res.checked + 1, ok := false, firstBroken := idx,
                         brokenSeq := e.seq, reason := r.reason }
            else
              let res :=
                if idx = 0 then { res with fromGenesis := e.prevHash == genesisHash } else res
              let res := if e.seq = 0 then { res with legacy := res.legacy + 1 } else res
              verifyLines (some e) (idx + 1)
                { res with checked := res.checked + 1, headHash := e.hash } lines

/-- `VerifyFile` on the bytes of a log file. -/
def verifyFile (file : Bytes) : VerifyResult :=
  verifyLines sha none 0 VerifyResult.init (fileLines file)

end

end Tuck.Audit
