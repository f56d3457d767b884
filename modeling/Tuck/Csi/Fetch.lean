/-
  What the CSI driver fetches for a volume: the entries of `tuck.io/paths`, the answers of the
  server and the files that they give.

  A file takes its name from the entry (its alias, or the last element of its path) or, with
  key expansion, from a key of the secret's value. Two entries may not give one name; the
  names are compared as they are, before the path of a file is built from them.

  `num` is the text that `%v` prints of the number that a JSON literal denotes, and nothing
  if the literal is out of the range of float64.
-/
import Tuck.Base.Compact
import Tuck.Base.FilePath

namespace Tuck.Csi

open Tuck.Base

/-! ## Entries of `tuck.io/paths` -/

def splitPaths (raw : Bytes) : List Bytes :=
  ((raw.splitOnP fun b => b == 0x2C || b == 0x0A).map trimSpace).filter fun p => p ≠ []

/-- `parsePathSpec`: the path and the alias, which is empty if there is none. -/
def parsePathSpec (spec : Bytes) : Option (Bytes × Bytes) :=
  let s := trimSpace spec
  let path := trimSpace (upTo 0x3D s)
  let aliased := trimSpace (s.drop ((upTo 0x3D s).length + 1))
  if path = [] then none
  else if aliased ≠ [] ∧
      (slash ∈ aliased ∨ 0x5C ∈ aliased ∨ aliased = ascii "." ∨ aliased = ascii "..") then none
  else some (path, aliased)

/-! ## Values -/

section

variable (num : Bytes → Option Bytes)

mutual

/-- `fmt.Sprintf("%v", v)` of a decoded value. -/
def sprint : Json → Bytes
  | .null => ascii "<nil>"
  | .bool true => ascii "true"
  | .bool false => ascii "false"
  | .num lit => (num lit).getD []
  | .str s => s
  | .arr xs => 0x5B :: (joinWith 0x20 (sprintElems xs) ++ [0x5D])
  | .obj ms =>
      let sorted := (goMap (sprintMembers ms)).insertionSort fun a b => a.1 ≤ b.1
      ascii "map[" ++ (joinWith 0x20 (sorted.map fun m => m.1 ++ 0x3A :: m.2) ++ [0x5D])

def sprintElems : List Json → List Bytes
  | [] => []
  | x :: xs => sprint x :: sprintElems xs

def sprintMembers : List (Bytes × Json) → List (Bytes × Bytes)
  | [] => []
  | (k, v) :: ms => (k, sprint v) :: sprintMembers ms

end

/-- `json.Unmarshal` into a `map[string]any`. -/
def decodeMap (raw : Bytes) : Option (List (Bytes × Json)) :=
  match jsonValue raw with
  | some (.obj ms) => if inRangeMembers num ms then some (goMap ms) else none
  | some .null => some []
  | _ => none

/-! ## The files of one secret -/

/-- An answer of the server. -/
structure Answer where
  status : Nat
  body : Bytes
  deriving DecidableEq

inductive FetchErr where
  | transport
  /-- `httpStatusError`. -/
  | status (code : Nat)
  | unmarshal
  | missingValue
  deriving DecidableEq

/-- Where the content of a file comes from: a secret, and the key of its value if the keys are
    expanded. -/
structure Source where
  object : Bytes
  key : Option Bytes
  deriving DecidableEq

structure File where
  name : Bytes
  source : Source
  value : Bytes
  deriving DecidableEq

/-- How much of an answer is read. -/
def readLimit : Nat := 2 ^ 20

/-- The members of a value that is exploded to one file each. -/
def expanded (expandKeys : Bool) (value : Bytes) : List (Bytes × Json) :=
  if expandKeys then (decodeMap num value).getD [] else []

/-- `fetchSecretFiles` once it has the value. -/
def filesOf (expandKeys : Bool) (path value : Bytes) : List File :=
  match expanded num expandKeys value with
  | [] => [⟨filepathBase path, ⟨path, none⟩, value⟩]
  | ms => ms.map fun m => ⟨m.1, ⟨path, some m.1⟩, sprint num m.2⟩

/-- `fetchSecretFiles`; there is no answer if the request or the reading of it failed. -/
def fetchSecretFiles (expandKeys : Bool) (path : Bytes) :
    Option Answer → Except FetchErr (List File)
  | none => .error .transport
  | some a =>
      if a.status ≠ 200 then .error (.status a.status)
      else
        match decodeMap num (a.body.take readLimit) with
        | none => .error .unmarshal
        | some result =>
            match result.lookup (ascii "value") with
            | none => .error .missingValue
            | some v => .ok (filesOf num expandKeys path (sprint num v))

/-! ## All files of a volume -/

inductive Refusal where
  /-- An entry is empty or its alias is no plain name. -/
  | pathSpec
  | fetch (e : FetchErr)
  /-- An alias for a secret that expands to several files. -/
  | cannotRename
  /-- A file name is produced twice. -/
  | duplicate
  | login
  deriving DecidableEq

/-- A single value takes the explicit name. -/
def renamed (aliased : Bytes) (files : List File) : List File :=
  if aliased = [] then files else files.map fun f => { f with name := aliased }

/-- The loop of `fetchAll` over the entries, each with the answer to its request. -/
def fetchPaths (expandKeys : Bool) : List File → List (Bytes × Option Answer) →
    Except Refusal (List File)
  | all, [] => .ok all
  | all, (spec, answer) :: rest =>
      match parsePathSpec spec with
      | none => .error .pathSpec
      | some (path, aliased) =>
          match fetchSecretFiles num expandKeys path answer with
          | .error e => .error (.fetch e)
          | .ok files =>
              if aliased ≠ [] ∧ files.length ≠ 1 then .error .cannotRename
              else if (renamed aliased files).any fun f => all.any fun g => g.name = f.name then
                .error .duplicate
              else fetchPaths expandKeys (all ++ renamed aliased files) rest

/-- The files that an entry gives with the answer to its request. -/
def given (expandKeys : Bool) (entry : Bytes × Option Answer) : List File :=
  match parsePathSpec entry.1 with
  | none => []
  | some (path, aliased) =>
      match fetchSecretFiles num expandKeys path entry.2 with
      | .error _ => []
      | .ok files => renamed aliased files

/-- What is accepted is all that the entries give. -/
theorem fetchPaths_ok {expandKeys : Bool} {entries : List (Bytes × Option Answer)}
    {all files : List File} (h : fetchPaths num expandKeys all entries = .ok files) :
    files = all ++ entries.flatMap (given num expandKeys) := by
  induction entries generalizing all with
  | nil =>
    cases h
    rw [List.flatMap_nil, List.append_nil]
  | cons entry rest ih =>
    obtain ⟨spec, answer⟩ := entry
    unfold fetchPaths at h
    cases hspec : parsePathSpec spec with
    | none => simp only [hspec, reduceCtorEq] at h
    | some pa =>
      obtain ⟨path, aliased⟩ := pa
      cases hget : fetchSecretFiles num expandKeys path answer with
      | error e => simp only [hspec, hget, reduceCtorEq] at h
      | ok new =>
        have hgiven : given num expandKeys (spec, answer) = renamed aliased new := by
          simp only [given, hspec, hget]
        simp only [hspec, hget] at h
        split_ifs at h
        rw [ih h, List.flatMap_cons, hgiven, List.append_assoc]

end

end Tuck.Csi
