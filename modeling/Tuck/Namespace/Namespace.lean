/-
  Namespaces: names, their storage prefixes and the record of a namespace.

  The storage prefix of a name is "ns/", the name with every '/' written as '~', and "/".
  Read back, the name ends at the first '/', so prefixes of different names never overlap
  (`eq_of_prefix_storagePrefix`). Whether two names have the same prefix is another matter:
  on valid names, which have no '~', the encoding is injective (`storagePrefix_inj`).
-/
import Tuck.Base.Bytes

namespace Tuck

open Tuck.Base List

namespace Namespace

def rootNamespace : Bytes := ascii "root"

def maxNameSegments : Nat := 4

def maxNameLength : Nat := 128

def isLowerAlnum (b : UInt8) : Bool := (0x61 ≤ b && b ≤ 0x7A) || (0x30 ≤ b && b ≤ 0x39)

/-- `segmentRe`: a letter or digit, then letters, digits and hyphens. -/
def segmentRe : Bytes → Bool
  | [] => false
  | b :: bs => isLowerAlnum b && bs.all fun c => isLowerAlnum c || c = 0x2D

/-- `ValidateName`: whether the name is accepted. -/
def validateName (name : Bytes) : Bool :=
  let segments := name.splitOn 0x2F
  name.length ≤ maxNameLength && segments.length ≤ maxNameSegments &&
    segments.all fun seg => seg ≠ rootNamespace && segmentRe seg

/-- The root namespace has two spellings. -/
def isRoot (ns : Bytes) : Bool := ns = [] || ns = rootNamespace

/-- The name with '~' for '/'. -/
def encodeName (ns : Bytes) : Bytes := ns.map fun b => if b = 0x2F then 0x7E else b

def storagePrefix (ns : Bytes) : Bytes :=
  if isRoot ns then [] else ascii "ns/" ++ (encodeName ns ++ [0x2F])

/-! ## Valid names -/

theorem segmentRe_char {seg : Bytes} (h : segmentRe seg = true) {b : UInt8} (hb : b ∈ seg) :
    isLowerAlnum b = true ∨ b = 0x2D := by
  cases seg with
  | nil => cases hb
  | cons c seg =>
    simp only [segmentRe, Bool.and_eq_true, all_eq_true, Bool.or_eq_true,
      decide_eq_true_eq] at h
    obtain rfl | hb := mem_cons.1 hb
    · exact .inl h.1
    · exact h.2 b hb

theorem validateName_segment {name seg : Bytes} (h : validateName name = true)
    (hseg : seg ∈ name.splitOn 0x2F) : seg ≠ rootNamespace ∧ segmentRe seg = true := by
  simp only [validateName, Bool.and_eq_true, all_eq_true, decide_eq_true_eq] at h
  exact h.2 seg hseg

theorem mem_of_mem_joinWith {sep b : UInt8} {xs : List Bytes} (h : b ∈ joinWith sep xs) :
    b = sep ∨ ∃ x ∈ xs, b ∈ x := by
  induction xs with
  | nil => cases h
  | cons x xs ih =>
    cases xs with
    | nil => exact .inr ⟨x, mem_singleton_self x, h⟩
    | cons y xs =>
      rw [joinWith_cons, mem_append, mem_cons] at h
      obtain h | rfl | h := h
      · exact .inr ⟨x, mem_cons_self .., h⟩
      · exact .inl rfl
      · obtain h | ⟨z, hz, hb⟩ := ih h
        · exact .inl h
        · exact .inr ⟨z, mem_cons_of_mem x hz, hb⟩

theorem validateName_char {name : Bytes} (h : validateName name = true) {b : UInt8}
    (hb : b ∈ name) : b = 0x2F ∨ isLowerAlnum b = true ∨ b = 0x2D := by
  have hname : joinWith 0x2F (name.splitOn 0x2F) = name := joinWith_splitOn name
  rw [← hname] at hb
  obtain hb | ⟨seg, hseg, hb⟩ := mem_of_mem_joinWith hb
  · exact .inl hb
  · exact .inr (segmentRe_char (validateName_segment h hseg).2 hb)

theorem tilde_notMem {name : Bytes} (h : validateName name = true) : (0x7E : UInt8) ∉ name := by
  intro hb
  obtain hb | hb | hb := validateName_char h hb <;> revert hb <;> decide

theorem isRoot_of_valid {name : Bytes} (h : validateName name = true) : isRoot name = false := by
  rw [isRoot, Bool.or_eq_false_iff, decide_eq_false_iff_not, decide_eq_false_iff_not]
  constructor <;> rintro rfl <;> revert h <;> decide

/-! ## Storage prefixes -/

theorem slash_notMem_encodeName (ns : Bytes) : (0x2F : UInt8) ∉ encodeName ns := by
  rw [encodeName, mem_map]
  rintro ⟨b, -, hb⟩
  split_ifs at hb with h
  · revert hb
    decide
  · exact h hb

theorem storagePrefix_root {ns : Bytes} (h : isRoot ns = true) : storagePrefix ns = [] := if_pos h

theorem storagePrefix_child {ns : Bytes} (h : isRoot ns = false) :
    storagePrefix ns = ascii "ns/" ++ (encodeName ns ++ [0x2F]) := by
  rw [storagePrefix, if_neg (by simp [h])]

theorem encodeName_injOn {a b : Bytes} (ha : (0x7E : UInt8) ∉ a) (hb : (0x7E : UInt8) ∉ b)
    (h : encodeName a = encodeName b) : a = b := by
  induction a generalizing b with
  | nil =>
    cases b with
    | nil => rfl
    | cons y b => cases h
  | cons x a ih =>
    cases b with
    | nil => cases h
    | cons y b =>
      simp only [encodeName, map_cons, List.cons.injEq] at h
      rw [mem_cons, not_or] at ha hb
      have hxy : x = y := by
        have h1 := h.1
        split_ifs at h1 with hx hy hy
        · rw [hx, hy]
        · exact absurd h1 hb.1
        · exact absurd h1.symm ha.1
        · exact h1
      rw [hxy, ih ha.2 hb.2 h.2]

/-- Two prefixes of which one key has both are the same, unless one is the root's. -/
theorem eq_of_prefix_storagePrefix {a b k : Bytes} (ha : isRoot a = false) (hb : isRoot b = false)
    (hka : storagePrefix a <+: k) (hkb : storagePrefix b <+: k) :
    storagePrefix a = storagePrefix b := by
  rw [storagePrefix_child ha] at hka ⊢
  rw [storagePrefix_child hb] at hkb ⊢
  obtain ⟨x, rfl⟩ := hka
  obtain ⟨y, hy⟩ := hkb
  simp only [append_assoc, append_cancel_left_eq, singleton_append] at hy
  rw [(append_sep_inj (slash_notMem_encodeName b) (slash_notMem_encodeName a) hy).1]

/-- Valid names with the same prefix are the same name. -/
theorem storagePrefix_inj {a b : Bytes} (ha : validateName a = true) (hb : validateName b = true)
    (h : storagePrefix a = storagePrefix b) : a = b := by
  rw [storagePrefix_child (isRoot_of_valid ha), storagePrefix_child (isRoot_of_valid hb)] at h
  simp only [append_cancel_left_eq, append_cancel_right_eq] at h
  exact encodeName_injOn (tilde_notMem ha) (tilde_notMem hb) h

/-- No key that starts otherwise lies below the prefix of a namespace. -/
theorem not_prefix_of_not_overlaps {ns p k : Bytes} (hns : isRoot ns = false)
    (hp : overlaps (ascii "ns/") p = false) (hk : p <+: k) : ¬storagePrefix ns <+: k := by
  intro h
  rw [storagePrefix_child hns] at h
  rw [overlaps_of_common ((prefix_append ..).trans h) hk] at hp
  exact Bool.false_ne_true hp.symm

/-! ## The record -/

/-- `Metadata`: the part of a namespace that can be edited. -/
structure Metadata where
  description : Bytes
  owner : Bytes
  labels : List (Bytes × Bytes)
  deriving DecidableEq

/-- `printable`: control characters are single bytes, so the bytes can be checked instead of
    the runes. -/
def printable (s : Bytes) (multiline : Bool) : Bool :=
  s.all fun b => if b = 0x0A || b = 0x09 then multiline else !(b < 0x20 || b = 0x7F)

/-- `Metadata.Validate`: whether the metadata are accepted. -/
def Metadata.validate (m : Metadata) : Bool :=
  m.description.length ≤ 512 && m.owner.length ≤ 128 && m.labels.length ≤ 32 &&
    printable m.description true && printable m.owner false &&
    m.labels.all fun l => l.1 ≠ [] && l.1.length ≤ 64 && l.2.length ≤ 256 &&
      printable l.1 false && printable l.2 false

end Namespace

/-- `Namespace`: the stored record. -/
structure Namespace where
  name : Bytes
  createdAt : Int
  description : Bytes
  owner : Bytes
  labels : List (Bytes × Bytes)
  updatedAt : Option Int
  deriving DecidableEq

def Namespace.apply (ns : Namespace) (m : Namespace.Metadata) : Namespace :=
  { ns with description := m.description, owner := m.owner, labels := m.labels }

end Tuck
