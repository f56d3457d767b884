/-
  Byte strings. A string of the source is a sequence of bytes, so text and binary data
  share one type, `Bytes`. This file has what the rest reads off it: ASCII literals,
  prefixes, 32-bit big-endian words, decimal and hexadecimal digits, each encoder with
  the law that its decoder inverts it.
-/
import Mathlib

namespace Tuck.Base

open List

/-- A byte string. -/
abbrev Bytes := List UInt8

instance : LawfulBEq Bytes := inferInstance

/-- The bytes of an ASCII literal. -/
def ascii (s : String) : Bytes := s.toList.map fun c => UInt8.ofNat c.toNat

def hasPrefix (s pre : Bytes) : Bool := pre.isPrefixOf s

theorem hasPrefix_iff {s pre : Bytes} : hasPrefix s pre = true ↔ pre <+: s :=
  isPrefixOf_iff_prefix

def trimPrefix (s pre : Bytes) : Bytes := if hasPrefix s pre then s.drop pre.length else s

theorem trimPrefix_append (pre s : Bytes) : trimPrefix (pre ++ s) pre = s := by
  unfold trimPrefix
  rw [if_pos (hasPrefix_iff.mpr (prefix_append pre s)), drop_left]

/-! ## Big-endian words -/

/-- `binary.BigEndian.PutUint32`. -/
def be32 (w : UInt32) : Bytes :=
  [UInt8.ofNat (w.toNat / 2 ^ 24), UInt8.ofNat (w.toNat / 2 ^ 16), UInt8.ofNat (w.toNat / 2 ^ 8),
    UInt8.ofNat w.toNat]

/-- `binary.BigEndian.Uint32` on the first four bytes, with the bytes after them. -/
def takeBe32 : Bytes → Option (UInt32 × Bytes)
  | b0 :: b1 :: b2 :: b3 :: rest =>
      some (UInt32.ofNat (b0.toNat * 2 ^ 24 + b1.toNat * 2 ^ 16 + b2.toNat * 2 ^ 8 + b3.toNat),
        rest)
  | _ => none

theorem be32_length (w : UInt32) : (be32 w).length = 4 := rfl

theorem takeBe32_be32 (w : UInt32) (rest : Bytes) : takeBe32 (be32 w ++ rest) = some (w, rest) := by
  have hw := UInt32.toNat_lt w
  simp only [be32, cons_append, nil_append, takeBe32, UInt8.toNat_ofNat', Option.some.injEq,
    Prod.mk.injEq, and_true]
  apply UInt32.toNat.inj
  rw [UInt32.toNat_ofNat']
  omega

/-! ## Decimal digits -/

/-- `strconv.FormatUint` in base 10. -/
def decimal (n : Nat) : Bytes := (Nat.toDigits 10 n).map fun c => UInt8.ofNat c.toNat

def isDigit (b : UInt8) : Bool := 48 ≤ b.toNat && b.toNat ≤ 57

/-- The value of a run of digits read after `acc`. -/
def digitsVal (acc : Nat) (s : Bytes) : Nat := s.foldl (fun a b => 10 * a + (b.toNat - 48)) acc

/-- `strconv.ParseUint` in base 10, before its range check. -/
def parseUint (s : Bytes) : Option Nat :=
  if s ≠ [] ∧ s.all isDigit = true then some (digitsVal 0 s) else none

theorem char_of_isDigit {c : Char} (h : c.isDigit = true) :
    isDigit (UInt8.ofNat c.toNat) = true ∧ (UInt8.ofNat c.toNat).toNat = c.toNat := by
  have hc : 48 ≤ c.toNat ∧ c.toNat ≤ 57 := by
    simp only [Char.isDigit, Bool.and_eq_true, decide_eq_true_eq] at h
    exact h
  have hm : (UInt8.ofNat c.toNat).toNat = c.toNat := by
    rw [UInt8.toNat_ofNat']
    omega
  refine ⟨?_, hm⟩
  unfold isDigit
  rw [hm]
  simp [hc]

theorem isDigit_of_mem_decimal {n : Nat} {b : UInt8} (hb : b ∈ decimal n) : isDigit b = true := by
  obtain ⟨c, hc, rfl⟩ := mem_map.mp hb
  exact (char_of_isDigit (Nat.isDigit_of_mem_toDigits (by decide) (by decide) hc)).1

theorem decimal_ne_nil (n : Nat) : decimal n ≠ [] := by
  unfold decimal
  simp only [ne_eq, map_eq_nil_iff]
  exact Nat.toDigits_ne_nil

theorem digitsVal_map (cs : List Char) (h : ∀ c ∈ cs, c.isDigit = true) (acc : Nat) :
    digitsVal acc (cs.map fun c => UInt8.ofNat c.toNat) = Nat.ofDigitChars 10 cs acc := by
  induction cs generalizing acc with
  | nil => rfl
  | cons c cs ih =>
    have hc := (char_of_isDigit (h c (by simp))).2
    have hstep : digitsVal acc ((c :: cs).map fun c => UInt8.ofNat c.toNat) =
        digitsVal (10 * acc + (c.toNat - 48)) (cs.map fun c => UInt8.ofNat c.toNat) := by
      simp only [digitsVal, map_cons, foldl_cons, hc]
    rw [hstep, ih (fun d hd => h d (mem_cons_of_mem c hd)), Nat.ofDigitChars_cons]
    rfl

theorem parseUint_decimal (n : Nat) : parseUint (decimal n) = some n := by
  have hdig : ∀ c ∈ Nat.toDigits 10 n, c.isDigit = true := fun c hc =>
    Nat.isDigit_of_mem_toDigits (by decide) (by decide) hc
  unfold parseUint
  rw [if_pos ⟨decimal_ne_nil n, all_eq_true.mpr fun b hb => isDigit_of_mem_decimal hb⟩]
  unfold decimal
  rw [digitsVal_map _ hdig, Nat.ofDigitChars_toDigits (by decide) (by decide)]

/-- `strconv.FormatInt` in base 10. -/
def decimalInt : Int → Bytes
  | .ofNat n => decimal n
  | .negSucc n => 45 :: decimal (n + 1)

/-- `strconv.ParseInt` in base 10, before its range check. -/
def parseInt : Bytes → Option Int
  | 45 :: s => (parseUint s).map fun n => -(n : Int)
  | 43 :: s => (parseUint s).map fun n => (n : Int)
  | s => (parseUint s).map fun n => (n : Int)

theorem decimal_head {n : Nat} {b : UInt8} {s : Bytes} (h : decimal n = b :: s) :
    isDigit b = true :=
  isDigit_of_mem_decimal (by rw [h]; simp)

/-- A number above zero is written without a leading zero. -/
theorem decimal_head_ne_zero (n : Nat) :
    0 < n → ∀ {b : UInt8} {s : Bytes}, decimal n = b :: s → b ≠ 48 := by
  induction n using Nat.strong_induction_on with
  | _ n ih =>
    intro hn b s h
    by_cases hlt : n < 10
    · unfold decimal at h
      rw [Nat.toDigits_of_lt_base hlt] at h
      have hb := (List.cons.inj h).1
      have key : ∀ m < 10, 0 < m → UInt8.ofNat m.digitChar.toNat ≠ 48 := by decide
      exact hb ▸ key n hlt hn
    · have hsplit : decimal n = decimal (n / 10) ++ [UInt8.ofNat (n % 10).digitChar.toNat] := by
        unfold decimal
        rw [Nat.toDigits_of_base_le (by decide) (by omega), map_append]
        rfl
      cases hd : decimal (n / 10) with
      | nil => exact absurd hd (decimal_ne_nil _)
      | cons c t =>
        rw [hsplit, hd, cons_append] at h
        have hb := (List.cons.inj h).1
        exact hb ▸ ih (n / 10) (by omega) (by omega) hd

theorem parseInt_decimal (n : Nat) : parseInt (decimal n) = some (n : Int) := by
  cases h : decimal n with
  | nil => exact absurd h (decimal_ne_nil n)
  | cons b s =>
    have hb := decimal_head h
    have hp : (parseUint (b :: s)).map (fun n => (n : Int)) = some (n : Int) := by
      rw [← h, parseUint_decimal]; rfl
    unfold parseInt
    split
    · rename_i heq
      cases heq
      exact absurd hb (by decide)
    · rename_i heq
      cases heq
      exact absurd hb (by decide)
    · exact hp

theorem parseInt_decimalInt (i : Int) : parseInt (decimalInt i) = some i := by
  cases i with
  | ofNat n => exact parseInt_decimal n
  | negSucc n =>
    simp only [decimalInt, parseInt, parseUint_decimal]
    rfl

/-! ## Joining and splitting -/

/-- Items with a separator between them. -/
def joinWith (sep : UInt8) : List Bytes → Bytes
  | [] => []
  | [x] => x
  | x :: xs => x ++ sep :: joinWith sep xs

theorem joinWith_cons {sep : UInt8} (x y : Bytes) (xs : List Bytes) :
    joinWith sep (x :: y :: xs) = x ++ sep :: joinWith sep (y :: xs) := rfl

theorem joinWith_append {sep : UInt8} {xs ys : List Bytes} (hx : xs ≠ []) (hy : ys ≠ []) :
    joinWith sep (xs ++ ys) = joinWith sep xs ++ sep :: joinWith sep ys := by
  induction xs with
  | nil => exact absurd rfl hx
  | cons x xs ih =>
    cases xs with
    | nil =>
      cases ys with
      | nil => exact absurd rfl hy
      | cons y ys => rfl
    | cons z zs =>
      have h := ih (cons_ne_nil z zs)
      simp only [cons_append] at h ⊢
      rw [joinWith_cons, h, joinWith_cons]
      simp

/-- Splitting at a separator undoes joining parts that do not contain it. -/
theorem splitOn_joinWith {sep : UInt8} {xs : List Bytes} (hx : xs ≠ []) (h : ∀ x ∈ xs, sep ∉ x) :
    (joinWith sep xs).splitOn sep = xs := by
  have hsep : ∀ x ∈ xs, ∀ b ∈ x, (b == sep) = false := by
    intro x hxs b hb
    rw [beq_eq_false_iff_ne]
    rintro rfl
    exact h x hxs hb
  clear h
  induction xs with
  | nil => exact absurd rfl hx
  | cons x xs ih =>
    cases xs with
    | nil => exact splitOnP_eq_singleton (hsep x (by simp))
    | cons y ys =>
      rw [joinWith_cons, List.splitOn, splitOnP_append_cons_of_forall_mem (hsep x (by simp)) _
        (beq_self_eq_true sep)]
      have := ih (cons_ne_nil y ys) fun z hz => hsep z (mem_cons_of_mem x hz)
      rw [List.splitOn] at this
      rw [this]

theorem joinWith_splitOn {sep : UInt8} (s : Bytes) : joinWith sep (s.splitOn sep) = s := by
  induction s with
  | nil => rfl
  | cons b s ih =>
    have hne := splitOnP_ne_nil (· == sep) s
    simp only [List.splitOn] at ih ⊢
    rw [splitOnP_cons_eq_if_modifyHead]
    cases hsp : s.splitOnP (· == sep) with
    | nil => exact absurd hsp hne
    | cons x xs =>
      rw [hsp] at ih
      split_ifs with hb
      · rw [joinWith_cons, ih, beq_iff_eq.mp hb]
        rfl
      · cases xs with
        | nil => simp only [List.modifyHead, joinWith] at ih ⊢; rw [ih]
        | cons y ys =>
          simp only [List.modifyHead, joinWith_cons, cons_append] at ih ⊢
          rw [ih]

/-- What stands before the first separator is determined. -/
theorem append_sep_inj {α : Type} {sep : α} {a b x y : List α} (ha : sep ∉ a) (hb : sep ∉ b)
    (h : a ++ sep :: x = b ++ sep :: y) : a = b ∧ x = y := by
  induction a generalizing b with
  | nil =>
    cases b with
    | nil => exact ⟨rfl, (List.cons.inj h).2⟩
    | cons c b => exact absurd (mem_cons.2 (.inl (List.cons.inj h).1)) hb
  | cons d a ih =>
    cases b with
    | nil => exact absurd (mem_cons.2 (.inl (List.cons.inj h).1.symm)) ha
    | cons c b =>
      obtain ⟨rfl, htail⟩ := List.cons.inj h
      obtain ⟨rfl, hxy⟩ := ih (fun q => ha (mem_cons_of_mem d q))
        (fun q => hb (mem_cons_of_mem d q)) htail
      exact ⟨rfl, hxy⟩

/-! ## Keys with different beginnings -/

/-- One of the two strings starts with the other. -/
def overlaps (p q : Bytes) : Bool := hasPrefix p q || hasPrefix q p

theorem overlaps_of_common {p q k : Bytes} (hp : p <+: k) (hq : q <+: k) : overlaps p q = true := by
  unfold overlaps
  rw [Bool.or_eq_true, hasPrefix_iff, hasPrefix_iff]
  exact prefix_or_prefix_of_prefix hq hp

/-- Strings whose beginnings do not overlap differ. -/
theorem append_ne_append {p q : Bytes} (h : overlaps p q = false) (x y : Bytes) :
    p ++ x ≠ q ++ y := by
  intro heq
  have := overlaps_of_common (prefix_append p x) (heq ▸ prefix_append q y)
  rw [h] at this
  exact Bool.false_ne_true this

/-! ## Hexadecimal digits -/

def hexDigit (n : Nat) : UInt8 := if n < 10 then UInt8.ofNat (48 + n) else UInt8.ofNat (87 + n)

/-- `hex.EncodeToString`. -/
def hexEncode (s : Bytes) : Bytes :=
  s.flatMap fun b => [hexDigit (b.toNat / 16), hexDigit (b.toNat % 16)]

theorem hexDigit_inj {m n : Nat} (hm : m < 16) (hn : n < 16) (h : hexDigit m = hexDigit n) :
    m = n := by
  have := congrArg UInt8.toNat h
  unfold hexDigit at this
  split at this <;> split at this <;> simp only [UInt8.toNat_ofNat'] at this <;> omega

theorem hexEncode_injective : Function.Injective hexEncode := by
  intro a b
  induction a generalizing b with
  | nil =>
    intro h
    cases b with
    | nil => rfl
    | cons y b => simp [hexEncode] at h
  | cons x a ih =>
    intro h
    cases b with
    | nil => simp [hexEncode] at h
    | cons y b =>
      simp only [hexEncode, flatMap_cons, cons_append, nil_append, List.cons.injEq] at h
      obtain ⟨h1, h2, h3⟩ := h
      have hx := UInt8.toNat_lt x
      have hy := UInt8.toNat_lt y
      have e1 := hexDigit_inj (by omega) (by omega) h1
      have e2 := hexDigit_inj (by omega) (by omega) h2
      have hxy : x = y := UInt8.toNat.inj (by omega)
      rw [hxy, ih h3]

theorem slash_notMem_hexEncode (s : Bytes) : (0x2F : UInt8) ∉ hexEncode s := by
  have digit : ∀ n < 16, hexDigit n ≠ 0x2F := by decide
  intro h
  obtain ⟨b, -, hb⟩ := mem_flatMap.1 h
  have := b.toNat_lt
  simp only [mem_cons, not_mem_nil, or_false] at hb
  obtain hb | hb := hb
  · exact digit _ (by omega) hb.symm
  · exact digit _ (by omega) hb.symm

/-! ## Results that may be missing -/

theorem mapM_eq_map {α β : Type} {f : α → Option β} {g : α → β} {l : List α}
    (h : ∀ a ∈ l, f a = some (g a)) : l.mapM f = some (l.map g) := by
  induction l with
  | nil => rfl
  | cons a l ih =>
    rw [mapM_cons, h a mem_cons_self, ih fun b hb => h b (mem_cons_of_mem a hb)]
    rfl

/-- A result that was found by evaluation. -/
theorem exists_of_any {α : Type} {o : Option α} {p : α → Prop} [DecidablePred p]
    (h : o.any (fun a => decide (p a)) = true) : ∃ a, o = some a ∧ p a := by
  cases o with
  | none => cases h
  | some a => exact ⟨a, rfl, of_decide_eq_true h⟩

end Tuck.Base
