/-
  UTF-8 as `unicode/utf8` reads it: a byte string is cut, from the left, into valid
  runes and single bytes that start no valid rune (the decoder reports those as U+FFFD
  of width one). `chunks` is that cut; a string is valid when it has no bad byte.
-/
import Tuck.Base.Bytes

namespace Tuck.Base

open List

/-- A continuation byte. -/
def isCont (b : UInt8) : Bool := 0x80 ≤ b.toNat && b.toNat ≤ 0xBF

/-- The second byte after the lead byte `n` of a three-byte rune: no overlong form, no
    surrogate. -/
def second3 (n : Nat) (b : UInt8) : Bool :=
  (if n = 0xE0 then 0xA0 else 0x80) ≤ b.toNat && b.toNat ≤ (if n = 0xED then 0x9F else 0xBF)

/-- The second byte after the lead byte `n` of a four-byte rune: no overlong form, nothing
    above U+10FFFF. -/
def second4 (n : Nat) (b : UInt8) : Bool :=
  (if n = 0xF0 then 0x90 else 0x80) ≤ b.toNat && b.toNat ≤ (if n = 0xF4 then 0x8F else 0xBF)

/-- Width of the valid rune at the head, `0` when the first byte starts none. -/
def runeLen : Bytes → Nat
  | [] => 0
  | a :: s =>
      if a.toNat < 0x80 then 1
      else if 0xC2 ≤ a.toNat ∧ a.toNat ≤ 0xDF then
        match s with
        | b :: _ => if isCont b then 2 else 0
        | _ => 0
      else if 0xE0 ≤ a.toNat ∧ a.toNat ≤ 0xEF then
        match s with
        | b :: c :: _ => if second3 a.toNat b && isCont c then 3 else 0
        | _ => 0
      else if 0xF0 ≤ a.toNat ∧ a.toNat ≤ 0xF4 then
        match s with
        | b :: c :: d :: _ => if second4 a.toNat b && isCont c && isCont d then 4 else 0
        | _ => 0
      else 0

/-- One valid rune, whole. -/
def IsRune (r : Bytes) : Prop := r ≠ [] ∧ runeLen r = r.length

instance : DecidablePred IsRune := fun _ => inferInstanceAs (Decidable (_ ∧ _))

variable {r : Bytes}

/-- The shapes of a valid rune, one for each width. -/
theorem isRune_cases (h : IsRune r) :
    (∃ a, r = [a] ∧ a.toNat < 0x80) ∨
    (∃ a b, r = [a, b] ∧ 0xC2 ≤ a.toNat ∧ a.toNat ≤ 0xDF ∧ isCont b = true) ∨
    (∃ a b c, r = [a, b, c] ∧ 0xE0 ≤ a.toNat ∧ a.toNat ≤ 0xEF ∧ second3 a.toNat b = true ∧
      isCont c = true) ∨
    (∃ a b c d, r = [a, b, c, d] ∧ 0xF0 ≤ a.toNat ∧ a.toNat ≤ 0xF4 ∧ second4 a.toNat b = true ∧
      isCont c = true ∧ isCont d = true) := by
  obtain ⟨hne, hl⟩ := h
  cases r with
  | nil => exact absurd rfl hne
  | cons a s =>
    simp only [runeLen] at hl
    split_ifs at hl with h1 h2 h3 h4
    · obtain rfl : s = [] := eq_nil_of_length_eq_zero (by simpa using hl.symm)
      exact Or.inl ⟨a, rfl, h1⟩
    · match s, hl with
      | [b], hl =>
        by_cases hb : isCont b = true
        · exact Or.inr (Or.inl ⟨a, b, rfl, h2.1, h2.2, hb⟩)
        · simp [hb] at hl
      | [], hl => simp at hl
      | b :: c :: t, hl => by_cases hb : isCont b = true <;> simp [hb] at hl
    · match s, hl with
      | [b, c], hl =>
        by_cases hb : second3 a.toNat b = true <;> by_cases hc : isCont c = true <;>
          simp [hb, hc] at hl
        exact Or.inr (Or.inr (Or.inl ⟨a, b, c, rfl, h3.1, h3.2, hb, hc⟩))
      | [], hl => simp at hl
      | [b], hl => simp at hl
      | b :: c :: d :: t, hl =>
        by_cases hb : second3 a.toNat b = true <;> by_cases hc : isCont c = true <;>
          simp [hb, hc] at hl
    · match s, hl with
      | [b, c, d], hl =>
        by_cases hb : second4 a.toNat b = true <;> by_cases hc : isCont c = true <;>
          by_cases hd : isCont d = true <;> simp [hb, hc, hd] at hl
        exact Or.inr (Or.inr (Or.inr ⟨a, b, c, d, rfl, h4.1, h4.2, hb, hc, hd⟩))
      | [], hl => simp at hl
      | [b], hl => simp at hl
      | [b, c], hl => simp at hl
      | b :: c :: d :: e :: t, hl =>
        by_cases hb : second4 a.toNat b = true <;> by_cases hc : isCont c = true <;>
          by_cases hd : isCont d = true <;> simp [hb, hc, hd] at hl

/-- A valid rune is read whole, whatever follows it. -/
theorem runeLen_append (h : IsRune r) (s : Bytes) : runeLen (r ++ s) = r.length := by
  rcases isRune_cases h with ⟨a, rfl, ha⟩ | ⟨a, b, rfl, h1, h2, hb⟩ |
    ⟨a, b, c, rfl, h1, h2, hb, hc⟩ | ⟨a, b, c, d, rfl, h1, h2, hb, hc, hd⟩
  · simp [runeLen, ha]
  · simp only [cons_append, nil_append, runeLen]
    rw [if_neg (by omega), if_pos ⟨h1, h2⟩, if_pos hb]
    rfl
  · simp only [cons_append, nil_append, runeLen]
    rw [if_neg (by omega), if_neg (by omega), if_pos ⟨h1, h2⟩, hb, hc]
    rfl
  · simp only [cons_append, nil_append, runeLen]
    rw [if_neg (by omega), if_neg (by omega), if_neg (by omega), if_pos ⟨h1, h2⟩, hb, hc, hd]
    rfl

variable {s : Bytes}

/-- The head that `runeLen` measures is a valid rune. -/
theorem isRune_take (h : runeLen s ≠ 0) :
    IsRune (s.take (runeLen s)) ∧ runeLen s ≤ s.length := by
  cases s with
  | nil => exact absurd rfl h
  | cons a s =>
    simp only [runeLen] at h ⊢
    split_ifs at h ⊢ with h1 h2 h3 h4
    · exact ⟨⟨by simp, by simp [runeLen, h1]⟩, by simp⟩
    · match s, h with
      | b :: t, h =>
        by_cases hb : isCont b = true
        · simp only [hb, if_true]
          refine ⟨⟨by simp, ?_⟩, by simp⟩
          simp [runeLen, h1, h2, hb]
        · simp [hb] at h
      | [], h => simp at h
    · match s, h with
      | b :: c :: t, h =>
        by_cases hb : second3 a.toNat b = true <;> by_cases hc : isCont c = true <;>
          simp [hb, hc] at h
        simp only [hb, hc, Bool.and_self, if_true]
        refine ⟨⟨by simp, ?_⟩, by simp⟩
        simp [runeLen, h1, h2, h3, hb, hc]
      | [], h => simp at h
      | [b], h => simp at h
    · match s, h with
      | b :: c :: d :: t, h =>
        by_cases hb : second4 a.toNat b = true <;> by_cases hc : isCont c = true <;>
          by_cases hd : isCont d = true <;> simp [hb, hc, hd] at h
        simp only [hb, hc, hd, Bool.and_self, if_true]
        refine ⟨⟨by simp, ?_⟩, by simp⟩
        simp [runeLen, h1, h2, h3, h4, hb, hc, hd]
      | [], h => simp at h
      | [b], h => simp at h
      | [b, c], h => simp at h
    · simp at h

/-! ## Cutting a string into runes -/

/-- A valid rune, or a byte that starts none. -/
inductive Chunk where
  | rune (r : Bytes)
  | bad (b : UInt8)
  deriving DecidableEq

def Chunk.bytes : Chunk → Bytes
  | .rune r => r
  | .bad b => [b]

/-- The cut, one chunk for each unit of fuel. -/
def chunksN : Nat → Bytes → List Chunk
  | 0, _ => []
  | _ + 1, [] => []
  | n + 1, b :: s =>
      match runeLen (b :: s) with
      | 0 => .bad b :: chunksN n s
      | k + 1 => .rune ((b :: s).take (k + 1)) :: chunksN n ((b :: s).drop (k + 1))

/-- The runes and bad bytes of a string, in order. -/
def chunks (s : Bytes) : List Chunk := chunksN s.length s

/-- More fuel than bytes changes nothing. -/
theorem chunksN_eq {n m : Nat} (hn : s.length ≤ n) (hm : s.length ≤ m) :
    chunksN n s = chunksN m s := by
  induction n generalizing m s with
  | zero =>
    obtain rfl : s = [] := eq_nil_of_length_eq_zero (by omega)
    cases m <;> rfl
  | succ n ih =>
    cases s with
    | nil => cases m <;> rfl
    | cons b s =>
      cases m with
      | zero => simp at hm
      | succ m =>
        simp only [length_cons] at hn hm
        simp only [chunksN]
        split
        · rw [ih (m := m) (by omega) (by omega)]
        · rw [ih (m := m) (by simp; omega) (by simp; omega)]

theorem chunks_nil : chunks [] = [] := rfl

theorem chunks_rune (h : IsRune r) (s : Bytes) :
    chunks (r ++ s) = .rune r :: chunks s := by
  have hl := runeLen_append h s
  cases r with
  | nil => exact absurd rfl h.1
  | cons b t =>
    unfold chunks
    have hlen : ((b :: t) ++ s).length = (t ++ s).length + 1 := rfl
    rw [hlen, cons_append, chunksN, ← cons_append, hl, length_cons]
    simp only
    rw [← length_cons (a := b), take_left, drop_left,
      chunksN_eq (by simp) (Nat.le_refl _)]

variable {b : UInt8}

theorem chunks_bad (h : runeLen (b :: s) = 0) :
    chunks (b :: s) = .bad b :: chunks s := by
  unfold chunks
  rw [length_cons, chunksN, h]

/-- Cutting at the head: the string is empty, or starts with a rune, or with a bad byte. -/
theorem chunks_cases (s : Bytes) :
    s = [] ∨ (∃ r t, IsRune r ∧ s = r ++ t) ∨ (∃ b t, runeLen (b :: t) = 0 ∧ s = b :: t) := by
  cases s with
  | nil => exact Or.inl rfl
  | cons b t =>
    by_cases h : runeLen (b :: t) = 0
    · exact Or.inr (Or.inr ⟨b, t, h, rfl⟩)
    · refine Or.inr (Or.inl ⟨_, (b :: t).drop (runeLen (b :: t)), (isRune_take h).1, ?_⟩)
      rw [take_append_drop]

/-- Induction over the cut of a string. -/
theorem chunks_induction {P : Bytes → Prop} (nil : P [])
    (rune : ∀ r s, IsRune r → P s → P (r ++ s))
    (bad : ∀ b s, runeLen (b :: s) = 0 → P s → P (b :: s)) (s : Bytes) : P s := by
  have key : ∀ n (s : Bytes), s.length ≤ n → P s := by
    intro n
    induction n with
    | zero =>
      intro s hs
      rw [eq_nil_of_length_eq_zero (by omega : s.length = 0)]
      exact nil
    | succ n ih =>
      intro s hs
      rcases chunks_cases s with rfl | ⟨r, t, hr, rfl⟩ | ⟨b, t, hb, rfl⟩
      · exact nil
      · have hpos : 0 < r.length := length_pos_of_ne_nil hr.1
        rw [length_append] at hs
        exact rune r t hr (ih t (by omega))
      · rw [length_cons] at hs
        exact bad b t hb (ih t (by omega))
  exact key s.length s (Nat.le_refl _)

/-! ## Valid strings -/

/-- `utf8.ValidString`: no bad byte. -/
def Utf8Valid (s : Bytes) : Prop := ∀ c ∈ chunks s, ∃ r, c = .rune r

/-- `utf8.ValidString` as the code computes it. -/
def utf8Valid (s : Bytes) : Bool :=
  (chunks s).all fun c => match c with | .rune _ => true | .bad _ => false

theorem utf8Valid_iff : utf8Valid s = true ↔ Utf8Valid s := by
  unfold utf8Valid Utf8Valid
  rw [all_eq_true]
  refine forall₂_congr fun c _ => ?_
  cases c <;> simp

instance : DecidablePred Utf8Valid := fun _ => decidable_of_iff _ utf8Valid_iff

theorem utf8Valid_nil : Utf8Valid [] := by
  intro c hc
  simp [chunks_nil] at hc

theorem utf8Valid_rune_append (hr : IsRune r) (s : Bytes) :
    Utf8Valid (r ++ s) ↔ Utf8Valid s := by
  unfold Utf8Valid
  rw [chunks_rune hr]
  simp

theorem not_utf8Valid_bad (h : runeLen (b :: s) = 0) :
    ¬ Utf8Valid (b :: s) := by
  unfold Utf8Valid
  rw [chunks_bad h]
  intro hv
  obtain ⟨r, hr⟩ := hv (.bad b) (by simp)
  cases hr

theorem isRune_ascii (h : b.toNat < 0x80) : IsRune [b] :=
  ⟨by simp, by simp [runeLen, h]⟩

/-- ASCII text is valid. -/
theorem utf8Valid_ascii (h : ∀ b ∈ s, b.toNat < 0x80) : Utf8Valid s := by
  induction s with
  | nil => exact utf8Valid_nil
  | cons b s ih =>
    have hb := isRune_ascii (h b (by simp))
    have := (utf8Valid_rune_append hb s).mpr (ih fun c hc => h c (mem_cons_of_mem b hc))
    simpa using this

/-- `utf8.EncodeRune`: the bytes of a code point, those of U+FFFD when it is none. -/
def encodeRune (r : Nat) : Bytes :=
  if r < 0x80 then [UInt8.ofNat r]
  else if r < 0x800 then [UInt8.ofNat (0xC0 + r / 64), UInt8.ofNat (0x80 + r % 64)]
  else if 0xD800 ≤ r ∧ r ≤ 0xDFFF then [0xEF, 0xBF, 0xBD]
  else if r < 0x10000 then
    [UInt8.ofNat (0xE0 + r / 4096), UInt8.ofNat (0x80 + r / 64 % 64), UInt8.ofNat (0x80 + r % 64)]
  else if r < 0x110000 then
    [UInt8.ofNat (0xF0 + r / 262144), UInt8.ofNat (0x80 + r / 4096 % 64),
      UInt8.ofNat (0x80 + r / 64 % 64), UInt8.ofNat (0x80 + r % 64)]
  else [0xEF, 0xBF, 0xBD]

theorem isCont_ofNat {k : Nat} (h : k < 64) : isCont (UInt8.ofNat (0x80 + k)) = true := by
  unfold isCont
  rw [UInt8.toNat_ofNat', Nat.mod_eq_of_lt (by omega)]
  simp
  omega

/-- `utf8.EncodeRune` writes one valid rune, whatever it is given. -/
theorem isRune_encodeRune (r : Nat) : IsRune (encodeRune r) := by
  have hb : ∀ k < 256, (UInt8.ofNat k).toNat = k := fun k hk => by
    rw [UInt8.toNat_ofNat', Nat.mod_eq_of_lt hk]
  unfold encodeRune
  split_ifs with h1 h2 h3 h4 h5
  · exact isRune_ascii (by rw [hb r (by omega)]; exact h1)
  · refine ⟨by simp, ?_⟩
    simp only [runeLen, hb (0xC0 + r / 64) (by omega), isCont_ofNat (by omega : r % 64 < 64)]
    rw [if_neg (by omega), if_pos (by omega)]
    rfl
  · decide
  · refine ⟨by simp, ?_⟩
    have hs : second3 (0xE0 + r / 4096) (UInt8.ofNat (0x80 + r / 64 % 64)) = true := by
      unfold second3
      rw [hb _ (by omega)]
      simp only [Bool.and_eq_true, decide_eq_true_eq]
      constructor <;> split_ifs <;> omega
    simp only [runeLen, hb (0xE0 + r / 4096) (by omega), isCont_ofNat (by omega : r % 64 < 64), hs]
    rw [if_neg (by omega), if_neg (by omega), if_pos (by omega)]
    rfl
  · refine ⟨by simp, ?_⟩
    have hs : second4 (0xF0 + r / 262144) (UInt8.ofNat (0x80 + r / 4096 % 64)) = true := by
      unfold second4
      rw [hb _ (by omega)]
      simp only [Bool.and_eq_true, decide_eq_true_eq]
      constructor <;> split_ifs <;> omega
    simp only [runeLen, hb (0xF0 + r / 262144) (by omega), isCont_ofNat (by omega : r % 64 < 64),
      isCont_ofNat (by omega : r / 64 % 64 < 64), hs]
    rw [if_neg (by omega), if_neg (by omega), if_neg (by omega), if_pos (by omega)]
    rfl
  · decide

end Tuck.Base
