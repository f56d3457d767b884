/-
  Encodings of text by units: UTF-8 by bytes, UTF-16 by 16-bit code units.

  What they share is `Encoding`: a unit tells whether a character starts with it, and no
  character's code is a prefix of another's. So an encoded text is cut in one way only, and a
  unit that is the whole code of a character stands for that character wherever it occurs.
-/
import Tuck.Base.Utf8

namespace Tuck.Base

/-- An encoding whose units tell where a character starts. -/
structure Encoding (α : Type) where
  enc : Char → List α
  lead : α → Prop
  head_lead : ∀ c, ∃ x xs, enc c = x :: xs ∧ lead x ∧ ∀ y ∈ xs, ¬ lead y
  prefix_free : ∀ c d, enc c <+: enc d → c = d

namespace Encoding

variable {α : Type} (E : Encoding α)

/-- The units of a text. -/
def encode (s : List Char) : List α := s.flatMap E.enc

@[simp] theorem encode_nil : E.encode [] = [] := rfl

theorem encode_cons (c : Char) (s : List Char) : E.encode (c :: s) = E.enc c ++ E.encode s :=
  List.flatMap_cons

variable {E}

theorem enc_ne_nil (c : Char) : E.enc c ≠ [] := by
  obtain ⟨x, xs, h, -⟩ := E.head_lead c
  rw [h]
  exact List.cons_ne_nil x xs

theorem encode_eq_nil {s : List Char} : E.encode s = [] ↔ s = [] := by
  cases s with
  | nil => exact ⟨fun _ => rfl, fun _ => rfl⟩
  | cons c s =>
    rw [encode_cons, List.append_eq_nil_iff]
    exact ⟨fun h => absurd h.1 (enc_ne_nil c), nofun⟩

/-- A text that starts with the code of a character starts with that character. -/
theorem encode_eq_append {c : Char} {t : List α} {s : List Char} (h : E.encode s = E.enc c ++ t) :
    ∃ s', s = c :: s' ∧ t = E.encode s' := by
  cases s with
  | nil =>
    rw [encode_nil, eq_comm, List.append_eq_nil_iff] at h
    exact absurd h.1 (enc_ne_nil c)
  | cons d s =>
    rw [encode_cons] at h
    have hcd : d = c := by
      rcases List.append_eq_append_iff.mp h with ⟨r, hr, -⟩ | ⟨r, hr, -⟩
      · exact E.prefix_free d c ⟨r, hr.symm⟩
      · exact (E.prefix_free c d ⟨r, hr.symm⟩).symm
    subst hcd
    exact ⟨s, rfl, (List.append_cancel_left h).symm⟩

/-- A unit that is a whole code occurs in no other code. -/
theorem eq_of_mem_enc {c d : Char} {x : α} (hc : E.enc c = [x]) (h : x ∈ E.enc d) : c = d := by
  obtain ⟨y, ys, hd, hy, hys⟩ := E.head_lead d
  obtain ⟨z, zs, hz, hlead, -⟩ := E.head_lead c
  rw [hc] at hz
  obtain ⟨rfl, -⟩ := List.cons.inj hz
  rw [hd] at h
  rcases List.mem_cons.mp h with rfl | h
  · refine E.prefix_free c d ⟨ys, ?_⟩
    rw [hc, hd]
    rfl
  · exact absurd hlead (hys x h)

end Encoding

/-! ## UTF-8 -/

/-- The code point of a valid rune. -/
def runeValue : Bytes → Nat
  | [a] => a.toNat
  | [a, b] => (a.toNat - 0xC0) * 64 + (b.toNat - 0x80)
  | [a, b, c] => (a.toNat - 0xE0) * 4096 + (b.toNat - 0x80) * 64 + (c.toNat - 0x80)
  | [a, b, c, d] =>
      (a.toNat - 0xF0) * 262144 + (b.toNat - 0x80) * 4096 + (c.toNat - 0x80) * 64 + (d.toNat - 0x80)
  | _ => 0

theorem runeValue_encodeRune {r : Nat} (h : r < 0xD800 ∨ 0xDFFF < r ∧ r < 0x110000) :
    runeValue (encodeRune r) = r := by
  have hb : ∀ k < 256, (UInt8.ofNat k).toNat = k := fun k hk => by
    rw [UInt8.toNat_ofNat', Nat.mod_eq_of_lt hk]
  have h1 : ∀ a, runeValue [a] = a.toNat := fun _ => rfl
  have h2 : ∀ a b, runeValue [a, b] = (a.toNat - 0xC0) * 64 + (b.toNat - 0x80) := fun _ _ => rfl
  have h3 : ∀ a b c, runeValue [a, b, c] =
    (a.toNat - 0xE0) * 4096 + (b.toNat - 0x80) * 64 + (c.toNat - 0x80) := fun _ _ _ => rfl
  have h4 : ∀ a b c d, runeValue [a, b, c, d] = (a.toNat - 0xF0) * 262144 +
    (b.toNat - 0x80) * 4096 + (c.toNat - 0x80) * 64 + (d.toNat - 0x80) := fun _ _ _ _ => rfl
  unfold encodeRune
  split_ifs with hr1 hr2 hr3 hr4 hr5
  · rw [h1, hb r (by omega)]
  · rw [h2, hb _ (by omega), hb _ (by omega)]
    omega
  · omega
  · rw [h3, hb _ (by omega), hb _ (by omega), hb _ (by omega)]
    omega
  · rw [h4, hb _ (by omega), hb _ (by omega), hb _ (by omega), hb _ (by omega)]
    omega
  · omega

/-- A character is a code point that is no surrogate. -/
theorem char_scalar (c : Char) : c.toNat < 0xD800 ∨ 0xDFFF < c.toNat ∧ c.toNat < 0x110000 := c.valid

theorem not_isCont_of_lt {b : UInt8} (h : b.toNat < 0x80) : isCont b = false := by
  rw [isCont, decide_eq_false (by omega), Bool.false_and]

theorem not_isCont_of_gt {b : UInt8} (h : 0xC0 ≤ b.toNat) : isCont b = false := by
  rw [isCont, decide_eq_false (p := b.toNat ≤ 0xBF) (by omega), Bool.and_false]

theorem isCont_second3 {n : Nat} {b : UInt8} (h : second3 n b = true) : isCont b = true := by
  unfold second3 at h
  unfold isCont
  rw [Bool.and_eq_true, decide_eq_true_eq, decide_eq_true_eq] at h ⊢
  split_ifs at h <;> omega

theorem isCont_second4 {n : Nat} {b : UInt8} (h : second4 n b = true) : isCont b = true := by
  unfold second4 at h
  unfold isCont
  rw [Bool.and_eq_true, decide_eq_true_eq, decide_eq_true_eq] at h ⊢
  split_ifs at h <;> omega

/-- Only the first byte of a rune is no continuation byte. -/
theorem isRune_head {r : Bytes} (h : IsRune r) :
    ∃ x xs, r = x :: xs ∧ isCont x = false ∧ ∀ y ∈ xs, isCont y = true := by
  rcases isRune_cases h with ⟨a, rfl, ha⟩ | ⟨a, b, rfl, ha, -, hb⟩ | ⟨a, b, c, rfl, ha, -, hb, hc⟩ |
    ⟨a, b, c, d, rfl, ha, -, hb, hc, hd⟩
  · exact ⟨a, [], rfl, not_isCont_of_lt ha, nofun⟩
  · exact ⟨a, [b], rfl, not_isCont_of_gt (by omega), by simp [hb]⟩
  · exact ⟨a, [b, c], rfl, not_isCont_of_gt (by omega), by simp [isCont_second3 hb, hc]⟩
  · exact ⟨a, [b, c, d], rfl, not_isCont_of_gt (by omega), by simp [isCont_second4 hb, hc, hd]⟩

def utf8Encoding : Encoding UInt8 where
  enc c := encodeRune c.toNat
  lead b := isCont b = false
  head_lead c := by
    obtain ⟨x, xs, h, hx, hxs⟩ := isRune_head (isRune_encodeRune c.toNat)
    exact ⟨x, xs, h, hx, fun y hy => by rw [hxs y hy]; exact Bool.true_eq_false.mp.mt id⟩
  prefix_free c d := by
    rintro ⟨t, ht⟩
    have hc := runeLen_append (isRune_encodeRune c.toNat) t
    rw [ht, (isRune_encodeRune d.toNat).2, ← ht, List.length_append] at hc
    have htnil : t = [] := List.eq_nil_of_length_eq_zero (by omega)
    rw [htnil, List.append_nil] at ht
    have hval := congrArg runeValue ht
    rw [runeValue_encodeRune (char_scalar c), runeValue_encodeRune (char_scalar d)] at hval
    exact Char.toNat_inj.mp hval

/-- The UTF-8 bytes of a text. -/
def utf8 (s : List Char) : Bytes := utf8Encoding.encode s

/-! ## UTF-16 -/

/-- The code units of a character: one, or a surrogate pair. -/
def utf16Char (c : Char) : List UInt16 :=
  if c.toNat < 0x10000 then [UInt16.ofNat c.toNat]
  else [UInt16.ofNat (0xD800 + (c.toNat - 0x10000) / 1024),
    UInt16.ofNat (0xDC00 + (c.toNat - 0x10000) % 1024)]

/-- The second unit of a surrogate pair. -/
def isLow (u : UInt16) : Bool := 0xDC00 ≤ u.toNat && u.toNat ≤ 0xDFFF

theorem utf16_cases (c : Char) :
    (∃ a, utf16Char c = [a] ∧ a.toNat = c.toNat ∧ (a.toNat < 0xD800 ∨ 0xDFFF < a.toNat)) ∨
    (∃ a b, utf16Char c = [a, b] ∧ 0xD800 ≤ a.toNat ∧ a.toNat ≤ 0xDBFF ∧ 0xDC00 ≤ b.toNat ∧
      b.toNat ≤ 0xDFFF ∧ c.toNat = 0x10000 + (a.toNat - 0xD800) * 1024 + (b.toNat - 0xDC00)) := by
  have hu : ∀ k < 65536, (UInt16.ofNat k).toNat = k := fun k hk => by
    rw [UInt16.toNat_ofNat', Nat.mod_eq_of_lt hk]
  have hc := char_scalar c
  unfold utf16Char
  split_ifs with h
  · have ha := hu c.toNat h
    exact Or.inl ⟨_, rfl, ha, by rw [ha]; omega⟩
  · have ha := hu (0xD800 + (c.toNat - 0x10000) / 1024) (by omega)
    have hb := hu (0xDC00 + (c.toNat - 0x10000) % 1024) (by omega)
    exact Or.inr ⟨_, _, rfl, by rw [ha]; omega, by rw [ha]; omega, by rw [hb]; omega,
      by rw [hb]; omega, by rw [ha, hb]; omega⟩

def utf16Encoding : Encoding UInt16 where
  enc := utf16Char
  lead u := isLow u = false
  head_lead c := by
    have hlow : ∀ u : UInt16, isLow u = false ↔ ¬ (0xDC00 ≤ u.toNat ∧ u.toNat ≤ 0xDFFF) := by
      intro u
      rw [isLow, ← Bool.not_eq_true, Bool.and_eq_true, decide_eq_true_eq, decide_eq_true_eq]
    rcases utf16_cases c with ⟨a, ha, -, h⟩ | ⟨a, b, hab, h1, h2, h3, h4, -⟩
    · exact ⟨a, [], ha, (hlow a).mpr (by omega), nofun⟩
    · refine ⟨a, [b], hab, (hlow a).mpr (by omega), fun y hy => ?_⟩
      rw [List.mem_singleton.mp hy, hlow]
      omega
  prefix_free c d := by
    rintro ⟨t, ht⟩
    rcases utf16_cases c with ⟨a, ha, hca, h⟩ | ⟨a, b, hab, h1, h2, h3, h4, hc⟩ <;>
      rcases utf16_cases d with ⟨a', ha', hda, h'⟩ | ⟨a', b', hab', h1', h2', h3', h4', hd⟩
    · rw [ha, ha'] at ht
      obtain ⟨rfl, -⟩ := List.cons.inj ht
      exact Char.toNat_inj.mp (hca ▸ hda)
    · rw [ha, hab'] at ht
      obtain ⟨rfl, -⟩ := List.cons.inj ht
      omega
    · rw [hab, ha'] at ht
      exact absurd (congrArg List.length ht) (by simp)
    · rw [hab, hab'] at ht
      obtain ⟨rfl, htail⟩ := List.cons.inj ht
      obtain ⟨rfl, -⟩ := List.cons.inj htail
      exact Char.toNat_inj.mp (by omega)

/-- The UTF-16 code units of a text. -/
def utf16 (s : List Char) : List UInt16 := utf16Encoding.encode s

end Tuck.Base
