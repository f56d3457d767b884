/-
  Base64 as `encoding/base64` has it: the URL alphabet without padding
  (`RawURLEncoding`) and the standard alphabet with padding (`StdEncoding`). Decoding
  skips carriage returns and line feeds and ignores the unused low bits of a last
  group, as the non-strict decoders do. `rawURLDecode_encode` and `stdDecode_encode`
  are the round trips; `rawURLEncode_ne` turns a failed re-encoding into "no byte
  string encodes to this text".
-/
import Tuck.Base.Bytes

namespace Tuck.Base

open List UInt8

/-- The two characters in which the alphabets differ: the digits 62 and 63. -/
structure Alphabet where
  c62 : UInt8
  c63 : UInt8

def urlAlphabet : Alphabet := ⟨45, 95⟩

def stdAlphabet : Alphabet := ⟨43, 47⟩

/-- The character of a 6-bit digit. -/
def encSextet (al : Alphabet) (n : Nat) : UInt8 :=
  if n < 26 then UInt8.ofNat (65 + n)
  else if n < 52 then UInt8.ofNat (71 + n)
  else if n < 62 then UInt8.ofNat (n - 4)
  else if n = 62 then al.c62 else al.c63

/-- The 6-bit digit of a character. -/
def decSextet (al : Alphabet) (c : UInt8) : Option Nat :=
  if c = al.c62 then some 62
  else if c = al.c63 then some 63
  else if 65 ≤ c.toNat ∧ c.toNat ≤ 90 then some (c.toNat - 65)
  else if 97 ≤ c.toNat ∧ c.toNat ≤ 122 then some (c.toNat - 71)
  else if 48 ≤ c.toNat ∧ c.toNat ≤ 57 then some (c.toNat + 4)
  else none

/-- The digits of a group of three bytes. -/
def quad (al : Alphabet) (a b c : UInt8) : Bytes :=
  [encSextet al (a.toNat / 4), encSextet al (a.toNat % 4 * 16 + b.toNat / 16),
    encSextet al (b.toNat % 16 * 4 + c.toNat / 64), encSextet al (c.toNat % 64)]

/-- Encoding with `pad` as the padding character, `none` for no padding. -/
def encode64 (al : Alphabet) (pad : Option UInt8) : Bytes → Bytes
  | [] => []
  | [a] => [encSextet al (a.toNat / 4), encSextet al (a.toNat % 4 * 16)] ++
      (pad.toList ++ pad.toList)
  | [a, b] => [encSextet al (a.toNat / 4), encSextet al (a.toNat % 4 * 16 + b.toNat / 16),
      encSextet al (b.toNat % 16 * 4)] ++ pad.toList
  | a :: b :: c :: rest => quad al a b c ++ encode64 al pad rest

/-- Decoding of a text without padding. -/
def decodeRaw (al : Alphabet) : Bytes → Option Bytes
  | [] => some []
  | [_] => none
  | [a, b] => do
      let x ← decSextet al a
      let y ← decSextet al b
      some [UInt8.ofNat (x * 4 + y / 16)]
  | [a, b, c] => do
      let x ← decSextet al a
      let y ← decSextet al b
      let z ← decSextet al c
      some [UInt8.ofNat (x * 4 + y / 16), UInt8.ofNat (y % 16 * 16 + z / 4)]
  | a :: b :: c :: d :: rest => do
      let x ← decSextet al a
      let y ← decSextet al b
      let z ← decSextet al c
      let w ← decSextet al d
      let r ← decodeRaw al rest
      some (UInt8.ofNat (x * 4 + y / 16) :: UInt8.ofNat (y % 16 * 16 + z / 4) ::
        UInt8.ofNat (z % 4 * 64 + w) :: r)

/-- Decoding of a text whose last group is padded with `=` to four characters. -/
def decodePadded (al : Alphabet) : Bytes → Option Bytes
  | [] => some []
  | [a, b, c, d] =>
      if d = 61 then if c = 61 then decodeRaw al [a, b] else decodeRaw al [a, b, c]
      else decodeRaw al [a, b, c, d]
  | a :: b :: c :: d :: rest => do
      let q ← decodeRaw al [a, b, c, d]
      let r ← decodePadded al rest
      some (q ++ r)
  | _ => none

/-- Carriage returns and line feeds are skipped by the decoders. -/
def stripNewlines (s : Bytes) : Bytes := s.filter fun b => b ≠ 10 && b ≠ 13

/-- `base64.RawURLEncoding.EncodeToString`. -/
def rawURLEncode (s : Bytes) : Bytes := encode64 urlAlphabet none s

/-- `base64.RawURLEncoding.DecodeString`. -/
def rawURLDecode (s : Bytes) : Option Bytes := decodeRaw urlAlphabet (stripNewlines s)

/-- `base64.StdEncoding.EncodeToString`. -/
def stdEncode (s : Bytes) : Bytes := encode64 stdAlphabet (some 61) s

/-- `base64.StdEncoding.DecodeString`. -/
def stdDecode (s : Bytes) : Option Bytes := decodePadded stdAlphabet (stripNewlines s)

/-! ## Digits -/

/-- The two extra characters are neither letters, digits nor each other, and no character of
    the alphabet is a newline or the padding. -/
structure Alphabet.Ok (al : Alphabet) : Prop where
  digits : ∀ n < 64, decSextet al (encSextet al n) = some n
  plain : ∀ n < 64, encSextet al n ≠ 10 ∧ encSextet al n ≠ 13 ∧ encSextet al n ≠ 61

theorem urlAlphabet_ok : urlAlphabet.Ok := ⟨by decide, by decide⟩

theorem stdAlphabet_ok : stdAlphabet.Ok := ⟨by decide, by decide⟩

variable {al : Alphabet}

theorem ofNat_eq {n : Nat} {a : UInt8} (h : n = a.toNat) : UInt8.ofNat n = a := by
  rw [h, UInt8.ofNat_toNat]

theorem decode_quad (h : al.Ok) (a b c : UInt8) (rest : Bytes) :
    decodeRaw al (quad al a b c ++ rest) = (decodeRaw al rest).map fun r => a :: b :: c :: r := by
  have ha := UInt8.toNat_lt a
  have hb := UInt8.toNat_lt b
  have hc := UInt8.toNat_lt c
  have ea : UInt8.ofNat (a.toNat / 4 * 4 + (a.toNat % 4 * 16 + b.toNat / 16) / 16) = a :=
    ofNat_eq (by omega)
  have eb : UInt8.ofNat ((a.toNat % 4 * 16 + b.toNat / 16) % 16 * 16 +
      (b.toNat % 16 * 4 + c.toNat / 64) / 4) = b := ofNat_eq (by omega)
  have ec : UInt8.ofNat ((b.toNat % 16 * 4 + c.toNat / 64) % 4 * 64 + c.toNat % 64) = c :=
    ofNat_eq (by omega)
  unfold quad
  simp only [cons_append, nil_append, decodeRaw]
  rw [h.digits _ (by omega), h.digits _ (by omega), h.digits _ (by omega), h.digits _ (by omega)]
  simp only [Option.bind_eq_bind, Option.bind_some, ea, eb, ec]
  cases decodeRaw al rest <;> rfl

theorem decode_two (h : al.Ok) (a b : UInt8) :
    decodeRaw al [encSextet al (a.toNat / 4), encSextet al (a.toNat % 4 * 16 + b.toNat / 16),
      encSextet al (b.toNat % 16 * 4)] = some [a, b] := by
  have ha := UInt8.toNat_lt a
  have hb := UInt8.toNat_lt b
  simp only [decodeRaw]
  rw [h.digits _ (by omega), h.digits _ (by omega), h.digits _ (by omega)]
  simp only [Option.bind_eq_bind, Option.bind_some]
  rw [show a.toNat / 4 * 4 + (a.toNat % 4 * 16 + b.toNat / 16) / 16 = a.toNat by omega,
    show (a.toNat % 4 * 16 + b.toNat / 16) % 16 * 16 + b.toNat % 16 * 4 / 4 = b.toNat by omega,
    UInt8.ofNat_toNat, UInt8.ofNat_toNat]

theorem decode_one (h : al.Ok) (a : UInt8) :
    decodeRaw al [encSextet al (a.toNat / 4), encSextet al (a.toNat % 4 * 16)] = some [a] := by
  have ha := UInt8.toNat_lt a
  simp only [decodeRaw]
  rw [h.digits _ (by omega), h.digits _ (by omega)]
  simp only [Option.bind_eq_bind, Option.bind_some]
  rw [show a.toNat / 4 * 4 + a.toNat % 4 * 16 / 16 = a.toNat by omega, UInt8.ofNat_toNat]

/-! ## Round trips -/

theorem decodeRaw_encode64 (h : al.Ok) :
    ∀ s : Bytes, decodeRaw al (encode64 al none s) = some s
  | [] => rfl
  | [a] => decode_one h a
  | [a, b] => decode_two h a b
  | a :: b :: c :: rest => by
      rw [encode64, decode_quad h, decodeRaw_encode64 h rest]
      rfl

variable {s : Bytes} {pad : Option UInt8}

theorem encode64_length_pos (hs : s ≠ []) :
    encode64 al pad s ≠ [] := by
  unfold encode64
  split <;> simp_all [quad]

theorem decodePadded_quad (h : al.Ok) (a b c : UInt8) (rest : Bytes) :
    decodePadded al (quad al a b c ++ rest) =
      (decodePadded al rest).map fun r => a :: b :: c :: r := by
  have hq := decode_quad h a b c []
  have hw := (h.plain (c.toNat % 64) (by omega)).2.2
  rw [append_nil] at hq
  cases rest with
  | nil =>
    rw [append_nil]
    unfold quad at hq ⊢
    simp only [decodePadded, if_neg hw, hq]
    rfl
  | cons r rest =>
    have hstep : decodePadded al (quad al a b c ++ (r :: rest)) =
        ((decodeRaw al (quad al a b c)).bind fun q =>
          (decodePadded al (r :: rest)).bind fun t => some (q ++ t)) := by
      unfold quad
      simp only [cons_append, nil_append, decodePadded]
      rfl
    rw [hstep, hq]
    cases decodePadded al (r :: rest) <;> rfl

theorem decodePadded_encode64 (h : al.Ok) :
    ∀ s : Bytes, decodePadded al (encode64 al (some 61) s) = some s
  | [] => rfl
  | [a] => by
      show decodePadded al [_, _, 61, 61] = some [a]
      rw [decodePadded, if_pos rfl, if_pos rfl]
      exact decode_one h a
  | [a, b] => by
      have hb := toNat_lt b
      show decodePadded al [_, _, encSextet al (b.toNat % 16 * 4), 61] = some [a, b]
      rw [decodePadded, if_pos rfl, if_neg (h.plain _ (by omega)).2.2]
      exact decode_two h a b
  | a :: b :: c :: rest => by
      rw [encode64, decodePadded_quad h, decodePadded_encode64 h rest]
      rfl

/-- Every character of an encoding is a digit of the alphabet or the padding. -/
theorem mem_encode64 :
    ∀ {s : Bytes} {ch : UInt8}, ch ∈ encode64 al pad s →
      (∃ n < 64, ch = encSextet al n) ∨ some ch = pad
  | [], ch, h => by simp [encode64] at h
  | [a], ch, h => by
      have ha := toNat_lt a
      simp only [encode64, mem_append, mem_cons, not_mem_nil, or_false,
        Option.mem_toList, or_self] at h
      rcases h with (h | h) | h
      · exact Or.inl ⟨_, by omega, h⟩
      · exact Or.inl ⟨_, by omega, h⟩
      · exact Or.inr h.symm
  | [a, b], ch, h => by
      have ha := toNat_lt a
      have hb := toNat_lt b
      simp only [encode64, mem_append, mem_cons, not_mem_nil, or_false,
        Option.mem_toList] at h
      rcases h with (h | h | h) | h
      · exact Or.inl ⟨_, by omega, h⟩
      · exact Or.inl ⟨_, by omega, h⟩
      · exact Or.inl ⟨_, by omega, h⟩
      · exact Or.inr h.symm
  | a :: b :: c :: rest, ch, h => by
      have ha := toNat_lt a
      have hb := toNat_lt b
      have hc := toNat_lt c
      simp only [encode64, quad, mem_append, mem_cons, not_mem_nil, or_false] at h
      rcases h with (h | h | h | h) | h
      · exact Or.inl ⟨_, by omega, h⟩
      · exact Or.inl ⟨_, by omega, h⟩
      · exact Or.inl ⟨_, by omega, h⟩
      · exact Or.inl ⟨_, by omega, h⟩
      · exact mem_encode64 h

theorem stripNewlines_encode64 (h : al.Ok)
    (hp : pad = none ∨ pad = some 61) (s : Bytes) :
    stripNewlines (encode64 al pad s) = encode64 al pad s := by
  unfold stripNewlines
  rw [filter_eq_self]
  intro ch hch
  rcases mem_encode64 hch with ⟨n, hn, rfl⟩ | hpad
  · simp [(h.plain n hn).1, (h.plain n hn).2.1]
  · rcases hp with hp | hp
    · rw [hp] at hpad; cases hpad
    · rw [hp] at hpad; cases hpad; decide

theorem rawURLDecode_encode (s : Bytes) : rawURLDecode (rawURLEncode s) = some s := by
  unfold rawURLDecode rawURLEncode
  rw [stripNewlines_encode64 urlAlphabet_ok (Or.inl rfl), decodeRaw_encode64 urlAlphabet_ok]

theorem stdDecode_encode (s : Bytes) : stdDecode (stdEncode s) = some s := by
  unfold stdDecode stdEncode
  rw [stripNewlines_encode64 stdAlphabet_ok (Or.inr rfl), decodePadded_encode64 stdAlphabet_ok]

theorem rawURLEncode_injective : Function.Injective rawURLEncode := by
  intro a b h
  have := rawURLDecode_encode a
  rw [h, rawURLDecode_encode b] at this
  exact (Option.some.inj this).symm

theorem rawURLEncode_ne_nil (hs : s ≠ []) : rawURLEncode s ≠ [] :=
  encode64_length_pos hs

/-- A text that does not survive decoding and re-encoding is no encoding. -/
theorem rawURLEncode_ne {t : Bytes} (ht : (rawURLDecode t).map rawURLEncode ≠ some t) (s : Bytes) :
    rawURLEncode s ≠ t := by
  intro h
  apply ht
  rw [← h, rawURLDecode_encode]
  rfl

/-- The URL alphabet has no `/`. -/
theorem slash_not_mem_rawURLEncode (s : Bytes) : (47 : UInt8) ∉ rawURLEncode s := by
  have hd : ∀ n < 64, encSextet urlAlphabet n ≠ 47 := by decide
  intro h
  rcases mem_encode64 h with ⟨n, hn, he⟩ | hp
  · exact hd n hn he.symm
  · cases hp

/-- Base64 text is ASCII. -/
theorem mem_rawURLEncode_lt {b : UInt8} (h : b ∈ rawURLEncode s) : b.toNat < 0x80 := by
  have hd : ∀ n < 64, (encSextet urlAlphabet n).toNat < 0x80 := by decide
  rcases mem_encode64 h with ⟨n, hn, rfl⟩ | hp
  · exact hd n hn
  · cases hp

theorem mem_stdEncode_lt {b : UInt8} (h : b ∈ stdEncode s) : b.toNat < 0x80 := by
  have hd : ∀ n < 64, (encSextet stdAlphabet n).toNat < 0x80 := by decide
  rcases mem_encode64 h with ⟨n, hn, rfl⟩ | hp
  · exact hd n hn
  · rw [Option.some.inj hp]
    decide

end Tuck.Base
