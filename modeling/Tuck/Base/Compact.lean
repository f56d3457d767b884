/-
  How `json.Marshal` writes a value that is given as JSON text: without the white space
  between its tokens, and with `<`, `>`, `&`, U+2028 and U+2029 escaped in its strings.

  The text changes and the value does not (`parse_squeeze`). A string is read in the same
  steps from both texts; a number ends at the same byte, because what follows a value is a
  comma, a closing bracket or nothing, and no digit can be moved up to it.
-/
import Tuck.Base.Readers

namespace Tuck.Base

open List

/-! ## Compact text -/

/-- The bytes that are escaped in a string for the sake of HTML. -/
def isHtml (b : UInt8) : Bool := b == 0x3C || b == 0x3E || b == 0x26

/-- The last byte of U+2028 or U+2029, when `s` is what follows their first byte. -/
def lineSep : Bytes → Option UInt8
  | 0x80 :: c :: _ => if c = 0xA8 ∨ c = 0xA9 then some c else none
  | _ => none

/-- Where a byte of the text stands. -/
inductive Place where
  /-- Outside the strings. -/
  | value
  | str
  /-- After a backslash. -/
  | escape
  /-- The second and the third byte of a line separator that is written as its escape. -/
  | second
  | third

/-- The text of a value without its white space. -/
def squeeze : Place → Bytes → Bytes
  | _, [] => []
  | .value, b :: s =>
      if isWs b then squeeze .value s
      else if b = 0x22 then b :: squeeze .str s
      else b :: squeeze .value s
  | .str, b :: s =>
      if b = 0x22 then b :: squeeze .value s
      else if b = 0x5C then b :: squeeze .escape s
      else if isHtml b then
        ascii "\\u00" ++ hexDigit (b.toNat / 16) :: hexDigit (b.toNat % 16) :: squeeze .str s
      else if b = 0xE2 then
        match lineSep s with
        | some c => ascii "\\u202" ++ hexDigit (c.toNat % 16) :: squeeze .second s
        | none => b :: squeeze .str s
      else b :: squeeze .str s
  | .escape, b :: s => b :: squeeze .str s
  | .second, _ :: s => squeeze .third s
  | .third, _ :: s => squeeze .str s

mutual

/-- How deep arrays and objects are nested. -/
def Json.depth : Json → Nat
  | .arr xs => depthElems xs + 1
  | .obj ms => depthMembers ms + 1
  | _ => 0

def depthElems : List Json → Nat
  | [] => 0
  | x :: xs => max x.depth (depthElems xs)

def depthMembers : List (Bytes × Json) → Nat
  | [] => 0
  | (_, v) :: ms => max v.depth (depthMembers ms)

end

/-- How deep `encoding/json` follows nested arrays and objects. -/
def maxNestingDepth : Nat := 10000

/-- `compact`: the text of a value, or an error if it is not one value or nests too deep. -/
def compact (s : Bytes) : Option Bytes :=
  match Json.parse s with
  | some j => if j.depth ≤ maxNestingDepth then some (squeeze .value s) else none
  | none => none

/-- The value of a JSON text that `encoding/json` follows to the end. -/
def jsonValue (raw : Bytes) : Option Json :=
  (Json.parse raw).filter fun j => j.depth ≤ maxNestingDepth

mutual

/-- Every number of the value is in the range of float64; `num` is the text that `%v` prints of
    the number that a literal denotes. -/
def inRange (num : Bytes → Option Bytes) : Json → Bool
  | .num lit => (num lit).isSome
  | .arr xs => inRangeElems num xs
  | .obj ms => inRangeMembers num ms
  | _ => true

def inRangeElems (num : Bytes → Option Bytes) : List Json → Bool
  | [] => true
  | x :: xs => inRange num x && inRangeElems num xs

def inRangeMembers (num : Bytes → Option Bytes) : List (Bytes × Json) → Bool
  | [] => true
  | (_, v) :: ms => inRange num v && inRangeMembers num ms

end

mutual

theorem inRange_sanitize (num : Bytes → Option Bytes) :
    ∀ j : Json, inRange num j.sanitize = inRange num j
  | .null => rfl
  | .bool _ => rfl
  | .num _ => rfl
  | .str _ => rfl
  | .arr xs => inRangeElems_sanitize num xs
  | .obj ms => inRangeMembers_sanitize num ms

theorem inRangeElems_sanitize (num : Bytes → Option Bytes) :
    ∀ xs : List Json, inRangeElems num (sanitizeElems xs) = inRangeElems num xs
  | [] => rfl
  | x :: xs => congrArg₂ (· && ·) (inRange_sanitize num x) (inRangeElems_sanitize num xs)

theorem inRangeMembers_sanitize (num : Bytes → Option Bytes) : ∀ ms : List (Bytes × Json),
    inRangeMembers num (sanitizeMembers ms) = inRangeMembers num ms
  | [] => rfl
  | (_, v) :: ms => congrArg₂ (· && ·) (inRange_sanitize num v) (inRangeMembers_sanitize num ms)

end

/-- A Go map from the members of an object: the last member of a name counts. -/
def goMap {α : Type} (ms : List (Bytes × α)) : List (Bytes × α) :=
  ms.foldl (fun m e => m.filter (fun old => old.1 ≠ e.1) ++ [e]) []

theorem lookup_filter_ne {α : Type} {k k' : Bytes} (h : k ≠ k') (ms : List (Bytes × α)) :
    (ms.filter fun old => old.1 ≠ k').lookup k = ms.lookup k := by
  induction ms with
  | nil => rfl
  | cons e ms ih =>
    by_cases he : e.1 = k'
    · have hne : (k == e.1) = false := beq_eq_false_iff_ne.mpr (he ▸ h)
      rw [filter_cons_of_neg (by simpa using he), ih, lookup_cons, hne]
    · rw [filter_cons_of_pos (by simpa using he), lookup_cons, lookup_cons, ih]

theorem lookup_goMap {α : Type} (ms : List (Bytes × α)) (k : Bytes) :
    (goMap ms).lookup k = ms.reverse.lookup k := by
  induction ms using List.reverseRecOn with
  | nil => rfl
  | append_singleton ms e ih =>
    obtain ⟨k', v⟩ := e
    rw [reverse_append, goMap, foldl_append]
    change ((goMap ms).filter (fun old => old.1 ≠ k') ++ [(k', v)]).lookup k = _
    rw [lookup_append, reverse_singleton, lookup_append]
    by_cases hk : k = k'
    · have hnone : ((goMap ms).filter fun old => old.1 ≠ k').lookup k = none := by
        rw [lookup_eq_none_iff]
        intro e he
        have hne : e.1 ≠ k' := by simpa using (mem_filter.mp he).2
        exact bne_iff_ne.mpr fun h => hne (h.symm.trans hk)
      rw [hnone, hk, lookup_cons_self, Option.none_or, Option.some_or]
    · have hnone : [(k', v)].lookup k = none := by
        rw [lookup_cons, beq_eq_false_iff_ne.mpr hk, lookup_nil]
      rw [lookup_filter_ne hk, ih, hnone, Option.or_none, Option.none_or]

mutual

theorem depth_sanitize : ∀ j : Json, j.sanitize.depth = j.depth
  | .null => rfl
  | .bool _ => rfl
  | .num _ => rfl
  | .str _ => rfl
  | .arr xs => congrArg (· + 1) (depthElems_sanitize xs)
  | .obj ms => congrArg (· + 1) (depthMembers_sanitize ms)

theorem depthElems_sanitize : ∀ xs : List Json, depthElems (sanitizeElems xs) = depthElems xs
  | [] => rfl
  | x :: xs => congrArg₂ max (depth_sanitize x) (depthElems_sanitize xs)

theorem depthMembers_sanitize : ∀ ms : List (Bytes × Json),
    depthMembers (sanitizeMembers ms) = depthMembers ms
  | [] => rfl
  | (_, v) :: ms => congrArg₂ max (depth_sanitize v) (depthMembers_sanitize ms)

end

/-! ## One byte of a string -/

/-- A byte that is copied wherever it stands in a string. -/
def isPlain (b : UInt8) : Bool := b != 0x22 && b != 0x5C && !isHtml b && b != 0xE2

variable {b : UInt8}

theorem squeeze_plain (h : isPlain b = true) (s : Bytes) :
    squeeze .str (b :: s) = b :: squeeze .str s := by
  simp only [isPlain, Bool.and_eq_true, bne_iff_ne, Bool.not_eq_true'] at h
  obtain ⟨⟨⟨h1, h2⟩, h3⟩, h4⟩ := h
  rw [squeeze, if_neg h1, if_neg h2, if_neg (by simp [h3]), if_neg h4]

theorem squeeze_html (h : isHtml b = true) (s : Bytes) :
    squeeze .str (b :: s) = 0x5C :: 0x75 :: 0x30 :: 0x30 :: hexDigit (b.toNat / 16) ::
      hexDigit (b.toNat % 16) :: squeeze .str s := by
  have h1 : b ≠ 0x22 := by rintro rfl; cases h
  have h2 : b ≠ 0x5C := by rintro rfl; cases h
  rw [squeeze, if_neg h1, if_neg h2, if_pos h]
  rfl

variable {s : Bytes}

theorem lineSep_some {c : UInt8} (h : lineSep s = some c) :
    (c = 0xA8 ∨ c = 0xA9) ∧ ∃ t, s = 0x80 :: c :: t := by
  unfold lineSep at h
  split at h
  · next c' t =>
    split_ifs at h with hc
    cases h
    exact ⟨hc, t, rfl⟩
  · cases h

theorem squeeze_lineSep {c : UInt8} (h : lineSep s = some c) :
    squeeze .str (0xE2 :: s) = 0x5C :: 0x75 :: 0x32 :: 0x30 :: 0x32 ::
      hexDigit (c.toNat % 16) :: squeeze .str (s.drop 2) := by
  obtain ⟨-, t, rfl⟩ := lineSep_some h
  rw [squeeze, if_neg (by decide), if_neg (by decide), if_neg (by decide), if_pos rfl, h]
  rfl

theorem squeeze_e2 (h : lineSep s = none) :
    squeeze .str (0xE2 :: s) = 0xE2 :: squeeze .str s := by
  rw [squeeze, if_neg (by decide), if_neg (by decide), if_neg (by decide), if_pos rfl, h]

/-- The squeezed text of a byte starts with that byte, or with a backslash where the byte is
    escaped. -/
theorem squeeze_head (b : UInt8) (s : Bytes) :
    ∃ c t, squeeze .str (b :: s) = c :: t ∧ (c = b ∨ c = 0x5C) := by
  unfold squeeze
  split_ifs with h1 h2 h3 h4
  · exact ⟨_, _, rfl, Or.inl rfl⟩
  · exact ⟨_, _, rfl, Or.inl rfl⟩
  · exact ⟨_, _, rfl, Or.inr rfl⟩
  · split
    · exact ⟨_, _, rfl, Or.inr rfl⟩
    · exact ⟨_, _, rfl, Or.inl rfl⟩
  · exact ⟨_, _, rfl, Or.inl rfl⟩

/-! ## Escapes -/

theorem isPlain_of_hexVal {v : Nat} (h : hexVal b = some v) : isPlain b = true := by
  by_contra hp
  simp only [isPlain, isHtml, Bool.and_eq_true, bne_iff_ne, Bool.not_eq_true', Bool.or_eq_false_iff,
    beq_eq_false_iff_ne, not_and_or, not_not] at hp
  rcases hp with ((rfl | rfl) | (rfl | rfl) | rfl) | rfl <;> simp [hexVal] at h

/-- `k` hex digits, after digits of value `v`. -/
def hexes : Nat → Nat → Bytes → Option (Nat × Bytes)
  | 0, v, s => some (v, s)
  | _ + 1, _, [] => none
  | k + 1, v, b :: s =>
      match hexVal b with
      | some d => hexes k (v * 16 + d) s
      | none => none

theorem hex4_eq_hexes (s : Bytes) : hex4 s = hexes 4 0 s := by
  match s with
  | [] => rfl
  | [a] => cases ha : hexVal a <;> simp [hex4, hexes, ha]
  | [a, b] => cases ha : hexVal a <;> cases hb : hexVal b <;> simp [hex4, hexes, ha, hb]
  | [a, b, c] =>
    cases ha : hexVal a <;> cases hb : hexVal b <;> cases hc : hexVal c <;>
      simp [hex4, hexes, ha, hb, hc]
  | a :: b :: c :: d :: t =>
    cases ha : hexVal a <;> cases hb : hexVal b <;> cases hc : hexVal c <;> cases hd : hexVal d <;>
      simp [hex4, hexes, ha, hb, hc, hd]

theorem hexes_squeeze (k v : Nat) (s : Bytes) :
    hexes k v (squeeze .str s) = (hexes k v s).map fun r => (r.1, squeeze .str r.2) := by
  induction k generalizing v s with
  | zero => rfl
  | succ k ih =>
    cases s with
    | nil => rfl
    | cons b s =>
      cases hb : hexVal b with
      | some d =>
        rw [squeeze_plain (isPlain_of_hexVal hb)]
        simp only [hexes, hb, ih]
      | none =>
        obtain ⟨c, t, heq, hc⟩ := squeeze_head b s
        have hc' : hexVal c = none := by
          rcases hc with rfl | rfl
          · exact hb
          · rfl
        simp only [heq, hexes, hb, hc', Option.map_none]

theorem hex4_squeeze (s : Bytes) :
    hex4 (squeeze .str s) = (hex4 s).map fun r => (r.1, squeeze .str r.2) := by
  rw [hex4_eq_hexes, hex4_eq_hexes, hexes_squeeze]

variable {t : Bytes} {r : Nat}

theorem lowSurrogate_u {r2 : Nat} (h : hex4 s = some (r2, t)) :
    lowSurrogate r (0x5C :: 0x75 :: s) =
      if r < 0xDC00 ∧ 0xDC00 ≤ r2 ∧ r2 ≤ 0xDFFF then
        some ((r - 0xD800) * 1024 + (r2 - 0xDC00) + 0x10000, t)
      else none := by
  simp only [lowSurrogate, h]

theorem lowSurrogate_of_ne (h : b ≠ 0x5C) (r : Nat) (s : Bytes) :
    lowSurrogate r (b :: s) = none := by
  unfold lowSurrogate
  split
  · next heq => exact absurd (List.cons.inj heq).1 h
  · rfl

theorem hex4_2028 (c : UInt8) (hc : c = 0xA8 ∨ c = 0xA9) (t : Bytes) :
    ∃ r, hex4 (0x32 :: 0x30 :: 0x32 :: hexDigit (c.toNat % 16) :: t) = some (r, t) ∧
      encodeRune r = [0xE2, 0x80, c] ∧ r < 0xD800 := by
  rcases hc with rfl | rfl
  · exact ⟨0x2028, rfl, rfl, by decide⟩
  · exact ⟨0x2029, rfl, rfl, by decide⟩

/-- Escaping a byte does not complete a surrogate pair. -/
theorem lowSurrogate_squeeze (r : Nat) (s : Bytes) :
    lowSurrogate r (squeeze .str s) =
      (lowSurrogate r s).map fun p => (p.1, squeeze .str p.2) := by
  cases s with
  | nil => rfl
  | cons b s =>
    by_cases h5 : b = 0x5C
    · subst h5
      cases s with
      | nil => rfl
      | cons c s =>
        show lowSurrogate r (0x5C :: c :: squeeze .str s) = _
        by_cases hc : c = 0x75
        · subst hc
          simp only [lowSurrogate, hex4_squeeze]
          cases hex4 s with
          | none => rfl
          | some p =>
            simp only [Option.map_some]
            split_ifs <;> rfl
        · have hne : ∀ t, lowSurrogate r (0x5C :: c :: t) = none := by
            intro t
            unfold lowSurrogate
            split
            · next heq => exact absurd (List.cons.inj (List.cons.inj heq).2).1 hc
            · rfl
          rw [hne, hne, Option.map_none]
    · rw [lowSurrogate_of_ne h5, Option.map_none]
      by_cases h1 : isHtml b = true
      · rw [squeeze_html h1, lowSurrogate_u (hex4_small (b.toNat_lt) _),
          if_neg (by have := b.toNat_lt; omega)]
      · by_cases h2 : b = 0xE2
        · subst h2
          cases hs : lineSep s with
          | some c =>
            obtain ⟨r2, hr2, -, hlt⟩ := hex4_2028 c (lineSep_some hs).1 (squeeze .str (s.drop 2))
            rw [squeeze_lineSep hs, lowSurrogate_u hr2, if_neg (by omega)]
          | none => rw [squeeze_e2 hs, lowSurrogate_of_ne (by decide)]
        · obtain ⟨c, t, heq, rfl | rfl⟩ := squeeze_head b s
          · rw [heq, lowSurrogate_of_ne h5]
          · -- only the bytes above are escaped
            unfold squeeze at heq
            rw [if_neg h5, if_neg h1, if_neg h2] at heq
            split_ifs at heq with h3
            · exact absurd (List.cons.inj heq).1 (h3 ▸ by decide)
            · exact absurd (List.cons.inj heq).1 h5

/-- An escape sequence stands for the same bytes in the squeezed text. -/
theorem unescape_squeeze {bs : Bytes} (h : unescape s = some (bs, t)) :
    unescape (squeeze .escape s) = some (bs, squeeze .str t) := by
  cases s with
  | nil => cases h
  | cons b s =>
    show unescape (b :: squeeze .str s) = _
    by_cases hb : b = 0x75
    · subst hb
      simp only [unescape, hex4_squeeze] at h ⊢
      cases hx : hex4 s with
      | none => rw [hx] at h; cases h
      | some p =>
        rw [hx] at h
        simp only [Option.map_some, lowSurrogate_squeeze] at h ⊢
        split_ifs at h ⊢ with hsur
        · cases hl : lowSurrogate p.1 p.2 with
          | none => rw [hl] at h; cases h; rfl
          | some q => rw [hl] at h; cases h; rfl
        · cases h; rfl
    · unfold unescape at h ⊢
      split at h
      · next heq => exact absurd (List.cons.inj heq).1 hb
      · next b' s' _ heq =>
        obtain ⟨rfl, rfl⟩ := List.cons.inj heq
        split_ifs at h ⊢ <;> cases h <;> rfl
      · cases h

/-! ## Runes -/

theorem isPlain_of_isCont (h : isCont b = true) : isPlain b = true := by
  by_contra hp
  simp only [isPlain, isHtml, Bool.and_eq_true, bne_iff_ne, Bool.not_eq_true', Bool.or_eq_false_iff,
    beq_eq_false_iff_ne, not_and_or, not_not] at hp
  rcases hp with ((rfl | rfl) | (rfl | rfl) | rfl) | rfl <;> exact absurd h (by decide)

theorem takeWhile_squeeze (s : Bytes) :
    (squeeze .str s).takeWhile isCont = s.takeWhile isCont := by
  induction s with
  | nil => rfl
  | cons b s ih =>
    by_cases hb : isCont b = true
    · rw [squeeze_plain (isPlain_of_isCont hb), takeWhile_cons_of_pos hb,
        takeWhile_cons_of_pos hb, ih]
    · obtain ⟨c, t, heq, hc⟩ := squeeze_head b s
      have hc' : ¬ isCont c = true := by
        rcases hc with rfl | rfl
        · exact hb
        · decide
      rw [heq, takeWhile_cons_of_neg hb, takeWhile_cons_of_neg hc']

variable {n : Nat}

theorem isCont_of_second3 (h : second3 n b = true) : isCont b = true := by
  simp only [second3, isCont, Bool.and_eq_true, decide_eq_true_eq] at h ⊢
  split_ifs at h <;> omega

theorem isCont_of_second4 (h : second4 n b = true) : isCont b = true := by
  simp only [second4, isCont, Bool.and_eq_true, decide_eq_true_eq] at h ⊢
  split_ifs at h <;> omega

/-- The width of a rune depends on the continuation bytes after its first byte only. -/
theorem runeLen_takeWhile (a : UInt8) (s : Bytes) :
    runeLen (a :: s.takeWhile isCont) = runeLen (a :: s) := by
  cases s with
  | nil => rfl
  | cons b s =>
    by_cases hb : isCont b = true
    · rw [takeWhile_cons_of_pos hb]
      cases s with
      | nil => rfl
      | cons c s =>
        by_cases hc : isCont c = true
        · rw [takeWhile_cons_of_pos hc]
          cases s with
          | nil => rfl
          | cons d s =>
            by_cases hd : isCont d = true
            · rw [takeWhile_cons_of_pos hd]
              simp [runeLen]
            · rw [takeWhile_cons_of_neg hd]
              simp [runeLen, hd]
        · rw [takeWhile_cons_of_neg hc]
          cases s <;> simp [runeLen, hc]
    · have h3 : ¬ second3 a.toNat b = true := fun h => hb (isCont_of_second3 h)
      have h4 : ¬ second4 a.toNat b = true := fun h => hb (isCont_of_second4 h)
      rw [takeWhile_cons_of_neg hb]
      rcases s with _ | ⟨c, _ | ⟨d, s⟩⟩ <;> simp [runeLen, hb, h3, h4]

theorem runeLen_squeeze (a : UInt8) (s : Bytes) :
    runeLen (a :: squeeze .str s) = runeLen (a :: s) := by
  rw [← runeLen_takeWhile, takeWhile_squeeze, runeLen_takeWhile]

theorem isPlain_of (h1 : b ≠ 0x22) (h2 : b ≠ 0x5C) (h3 : isHtml b = false)
    (h4 : b ≠ 0xE2) : isPlain b = true := by
  simp [isPlain, h1, h2, h3, h4]

theorem isPlain_of_toNat (h : 0x80 ≤ b.toNat) (h4 : b ≠ 0xE2) : isPlain b = true := by
  refine isPlain_of (ne_of_le h (by decide)) (ne_of_le h (by decide)) ?_ h4
  simp [isHtml, ne_of_le h (c := 0x3C) (by decide), ne_of_le h (c := 0x3E) (by decide),
    ne_of_le h (c := 0x26) (by decide)]

/-- A rune of a string is copied or escaped, and stands for itself in both forms. -/
theorem StrText.squeeze_rune {r u rest : Bytes} (hr : Bare r)
    (h : StrText (squeeze .str t) u rest) : StrText (squeeze .str (r ++ t)) (r ++ u) rest := by
  have hcopy : squeeze .str (r ++ t) = r ++ squeeze .str t →
      StrText (squeeze .str (r ++ t)) (r ++ u) rest := fun heq => heq ▸ .rune hr h
  rcases isRune_cases hr.1 with ⟨a, rfl, ha⟩ | ⟨a, b, rfl, h1, h2, hb⟩ |
    ⟨a, b, c, rfl, h1, h2, hb, hc⟩ | ⟨a, b, c, d, rfl, h1, h2, hb, hc, hd⟩
  · by_cases hh : isHtml a = true
    · have hs : isSurrogate a.toNat = false := by simp [isSurrogate]; omega
      have hu := unescape_u (hex4_small (by omega : a.toNat < 256) (squeeze .str t)) hs
      rw [encodeRune, if_pos ha, UInt8.ofNat_toNat] at hu
      rw [singleton_append, squeeze_html hh]
      exact .escape hu h
    · obtain ⟨hq, hbs, -⟩ := hr.2 a [] rfl
      have hne : a ≠ 0xE2 := by rintro rfl; exact absurd ha (by decide)
      exact hcopy (squeeze_plain (isPlain_of hq hbs (by simpa using hh) hne) t)
  · have hne : a ≠ 0xE2 := by rintro rfl; exact absurd h2 (by decide)
    apply hcopy
    show squeeze .str (a :: b :: t) = _
    rw [squeeze_plain (isPlain_of_toNat (by omega) hne), squeeze_plain (isPlain_of_isCont hb)]
    rfl
  · have hbc : squeeze .str (b :: c :: t) = b :: c :: squeeze .str t := by
      rw [squeeze_plain (isPlain_of_isCont (isCont_of_second3 hb)),
        squeeze_plain (isPlain_of_isCont hc)]
    by_cases hne : a = 0xE2
    · subst hne
      cases hs : lineSep (b :: c :: t) with
      | none =>
        apply hcopy
        show squeeze .str (0xE2 :: b :: c :: t) = _
        rw [squeeze_e2 hs, hbc]
        rfl
      | some c' =>
        obtain ⟨hc', t', heq⟩ := lineSep_some hs
        obtain ⟨rfl, heq'⟩ := List.cons.inj heq
        obtain ⟨rfl, -⟩ := List.cons.inj heq'
        obtain ⟨r, hr, henc, hlt⟩ := hex4_2028 c hc' (squeeze .str t)
        have hsur : isSurrogate r = false := by simp [isSurrogate]; omega
        show StrText (squeeze .str (0xE2 :: 0x80 :: c :: t)) _ _
        rw [← henc, squeeze_lineSep hs]
        exact .escape (unescape_u hr hsur) h
    · apply hcopy
      show squeeze .str (a :: b :: c :: t) = _
      rw [squeeze_plain (isPlain_of_toNat (by omega) hne), hbc]
      rfl
  · have hne : a ≠ 0xE2 := by rintro rfl; exact absurd h1 (by decide)
    apply hcopy
    show squeeze .str (a :: b :: c :: d :: t) = _
    rw [squeeze_plain (isPlain_of_toNat (by omega) hne),
      squeeze_plain (isPlain_of_isCont (isCont_of_second4 hb)),
      squeeze_plain (isPlain_of_isCont hc), squeeze_plain (isPlain_of_isCont hd)]
    rfl

/-- A byte that starts no rune is copied. -/
theorem squeeze_bad (h : runeLen (b :: s) = 0) :
    squeeze .str (b :: s) = b :: squeeze .str s := by
  by_cases hne : b = 0xE2
  · subst hne
    cases hs : lineSep s with
    | none => exact squeeze_e2 hs
    | some c =>
      obtain ⟨rfl | rfl, t, rfl⟩ := lineSep_some hs <;> cases h
  · exact squeeze_plain (isPlain_of_toNat (le_of_runeLen h) hne) s

/-- A string is read from the squeezed text as from the text itself. -/
theorem StrText.squeezed {u : Bytes} (h : StrText s u t) :
    StrText (squeeze .str s) u (squeeze .value t) := by
  induction h with
  | close rest => exact .close _
  | escape h _ ih => exact .escape (unescape_squeeze h) ih
  | rune h _ ih => exact ih.squeeze_rune h
  | bad h _ ih =>
    rw [squeeze_bad h]
    exact .bad (by rw [runeLen_squeeze, h]) ih

/-! ## Values -/

theorem squeeze_word {w : Bytes} (h : ∀ b ∈ w, isWordByte b = true) (rest : Bytes) :
    squeeze .value (w ++ rest) = w ++ squeeze .value rest := by
  induction w with
  | nil => rfl
  | cons b w ih =>
    have hb := h b mem_cons_self
    simp only [isWordByte, Bool.and_eq_true, Bool.not_eq_true', bne_iff_ne] at hb
    rw [cons_append, squeeze, if_neg (by simp [hb.1]), if_neg hb.2,
      ih fun c hc => h c (mem_cons_of_mem b hc)]
    rfl

theorem squeeze_skipWs (s : Bytes) : squeeze .value (skipWs s) = squeeze .value s := by
  induction s with
  | nil => rfl
  | cons b s ih =>
    by_cases hb : isWs b = true
    · rw [squeeze, if_pos hb, ← ih]
      simp [skipWs, hb]
    · rw [skipWs_cons (by simpa using hb)]

theorem skipWs_squeeze (s : Bytes) : skipWs (squeeze .value s) = squeeze .value s := by
  induction s with
  | nil => rfl
  | cons b s ih =>
    unfold squeeze
    split_ifs with hb h2
    · exact ih
    · exact skipWs_cons (by simpa using hb) _
    · exact skipWs_cons (by simpa using hb) _

/-- The text at a byte that is not white space. -/
theorem squeeze_of_skipWs (h : skipWs s = b :: t) (hb : b ≠ 0x22) :
    squeeze .value s = b :: squeeze .value t := by
  rw [← squeeze_skipWs, h, squeeze, if_neg (by simp [isWs_of_skipWs h]), if_neg hb]

theorem squeeze_of_quote (h : skipWs s = 0x22 :: t) :
    squeeze .value s = 0x22 :: squeeze .str t := by
  rw [← squeeze_skipWs, h]
  rfl

theorem squeeze_value_head (h : skipWs s = b :: t) :
    ∃ t', squeeze .value s = b :: t' := by
  by_cases hb : b = 0x22
  · subst hb
    exact ⟨_, squeeze_of_quote h⟩
  · exact ⟨_, squeeze_of_skipWs h hb⟩

/-- What follows a value in a text: a comma, a closing bracket, or nothing. -/
def Ended (rest : Bytes) : Prop := ∀ b t, skipWs rest = b :: t → b = 0x2C ∨ b = 0x5D ∨ b = 0x7D

theorem Ended.of_skipWs (h : skipWs s = b :: t)
    (hb : b = 0x2C ∨ b = 0x5D ∨ b = 0x7D) : Ended s := by
  intro c u hc
  rw [h] at hc
  obtain ⟨rfl, -⟩ := List.cons.inj hc
  exact hb

theorem Ended.numEnd {rest : Bytes} (h : Ended rest) : NumEnd (squeeze .value rest) := by
  intro b t heq
  rw [← squeeze_skipWs] at heq
  cases hs : skipWs rest with
  | nil => rw [hs] at heq; cases heq
  | cons c u =>
    obtain ⟨t', ht'⟩ := squeeze_value_head hs
    rw [squeeze_skipWs, ht'] at heq
    obtain ⟨rfl, -⟩ := List.cons.inj heq
    rcases h _ _ hs with rfl | rfl | rfl <;> decide

/-- The squeezed text is read like the text itself. -/
theorem image_squeeze : Image Ended (squeeze .value) (squeeze .str) where
  word := fun _ hb hs => by rw [skipWs_squeeze, ← squeeze_skipWs, hs, squeeze_word hb]
  quote := fun hs => by rw [skipWs_squeeze, squeeze_of_quote hs]
  str := StrText.squeezed
  ended := Ended.of_skipWs
  numEnd := Ended.numEnd

/-- The squeezed text has the value of the text. -/
theorem parse_squeeze {j : Json} (h : Json.parse s = some j) :
    Json.parse (squeeze .value s) = some j := by
  obtain ⟨rest, htext, hrest⟩ := parse_iff.mp h
  have hend : Ended rest := by
    intro b t hb
    rw [hrest] at hb
    cases hb
  have hnil : squeeze .value rest = [] := by
    rw [← squeeze_skipWs, hrest]
    rfl
  exact parse_iff.mpr ⟨_, image_squeeze.text htext (.of hend _), by rw [hnil]; rfl⟩

theorem parse_compact (h : compact s = some t) : Json.parse t = Json.parse s := by
  unfold compact at h
  split at h
  · next j hj =>
    split_ifs at h
    cases h
    rw [parse_squeeze hj, hj]
  · cases h

example : compact (ascii " [1 , \"a <b\"] ") = some (ascii "[1,\"a \\u003cb\"]") := by
  decide +kernel

end Tuck.Base
