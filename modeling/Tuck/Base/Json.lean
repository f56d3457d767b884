/-
  JSON as `encoding/json` writes and reads it.

  `Json.encode` is `json.Marshal` with HTML escaping: a bad byte of a string is written
  as the escape of U+FFFD. `Json.parse` is the reader: white space between tokens, the
  eight short escapes, surrogate pairs, the number grammar. A number keeps its literal,
  since the decoder of a Go field reads it with `strconv` at the field's own width.
-/
import Tuck.Base.Base64
import Tuck.Base.Utf8

namespace Tuck.Base

open List

/-! ## Strings, written -/

/-- The bytes `json.Marshal` copies without an escape. -/
def jsonSafe (b : UInt8) : Bool :=
  0x20 ≤ b.toNat && b.toNat < 0x80 && b != 0x22 && b != 0x5C && b != 0x3C && b != 0x3E && b != 0x26

/-- One ASCII byte of a string. -/
def escAscii (b : UInt8) : Bytes :=
  if jsonSafe b then [b]
  else if b = 0x22 then [0x5C, 0x22]
  else if b = 0x5C then [0x5C, 0x5C]
  else if b = 0x08 then [0x5C, 0x62]
  else if b = 0x0C then [0x5C, 0x66]
  else if b = 0x0A then [0x5C, 0x6E]
  else if b = 0x0D then [0x5C, 0x72]
  else if b = 0x09 then [0x5C, 0x74]
  else [0x5C, 0x75, 0x30, 0x30, hexDigit (b.toNat / 16), hexDigit (b.toNat % 16)]

/-- One rune or bad byte of a string: the line separators U+2028 and U+2029 are escaped,
    a bad byte becomes the escape of U+FFFD. -/
def escChunk : Chunk → Bytes
  | .bad _ => [0x5C, 0x75, 0x66, 0x66, 0x66, 0x64]
  | .rune [b] => escAscii b
  | .rune r =>
      if r = [0xE2, 0x80, 0xA8] then [0x5C, 0x75, 0x32, 0x30, 0x32, 0x38]
      else if r = [0xE2, 0x80, 0xA9] then [0x5C, 0x75, 0x32, 0x30, 0x32, 0x39]
      else r

/-- A string between its quotes. -/
def quoteBody (s : Bytes) : Bytes := (chunks s).flatMap escChunk

def quote (s : Bytes) : Bytes := 0x22 :: (quoteBody s ++ [0x22])

/-! ## Strings, read -/

def hexVal (b : UInt8) : Option Nat :=
  if 0x30 ≤ b.toNat ∧ b.toNat ≤ 0x39 then some (b.toNat - 0x30)
  else if 0x61 ≤ b.toNat ∧ b.toNat ≤ 0x66 then some (b.toNat - 0x61 + 10)
  else if 0x41 ≤ b.toNat ∧ b.toNat ≤ 0x46 then some (b.toNat - 0x41 + 10)
  else none

/-- Four hex digits. -/
def hex4 : Bytes → Option (Nat × Bytes)
  | a :: b :: c :: d :: s => do
      let a ← hexVal a
      let b ← hexVal b
      let c ← hexVal c
      let d ← hexVal d
      return (((a * 16 + b) * 16 + c) * 16 + d, s)
  | _ => none

def isSurrogate (r : Nat) : Bool := 0xD800 ≤ r && r ≤ 0xDFFF

/-- The low half that pairs with the high surrogate `r`, when `s` starts with its escape. -/
def lowSurrogate (r : Nat) : Bytes → Option (Nat × Bytes)
  | 0x5C :: 0x75 :: s =>
      match hex4 s with
      | some (r2, s) =>
          if r < 0xDC00 ∧ 0xDC00 ≤ r2 ∧ r2 ≤ 0xDFFF then
            some ((r - 0xD800) * 1024 + (r2 - 0xDC00) + 0x10000, s)
          else none
      | none => none
  | _ => none

/-- What follows a backslash: the bytes it stands for and the rest. -/
def unescape : Bytes → Option (Bytes × Bytes)
  | 0x75 :: s =>
      match hex4 s with
      | some (r, s) =>
          if isSurrogate r then
            match lowSurrogate r s with
            | some (c, s) => some (encodeRune c, s)
            | none => some (encodeRune 0xFFFD, s)
          else some (encodeRune r, s)
      | none => none
  | b :: s =>
      if b = 0x22 ∨ b = 0x5C ∨ b = 0x2F then some ([b], s)
      else if b = 0x62 then some ([0x08], s)
      else if b = 0x66 then some ([0x0C], s)
      else if b = 0x6E then some ([0x0A], s)
      else if b = 0x72 then some ([0x0D], s)
      else if b = 0x74 then some ([0x09], s)
      else none
  | [] => none

/-- Put bytes in front of a string that was read. -/
def before (bs : Bytes) : Option (Bytes × Bytes) → Option (Bytes × Bytes)
  | some (s, rest) => some (bs ++ s, rest)
  | none => none

/-- The rest of a string after its opening quote. -/
def readStr : Nat → Bytes → Option (Bytes × Bytes)
  | 0, _ => none
  | _ + 1, [] => none
  | n + 1, b :: s =>
      if b = 0x22 then some ([], s)
      else if b = 0x5C then
        match unescape s with
        | some (bs, s) => before bs (readStr n s)
        | none => none
      else if b.toNat < 0x20 then none
      else
        match runeLen (b :: s) with
        | 0 => before [0xEF, 0xBF, 0xBD] (readStr n s)
        | k + 1 => before ((b :: s).take (k + 1)) (readStr n ((b :: s).drop (k + 1)))

/-! ## What a string becomes when it is written and read back -/

def Chunk.sanitize : Chunk → Bytes
  | .rune r => r
  | .bad _ => [0xEF, 0xBF, 0xBD]

/-- Every bad byte replaced by U+FFFD. -/
def sanitize (s : Bytes) : Bytes := (chunks s).flatMap Chunk.sanitize

theorem sanitize_nil : sanitize [] = [] := rfl

variable {r : Bytes}

theorem sanitize_rune (h : IsRune r) (s : Bytes) :
    sanitize (r ++ s) = r ++ sanitize s := by
  unfold sanitize
  rw [chunks_rune h]
  rfl

variable {s : Bytes} {b : UInt8}

theorem sanitize_bad (h : runeLen (b :: s) = 0) :
    sanitize (b :: s) = [0xEF, 0xBF, 0xBD] ++ sanitize s := by
  unfold sanitize
  rw [chunks_bad h]
  rfl

theorem quoteBody_rune (h : IsRune r) (s : Bytes) :
    quoteBody (r ++ s) = escChunk (.rune r) ++ quoteBody s := by
  unfold quoteBody
  rw [chunks_rune h]
  rfl

/-- A string of plain characters is written as it is. -/
theorem quoteBody_safe (h : ∀ b ∈ s, jsonSafe b = true ∧ b.toNat < 0x80) :
    quoteBody s = s := by
  induction s with
  | nil => rfl
  | cons b s ih =>
    obtain ⟨hb, hlt⟩ := h b (by simp)
    have := quoteBody_rune (isRune_ascii hlt) s
    rw [singleton_append] at this
    rw [this, ih fun c hc => h c (mem_cons_of_mem b hc)]
    simp [escChunk, escAscii, hb]

theorem quoteBody_bad (h : runeLen (b :: s) = 0) :
    quoteBody (b :: s) = escChunk (.bad b) ++ quoteBody s := by
  unfold quoteBody
  rw [chunks_bad h]
  rfl

/-- A valid string is unchanged. -/
theorem sanitize_of_valid (h : Utf8Valid s) : sanitize s = s := by
  induction s using chunks_induction with
  | nil => rfl
  | rune r s hr ih => rw [sanitize_rune hr, ih ((utf8Valid_rune_append hr s).mp h)]
  | bad b s hb _ => exact absurd h (not_utf8Valid_bad hb)

theorem isRune_fffd : IsRune [0xEF, 0xBF, 0xBD] := by decide

theorem utf8Valid_sanitize (s : Bytes) : Utf8Valid (sanitize s) := by
  induction s using chunks_induction with
  | nil => exact utf8Valid_nil
  | rune r s hr ih => rw [sanitize_rune hr]; exact (utf8Valid_rune_append hr _).mpr ih
  | bad b s hb ih => rw [sanitize_bad hb]; exact (utf8Valid_rune_append isRune_fffd _).mpr ih

theorem sanitize_eq_iff : sanitize s = s ↔ Utf8Valid s :=
  ⟨fun h => h ▸ utf8Valid_sanitize s, sanitize_of_valid⟩

@[simp] theorem sanitize_sanitize (s : Bytes) : sanitize (sanitize s) = sanitize s :=
  sanitize_of_valid (utf8Valid_sanitize s)

theorem quoteBody_sanitize_length (s : Bytes) :
    (quoteBody (sanitize s)).length ≤ (quoteBody s).length ∧
      (¬ Utf8Valid s → (quoteBody (sanitize s)).length < (quoteBody s).length) := by
  induction s using chunks_induction with
  | nil => exact ⟨Nat.le_refl _, fun h => absurd utf8Valid_nil h⟩
  | rune r s hr ih =>
    rw [sanitize_rune hr, quoteBody_rune hr, quoteBody_rune hr, utf8Valid_rune_append hr]
    simp only [length_append]
    exact ⟨by omega, fun h => by have := ih.2 h; omega⟩
  | bad b s hb ih =>
    -- the escape takes six bytes, the rune it is read back as takes three
    rw [sanitize_bad hb, quoteBody_rune isRune_fffd, quoteBody_bad hb]
    have h3 : (escChunk (.rune [0xEF, 0xBF, 0xBD])).length = 3 := by decide
    have h6 : (escChunk (.bad b)).length = 6 := rfl
    simp only [length_append, h3, h6]
    exact ⟨by omega, fun _ => by omega⟩

/-! ## Values -/

/-- A JSON value; a number is its literal, an object its members in order. -/
inductive Json where
  | null
  | bool (b : Bool)
  | num (lit : Bytes)
  | str (s : Bytes)
  | arr (xs : List Json)
  | obj (ms : List (Bytes × Json))

mutual

/-- `json.Marshal`. -/
def Json.encode : Json → Bytes
  | .null => ascii "null"
  | .bool true => ascii "true"
  | .bool false => ascii "false"
  | .num lit => lit
  | .str s => quote s
  | .arr xs => 0x5B :: (joinWith 0x2C (encodeElems xs) ++ [0x5D])
  | .obj ms => 0x7B :: (joinWith 0x2C (encodeMembers ms) ++ [0x7D])

def encodeElems : List Json → List Bytes
  | [] => []
  | x :: xs => x.encode :: encodeElems xs

def encodeMembers : List (Bytes × Json) → List Bytes
  | [] => []
  | (k, v) :: ms => (quote k ++ 0x3A :: v.encode) :: encodeMembers ms

end

def isWs (b : UInt8) : Bool := b == 0x20 || b == 0x09 || b == 0x0A || b == 0x0D

def skipWs (s : Bytes) : Bytes := s.dropWhile isWs

/-- The digits at the head, at least one. -/
def readDigits (s : Bytes) : Option (Bytes × Bytes) :=
  match s.span isDigit with
  | ([], _) => none
  | (ds, rest) => some (ds, rest)

/-- The integer part: a zero alone, or digits without a leading zero. -/
def readIntPart : Bytes → Option (Bytes × Bytes)
  | 0x30 :: s => some ([0x30], s)
  | s => readDigits s

def readFrac : Bytes → Option (Bytes × Bytes)
  | 0x2E :: s => before [0x2E] (readDigits s)
  | s => some ([], s)

def readExpSign : Bytes → Bytes × Bytes
  | 0x2B :: s => ([0x2B], s)
  | 0x2D :: s => ([0x2D], s)
  | s => ([], s)

def readExp : Bytes → Option (Bytes × Bytes)
  | b :: s =>
      if b = 0x65 ∨ b = 0x45 then before (b :: (readExpSign s).1) (readDigits (readExpSign s).2)
      else some ([], b :: s)
  | [] => some ([], [])

/-- A number literal without its sign. -/
def readUnsigned (s : Bytes) : Option (Bytes × Bytes) := do
  let (i, s) ← readIntPart s
  let (f, s) ← readFrac s
  let (e, s) ← readExp s
  return (i ++ f ++ e, s)

def readNum : Bytes → Option (Bytes × Bytes)
  | 0x2D :: s => before [0x2D] (readUnsigned s)
  | s => readUnsigned s

mutual

/-- One value from the head of the input; the fuel bounds the tokens read. -/
def readValue : Nat → Bytes → Option (Json × Bytes)
  | 0, _ => none
  | n + 1, s =>
      match skipWs s with
      | 0x22 :: t => (readStr (t.length + 1) t).map fun (s, rest) => (.str s, rest)
      | 0x5B :: t =>
          match skipWs t with
          | 0x5D :: rest => some (.arr [], rest)
          | t => (readElems n t).map fun (xs, rest) => (.arr xs, rest)
      | 0x7B :: t =>
          match skipWs t with
          | 0x7D :: rest => some (.obj [], rest)
          | t => (readMembers n t).map fun (ms, rest) => (.obj ms, rest)
      | 0x6E :: 0x75 :: 0x6C :: 0x6C :: rest => some (.null, rest)
      | 0x74 :: 0x72 :: 0x75 :: 0x65 :: rest => some (.bool true, rest)
      | 0x66 :: 0x61 :: 0x6C :: 0x73 :: 0x65 :: rest => some (.bool false, rest)
      | t => (readNum t).map fun (lit, rest) => (.num lit, rest)

/-- The elements of an array up to its closing bracket. -/
def readElems : Nat → Bytes → Option (List Json × Bytes)
  | 0, _ => none
  | n + 1, s =>
      match readValue n s with
      | none => none
      | some (x, s) =>
          match skipWs s with
          | 0x5D :: rest => some ([x], rest)
          | 0x2C :: s => (readElems n s).map fun (xs, rest) => (x :: xs, rest)
          | _ => none

/-- The members of an object up to its closing brace. -/
def readMembers : Nat → Bytes → Option (List (Bytes × Json) × Bytes)
  | 0, _ => none
  | n + 1, s =>
      match skipWs s with
      | 0x22 :: t =>
          match readStr (t.length + 1) t with
          | none => none
          | some (k, s) =>
              match skipWs s with
              | 0x3A :: s =>
                  match readValue n s with
                  | none => none
                  | some (v, s) =>
                      match skipWs s with
                      | 0x7D :: rest => some ([(k, v)], rest)
                      | 0x2C :: s => (readMembers n s).map fun (ms, rest) => ((k, v) :: ms, rest)
                      | _ => none
              | _ => none
      | _ => none

end

/-- `json.Unmarshal` up to the typed decoding: one value and nothing but white space after. -/
def Json.parse (s : Bytes) : Option Json :=
  match readValue (s.length + 1) s with
  | some (j, rest) => if skipWs rest = [] then some j else none
  | none => none

mutual

/-- The value with every string's bad bytes replaced. -/
def Json.sanitize : Json → Json
  | .null => .null
  | .bool b => .bool b
  | .num lit => .num lit
  | .str s => .str (Base.sanitize s)
  | .arr xs => .arr (sanitizeElems xs)
  | .obj ms => .obj (sanitizeMembers ms)

def sanitizeElems : List Json → List Json
  | [] => []
  | x :: xs => x.sanitize :: sanitizeElems xs

def sanitizeMembers : List (Bytes × Json) → List (Bytes × Json)
  | [] => []
  | (k, v) :: ms => (Base.sanitize k, v.sanitize) :: sanitizeMembers ms

end

mutual

/-- Every number is an integer as `strconv` writes it. -/
def Json.IntNums : Json → Prop
  | .num lit => ∃ i : Int, lit = decimalInt i
  | .arr xs => IntElems xs
  | .obj ms => IntMembers ms
  | _ => True

def IntElems : List Json → Prop
  | [] => True
  | x :: xs => x.IntNums ∧ IntElems xs

def IntMembers : List (Bytes × Json) → Prop
  | [] => True
  | (_, v) :: ms => v.IntNums ∧ IntMembers ms

end

/-! ## Elements and members -/

/-- Induction over a value: its elements and the values of its members come before it. -/
theorem Json.induction {P : Json → Prop} (null : P .null) (bool : ∀ b, P (.bool b))
    (num : ∀ lit, P (.num lit)) (str : ∀ s, P (.str s))
    (arr : ∀ xs, (∀ x ∈ xs, P x) → P (.arr xs))
    (obj : ∀ ms, (∀ m ∈ ms, P m.2) → P (.obj ms)) : ∀ j, P j
  | .null => null
  | .bool b => bool b
  | .num lit => num lit
  | .str s => str s
  | .arr xs => arr xs fun x _ => induction null bool num str arr obj x
  | .obj ms => obj ms fun m hm =>
      have := sizeOf_lt_of_mem hm
      have : sizeOf m = 1 + sizeOf m.1 + sizeOf m.2 := by cases m; rfl
      induction null bool num str arr obj m.2

variable {j : Json} {xs : List Json} {ms : List (Bytes × Json)}

theorem encodeElems_map (xs : List Json) : encodeElems xs = xs.map Json.encode := by
  induction xs with
  | nil => rfl
  | cons x xs ih => exact congrArg (_ :: ·) ih

theorem encodeMembers_map (ms : List (Bytes × Json)) :
    encodeMembers ms = ms.map fun m => quote m.1 ++ 0x3A :: m.2.encode := by
  induction ms with
  | nil => rfl
  | cons m ms ih => exact congrArg (_ :: ·) ih

theorem sanitizeElems_map (xs : List Json) : sanitizeElems xs = xs.map Json.sanitize := by
  induction xs with
  | nil => rfl
  | cons x xs ih => exact congrArg (_ :: ·) ih

theorem sanitizeMembers_map (ms : List (Bytes × Json)) :
    sanitizeMembers ms = ms.map fun m => (sanitize m.1, m.2.sanitize) := by
  induction ms with
  | nil => rfl
  | cons m ms ih => exact congrArg (_ :: ·) ih

theorem sanitizeElems_eq (h : ∀ x ∈ xs, x.sanitize = x) : sanitizeElems xs = xs := by
  rw [sanitizeElems_map]
  exact (map_congr_left h).trans (map_id' xs)

theorem sanitizeMembers_eq (h : ∀ m ∈ ms, sanitize m.1 = m.1 ∧ m.2.sanitize = m.2) :
    sanitizeMembers ms = ms := by
  rw [sanitizeMembers_map]
  exact (map_congr_left fun m hm => Prod.ext (h m hm).1 (h m hm).2).trans (map_id' ms)

theorem intElems_iff : IntElems xs ↔ ∀ x ∈ xs, x.IntNums := by
  induction xs with
  | nil => simp [IntElems]
  | cons x xs ih => rw [IntElems, ih, forall_mem_cons]

theorem intMembers_iff : IntMembers ms ↔ ∀ m ∈ ms, m.2.IntNums := by
  induction ms with
  | nil => simp [IntMembers]
  | cons m ms ih => rw [IntMembers, ih, forall_mem_cons]

/-! ## A bad byte changes the length of the text -/

def totalLen (xs : List Bytes) : Nat := (xs.map List.length).sum

theorem joinWith_length (xs : List Bytes) :
    (joinWith 0x2C xs).length = totalLen xs + (xs.length - 1) := by
  induction xs with
  | nil => rfl
  | cons x xs ih =>
    cases xs with
    | nil => simp [joinWith, totalLen]
    | cons y ys =>
      rw [joinWith_cons, length_append, length_cons, ih]
      simp only [totalLen, map_cons, sum_cons, length_cons]
      omega

theorem quote_sanitize_length (s : Bytes) :
    (quote (sanitize s)).length ≤ (quote s).length ∧
      ((quote (sanitize s)).length = (quote s).length → sanitize s = s) := by
  obtain ⟨hle, hlt⟩ := quoteBody_sanitize_length s
  simp only [quote, length_cons, length_append, length_nil]
  refine ⟨by omega, fun h => ?_⟩
  by_contra hne
  have := hlt fun hv => hne (sanitize_of_valid hv)
  omega

theorem sum_map_le {α : Type} {f g : α → Nat} {l : List α} (h : ∀ x ∈ l, f x ≤ g x) :
    (l.map f).sum ≤ (l.map g).sum ∧ ((l.map f).sum = (l.map g).sum → ∀ x ∈ l, f x = g x) := by
  refine ⟨sum_le_sum h, fun heq x hx => (h x hx).antisymm ?_⟩
  by_contra hlt
  exact (sum_lt_sum f g h ⟨x, hx, not_le.mp hlt⟩).ne heq

/-- Replacing bad bytes never makes the text longer, and keeps its length only when there
    was nothing to replace. -/
theorem encode_sanitize_length (j : Json) :
    j.sanitize.encode.length ≤ j.encode.length ∧
      (j.sanitize.encode.length = j.encode.length → j.sanitize = j) := by
  induction j using Json.induction with
  | null => exact ⟨Nat.le_refl _, fun _ => rfl⟩
  | bool b => exact ⟨Nat.le_refl _, fun _ => rfl⟩
  | num lit => exact ⟨Nat.le_refl _, fun _ => rfl⟩
  | str s =>
    obtain ⟨hle, heq⟩ := quote_sanitize_length s
    exact ⟨hle, fun h => congrArg Json.str (heq h)⟩
  | arr xs ih =>
    obtain ⟨hle, heq⟩ := sum_map_le fun x hx => (ih x hx).1
    simp only [Json.sanitize, Json.encode, sanitizeElems_map, encodeElems_map, length_cons,
      length_append, joinWith_length, totalLen, length_map, map_map, Function.comp_def]
    refine ⟨by omega, fun h => congrArg Json.arr ?_⟩
    rw [← sanitizeElems_map]
    exact sanitizeElems_eq fun x hx => (ih x hx).2 (heq (by omega) x hx)
  | obj ms ih =>
    obtain ⟨hle, heq⟩ := sum_map_le fun m hm => Nat.add_le_add
      (quote_sanitize_length (Prod.fst m)).1 (Nat.add_le_add_right (ih m hm).1 1)
    simp only [Json.sanitize, Json.encode, sanitizeMembers_map, encodeMembers_map, length_cons,
      length_append, joinWith_length, totalLen, length_map, map_map, Function.comp_def]
    refine ⟨by omega, fun h => congrArg Json.obj ?_⟩
    rw [← sanitizeMembers_map]
    refine sanitizeMembers_eq fun m hm => ?_
    obtain ⟨hkey, hkeq⟩ := quote_sanitize_length m.1
    obtain ⟨hval, hveq⟩ := ih m hm
    have hsame := heq (by omega) m hm
    exact ⟨hkeq (by omega), hveq (by omega)⟩

/-- The text of the value that is read back is the text that was written exactly when no
    byte was replaced. -/
theorem encode_sanitize_eq_iff : j.sanitize.encode = j.encode ↔ j.sanitize = j :=
  ⟨fun h => (encode_sanitize_length j).2 (congrArg List.length h), fun h => by rw [h]⟩

/-! ## The text has no control bytes -/

/-- No byte below the space. -/
def Printable (s : Bytes) : Prop := s.all (fun b => 0x20 ≤ b.toNat) = true

instance : DecidablePred Printable := fun _ => inferInstanceAs (Decidable (_ = true))

theorem printable_iff : Printable s ↔ ∀ b ∈ s, 0x20 ≤ b.toNat := by
  simp [Printable]

theorem printable_append : Printable (s ++ t) ↔ Printable s ∧ Printable t := by
  simp only [Printable, all_append, Bool.and_eq_true]

theorem printable_cons : Printable (b :: s) ↔ 0x20 ≤ b.toNat ∧ Printable s := by
  simp only [Printable, all_cons, Bool.and_eq_true, decide_eq_true_eq]

theorem printable_nil : Printable [] := rfl

theorem printable_hexDigit : ∀ n < 16, 0x20 ≤ (hexDigit n).toNat := by decide

theorem printable_escAscii (b : UInt8) : Printable (escAscii b) := by
  have hb := b.toNat_lt
  unfold escAscii
  split_ifs with h
  · simp only [jsonSafe, Bool.and_eq_true, decide_eq_true_eq] at h
    exact printable_cons.mpr ⟨h.1.1.1.1.1.1, printable_nil⟩
  all_goals
    simp only [printable_cons]
    refine ⟨by decide, by decide, ?_⟩
  all_goals first
    | exact printable_nil
    | exact ⟨by decide, by decide, printable_hexDigit _ (by omega), printable_hexDigit _ (by omega),
        printable_nil⟩

theorem printable_rune (h : IsRune r) (h1 : ∀ b, r ≠ [b]) : Printable r := by
  have hc : ∀ {b : UInt8}, isCont b = true → 0x20 ≤ b.toNat := by
    intro b hb
    simp only [isCont, Bool.and_eq_true, decide_eq_true_eq] at hb
    omega
  rcases isRune_cases h with ⟨a, rfl, _⟩ | ⟨a, b, rfl, ha, _, hb⟩ | ⟨a, b, c, rfl, ha, _, hs, hc'⟩ |
    ⟨a, b, c, d, rfl, ha, _, hs, hc', hd⟩
  · exact absurd rfl (h1 a)
  · simp only [printable_cons]
    exact ⟨by omega, hc hb, printable_nil⟩
  · have hs' : 0x80 ≤ b.toNat := by
      simp only [second3, Bool.and_eq_true, decide_eq_true_eq] at hs
      have := hs.1
      split_ifs at this <;> omega
    simp only [printable_cons]
    exact ⟨by omega, by omega, hc hc', printable_nil⟩
  · have hs' : 0x80 ≤ b.toNat := by
      simp only [second4, Bool.and_eq_true, decide_eq_true_eq] at hs
      have := hs.1
      split_ifs at this <;> omega
    simp only [printable_cons]
    exact ⟨by omega, by omega, hc hc', hc hd, printable_nil⟩

theorem printable_escRune (h : IsRune r) : Printable (escChunk (.rune r)) := by
  unfold escChunk
  split
  · next heq => cases heq
  · exact printable_escAscii _
  · next hne heq =>
    cases heq
    split_ifs
    · decide
    · decide
    · exact printable_rune h fun b hb => hne b hb

theorem printable_quote (s : Bytes) : Printable (quote s) := by
  have hbody : Printable (quoteBody s) := by
    induction s using chunks_induction with
    | nil => exact printable_nil
    | rune r s hr ih =>
      rw [quoteBody_rune hr]
      exact printable_append.mpr ⟨printable_escRune hr, ih⟩
    | bad b s hb ih =>
      rw [quoteBody_bad hb]
      exact printable_append.mpr ⟨rfl, ih⟩
  unfold quote
  exact printable_cons.mpr ⟨by decide, printable_append.mpr ⟨hbody, by decide⟩⟩

theorem printable_joinWith (xs : List Bytes) (h : ∀ x ∈ xs, Printable x) :
    Printable (joinWith 0x2C xs) := by
  induction xs with
  | nil => exact printable_nil
  | cons x xs ih =>
    cases xs with
    | nil => exact h x (by simp)
    | cons y ys =>
      rw [joinWith_cons]
      refine printable_append.mpr ⟨h x (by simp), printable_cons.mpr ⟨by decide, ih fun z hz => ?_⟩⟩
      exact h z (mem_cons_of_mem x hz)

theorem printable_decimalInt (i : Int) : Printable (decimalInt i) := by
  have hd : ∀ n, Printable (decimal n) := fun n => printable_iff.mpr fun b hb => by
    have := isDigit_of_mem_decimal hb
    simp only [isDigit, Bool.and_eq_true, decide_eq_true_eq] at this
    omega
  cases i with
  | ofNat n => exact hd n
  | negSucc n => exact printable_cons.mpr ⟨by decide, hd _⟩

theorem printable_encode (h : j.IntNums) : Printable j.encode := by
  induction j using Json.induction with
  | null => decide
  | bool b => cases b <;> decide
  | num lit =>
    simp only [Json.IntNums] at h
    obtain ⟨i, rfl⟩ := h
    exact printable_decimalInt i
  | str s => exact printable_quote s
  | arr xs ih =>
    simp only [Json.IntNums, intElems_iff] at h
    have hxs : Printable (joinWith 0x2C (encodeElems xs)) := by
      rw [encodeElems_map]
      exact printable_joinWith _ (forall_mem_map.mpr fun x hx => ih x hx (h x hx))
    exact printable_cons.mpr ⟨by decide, printable_append.mpr ⟨hxs, by decide⟩⟩
  | obj ms ih =>
    simp only [Json.IntNums, intMembers_iff] at h
    have hms : Printable (joinWith 0x2C (encodeMembers ms)) := by
      rw [encodeMembers_map]
      refine printable_joinWith _ (forall_mem_map.mpr fun m hm => printable_append.mpr ?_)
      exact ⟨printable_quote m.1, printable_cons.mpr ⟨by decide, ih m hm (h m hm)⟩⟩
    exact printable_cons.mpr ⟨by decide, printable_append.mpr ⟨hms, by decide⟩⟩

/-! ## Decoding into the fields of a struct -/

/-- One rune of a member name, folded: the long s and the Kelvin sign are the only other
    runes that fold to an ASCII letter. -/
def foldChunk : Chunk → Bytes
  | .rune [b] => if 0x61 ≤ b.toNat ∧ b.toNat ≤ 0x7A then [b - 32] else [b]
  | .rune r =>
      if r = [0xC5, 0xBF] then [0x53] else if r = [0xE2, 0x84, 0xAA] then [0x4B] else r
  | .bad b => [b]

/-- Member names are matched without regard to case. -/
def foldName (s : Bytes) : Bytes := (chunks s).flatMap foldChunk

/-- A `string` field: null leaves it as it is. -/
def Json.toStr (cur : Bytes) : Json → Option Bytes
  | .null => some cur
  | .str s => some s
  | _ => none

/-- An unsigned field below `bound`. -/
def Json.toUint (bound cur : Nat) : Json → Option Nat
  | .null => some cur
  | .num lit => (parseUint lit).filter (· < bound)
  | _ => none

/-- A signed 64-bit field. -/
def Json.toInt64 (cur : Int64) : Json → Option Int64
  | .null => some cur
  | .num lit =>
      match parseInt lit with
      | some i => if -2 ^ 63 ≤ i ∧ i < 2 ^ 63 then some (Int64.ofInt i) else none
      | none => none
  | _ => none

theorem toInt64_decimalInt (cur i : Int64) :
    (Json.num (decimalInt i.toInt)).toInt64 cur = some i := by
  have h1 := i.le_toInt
  have h2 := i.toInt_lt
  simp only [Json.toInt64, parseInt_decimalInt]
  rw [if_pos ⟨h1, h2⟩, Int64.ofInt_toInt]

/-- A `[]byte` field: base64 text, or an array of bytes. -/
def Json.toBytes : Json → Option Bytes
  | .null => some []
  | .str s => stdDecode s
  | .arr xs => xs.mapM fun x => (x.toUint 256 0).map UInt8.ofNat
  | _ => none

theorem sanitize_str_stdEncode (k : Bytes) :
    (Json.str (stdEncode k)).sanitize = Json.str (stdEncode k) := by
  simp only [Json.sanitize, sanitize_of_valid (utf8Valid_ascii fun b hb => mem_stdEncode_lt hb)]

end Tuck.Base
