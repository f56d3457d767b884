/-
  What the readers of JSON take from a text.

  The readers run on fuel. `StrText` and `Text` say without it what they take and what they
  leave, one rule for each way through the code; with fuel for the bytes it takes a reader
  does the same (`Text.reads`, `Text.of_read`).

  Reading back what was written gives the value with every bad byte replaced by U+FFFD
  (`parse_encode`), and what is read has no bad bytes (`sanitize_parse`).

  A text is changed by `g` where a value can stand and by `gs` inside a string. If every word
  outside the strings, every string and the end of every number survive the change, then what
  the readers take from a text they take from the changed text too, and leave the changed rest
  (`Image.text`).
-/
import Tuck.Base.Json

namespace Tuck.Base

open List

/-! ## Fuel -/

/-- A text that is read from `s` up to `rest`, with any fuel for the bytes it takes. -/
def Reads {α : Type} (f : Nat → Bytes → Option (α × Bytes)) (s : Bytes) (a : α) (rest : Bytes) :
    Prop :=
  rest.length < s.length ∧ ∀ n, s.length ≤ n + rest.length → f n s = some (a, rest)

variable {s t u rest : Bytes}

/-- A reader that takes at least one byte has fuel for its first step. -/
theorem Reads.of_succ {α : Type} {f : Nat → Bytes → Option (α × Bytes)} {a : α}
    (hlt : rest.length < s.length)
    (h : ∀ n, s.length ≤ n + 1 + rest.length → f (n + 1) s = some (a, rest)) :
    Reads f s a rest := by
  refine ⟨hlt, fun n hn => ?_⟩
  obtain ⟨m, rfl⟩ : ∃ m, n = m + 1 := ⟨n - 1, by omega⟩
  exact h m hn

/-- One step of a string: some bytes of the text, and the bytes they stand for. -/
theorem Reads.step {bs s' : Bytes} (h : Reads readStr s u rest) (hlen : s.length < s'.length)
    (hstep : ∀ n, readStr (n + 1) s' = before bs (readStr n s)) :
    Reads readStr s' (bs ++ u) rest := by
  obtain ⟨hlt, hread⟩ := h
  refine .of_succ (by omega) fun n hn => ?_
  rw [hstep, hread n (by omega)]
  rfl

/-! ## Escapes -/

theorem hexVal_hexDigit : ∀ n < 16, hexVal (hexDigit n) = some n := by decide

variable {n r : Nat}

theorem hex4_small (h : n < 256) (t : Bytes) :
    hex4 (0x30 :: 0x30 :: hexDigit (n / 16) :: hexDigit (n % 16) :: t) = some (n, t) := by
  have h0 : hexVal 0x30 = some 0 := by decide
  simp only [hex4, h0, hexVal_hexDigit (n / 16) (by omega), hexVal_hexDigit (n % 16) (by omega)]
  simp only [Option.pure_def, Option.bind_eq_bind, Option.bind_some, Option.some.injEq,
    Prod.mk.injEq, and_true]
  omega

theorem unescape_u (h : hex4 s = some (r, t)) (hr : isSurrogate r = false) :
    unescape (0x75 :: s) = some (encodeRune r, t) := by
  simp only [unescape, h, hr]
  rfl

theorem length_hex4 (h : hex4 s = some (r, t)) : s.length = t.length + 4 := by
  unfold hex4 at h
  split at h
  · simp only [Option.bind_eq_bind, Option.pure_def, Option.bind_eq_some_iff] at h
    obtain ⟨a', -, b', -, c', -, d', -, heq⟩ := h
    cases heq
    rfl
  · cases h

theorem length_lowSurrogate {c : Nat} (h : lowSurrogate r s = some (c, t)) :
    t.length < s.length := by
  unfold lowSurrogate at h
  split at h
  · split at h
    · next hx =>
      split_ifs at h
      cases h
      have hlen := length_hex4 hx
      rw [length_cons, length_cons]
      omega
    · cases h
  · cases h

/-- An escape stands for one valid rune. -/
theorem unescape_some {bs : Bytes} (h : unescape s = some (bs, t)) :
    IsRune bs ∧ t.length < s.length := by
  unfold unescape at h
  split at h
  · split at h
    · next hx =>
      have hlen := length_hex4 hx
      rw [length_cons]
      split_ifs at h
      · split at h
        · next hl =>
          have := length_lowSurrogate hl
          cases h
          exact ⟨isRune_encodeRune _, by omega⟩
        · cases h
          exact ⟨isRune_encodeRune _, by omega⟩
      · cases h
        exact ⟨isRune_encodeRune _, by omega⟩
    · cases h
  · split_ifs at h with h1
    · cases h
      refine ⟨isRune_ascii ?_, Nat.lt_succ_self _⟩
      rcases h1 with rfl | rfl | rfl <;> decide
    all_goals
      cases h
      exact ⟨by decide, Nat.lt_succ_self _⟩
  · cases h

/-! ## Strings -/

/-- A rune that stands for itself in a string. -/
def Bare (r : Bytes) : Prop :=
  IsRune r ∧ ∀ b s, r = b :: s → b ≠ 0x22 ∧ b ≠ 0x5C ∧ 0x20 ≤ b.toNat

/-- The rest of a string after its opening quote: the text, the string and what follows. -/
inductive StrText : Bytes → Bytes → Bytes → Prop
  | close (rest : Bytes) : StrText (0x22 :: rest) [] rest
  | escape {s bs t u rest : Bytes} (h : unescape s = some (bs, t)) (ht : StrText t u rest) :
      StrText (0x5C :: s) (bs ++ u) rest
  | rune {r t u rest : Bytes} (h : Bare r) (ht : StrText t u rest) :
      StrText (r ++ t) (r ++ u) rest
  | bad {b : UInt8} {t u rest : Bytes} (h : runeLen (b :: t) = 0) (ht : StrText t u rest) :
      StrText (b :: t) ([0xEF, 0xBF, 0xBD] ++ u) rest

variable {b : UInt8}

theorem le_of_runeLen (h : runeLen (b :: s) = 0) : 0x80 ≤ b.toNat := by
  by_contra hlt
  simp [runeLen, (by omega : b.toNat < 0x80)] at h

theorem ne_of_le {c : UInt8} (h : 0x80 ≤ b.toNat) (hc : c.toNat < 0x80) : b ≠ c := by
  rintro rfl
  omega

theorem readStr_bare {r : Bytes} (h : Bare r) (t : Bytes) :
    readStr (n + 1) (r ++ t) = before r (readStr n t) := by
  have hl := runeLen_append h.1 t
  cases r with
  | nil => exact absurd rfl h.1.1
  | cons b s =>
    obtain ⟨h1, h2, h3⟩ := h.2 b s rfl
    simp only [cons_append, length_cons] at hl
    simp only [cons_append, readStr, if_neg h1, if_neg h2, if_neg (by omega : ¬ b.toNat < 0x20)]
    rw [hl]
    simp

theorem StrText.reads (h : StrText s u rest) : Reads readStr s u rest := by
  induction h with
  | close rest => exact .of_succ (Nat.lt_succ_self _) fun _ _ => rfl
  | escape h _ ih =>
    refine ih.step (Nat.lt_succ_of_lt (unescape_some h).2) fun n => ?_
    simp only [readStr, h]
    rfl
  | rune h _ ih =>
    refine ih.step ?_ fun n => readStr_bare h _
    rw [length_append]
    exact Nat.lt_add_of_pos_left (length_pos_iff.mpr h.1.1)
  | bad h _ ih =>
    have hb := le_of_runeLen h
    refine ih.step (Nat.lt_succ_self _) fun n => ?_
    rw [readStr, if_neg (ne_of_le hb (by decide)), if_neg (ne_of_le hb (by decide)),
      if_neg (by omega), h]

theorem before_some {bs : Bytes} {o : Option (Bytes × Bytes)} (h : before bs o = some (s, t)) :
    ∃ u, o = some (u, t) ∧ s = bs ++ u := by
  cases o with
  | none => cases h
  | some p =>
    obtain ⟨u, v⟩ := p
    simp only [before, Option.some.injEq, Prod.mk.injEq] at h
    exact ⟨u, by rw [h.2], h.1.symm⟩

theorem StrText.of_read (h : readStr n s = some (u, rest)) : StrText s u rest := by
  induction n generalizing s u with
  | zero => cases h
  | succ n ih =>
    cases s with
    | nil => cases h
    | cons b s =>
      simp only [readStr] at h
      split_ifs at h with h1 h2 h3
      · cases h
        exact h1 ▸ .close _
      · split at h
        · next hu =>
          obtain ⟨v, hv, rfl⟩ := before_some h
          exact h2 ▸ .escape hu (ih hv)
        · cases h
      · split at h
        · next hk =>
          obtain ⟨v, hv, rfl⟩ := before_some h
          exact .bad hk (ih hv)
        · next k hk =>
          obtain ⟨v, hv, rfl⟩ := before_some h
          have hr := (isRune_take (s := b :: s) (by omega)).1
          rw [hk] at hr
          have hbare : Bare ((b :: s).take (k + 1)) := by
            refine ⟨hr, fun c t hc => ?_⟩
            obtain ⟨rfl, -⟩ := List.cons.inj hc
            exact ⟨h1, h2, by omega⟩
          have htext := StrText.rune hbare (ih hv)
          rwa [take_append_drop] at htext

theorem StrText.read (h : StrText s u rest) : readStr (s.length + 1) s = some (u, rest) :=
  h.reads.2 _ (by omega)

theorem StrText.valid (h : StrText s u rest) : Utf8Valid u := by
  induction h with
  | close rest => exact utf8Valid_nil
  | escape h _ ih => exact (utf8Valid_rune_append (unescape_some h).1 _).mpr ih
  | rune h _ ih => exact (utf8Valid_rune_append h.1 _).mpr ih
  | bad _ _ ih => exact (utf8Valid_rune_append isRune_fffd _).mpr ih

/-- An ASCII byte as it is written. -/
theorem StrText.ascii (hb : b.toNat < 0x80) (h : StrText t u rest) :
    StrText (escAscii b ++ t) ([b] ++ u) rest := by
  unfold escAscii
  split_ifs with h1 h2 h3 h4 h5 h6 h7 h8
  · refine .rune ⟨isRune_ascii hb, fun c s hc => ?_⟩ h
    obtain ⟨rfl, rfl⟩ := List.cons.inj hc
    simp only [jsonSafe, Bool.and_eq_true, decide_eq_true_eq, bne_iff_ne] at h1
    exact ⟨h1.1.1.1.1.2, h1.1.1.1.2, h1.1.1.1.1.1.1⟩
  · subst h2; exact .escape rfl h
  · subst h3; exact .escape rfl h
  · exact h4 ▸ .escape rfl h
  · exact h5 ▸ .escape rfl h
  · exact h6 ▸ .escape rfl h
  · exact h7 ▸ .escape rfl h
  · exact h8 ▸ .escape rfl h
  · have hs : isSurrogate b.toNat = false := by simp [isSurrogate]; omega
    have hu := unescape_u (hex4_small (by omega : b.toNat < 256) t) hs
    rw [encodeRune, if_pos hb, UInt8.ofNat_toNat] at hu
    exact .escape hu h

/-- A rune as it is written. -/
theorem StrText.chunk {r : Bytes} (hr : IsRune r) (h : StrText t u rest) :
    StrText (escChunk (.rune r) ++ t) (r ++ u) rest := by
  unfold escChunk
  split
  · next heq => cases heq
  · next b heq =>
    cases heq
    refine h.ascii ?_
    rcases isRune_cases hr with ⟨a, h, ha⟩ | ⟨a, b, h, _⟩ | ⟨a, b, c, h, _⟩ | ⟨a, b, c, d, h, _⟩
    · exact (List.cons.inj h).1 ▸ ha
    all_goals simp at h
  · next hne heq =>
    cases heq
    split_ifs with h2 h3
    · exact h2 ▸ .escape rfl h
    · exact h3 ▸ .escape rfl h
    · refine .rune ⟨hr, fun b s hbs => ?_⟩ h
      -- the lead byte of a wider rune is above every ASCII byte
      have hb : 0xC2 ≤ b.toNat := by
        rcases isRune_cases hr with ⟨a, ha, _⟩ | ⟨a, _, ha, hlow, _⟩ | ⟨a, _, _, ha, hlow, _⟩ |
          ⟨a, _, _, _, ha, hlow, _⟩
        · exact absurd ha (hne a)
        all_goals
          obtain ⟨rfl, _⟩ := List.cons.inj (hbs.symm.trans ha)
          omega
      exact ⟨ne_of_le (by omega) (by decide), ne_of_le (by omega) (by decide), by omega⟩

/-- A written string is read back with its bad bytes replaced. -/
theorem StrText.quoted (s rest : Bytes) :
    StrText (quoteBody s ++ 0x22 :: rest) (sanitize s) rest := by
  induction s using chunks_induction with
  | nil => exact .close rest
  | rune r s hr ih =>
    rw [quoteBody_rune hr, sanitize_rune hr, append_assoc]
    exact ih.chunk hr
  | bad b s hb ih =>
    rw [quoteBody_bad hb, sanitize_bad hb, append_assoc]
    exact .escape (s := _ :: _ :: _ :: _ :: _ :: _) rfl ih

/-! ## Numbers -/

/-- What may follow a number: nothing that would make the literal longer. -/
def NumEnd (rest : Bytes) : Prop :=
  ∀ b t, rest = b :: t → isDigit b = false ∧ b ≠ 0x2E ∧ b ≠ 0x65 ∧ b ≠ 0x45

/-- What may follow digits: no further digit. -/
def NoDigit (rest : Bytes) : Prop := ∀ b t, rest = b :: t → isDigit b = false

theorem NumEnd.noDigit (h : NumEnd rest) : NoDigit rest := fun b t hb => (h b t hb).1

theorem span_digits {ds : Bytes} (hd : ∀ b ∈ ds, isDigit b = true) (hr : NoDigit rest) :
    (ds ++ rest).span isDigit = (ds, rest) := by
  rw [span_eq_takeWhile_dropWhile, takeWhile_append_of_pos hd,
    dropWhile_append_of_pos hd]
  cases rest with
  | nil => simp
  | cons b t => simp [hr b t rfl]

theorem readDigits_append {ds : Bytes} (hne : ds ≠ []) (hd : ∀ b ∈ ds, isDigit b = true)
    (hr : NoDigit rest) : readDigits (ds ++ rest) = some (ds, rest) := by
  unfold readDigits
  rw [span_digits hd hr]
  cases ds with
  | nil => exact absurd rfl hne
  | cons b t => rfl

theorem readFrac_none (h : ∀ t, rest ≠ 0x2E :: t) :
    readFrac rest = some ([], rest) := by
  unfold readFrac
  split
  · exact absurd rfl (h _)
  · rfl

theorem readExp_none (hr : NumEnd rest) : readExp rest = some ([], rest) := by
  cases rest with
  | nil => rfl
  | cons b t =>
    have hb := (hr b t rfl).2.2
    simp only [readExp]
    rw [if_neg (by rintro (h | h); exacts [hb.1 h, hb.2 h])]

/-- A byte of a number literal: never white space and never a quote. -/
def isNum (b : UInt8) : Bool :=
  isDigit b || b == 0x2E || b == 0x65 || b == 0x45 || b == 0x2B || b == 0x2D

/-- What a reader of literals takes is a literal, and it takes the same from every text in
    which something of `E` follows. -/
def Literal (f : Bytes → Option (Bytes × Bytes)) (E : Bytes → Prop) : Prop :=
  ∀ {s lit rest}, f s = some (lit, rest) →
    s = lit ++ rest ∧ (∀ b ∈ lit, isNum b = true) ∧
      ∀ rest', E rest' → f (lit ++ rest') = some (lit, rest')

theorem ne_of_isNum {c : UInt8} (h : isNum b = true) (hc : isNum c = false) : b ≠ c := by
  rintro rfl
  rw [h] at hc
  cases hc

theorem isWs_of_isNum (h : isNum b = true) : isWs b = false := by
  simp [isWs, ne_of_isNum h (c := 0x20) (by decide), ne_of_isNum h (c := 0x09) (by decide),
    ne_of_isNum h (c := 0x0A) (by decide), ne_of_isNum h (c := 0x0D) (by decide)]

theorem isNum_of_isDigit (h : isDigit b = true) : isNum b = true := by
  simp [isNum, h]

theorem digits_readDigits {ds : Bytes} (h : readDigits s = some (ds, rest)) :
    s = ds ++ rest ∧ ds ≠ [] ∧ ∀ b ∈ ds, isDigit b = true := by
  unfold readDigits at h
  rw [span_eq_takeWhile_dropWhile] at h
  split at h
  · cases h
  · next ds' rest' hne heq =>
    cases h
    obtain ⟨rfl, rfl⟩ := Prod.mk.inj heq
    exact ⟨takeWhile_append_dropWhile.symm, hne, fun b => mem_takeWhile_imp⟩

theorem literal_readDigits : Literal readDigits NoDigit := by
  intro s lit rest h
  obtain ⟨heq, hne, hd⟩ := digits_readDigits h
  exact ⟨heq, fun b hb => isNum_of_isDigit (hd b hb), fun rest' hr => readDigits_append hne hd hr⟩

theorem readIntPart_ne_nil {i : Bytes} (h : readIntPart s = some (i, rest)) : i ≠ [] := by
  unfold readIntPart at h
  split at h
  · cases h
    exact cons_ne_nil _ _
  · exact (digits_readDigits h).2.1

theorem literal_readIntPart : Literal readIntPart NoDigit := by
  intro s lit rest h
  unfold readIntPart at h
  split at h
  · cases h
    exact ⟨rfl, fun b hb => by rw [mem_singleton.1 hb]; rfl, fun _ _ => rfl⟩
  · next s hne =>
    obtain ⟨rfl, hnum, hread⟩ := literal_readDigits h
    refine ⟨rfl, hnum, fun rest' hr => ?_⟩
    -- the literal is not empty, so that its first byte is that of the text
    obtain ⟨b, l, rfl⟩ := exists_cons_of_ne_nil (digits_readDigits h).2.1
    rw [← hread rest' hr]
    unfold readIntPart
    split
    · next heq =>
      obtain ⟨rfl, -⟩ := List.cons.inj heq
      exact absurd rfl (hne (l ++ rest))
    · rfl

/-- What may follow the fraction: no digit and no point. -/
def FracEnd (rest : Bytes) : Prop := NoDigit rest ∧ ∀ t, rest ≠ 0x2E :: t

theorem literal_readFrac : Literal readFrac FracEnd := by
  intro s lit rest h
  unfold readFrac at h
  split at h
  · obtain ⟨ds, hds, rfl⟩ := before_some h
    obtain ⟨rfl, hnum, hread⟩ := literal_readDigits hds
    refine ⟨rfl, ?_, fun rest' hr => ?_⟩
    · intro b hb
      rcases mem_cons.1 hb with rfl | hb
      · rfl
      · exact hnum b hb
    · show before [0x2E] (readDigits (ds ++ rest')) = _
      rw [hread rest' hr.1]
      rfl
  · cases h
    exact ⟨rfl, nofun, fun rest' hr => readFrac_none hr.2⟩

theorem readFrac_head {f : Bytes} (h : readFrac s = some (f, rest)) :
    f = [] ∨ ∃ t, f = 0x2E :: t := by
  unfold readFrac at h
  split at h
  · obtain ⟨ds, -, rfl⟩ := before_some h
    exact Or.inr ⟨ds, rfl⟩
  · cases h
    exact Or.inl rfl

theorem readExp_head {e : Bytes} (h : readExp s = some (e, rest)) :
    e = [] ∨ ∃ b t, e = b :: t ∧ (b = 0x65 ∨ b = 0x45) := by
  unfold readExp at h
  split at h
  · split_ifs at h with hb
    · obtain ⟨ds, -, rfl⟩ := before_some h
      exact Or.inr ⟨_, _, rfl, hb⟩
    · cases h
      exact Or.inl rfl
  · cases h
    exact Or.inl rfl

theorem readExpSign_spec (s : Bytes) :
    s = (readExpSign s).1 ++ (readExpSign s).2 ∧ (∀ b ∈ (readExpSign s).1, isNum b = true) ∧
      ∀ d t, isDigit d = true →
        readExpSign ((readExpSign s).1 ++ d :: t) = ((readExpSign s).1, d :: t) := by
  unfold readExpSign
  split
  · exact ⟨rfl, fun b hb => by rw [mem_singleton.1 hb]; rfl, fun _ _ _ => rfl⟩
  · exact ⟨rfl, fun b hb => by rw [mem_singleton.1 hb]; rfl, fun _ _ _ => rfl⟩
  · refine ⟨rfl, fun _ hb => absurd hb not_mem_nil, fun d t hd => ?_⟩
    change readExpSign (d :: t) = ([], d :: t)
    unfold readExpSign
    split
    · next heq => obtain ⟨rfl, -⟩ := List.cons.inj heq; cases hd
    · next heq => obtain ⟨rfl, -⟩ := List.cons.inj heq; cases hd
    · rfl

theorem literal_readExp : Literal readExp NumEnd := by
  intro s lit rest h
  unfold readExp at h
  split at h
  · next b s =>
    split_ifs at h with hb
    · obtain ⟨ds, hds, rfl⟩ := before_some h
      obtain ⟨heq, hnum, hread⟩ := literal_readDigits hds
      obtain ⟨hs, hsign, hsread⟩ := readExpSign_spec s
      have hbn : isNum b = true := by rcases hb with rfl | rfl <;> rfl
      refine ⟨?_, ?_, fun rest' hr => ?_⟩
      · rw [cons_append, cons_append, append_assoc, ← heq, ← hs]
      · intro c hc
        rcases mem_append.1 hc with hc | hc
        · rcases mem_cons.1 hc with rfl | hc
          · exact hbn
          · exact hsign c hc
        · exact hnum c hc
      · obtain ⟨-, hne, hd⟩ := digits_readDigits hds
        obtain ⟨d, ds', rfl⟩ := exists_cons_of_ne_nil hne
        have hsr := hsread d (ds' ++ rest') (hd d mem_cons_self)
        rw [cons_append, cons_append, append_assoc, readExp, if_pos hb]
        rw [cons_append, hsr]
        have hrr := hread rest' hr.noDigit
        rw [cons_append] at hrr
        rw [hrr]
        rfl
    · cases h
      exact ⟨rfl, fun _ hc => absurd hc not_mem_nil, fun rest' hr => readExp_none hr⟩
  · cases h
    exact ⟨rfl, fun _ hc => absurd hc not_mem_nil, fun rest' hr => readExp_none hr⟩

theorem readUnsigned_some {lit : Bytes} (h : readUnsigned s = some (lit, rest)) :
    ∃ i f e s1 s2, readIntPart s = some (i, s1) ∧ readFrac s1 = some (f, s2) ∧
      readExp s2 = some (e, rest) ∧ lit = i ++ (f ++ e) := by
  simp only [readUnsigned, Option.bind_eq_bind, Option.pure_def, Option.bind_eq_some_iff] at h
  obtain ⟨⟨i, s1⟩, hi, ⟨f, s2⟩, hf, ⟨e, s3⟩, he, heq⟩ := h
  cases heq
  exact ⟨i, f, e, s1, s2, hi, hf, he, append_assoc i f e⟩

theorem fracEnd_exp {e rest' : Bytes} (h : readExp s = some (e, rest)) (hr : NumEnd rest') :
    FracEnd (e ++ rest') := by
  rcases readExp_head h with rfl | ⟨b, t, rfl, hb⟩
  · exact ⟨hr.noDigit, fun t ht => (hr _ t ht).2.1 rfl⟩
  · refine ⟨fun c u hc => ?_, fun u hu => ?_⟩
    · obtain ⟨rfl, -⟩ := List.cons.inj hc
      rcases hb with rfl | rfl <;> rfl
    · obtain ⟨rfl, -⟩ := List.cons.inj hu
      exact absurd hb (by decide)

theorem noDigit_frac {f rest' : Bytes} (h : readFrac s = some (f, rest)) (hr : FracEnd rest') :
    NoDigit (f ++ rest') := by
  rcases readFrac_head h with rfl | ⟨t, rfl⟩
  · exact hr.1
  · intro c u hc
    obtain ⟨rfl, -⟩ := List.cons.inj hc
    rfl

theorem literal_readUnsigned : Literal readUnsigned NumEnd := by
  intro s lit rest h
  obtain ⟨i, f, e, s1, s2, hi, hf, he, rfl⟩ := readUnsigned_some h
  obtain ⟨rfl, hin, hir⟩ := literal_readIntPart hi
  obtain ⟨rfl, hfn, hfr⟩ := literal_readFrac hf
  obtain ⟨rfl, hen, her⟩ := literal_readExp he
  refine ⟨by simp only [append_assoc], ?_, fun rest' hr => ?_⟩
  · intro b hb
    rcases mem_append.1 hb with hb | hb
    · exact hin b hb
    · rcases mem_append.1 hb with hb | hb
      · exact hfn b hb
      · exact hen b hb
  · have hfe := fracEnd_exp he hr
    have hi' := hir _ (noDigit_frac hf hfe)
    have hf' := hfr _ hfe
    have he' := her _ hr
    simp only [append_assoc] at hi' ⊢
    simp [readUnsigned, hi', hf', he']

theorem literal_readNum : Literal readNum NumEnd := by
  intro s lit rest h
  unfold readNum at h
  split at h
  · obtain ⟨u, hu, rfl⟩ := before_some h
    obtain ⟨rfl, hnum, hread⟩ := literal_readUnsigned hu
    refine ⟨rfl, ?_, fun rest' hr => ?_⟩
    · intro b hb
      rcases mem_cons.1 hb with rfl | hb
      · rfl
      · exact hnum b hb
    · show before [0x2D] (readUnsigned (u ++ rest')) = _
      rw [hread rest' hr]
      rfl
  · next s hne =>
    obtain ⟨heq, hnum, hread⟩ := literal_readUnsigned h
    refine ⟨heq, hnum, fun rest' hr => ?_⟩
    obtain ⟨i, f, e, s1, s2, hi, -, -, rfl⟩ := readUnsigned_some h
    obtain ⟨b, l, rfl⟩ := exists_cons_of_ne_nil (readIntPart_ne_nil hi)
    rw [← hread rest' hr]
    unfold readNum
    split
    · next heq' =>
      obtain ⟨rfl, -⟩ := List.cons.inj heq'
      exact absurd heq (hne _)
    · rfl

theorem readNum_ne_nil {lit : Bytes} (h : readNum s = some (lit, rest)) : lit ≠ [] := by
  unfold readNum at h
  split at h
  · obtain ⟨u, -, rfl⟩ := before_some h
    exact cons_ne_nil _ _
  · obtain ⟨i, f, e, s1, s2, hi, -, -, rfl⟩ := readUnsigned_some h
    exact append_ne_nil_of_left_ne_nil (readIntPart_ne_nil hi) _

theorem readNum_head {lit : Bytes} (h : readNum s = some (lit, rest)) :
    ∃ b t, s = b :: t ∧ isNum b = true := by
  obtain ⟨heq, hnum, -⟩ := literal_readNum h
  obtain ⟨b, t, rfl⟩ := exists_cons_of_ne_nil (readNum_ne_nil h)
  exact ⟨b, t ++ rest, heq, hnum b mem_cons_self⟩

theorem readIntPart_decimal (n : Nat) (hr : NumEnd rest) :
    readIntPart (decimal n ++ rest) = some (decimal n, rest) := by
  have hread := readDigits_append (decimal_ne_nil n) (fun b => isDigit_of_mem_decimal) hr.noDigit
  rcases Nat.eq_zero_or_pos n with rfl | hn
  · rfl
  · cases h : decimal n with
    | nil => exact absurd h (decimal_ne_nil n)
    | cons b t =>
      have hb := decimal_head_ne_zero n hn h
      rw [h] at hread
      unfold readIntPart
      split
      · next heq => exact absurd (List.cons.inj heq).1 hb
      · exact hread

theorem readUnsigned_decimal (n : Nat) (hr : NumEnd rest) :
    readUnsigned (decimal n ++ rest) = some (decimal n, rest) := by
  have hf := readFrac_none fun t ht => (hr _ t ht).2.1 rfl
  simp [readUnsigned, readIntPart_decimal n hr, hf, readExp_none hr]

theorem readNum_decimalInt (i : Int) (hr : NumEnd rest) :
    readNum (decimalInt i ++ rest) = some (decimalInt i, rest) := by
  cases i with
  | negSucc n =>
    show before [0x2D] (readUnsigned (decimal (n + 1) ++ rest)) = _
    rw [readUnsigned_decimal _ hr]
    rfl
  | ofNat n =>
    have hread := readUnsigned_decimal n hr
    show readNum (decimal n ++ rest) = some (decimal n, rest)
    unfold readNum
    split
    · next heq =>
      -- a decimal starts with a digit, not with a minus sign
      cases h : decimal n with
      | nil => exact absurd h (decimal_ne_nil n)
      | cons b t =>
        rw [h] at heq
        have hb := decimal_head h
        rw [(List.cons.inj heq).1] at hb
        exact absurd hb (by decide)
    · exact hread

/-! ## White space -/

theorem skipWs_cons (h : isWs b = false) (s : Bytes) : skipWs (b :: s) = b :: s := by
  simp [skipWs, h]

theorem isWs_of_skipWs {b : UInt8} (h : skipWs s = b :: t) : isWs b = false := by
  have hnot := List.head?_dropWhile_not isWs s
  rw [show s.dropWhile isWs = b :: t from h] at hnot
  simpa using hnot

theorem skipWs_skipWs (s : Bytes) : skipWs (skipWs s) = skipWs s := by
  cases h : skipWs s with
  | nil => rfl
  | cons b t => exact skipWs_cons (isWs_of_skipWs h) t

theorem length_skipWs_le (s : Bytes) : (skipWs s).length ≤ s.length :=
  length_dropWhile_le isWs s

/-! ## Values -/

/-- What one of the readers returns. -/
inductive Item where
  | value (j : Json)
  | elems (xs : List Json)
  | members (ms : List (Bytes × Json))

/-- The values that are written as a word. -/
def words : List (Bytes × Json) :=
  [(ascii "null", .null), (ascii "true", .bool true), (ascii "false", .bool false)]

/-- What the readers take from a text, and what they leave. -/
inductive Text : Item → Bytes → Bytes → Prop
  | word {s w rest : Bytes} {j : Json} (hw : (w, j) ∈ words) (hs : skipWs s = w ++ rest) :
      Text (.value j) s rest
  | num {s lit rest : Bytes} (hs : readNum (skipWs s) = some (lit, rest)) :
      Text (.value (.num lit)) s rest
  | str {s t u rest : Bytes} (hs : skipWs s = 0x22 :: t) (ht : StrText t u rest) :
      Text (.value (.str u)) s rest
  | arrNil {s t rest : Bytes} (hs : skipWs s = 0x5B :: t) (ht : skipWs t = 0x5D :: rest) :
      Text (.value (.arr [])) s rest
  | arr {s t rest : Bytes} {xs : List Json} (hs : skipWs s = 0x5B :: t)
      (ht : Text (.elems xs) t rest) : Text (.value (.arr xs)) s rest
  | objNil {s t rest : Bytes} (hs : skipWs s = 0x7B :: t) (ht : skipWs t = 0x7D :: rest) :
      Text (.value (.obj [])) s rest
  | obj {s t rest : Bytes} {ms : List (Bytes × Json)} (hs : skipWs s = 0x7B :: t)
      (ht : Text (.members ms) t rest) : Text (.value (.obj ms)) s rest
  | elem {s t rest : Bytes} {x : Json} (hx : Text (.value x) s t) (ht : skipWs t = 0x5D :: rest) :
      Text (.elems [x]) s rest
  | elems {s t u rest : Bytes} {x : Json} {xs : List Json} (hx : Text (.value x) s t)
      (ht : skipWs t = 0x2C :: u) (hu : Text (.elems xs) u rest) : Text (.elems (x :: xs)) s rest
  | member {s t k s1 u s2 rest : Bytes} {v : Json} (hs : skipWs s = 0x22 :: t)
      (ht : StrText t k s1) (hs1 : skipWs s1 = 0x3A :: u) (hu : Text (.value v) u s2)
      (hs2 : skipWs s2 = 0x7D :: rest) : Text (.members [(k, v)]) s rest
  | members {s t k s1 u s2 w rest : Bytes} {v : Json} {ms : List (Bytes × Json)}
      (hs : skipWs s = 0x22 :: t) (ht : StrText t k s1) (hs1 : skipWs s1 = 0x3A :: u)
      (hu : Text (.value v) u s2) (hs2 : skipWs s2 = 0x2C :: w) (hw : Text (.members ms) w rest) :
      Text (.members ((k, v) :: ms)) s rest

variable {j : Json} {it : Item}

theorem readValue_skipWs (n : Nat) (s : Bytes) : readValue n (skipWs s) = readValue n s := by
  cases n with
  | zero => rfl
  | succ n => rw [readValue, readValue, skipWs_skipWs]

theorem readElems_skipWs (n : Nat) (s : Bytes) : readElems n (skipWs s) = readElems n s := by
  cases n with
  | zero => rfl
  | succ n => rw [readElems, readElems, readValue_skipWs]

theorem readMembers_skipWs (n : Nat) (s : Bytes) : readMembers n (skipWs s) = readMembers n s := by
  cases n with
  | zero => rfl
  | succ n => rw [readMembers, readMembers, skipWs_skipWs]

theorem Text.value_head (h : Text (.value j) s rest) : ∃ b t, skipWs s = b :: t ∧ b ≠ 0x5D := by
  cases h with
  | word hw hs =>
    simp only [words, mem_cons, Prod.mk.injEq, not_mem_nil, or_false] at hw
    rcases hw with ⟨rfl, -⟩ | ⟨rfl, -⟩ | ⟨rfl, -⟩ <;> exact ⟨_, _, hs, by decide⟩
  | num hs =>
    obtain ⟨b, t, hs, hb⟩ := readNum_head hs
    exact ⟨b, t, hs, ne_of_isNum hb (by decide)⟩
  | str hs _ | arrNil hs _ | arr hs _ | objNil hs _ | obj hs _ => exact ⟨_, _, hs, by decide⟩

theorem Text.elems_head {xs : List Json} (h : Text (.elems xs) s rest) (u : Bytes) :
    skipWs s ≠ 0x5D :: u := by
  obtain ⟨x, t, hx⟩ : ∃ x t, Text (.value x) s t := by
    cases h with
    | elem hx _ => exact ⟨_, _, hx⟩
    | elems hx _ _ => exact ⟨_, _, hx⟩
  obtain ⟨b, t, hs, hb⟩ := hx.value_head
  rw [hs]
  exact fun heq => hb (List.cons.inj heq).1

theorem Text.members_head {ms : List (Bytes × Json)} (h : Text (.members ms) s rest) :
    ∃ u, skipWs s = 0x22 :: u := by
  cases h with
  | member hs _ _ _ _ => exact ⟨_, hs⟩
  | members hs _ _ _ _ _ => exact ⟨_, hs⟩

/-- The reader of the item takes it from the text. -/
def Item.Reads (s rest : Bytes) : Item → Prop
  | .value j => Base.Reads readValue s j rest
  | .elems xs => Base.Reads readElems s xs rest
  | .members ms => Base.Reads readMembers s ms rest

theorem length_skipWs {w : Bytes} (h : skipWs s = w ++ t) : w.length + t.length ≤ s.length := by
  rw [← length_append, ← h]
  exact length_skipWs_le s

theorem length_mark (h : skipWs s = b :: t) : t.length < s.length := by
  have hlen := length_skipWs_le s
  rw [h] at hlen
  exact hlen

/-- With fuel for the bytes it takes a reader takes what the rules say. -/
theorem Text.reads (h : Text it s rest) : it.Reads s rest := by
  induction h with
  | word hw hs =>
    have hlen := length_skipWs hs
    simp only [words, mem_cons, Prod.mk.injEq, not_mem_nil, or_false] at hw
    rcases hw with ⟨rfl, rfl⟩ | ⟨rfl, rfl⟩ | ⟨rfl, rfl⟩
    all_goals
      refine Reads.of_succ (lt_of_lt_of_le (Nat.lt_add_of_pos_left (by decide)) hlen) fun n _ => ?_
      rw [readValue, hs]
      rfl
  | @num s lit rest hs =>
    obtain ⟨b, t, hskip, hb⟩ := readNum_head hs
    have hlen := length_skipWs (literal_readNum hs).1
    have hpos := length_pos_iff.mpr (readNum_ne_nil hs)
    refine Reads.of_succ (by omega) fun n _ => ?_
    unfold readValue
    split
    case h_7 => rw [hs]; rfl
    all_goals
      rename_i heq
      exact absurd (List.cons.inj (hskip.symm.trans heq)).1 (ne_of_isNum hb (by decide))
  | str hs ht =>
    have hlt := ht.reads.1
    have hlen := length_mark hs
    refine Reads.of_succ (by omega) fun n _ => ?_
    rw [readValue, hs]
    simp only [ht.read]
    rfl
  | arrNil hs ht | objNil hs ht =>
    have hlen := length_mark hs
    have hlen' := length_mark ht
    refine Reads.of_succ (by omega) fun n _ => ?_
    rw [readValue, hs]
    simp only [ht]
  | arr hs ht ih =>
    obtain ⟨hlt, hread⟩ := ih
    have hlen := length_mark hs
    refine Reads.of_succ (by omega) fun n hn => ?_
    rw [readValue, hs]
    simp only
    split
    · next heq => exact absurd heq (ht.elems_head _)
    · rw [readElems_skipWs, hread n (by omega)]
      rfl
  | obj hs ht ih =>
    obtain ⟨hlt, hread⟩ := ih
    have hlen := length_mark hs
    obtain ⟨u, hu⟩ := ht.members_head
    refine Reads.of_succ (by omega) fun n hn => ?_
    have hms := hread n (by omega)
    rw [← readMembers_skipWs, hu] at hms
    rw [readValue, hs]
    simp only [hu]
    exact congrArg (Option.map _) hms
  | elem _ ht ih =>
    obtain ⟨hlt, hread⟩ := ih
    have hlen := length_mark ht
    refine Reads.of_succ (by omega) fun n hn => ?_
    rw [readElems, hread n (by omega)]
    simp only [ht]
  | elems _ ht _ ih ih' =>
    obtain ⟨hlt, hread⟩ := ih
    obtain ⟨hlt', hread'⟩ := ih'
    have hlen := length_mark ht
    refine Reads.of_succ (by omega) fun n hn => ?_
    rw [readElems, hread n (by omega)]
    simp only [ht]
    rw [hread' n (by omega)]
    rfl
  | member hs ht hs1 _ hs2 ih =>
    obtain ⟨hlt, hread⟩ := ih
    have hkey := ht.reads.1
    have hlen := length_mark hs
    have hlen1 := length_mark hs1
    have hlen2 := length_mark hs2
    refine Reads.of_succ (by omega) fun n hn => ?_
    rw [readMembers, hs]
    simp only [ht.read, hs1, hread n (by omega), hs2]
  | members hs ht hs1 _ hs2 _ ih ih' =>
    obtain ⟨hlt, hread⟩ := ih
    obtain ⟨hlt', hread'⟩ := ih'
    have hkey := ht.reads.1
    have hlen := length_mark hs
    have hlen1 := length_mark hs1
    have hlen2 := length_mark hs2
    refine Reads.of_succ (by omega) fun n hn => ?_
    rw [readMembers, hs]
    simp only [ht.read, hs1, hread n (by omega), hs2]
    rw [hread' n (by omega)]
    rfl

/-- The readers take nothing else. -/
theorem Text.of_read (n : Nat) :
    (∀ s j rest, readValue n s = some (j, rest) → Text (.value j) s rest) ∧
    (∀ s xs rest, readElems n s = some (xs, rest) → Text (.elems xs) s rest) ∧
    (∀ s ms rest, readMembers n s = some (ms, rest) → Text (.members ms) s rest) := by
  induction n with
  | zero =>
    refine ⟨fun s j rest h => ?_, fun s xs rest h => ?_, fun s ms rest h => ?_⟩
    · simp [readValue] at h
    · simp [readElems] at h
    · simp [readMembers] at h
  | succ n ih =>
    obtain ⟨ihv, ihe, ihm⟩ := ih
    refine ⟨fun s j rest h => ?_, fun s xs rest h => ?_, fun s ms rest h => ?_⟩
    · unfold readValue at h
      split at h
      · next hs =>
        obtain ⟨⟨u, v⟩, hu, he⟩ := Option.map_eq_some_iff.mp h
        cases he
        exact .str hs (.of_read hu)
      · next hs =>
        split at h
        · next ht =>
          cases h
          exact .arrNil hs ht
        · obtain ⟨⟨xs, v⟩, hu, he⟩ := Option.map_eq_some_iff.mp h
          cases he
          rw [readElems_skipWs] at hu
          exact .arr hs (ihe _ _ _ hu)
      · next hs =>
        split at h
        · next ht =>
          cases h
          exact .objNil hs ht
        · obtain ⟨⟨ms, v⟩, hu, he⟩ := Option.map_eq_some_iff.mp h
          cases he
          rw [readMembers_skipWs] at hu
          exact .obj hs (ihm _ _ _ hu)
      · next hs =>
        cases h
        exact .word (w := ascii "null") (by simp [words]) hs
      · next hs =>
        cases h
        exact .word (w := ascii "true") (by simp [words]) hs
      · next hs =>
        cases h
        exact .word (w := ascii "false") (by simp [words]) hs
      · obtain ⟨⟨lit, v⟩, hu, he⟩ := Option.map_eq_some_iff.mp h
        cases he
        exact .num hu
    · unfold readElems at h
      split at h
      · cases h
      · next hx =>
        split at h
        · next ht =>
          cases h
          exact .elem (ihv _ _ _ hx) ht
        · next ht =>
          obtain ⟨⟨ys, v⟩, hu, he⟩ := Option.map_eq_some_iff.mp h
          cases he
          exact .elems (ihv _ _ _ hx) ht (ihe _ _ _ hu)
        · cases h
    · unfold readMembers at h
      split at h
      · next hs =>
        split at h
        · cases h
        · next hk =>
          split at h
          · next hs1 =>
            split at h
            · cases h
            · next hv =>
              split at h
              · next hs2 =>
                cases h
                exact .member hs (.of_read hk) hs1 (ihv _ _ _ hv) hs2
              · next hs2 =>
                obtain ⟨⟨ms', w⟩, hu, he⟩ := Option.map_eq_some_iff.mp h
                cases he
                exact .members hs (.of_read hk) hs1 (ihv _ _ _ hv) hs2 (ihm _ _ _ hu)
              · cases h
          · cases h
      · cases h

theorem parse_iff : Json.parse s = some j ↔ ∃ rest, Text (.value j) s rest ∧ skipWs rest = [] := by
  constructor
  · intro h
    unfold Json.parse at h
    split at h
    · next rest hr =>
      split_ifs at h with hrest
      cases h
      exact ⟨rest, (Text.of_read _).1 _ _ _ hr, hrest⟩
    · cases h
  · rintro ⟨rest, h, hrest⟩
    rw [Json.parse, h.reads.2 _ (by omega)]
    exact if_pos hrest

/-! ## Reading back a written value -/

theorem numEnd_cons (h : isDigit b = false ∧ b ≠ 0x2E ∧ b ≠ 0x65 ∧ b ≠ 0x45) (t : Bytes) :
    NumEnd (b :: t) := by
  intro c u heq
  rw [← (List.cons.inj heq).1]
  exact h

/-- A written value is read back with its bad bytes replaced. -/
theorem Text.encoded (hj : j.IntNums) (hr : NumEnd rest) :
    Text (.value j.sanitize) (j.encode ++ rest) rest := by
  induction j using Json.induction generalizing rest with
  | null => exact .word (w := ascii "null") (by simp [words, Json.sanitize]) rfl
  | bool b =>
    refine .word (w := (Json.bool b).encode) ?_ ?_
    · cases b <;> simp [words, Json.sanitize, Json.encode]
    · cases b <;> rfl
  | num lit =>
    simp only [Json.IntNums] at hj
    obtain ⟨i, rfl⟩ := hj
    have hread := readNum_decimalInt i hr
    obtain ⟨b, t, hs, hb⟩ := readNum_head hread
    refine .num ?_
    rw [Json.encode, hs, skipWs_cons (isWs_of_isNum hb), ← hs]
    exact hread
  | str s =>
    refine .str (t := quoteBody s ++ 0x22 :: rest) ?_ (.quoted s rest)
    rw [Json.encode, quote, cons_append, append_assoc, skipWs_cons (by decide)]
    rfl
  | arr xs ih =>
    simp only [Json.IntNums, intElems_iff] at hj
    cases xs with
    | nil => exact .arrNil rfl rfl
    | cons x xs =>
      refine .arr (t := joinWith 0x2C (encodeElems (x :: xs)) ++ 0x5D :: rest) ?_ ?_
      · rw [Json.encode, cons_append, append_assoc, skipWs_cons (by decide)]
        rfl
      induction xs generalizing x with
      | nil =>
        exact .elem (ih x mem_cons_self (hj x mem_cons_self) (numEnd_cons (by decide) rest))
          (skipWs_cons (by decide) _)
      | cons y ys ihs =>
        have hrest := ihs y (fun z hz => ih z (mem_cons_of_mem x hz)) fun z hz =>
          hj z (mem_cons_of_mem x hz)
        have hx := ih x mem_cons_self (hj x mem_cons_self) (numEnd_cons
          (b := 0x2C) (by decide) (joinWith 0x2C (encodeElems (y :: ys)) ++ 0x5D :: rest))
        rw [encodeElems, encodeElems, joinWith_cons, ← encodeElems, append_assoc]
        exact .elems hx (skipWs_cons (by decide) _) hrest
  | obj ms ih =>
    simp only [Json.IntNums, intMembers_iff] at hj
    cases ms with
    | nil => exact .objNil rfl rfl
    | cons m ms =>
      refine .obj (t := joinWith 0x2C (encodeMembers (m :: ms)) ++ 0x7D :: rest) ?_ ?_
      · rw [Json.encode, cons_append, append_assoc, skipWs_cons (by decide)]
        rfl
      -- the key of a member, up to its value
      have hkey (m : Bytes × Json) (t : Bytes) : skipWs (quote m.1 ++ 0x3A :: m.2.encode ++ t) =
          0x22 :: (quoteBody m.1 ++ 0x22 :: 0x3A :: (m.2.encode ++ t)) := by
        rw [quote, cons_append, cons_append, skipWs_cons (by decide)]
        simp
      induction ms generalizing m with
      | nil =>
        exact .member (hkey m _) (.quoted m.1 _) (skipWs_cons (by decide) _)
          (ih m mem_cons_self (hj m mem_cons_self) (numEnd_cons (by decide) rest))
          (skipWs_cons (by decide) _)
      | cons m' ms ihs =>
        have hrest := ihs m' (fun z hz => ih z (mem_cons_of_mem m hz)) fun z hz =>
          hj z (mem_cons_of_mem m hz)
        have hm := ih m mem_cons_self (hj m mem_cons_self) (numEnd_cons
          (b := 0x2C) (by decide) (joinWith 0x2C (encodeMembers (m' :: ms)) ++ 0x7D :: rest))
        rw [encodeMembers, encodeMembers, joinWith_cons, ← encodeMembers, append_assoc]
        exact .members (hkey m _) (.quoted m.1 _) (skipWs_cons (by decide) _) hm
          (skipWs_cons (by decide) _) hrest

/-- Reading what was written gives the value back, its strings' bad bytes replaced by U+FFFD. -/
theorem parse_encode (hj : j.IntNums) : Json.parse j.encode = some j.sanitize := by
  have hend : NumEnd [] := fun b t h => by cases h
  have h := Text.encoded hj hend
  rw [append_nil] at h
  exact parse_iff.mpr ⟨[], h, rfl⟩

/-! ## What is read has no bad bytes -/

/-- Replacing bad bytes changes nothing. -/
def Item.Clean : Item → Prop
  | .value j => j.sanitize = j
  | .elems xs => sanitizeElems xs = xs
  | .members ms => sanitizeMembers ms = ms

theorem Text.clean (h : Text it s rest) : it.Clean := by
  induction h with
  | word hw _ =>
    simp only [words, mem_cons, Prod.mk.injEq, not_mem_nil, or_false] at hw
    rcases hw with ⟨-, rfl⟩ | ⟨-, rfl⟩ | ⟨-, rfl⟩ <;> rfl
  | num _ | arrNil _ _ | objNil _ _ => rfl
  | str _ ht => exact congrArg Json.str (sanitize_of_valid ht.valid)
  | arr _ _ ih => exact congrArg Json.arr ih
  | obj _ _ ih => exact congrArg Json.obj ih
  | elem _ _ ih => exact congrArg (· :: []) ih
  | elems _ _ _ ih ih' => exact congrArg₂ List.cons ih ih'
  | member _ ht _ _ _ ih =>
    exact congrArg (· :: []) (Prod.ext (sanitize_of_valid ht.valid) ih)
  | members _ ht _ _ _ _ ih ih' =>
    exact congrArg₂ List.cons (Prod.ext (sanitize_of_valid ht.valid) ih) ih'

theorem sanitize_parse (h : Json.parse s = some j) : j.sanitize = j := by
  obtain ⟨rest, h, -⟩ := parse_iff.mp h
  exact h.clean

/-! ## Changed texts -/

/-- A byte of a word outside the strings. -/
def isWordByte (b : UInt8) : Bool := !isWs b && b != 0x22

/-- A text changed by `g` outside the strings and by `gs` inside them is read like the text
    itself; `E` is what may follow a number. -/
structure Image (E : Bytes → Prop) (g gs : Bytes → Bytes) : Prop where
  word : ∀ {s w rest}, w ≠ [] → (∀ b ∈ w, isWordByte b = true) → skipWs s = w ++ rest →
    skipWs (g s) = w ++ g rest
  quote : ∀ {s t}, skipWs s = 0x22 :: t → skipWs (g s) = 0x22 :: gs t
  str : ∀ {s u t}, StrText s u t → StrText (gs s) u (g t)
  ended : ∀ {s b t}, skipWs s = b :: t → b = 0x2C ∨ b = 0x5D ∨ b = 0x7D → E s
  numEnd : ∀ {s}, E s → NumEnd (g s)

/-- A number has to be followed by something that ends it. -/
def Item.EndsBefore (E : Bytes → Prop) (rest : Bytes) : Item → Prop
  | .value (.num _) => E rest
  | _ => True

theorem Item.EndsBefore.of {E : Bytes → Prop} (h : E rest) (it : Item) : it.EndsBefore E rest := by
  unfold Item.EndsBefore
  split
  · exact h
  · trivial

/-- A byte that ends or separates values stands in the changed text too. -/
theorem Image.mark {E : Bytes → Prop} {g gs : Bytes → Bytes} (h : Image E g gs)
    (hs : skipWs s = b :: t) (hb : b ≠ 0x22) : skipWs (g s) = b :: g t := by
  refine h.word (cons_ne_nil b []) (fun c hc => ?_) hs
  rw [mem_singleton.mp hc, isWordByte, isWs_of_skipWs hs, bne_iff_ne.mpr hb]
  rfl

/-- The changed text is read like the text itself. -/
theorem Image.text {E : Bytes → Prop} {g gs : Bytes → Bytes} (h : Image E g gs)
    (ht : Text it s rest) (hend : it.EndsBefore E rest) : Text it (g s) (g rest) := by
  induction ht with
  | word hw hs =>
    refine .word hw (h.word ?_ ?_ hs)
    all_goals
      simp only [words, mem_cons, Prod.mk.injEq, not_mem_nil, or_false] at hw
      rcases hw with ⟨rfl, -⟩ | ⟨rfl, -⟩ | ⟨rfl, -⟩ <;> decide +kernel
  | num hs =>
    obtain ⟨heq, hnum, hread⟩ := literal_readNum hs
    refine .num ?_
    rw [h.word (readNum_ne_nil hs) (fun b hb => ?_) heq]
    · exact hread _ (h.numEnd hend)
    · rw [isWordByte, isWs_of_isNum (hnum b hb),
        bne_iff_ne.mpr (ne_of_isNum (hnum b hb) (by decide))]
      rfl
  | str hs ht => exact .str (h.quote hs) (h.str ht)
  | arrNil hs ht => exact .arrNil (h.mark hs (by decide)) (h.mark ht (by decide))
  | objNil hs ht => exact .objNil (h.mark hs (by decide)) (h.mark ht (by decide))
  | arr hs _ ih => exact .arr (h.mark hs (by decide)) (ih trivial)
  | obj hs _ ih => exact .obj (h.mark hs (by decide)) (ih trivial)
  | elem _ ht ih => exact .elem (ih (.of (h.ended ht (by decide)) _)) (h.mark ht (by decide))
  | elems _ ht _ ih ih' =>
    exact .elems (ih (.of (h.ended ht (by decide)) _)) (h.mark ht (by decide)) (ih' trivial)
  | member hs ht hs1 _ hs2 ih =>
    exact .member (h.quote hs) (h.str ht) (h.mark hs1 (by decide))
      (ih (.of (h.ended hs2 (by decide)) _)) (h.mark hs2 (by decide))
  | members hs ht hs1 _ hs2 _ ih ih' =>
    exact .members (h.quote hs) (h.str ht) (h.mark hs1 (by decide))
      (ih (.of (h.ended hs2 (by decide)) _)) (h.mark hs2 (by decide)) (ih' trivial)

end Tuck.Base
