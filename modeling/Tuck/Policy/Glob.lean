/-
  The glob matcher of policy rules. It exists twice: `globMatch` of the server works on the
  bytes of UTF-8 strings, its port in the web UI on UTF-16 code units.

  Both are `glob` over their units. The server's loop after a double star runs over runes,
  which is a loop over bytes as far as slashes go (`rangeSlash_eq`). On encoded text the
  units do not matter (`glob_encode`): a match that starts inside a character starts with a
  star of the pattern, so it can start at the character as well.
-/
import Tuck.Base.Encoding

namespace Tuck.Policy

open Tuck.Base List Encoding

/-! ## The matcher over any units -/

section

variable {α : Type} [DecidableEq α] (star slash : α)

/-- The suffixes after a slash. -/
def afterSlash (f : List α → Bool) : List α → Bool
  | [] => false
  | c :: s => (c = slash && f s) || afterSlash f s

/-- The loop of a single star: it stops at a slash, before it tries the rest there. -/
def segLoop (f : List α → Bool) : List α → Bool
  | [] => f []
  | c :: s => if c = slash then false else f (c :: s) || segLoop f s

/-- `globMatch` over units. -/
def glob : List α → List α → Bool
  | [], s => s.isEmpty
  | p :: ps, s =>
      if p = star then
        match ps with
        | [] => segLoop slash (glob []) s
        | [q] => if q = star then true else segLoop slash (glob [q]) s
        | q :: r :: rest =>
            if q = star ∧ r = slash then glob rest s || afterSlash slash (glob rest) s
            else segLoop slash (glob (q :: r :: rest)) s
      else
        match s with
        | [] => false
        | c :: s => p = c && glob ps s

end

/-! ## The server -/

/-- `for i, c := range s`: the remainder after each rune that is a slash. -/
def rangeSlash (f : Bytes → Bool) : List Chunk → Bytes → Bool
  | [], _ => false
  | c :: cs, s =>
      (c = .rune [0x2F] && f (s.drop c.bytes.length)) || rangeSlash f cs (s.drop c.bytes.length)

/-- `globMatch` of the server. -/
def globMatch : Bytes → Bytes → Bool
  | [], s => s.isEmpty
  | p :: ps, s =>
      if p = 0x2A then
        match ps with
        | [] => segLoop 0x2F (globMatch []) s
        | [q] => if q = 0x2A then true else segLoop 0x2F (globMatch [q]) s
        | q :: r :: rest =>
            if q = 0x2A ∧ r = 0x2F then
              globMatch rest s || rangeSlash (globMatch rest) (chunks s) s
            else segLoop 0x2F (globMatch (q :: r :: rest)) s
      else
        match s with
        | [] => false
        | c :: s => p = c && globMatch ps s

def matchGlob (pattern path : Bytes) : Bool := globMatch pattern path

/-! ## The web UI -/

/-- `globMatch` of the web UI. -/
def globMatchWeb (pat s : List UInt16) : Bool := glob 0x2A 0x2F pat s

/-! ## One step of the matcher -/

section

variable {α : Type} [DecidableEq α] {star slash : α}

theorem glob_nil (s : List α) : glob star slash [] s = s.isEmpty := by rw [glob]

theorem glob_lit {p : α} (hp : p ≠ star) (ps : List α) (c : α) (s : List α) :
    glob star slash (p :: ps) (c :: s) = (decide (p = c) && glob star slash ps s) := by
  rw [glob.eq_def]
  exact if_neg hp

theorem glob_lit_nil {p : α} (hp : p ≠ star) (ps : List α) :
    glob star slash (p :: ps) [] = false := by
  rw [glob.eq_def]
  exact if_neg hp

theorem glob_double (s : List α) : glob star slash [star, star] s = true := by
  rw [glob.eq_def]
  exact (if_pos rfl).trans (if_pos rfl)

theorem glob_dirs (rest s : List α) : glob star slash (star :: star :: slash :: rest) s =
    (glob star slash rest s || afterSlash slash (glob star slash rest) s) := by
  rw [glob.eq_def]
  exact (if_pos rfl).trans (if_pos ⟨rfl, rfl⟩)

/-- What follows the star of a single-star step. -/
def Single (star slash : α) (ps : List α) : Prop :=
  ps ≠ [star] ∧ ∀ rest, ps ≠ star :: slash :: rest

theorem glob_seg {ps : List α} (h : Single star slash ps) (s : List α) :
    glob star slash (star :: ps) s = segLoop slash (glob star slash ps) s := by
  obtain ⟨h1, h2⟩ := h
  rw [glob.eq_def]
  simp only [if_true]
  match ps with
  | [] => rfl
  | [q] => exact if_neg fun hq => h1 (by rw [hq])
  | q :: r :: rest => exact if_neg fun hq => h2 rest (by rw [hq.1, hq.2])

/-- The three ways a star starts a pattern. -/
theorem star_cases (star slash : α) (ps : List α) :
    ps = [star] ∨ (∃ rest, ps = star :: slash :: rest) ∨ Single star slash ps := by
  by_cases h1 : ps = [star]
  · exact Or.inl h1
  · by_cases h2 : ∃ rest, ps = star :: slash :: rest
    · exact Or.inr (Or.inl h2)
    · exact Or.inr (Or.inr ⟨h1, fun rest h => h2 ⟨rest, h⟩⟩)

/-- Induction along the pattern as the matcher reads it. -/
theorem glob_induction (star slash : α) {P : List α → Prop} (nil : P [])
    (lit : ∀ p ps, p ≠ star → P ps → P (p :: ps)) (double : P [star, star])
    (dirs : ∀ rest, P rest → P (star :: star :: slash :: rest))
    (seg : ∀ ps, Single star slash ps → P ps → P (star :: ps)) (ps : List α) : P ps := by
  induction hn : ps.length using Nat.strong_induction_on generalizing ps with
  | _ n ih =>
    subst hn
    cases ps with
    | nil => exact nil
    | cons p ps =>
      by_cases hp : p = star
      · subst hp
        rcases star_cases p slash ps with rfl | ⟨rest, rfl⟩ | hs
        · exact double
        · exact dirs rest (ih _ (by simp only [length_cons]; omega) rest rfl)
        · exact seg ps hs (ih _ (Nat.lt_succ_self _) ps rfl)
      · exact lit p ps hp (ih _ (Nat.lt_succ_self _) ps rfl)

theorem afterSlash_append {f : List α → Bool} {u : List α} (hu : slash ∉ u) (s : List α) :
    afterSlash slash f (u ++ s) = afterSlash slash f s := by
  induction u with
  | nil => rfl
  | cons c u ih =>
    rw [mem_cons, not_or] at hu
    rw [cons_append, afterSlash, decide_eq_false (Ne.symm hu.1), Bool.false_and, Bool.false_or]
    exact ih hu.2

end

/-! ## The server's loop over runes -/

/-- A rune other than the slash holds no slash byte. -/
theorem slash_not_mem_rune {r : Bytes} (h : IsRune r) (hr : r ≠ [0x2F]) : (0x2F : UInt8) ∉ r := by
  intro hmem
  obtain ⟨x, xs, rfl, -, hxs⟩ := isRune_head h
  rcases mem_cons.mp hmem with rfl | hmem
  · have hlen : 1 = xs.length + 1 := h.2
    exact hr (by rw [eq_nil_of_length_eq_zero (by omega : xs.length = 0)])
  · exact absurd (hxs _ hmem) (by decide)

theorem rangeSlash_eq (f : Bytes → Bool) (s : Bytes) :
    rangeSlash f (chunks s) s = afterSlash 0x2F f s := by
  induction s using chunks_induction with
  | nil => rfl
  | rune r s hr ih =>
    rw [chunks_rune hr, rangeSlash, Chunk.bytes, drop_left, ih]
    by_cases h : r = [0x2F]
    · rw [h]
      rfl
    · have hne : ¬ Chunk.rune r = .rune [0x2F] := fun he => h (Chunk.rune.inj he)
      rw [afterSlash_append (slash_not_mem_rune hr h), decide_eq_false hne, Bool.false_and,
        Bool.false_or]
  | bad b s hb ih =>
    have hne : b ≠ 0x2F := by
      rintro rfl
      have hone : runeLen (0x2F :: s) = 1 := rfl
      omega
    rw [chunks_bad hb, rangeSlash, Chunk.bytes, length_singleton, drop_one,
      tail_cons, ih, afterSlash, decide_eq_false hne]
    rfl

/-- The server's matcher is the matcher over bytes. -/
theorem globMatch_eq (pat : Bytes) : globMatch pat = glob 0x2A 0x2F pat := by
  induction pat using glob_induction (0x2A : UInt8) 0x2F with
  | nil =>
    funext s
    rw [globMatch, glob]
  | lit p ps hp ih =>
    funext s
    rw [globMatch.eq_def]
    cases s with
    | nil => rw [glob_lit_nil hp]; exact if_neg hp
    | cons c s => rw [glob_lit hp, ← ih]; exact if_neg hp
  | double =>
    funext s
    rw [glob_double]
    rfl
  | dirs rest ih =>
    funext s
    rw [glob_dirs, ← ih, ← rangeSlash_eq]
    rfl
  | seg ps hs ih =>
    funext s
    rw [glob_seg hs, ← ih, globMatch.eq_def]
    simp only [if_true]
    match ps with
    | [] => rfl
    | [q] => exact if_neg fun hq => hs.1 (by rw [hq])
    | q :: r :: rest => exact if_neg fun hq => hs.2 rest (by rw [hq.1, hq.2])

/-! ## Encoded text -/

section

variable {α : Type} [DecidableEq α] {star slash : α} {f : List α → Bool}

theorem segLoop_append {u t : List α} (hu : slash ∉ u) (h : segLoop slash f t = true) :
    segLoop slash f (u ++ t) = true := by
  induction u with
  | nil => exact h
  | cons c u ih =>
    rw [mem_cons, not_or] at hu
    rw [cons_append, segLoop, if_neg (Ne.symm hu.1), ih hu.2, Bool.or_true]

theorem glob_append_lits {l q t : List α} (hl : star ∉ l) :
    glob star slash (l ++ q) t = true ↔ ∃ t', t = l ++ t' ∧ glob star slash q t' = true := by
  induction l generalizing t with
  | nil => exact ⟨fun h => ⟨t, rfl, h⟩, fun ⟨_, ht, h⟩ => ht ▸ h⟩
  | cons p l ih =>
    rw [mem_cons, not_or] at hl
    have hp : p ≠ star := Ne.symm hl.1
    cases t with
    | nil =>
      rw [cons_append, glob_lit_nil hp]
      exact ⟨fun h => absurd h Bool.false_ne_true, fun ⟨_, ht, _⟩ => absurd ht (by simp)⟩
    | cons c t =>
      rw [cons_append, glob_lit hp, Bool.and_eq_true, decide_eq_true_eq, ih hl.2]
      constructor
      · rintro ⟨rfl, t', rfl, h⟩
        exact ⟨t', rfl, h⟩
      · rintro ⟨t', ht, h⟩
        obtain ⟨rfl, rfl⟩ := List.cons.inj ht
        exact ⟨rfl, t', rfl, h⟩

/-- `f` accepts earlier whatever it accepts from the inside of a character on. -/
def Extends (E : Encoding α) (slash : α) (f : List α → Bool) : Prop :=
  ∀ x t v, ¬ E.lead x → slash ∉ v → f (x :: t) = true → f (v ++ x :: t) = true

variable {E : Encoding α} {g : List Char → Bool}

theorem segLoop_inside (hf : Extends E slash f) {u xs t : List α} (hxs : ∀ y ∈ xs, ¬ E.lead y)
    (hslash : slash ∉ xs) (hu : slash ∉ u) (h : segLoop slash f (xs ++ t) = true) :
    f (u ++ (xs ++ t)) = true ∨ segLoop slash f t = true := by
  induction xs generalizing u with
  | nil => exact Or.inr h
  | cons y ys ih =>
    rw [mem_cons, not_or] at hslash
    rw [cons_append, segLoop, if_neg (Ne.symm hslash.1), Bool.or_eq_true] at h
    rcases h with h | h
    · exact Or.inl (hf y _ u (hxs y mem_cons_self) hu h)
    · have hu' : slash ∉ u ++ [y] := by
        rw [mem_append, mem_singleton, not_or]
        exact ⟨hu, hslash.1⟩
      have := ih (fun z hz => hxs z (mem_cons_of_mem y hz)) hslash.2 hu' h
      rwa [append_assoc] at this

omit [DecidableEq α] in
theorem slash_not_mem_enc (hslash : E.enc '/' = [slash]) {c : Char} (hc : c ≠ '/') :
    slash ∉ E.enc c := fun h => hc (eq_of_mem_enc hslash h).symm

theorem segLoop_encode (hslash : E.enc '/' = [slash]) (hf : Extends E slash f)
    (hfg : ∀ s, f (E.encode s) = g s) (s : List Char) :
    segLoop slash f (E.encode s) = segLoop '/' g s := by
  induction s with
  | nil => exact hfg []
  | cons c s ih =>
    by_cases hc : c = '/'
    · rw [encode_cons, hc, hslash]
      simp only [singleton_append, segLoop, if_true]
    · obtain ⟨x, xs, hx, -, hxs⟩ := E.head_lead c
      have hnot := slash_not_mem_enc hslash hc
      rw [hx, mem_cons, not_or] at hnot
      rw [segLoop, if_neg hc, ← hfg, ← ih, encode_cons, hx, cons_append, segLoop,
        if_neg (Ne.symm hnot.1), Bool.eq_iff_iff, Bool.or_eq_true, Bool.or_eq_true]
      constructor
      · rintro (h | h)
        · exact Or.inl h
        · have hu : slash ∉ [x] := by rw [mem_singleton]; exact hnot.1
          exact segLoop_inside hf hxs hnot.2 hu h
      · exact Or.imp_right fun h => segLoop_append hnot.2 h

theorem afterSlash_encode (hslash : E.enc '/' = [slash]) (hfg : ∀ s, f (E.encode s) = g s)
    (s : List Char) : afterSlash slash f (E.encode s) = afterSlash '/' g s := by
  induction s with
  | nil => rfl
  | cons c s ih =>
    rw [encode_cons]
    by_cases hc : c = '/'
    · rw [hc, hslash, singleton_append, afterSlash, afterSlash, hfg, ih]
      simp
    · rw [afterSlash_append (slash_not_mem_enc hslash hc), ih, afterSlash, decide_eq_false hc,
        Bool.false_and, Bool.false_or]

omit [DecidableEq α] in
theorem single_encode (hstar : E.enc '*' = [star]) (hslash : E.enc '/' = [slash]) {p : List Char}
    (h : Single '*' '/' p) : Single star slash (E.encode p) := by
  have hcons : ∀ {c x} {t : List α} {q : List Char}, E.enc c = [x] → E.encode q = x :: t →
      ∃ q', q = c :: q' ∧ t = E.encode q' := by
    intro c x t q hc hq
    exact encode_eq_append (hq.trans (by rw [hc]; rfl))
  constructor
  · intro he
    obtain ⟨q, rfl, hq⟩ := hcons hstar he
    exact h.1 (by rw [encode_eq_nil.mp hq.symm])
  · intro rest he
    obtain ⟨q, rfl, hq⟩ := hcons hstar he
    obtain ⟨q', rfl, -⟩ := hcons hslash hq.symm
    exact h.2 q' rfl

/-- On encoded text the matcher over units is the matcher over characters. -/
theorem glob_encode_extends (hstar : E.enc '*' = [star]) (hslash : E.enc '/' = [slash])
    (p : List Char) :
    (∀ s, glob star slash (E.encode p) (E.encode s) = glob '*' '/' p s) ∧
      Extends E slash (glob star slash (E.encode p)) := by
  induction p using glob_induction '*' '/' with
  | nil =>
    refine ⟨fun s => ?_, fun x t v _ _ h => ?_⟩
    · rw [encode_nil, glob_nil, glob_nil, Bool.eq_iff_iff, List.isEmpty_iff,
        List.isEmpty_iff, encode_eq_nil]
    · rw [encode_nil, glob_nil] at h
      exact absurd h Bool.false_ne_true
  | lit c p hc ih =>
    have hlits : star ∉ E.enc c := fun h => hc (eq_of_mem_enc hstar h).symm
    refine ⟨fun s => ?_, fun x t v hx _ h => ?_⟩
    · rw [encode_cons, Bool.eq_iff_iff, glob_append_lits hlits]
      constructor
      · rintro ⟨t', ht, h⟩
        obtain ⟨s', rfl, rfl⟩ := encode_eq_append ht
        rw [glob_lit hc, ← ih.1, h, decide_eq_true rfl, Bool.and_true]
      · intro h
        cases s with
        | nil => rw [glob_lit_nil hc] at h; exact absurd h Bool.false_ne_true
        | cons d s =>
          rw [glob_lit hc, Bool.and_eq_true, decide_eq_true_eq] at h
          obtain ⟨rfl, h⟩ := h
          exact ⟨E.encode s, encode_cons E c s, (ih.1 s).trans h⟩
    · -- the first unit of the pattern starts a character, `x` does not
      rw [encode_cons, glob_append_lits hlits] at h
      obtain ⟨t', ht, -⟩ := h
      obtain ⟨y, ys, hy, hlead, -⟩ := E.head_lead c
      rw [hy] at ht
      obtain ⟨rfl, -⟩ := List.cons.inj ht
      exact absurd hlead hx
  | double =>
    have he : E.encode ['*', '*'] = [star, star] := by
      rw [encode_cons, encode_cons, hstar]
      rfl
    rw [he]
    exact ⟨fun s => by rw [glob_double, glob_double], fun _ _ _ _ _ _ => glob_double _⟩
  | dirs rest ih =>
    have he : E.encode ('*' :: '*' :: '/' :: rest) = star :: star :: slash :: E.encode rest := by
      rw [encode_cons, encode_cons, encode_cons, hstar, hslash]
      rfl
    rw [he]
    refine ⟨fun s => ?_, fun x t v hx hv h => ?_⟩
    · rw [glob_dirs, glob_dirs, ih.1, afterSlash_encode hslash ih.1]
    · rw [glob_dirs, Bool.or_eq_true] at h ⊢
      rw [afterSlash_append hv]
      exact h.imp_left (ih.2 x t v hx hv)
  | seg p hp ih =>
    have he : E.encode ('*' :: p) = star :: E.encode p := by
      rw [encode_cons, hstar]
      rfl
    rw [he]
    have hsingle := single_encode hstar hslash hp
    refine ⟨fun s => ?_, fun x t v _ hv h => ?_⟩
    · rw [glob_seg hsingle, glob_seg hp, segLoop_encode hslash ih.2 ih.1]
    · rw [glob_seg hsingle] at h ⊢
      exact segLoop_append hv h

end

/-- The server's matcher, on characters. -/
theorem globMatch_utf8 (pat s : List Char) :
    globMatch (utf8 pat) (utf8 s) = glob '*' '/' pat s := by
  rw [globMatch_eq]
  exact (glob_encode_extends (E := utf8Encoding) rfl rfl pat).1 s

/-- The web UI's matcher, on characters. -/
theorem globMatchWeb_utf16 (pat s : List Char) :
    globMatchWeb (utf16 pat) (utf16 s) = glob '*' '/' pat s :=
  (glob_encode_extends (E := utf16Encoding) rfl rfl pat).1 s

end Tuck.Policy
