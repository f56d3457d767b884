/-
  What a glob pattern is documented to match, and when the matcher does match that.

  The pieces of a pattern are double stars, single stars and characters, and its language is
  the concatenation of theirs. The matcher departs from it in three ways: a star before a
  slash matches nothing, because the loop stops at the slash before it tries the rest there;
  a double star before a slash may also stand for nothing together with the slash; and any
  other double star that does not end the pattern is two single stars. A pattern without
  these is matched as documented, and each of them goes wrong on some path
  (`matchGlob_documented_iff`).
-/
import Tuck.Policy.Glob
import Mathlib.Computability.Language

namespace Tuck.Policy

open Tuck.Base List

/-! ## The documented language -/

inductive Piece where
  | double
  | single
  | lit (c : Char)

/-- The strings a piece stands for. -/
def Piece.lang : Piece → Language Char
  | .double => Set.univ
  | .single => {w | '/' ∉ w}
  | .lit c => {[c]}

/-- The pieces of a pattern. -/
def pieces : List Char → List Piece
  | [] => []
  | '*' :: '*' :: p => .double :: pieces p
  | '*' :: p => .single :: pieces p
  | c :: p => .lit c :: pieces p

/-- The documented language of a pattern. -/
def language (p : List Char) : Language Char := ((pieces p).map Piece.lang).prod

/-- Every star is a single one before neither a star nor a slash, or one of the two that end
    the pattern. -/
def plainStars : List Char → Bool
  | [] => true
  | ['*', '*'] => true
  | '*' :: c :: p => c ≠ '*' && c ≠ '/' && plainStars (c :: p)
  | _ :: p => plainStars p

/-! ## The language, piece by piece -/

theorem language_nil : language [] = 1 := rfl

theorem language_double (p : List Char) :
    language ('*' :: '*' :: p) = Piece.lang .double * language p := by
  rw [language, pieces, map_cons, prod_cons, language]

variable {p : List Char}

theorem language_single (h : ∀ q, p ≠ '*' :: q) :
    language ('*' :: p) = Piece.lang .single * language p := by
  rw [language, pieces, map_cons, prod_cons, language]
  exact h

variable {c : Char}

theorem language_lit (hc : c ≠ '*') (p : List Char) :
    language (c :: p) = Piece.lang (.lit c) * language p := by
  have hp : pieces (c :: p) = .lit c :: pieces p := by
    rw [pieces]
    · exact fun _ h _ => hc h
    · exact fun h => hc h
  rw [language, hp, map_cons, prod_cons, language]

variable {l : Language Char} {s : List Char}

theorem mem_lit :
    s ∈ Piece.lang (.lit c) * l ↔ ∃ t, s = c :: t ∧ t ∈ l := by
  rw [Language.mem_mul]
  constructor
  · rintro ⟨w, rfl, t, ht, rfl⟩
    exact ⟨t, rfl, ht⟩
  · rintro ⟨t, rfl, ht⟩
    exact ⟨[c], rfl, t, ht, rfl⟩

theorem mem_single :
    s ∈ Piece.lang .single * l ↔ ∃ w t, s = w ++ t ∧ '/' ∉ w ∧ t ∈ l := by
  rw [Language.mem_mul]
  constructor
  · rintro ⟨w, hw, t, ht, rfl⟩
    exact ⟨w, t, rfl, hw, ht⟩
  · rintro ⟨w, t, rfl, hw, ht⟩
    exact ⟨w, hw, t, ht, rfl⟩

theorem mem_double :
    s ∈ Piece.lang .double * l ↔ ∃ w t, s = w ++ t ∧ t ∈ l := by
  rw [Language.mem_mul]
  constructor
  · rintro ⟨w, -, t, ht, rfl⟩
    exact ⟨w, t, rfl, ht⟩
  · rintro ⟨w, t, rfl, ht⟩
    exact ⟨w, trivial, t, ht, rfl⟩

/-- The characters of a pattern that stand for themselves. -/
def strip (p : List Char) : List Char := p.filter fun c => c ≠ '*'

/-- The pattern without its stars is in its language. -/
theorem strip_mem_language (p : List Char) : strip p ∈ language p := by
  fun_induction pieces p with
  | case1 => exact rfl
  | case2 p ih =>
    rw [language_double, mem_double]
    exact ⟨[], strip p, by simp [strip], ih⟩
  | case3 p h ih =>
    rw [language_single h, mem_single]
    exact ⟨[], strip p, by simp [strip], not_mem_nil, ih⟩
  | case4 c p h1 h2 ih =>
    have hc : c ≠ '*' := fun h => h2 h
    rw [language_lit hc, mem_lit]
    exact ⟨strip p, by simp [strip, hc], ih⟩

/-- A matched path has at least the slashes of the pattern. -/
theorem count_slash_le (h : s ∈ language p) : p.count '/' ≤ s.count '/' := by
  fun_induction pieces p generalizing s with
  | case1 => exact Nat.zero_le _
  | case2 p ih =>
    rw [language_double, mem_double] at h
    obtain ⟨w, t, rfl, ht⟩ := h
    have := ih ht
    simp only [count_append, count_cons]
    simp
    omega
  | case3 p hp ih =>
    rw [language_single hp, mem_single] at h
    obtain ⟨w, t, rfl, -, ht⟩ := h
    have := ih ht
    simp only [count_append, count_cons]
    simp
    omega
  | case4 c p h1 h2 ih =>
    rw [language_lit (fun h => h2 h), mem_lit] at h
    obtain ⟨t, rfl, ht⟩ := h
    have := ih ht
    simp only [count_cons]
    omega

/-! ## Patterns with plain stars -/

/-- What the loop of a single star finds. -/
theorem segLoop_iff {f : List Char → Bool} : segLoop '/' f s = true ↔
    ∃ w t, s = w ++ t ∧ '/' ∉ w ∧ (∀ r, t ≠ '/' :: r) ∧ f t = true := by
  induction s with
  | nil =>
    rw [segLoop]
    constructor
    · exact fun h => ⟨[], [], rfl, not_mem_nil, fun _ h => (by cases h), h⟩
    · rintro ⟨w, t, h, -, -, hf⟩
      rw [(append_eq_nil_iff.mp h.symm).2] at hf
      exact hf
  | cons c s ih =>
    rw [segLoop]
    by_cases hc : c = '/'
    · rw [if_pos hc]
      refine ⟨fun h => absurd h Bool.false_ne_true, ?_⟩
      rintro ⟨w, t, h, hw, ht, -⟩
      cases w with
      | nil => exact absurd (h.symm.trans (by rw [hc])) (ht s)
      | cons d w =>
        obtain ⟨rfl, -⟩ := List.cons.inj h
        exact absurd (hc ▸ mem_cons_self) hw
    · rw [if_neg hc, Bool.or_eq_true, ih]
      constructor
      · rintro (h | ⟨w, t, rfl, hw, ht, hf⟩)
        · exact ⟨[], c :: s, rfl, not_mem_nil, fun r hr => hc (List.cons.inj hr).1, h⟩
        · refine ⟨c :: w, t, rfl, ?_, ht, hf⟩
          rw [mem_cons, not_or]
          exact ⟨Ne.symm hc, hw⟩
      · rintro ⟨w, t, h, hw, ht, hf⟩
        cases w with
        | nil =>
          rw [nil_append] at h
          exact Or.inl (h ▸ hf)
        | cons d w =>
          obtain ⟨-, rfl⟩ := List.cons.inj h
          exact Or.inr ⟨w, t, rfl, fun hm => hw (mem_cons_of_mem d hm), ht, hf⟩

theorem single_nil : Single '*' '/' [] := ⟨nofun, nofun⟩

theorem single_cons (hc : c ≠ '*') (p : List Char) : Single '*' '/' (c :: p) :=
  ⟨fun h => hc (List.cons.inj h).1, fun _ h => hc (List.cons.inj h).1⟩

/-- Patterns with plain stars are matched as documented. -/
theorem glob_of_plain (h : plainStars p = true) (s : List Char) :
    glob '*' '/' p s = true ↔ s ∈ language p := by
  fun_induction plainStars p generalizing s with
  | case1 =>
    rw [glob_nil, List.isEmpty_iff, language_nil, Language.mem_one]
  | case2 =>
    rw [glob_double, language_double, mem_double]
    exact ⟨fun _ => ⟨s, [], (List.append_nil s).symm, rfl⟩, fun _ => rfl⟩
  | case3 c p _ ih =>
    simp only [Bool.and_eq_true, decide_eq_true_eq] at h
    obtain ⟨⟨hstar, hslash⟩, hp⟩ := h
    rw [glob_seg (single_cons hstar p), segLoop_iff,
      language_single fun q hq => hstar (List.cons.inj hq).1, mem_single]
    constructor
    · rintro ⟨w, t, rfl, hw, -, ht⟩
      exact ⟨w, t, rfl, hw, (ih hp t).mp ht⟩
    · rintro ⟨w, t, rfl, hw, ht⟩
      refine ⟨w, t, rfl, hw, fun r hr => ?_, (ih hp t).mpr ht⟩
      -- the rest starts with `c`, so the loop does not stop before it
      rw [language_lit hstar, mem_lit, hr] at ht
      obtain ⟨t', ht', -⟩ := ht
      exact hslash (List.cons.inj ht').1.symm
  | case4 c p h1 h2 ih =>
    by_cases hc : c = '*'
    · obtain rfl : p = [] := by
        cases p with
        | nil => rfl
        | cons d p => exact absurd rfl (h2 d p hc)
      rw [hc, glob_seg single_nil, segLoop_iff,
        language_single fun q => (List.cons_ne_nil '*' q).symm, mem_single]
      constructor
      · rintro ⟨w, t, rfl, hw, -, ht⟩
        exact ⟨w, t, rfl, hw, (ih h t).mp ht⟩
      · rintro ⟨w, t, rfl, hw, ht⟩
        refine ⟨w, t, rfl, hw, fun r hr => ?_, (ih h t).mpr ht⟩
        rw [language_nil, Language.mem_one, hr] at ht
        exact absurd ht (List.cons_ne_nil _ _)
    · rw [language_lit hc, mem_lit]
      cases s with
      | nil =>
        rw [glob_lit_nil hc]
        exact ⟨fun h => absurd h Bool.false_ne_true, fun ⟨_, ht, _⟩ => absurd ht nofun⟩
      | cons d s =>
        rw [glob_lit hc, Bool.and_eq_true, decide_eq_true_eq, ih h]
        constructor
        · rintro ⟨rfl, hs⟩
          exact ⟨s, rfl, hs⟩
        · rintro ⟨t, ht, hmem⟩
          obtain ⟨rfl, rfl⟩ := List.cons.inj ht
          exact ⟨rfl, hmem⟩

/-! ## Patterns with other stars -/

/-- A part of a pattern before its first star that is not plain. -/
inductive Clean : List Char → Prop
  | nil : Clean []
  | lit {c : Char} {p : List Char} : c ≠ '*' → Clean p → Clean (c :: p)
  | star {c : Char} {p : List Char} : c ≠ '*' → c ≠ '/' → Clean p → Clean ('*' :: c :: p)

/-- A pattern that is not plain, cut before its first star that is not. -/
theorem exists_clean (h : plainStars p = false) :
    ∃ q r, Clean q ∧ p = q ++ '*' :: r ∧ ((∃ t, r = '/' :: t) ∨ ∃ c t, r = '*' :: c :: t) := by
  fun_induction plainStars p with
  | case1 => exact absurd h.symm Bool.false_ne_true
  | case2 => exact absurd h.symm Bool.false_ne_true
  | case3 c p hp ih =>
    by_cases hstar : c = '*'
    · cases p with
      | nil => exact absurd rfl (hp hstar)
      | cons d p => exact ⟨[], c :: d :: p, .nil, rfl, Or.inr ⟨d, p, by rw [hstar]⟩⟩
    · by_cases hslash : c = '/'
      · exact ⟨[], c :: p, .nil, rfl, Or.inl ⟨p, by rw [hslash]⟩⟩
      · rw [decide_eq_true hstar, decide_eq_true hslash] at h
        obtain ⟨q, r, hq, hqr, hr⟩ := ih h
        cases hq with
        | nil => exact absurd (List.cons.inj hqr).1 hstar
        | lit hd hq =>
          obtain ⟨rfl, rfl⟩ := List.cons.inj hqr
          exact ⟨'*' :: c :: _, r, .star hstar hslash hq, rfl, hr⟩
        | star hd hd' hq => exact absurd (List.cons.inj hqr).1 hstar
  | case4 c p h1 h2 ih =>
    obtain ⟨q, r, hq, rfl, hr⟩ := ih h
    have hc : c ≠ '*' := by
      intro hc
      cases q with
      | nil => exact h2 '*' r hc rfl
      | cons d q => exact h2 d _ hc rfl
    exact ⟨c :: q, r, .lit hc hq, rfl, hr⟩

section

variable {q r s t : List Char}

theorem language_append (hq : Clean q) (r : List Char) :
    language (q ++ r) = language q * language r := by
  induction hq with
  | nil => rw [language_nil, one_mul, nil_append]
  | lit hc _ ih => rw [cons_append, language_lit hc, language_lit hc, ih, mul_assoc]
  | star hc _ _ ih =>
    have hne : ∀ p q : List Char, _ :: p ≠ '*' :: q := fun _ _ h => hc (List.cons.inj h).1
    rw [cons_append, cons_append, language_single (hne _), language_single (hne _),
      language_lit hc, language_lit hc, ih, mul_assoc, mul_assoc]

/-- A clean part matches itself without its stars. -/
theorem glob_strip_append (hq : Clean q) (h : glob '*' '/' r t = true) :
    glob '*' '/' (q ++ r) (strip q ++ t) = true := by
  induction hq with
  | nil => exact h
  | @lit c p hc _ ih =>
    have hs : strip (c :: p) = c :: strip p := by simp [strip, hc]
    rw [hs, cons_append, cons_append, glob_lit hc, decide_eq_true rfl, ih, Bool.and_true]
  | @star c p hc hslash _ ih =>
    have hs : strip ('*' :: c :: p) = c :: strip p := by simp [strip, hc]
    rw [hs, cons_append, cons_append, cons_append, glob_seg (single_cons hc _),
      segLoop_iff]
    refine ⟨[], c :: (strip p ++ t), rfl, not_mem_nil, fun _ h => hslash (List.cons.inj h).1, ?_⟩
    rw [glob_lit hc, decide_eq_true rfl, ih, Bool.and_true]

/-- A clean part takes at least its own characters, and no slash but its own. -/
theorem glob_before_slash (hq : Clean q) {a : List Char} (ha : a.count '/' = (strip q).count '/')
    (h : glob '*' '/' (q ++ r) (a ++ '/' :: t) = true) :
    (strip q).length ≤ a.length ∧
      (a.length = (strip q).length → glob '*' '/' r ('/' :: t) = true) := by
  induction hq generalizing a with
  | nil =>
    refine ⟨Nat.zero_le _, fun hlen => ?_⟩
    rw [eq_nil_of_length_eq_zero hlen] at h
    exact h
  | @lit c p hc _ ih =>
    have hs : strip (c :: p) = c :: strip p := by simp [strip, hc]
    rw [hs] at ha ⊢
    cases a with
    | nil =>
      rw [cons_append, nil_append, glob_lit hc, Bool.and_eq_true, decide_eq_true_eq] at h
      rw [h.1, count_cons_self] at ha
      exact absurd ha (Nat.succ_ne_zero _).symm
    | cons d a =>
      rw [cons_append, cons_append, glob_lit hc, Bool.and_eq_true, decide_eq_true_eq] at h
      obtain ⟨rfl, h⟩ := h
      rw [count_cons, count_cons, Nat.add_right_cancel_iff] at ha
      obtain ⟨hle, heq⟩ := ih ha h
      rw [length_cons, length_cons]
      exact ⟨Nat.succ_le_succ hle, fun hlen => heq (Nat.succ.inj hlen)⟩
  | @star c p hc hslash _ ih =>
    have hs : strip ('*' :: c :: p) = c :: strip p := by simp [strip, hc]
    rw [hs] at ha ⊢
    rw [cons_append, cons_append, glob_seg (single_cons hc _), segLoop_iff] at h
    obtain ⟨w, u, hwu, hw, hu, h⟩ := h
    obtain ⟨b, rfl, rfl⟩ : ∃ b, a = w ++ b ∧ u = b ++ '/' :: t := by
      rcases append_eq_append_iff.mp hwu with ⟨b, rfl, hb⟩ | ⟨b, rfl, hb⟩
      · cases b with
        | nil => exact absurd hb.symm (hu t)
        | cons d b =>
          obtain ⟨rfl, -⟩ := List.cons.inj hb
          exact absurd (mem_append_right a mem_cons_self) hw
      · exact ⟨b, rfl, hb⟩
    cases b with
    | nil =>
      rw [nil_append, glob_lit hc, Bool.and_eq_true, decide_eq_true_eq] at h
      exact absurd h.1 hslash
    | cons d b =>
      rw [cons_append, glob_lit hc, Bool.and_eq_true, decide_eq_true_eq] at h
      obtain ⟨rfl, h⟩ := h
      rw [count_append, count_eq_zero_of_not_mem hw, count_cons, count_cons,
        Nat.zero_add, Nat.add_right_cancel_iff] at ha
      obtain ⟨hle, heq⟩ := ih ha h
      rw [length_append, length_cons, length_cons]
      exact ⟨by omega, fun hlen => heq (by omega)⟩

/-- Nothing is matched if nothing can follow a clean part. -/
theorem glob_clean_none (hq : Clean q) (hr : ∀ t, glob '*' '/' r t = false) :
    glob '*' '/' (q ++ r) s = false := by
  induction hq generalizing s with
  | nil => exact hr s
  | @lit c p hc _ ih =>
    cases s with
    | nil => exact glob_lit_nil hc _
    | cons d s => rw [cons_append, glob_lit hc, ih, Bool.and_false]
  | @star c p hc _ _ ih =>
    rw [cons_append, cons_append, glob_seg (single_cons hc _), ← Bool.not_eq_true,
      segLoop_iff]
    rintro ⟨w, t, -, -, -, h⟩
    cases t with
    | nil => rw [glob_lit_nil hc] at h; exact Bool.false_ne_true h
    | cons d t => rw [glob_lit hc, ih, Bool.and_false] at h; exact Bool.false_ne_true h

/-- A star before a slash matches nothing. -/
theorem glob_star_slash (r s : List Char) : glob '*' '/' ('*' :: '/' :: r) s = false := by
  rw [← Bool.not_eq_true, glob_seg (single_cons (by decide) r), segLoop_iff]
  rintro ⟨w, t, -, -, ht, h⟩
  cases t with
  | nil => rw [glob_lit_nil (by decide)] at h; exact Bool.false_ne_true h
  | cons d t =>
    rw [glob_lit (by decide), Bool.and_eq_true, decide_eq_true_eq] at h
    exact ht t (by rw [← h.1])

theorem glob_dirs_none (hr : ∀ t, glob '*' '/' r t = false) (s : List Char) :
    glob '*' '/' ('*' :: '*' :: '/' :: r) s = false := by
  have hafter : ∀ s, afterSlash '/' (glob '*' '/' r) s = false := by
    intro s
    induction s with
    | nil => rfl
    | cons c s ih => rw [afterSlash, hr, ih, Bool.and_false, Bool.or_false]
  rw [glob_dirs, hr, hafter, Bool.or_false]

/-- A pattern matches nothing, or some path with no more slashes than it has itself, which
    starts with a slash only if the pattern does. -/
theorem exists_few_slashes (r : List Char) : (∀ t, glob '*' '/' r t = false) ∨
    ∃ t, glob '*' '/' r t = true ∧ t.count '/' ≤ r.count '/' ∧
      ((∃ u, t = '/' :: u) → ∃ u, r = '/' :: u) := by
  induction r using glob_induction '*' '/' with
  | nil => exact Or.inr ⟨[], by rw [glob_nil]; rfl, le_rfl, fun ⟨_, h⟩ => absurd h nofun⟩
  | lit c p hc ih =>
    rcases ih with h | ⟨t, h, hle, -⟩
    · refine Or.inl fun t => ?_
      cases t with
      | nil => exact glob_lit_nil hc p
      | cons d t => rw [glob_lit hc, h, Bool.and_false]
    · refine Or.inr ⟨c :: t, by rw [glob_lit hc, h, decide_eq_true rfl]; rfl, ?_, ?_⟩
      · rw [count_cons, count_cons]
        exact Nat.add_le_add_right hle _
      · rintro ⟨u, hu⟩
        exact ⟨p, by rw [(List.cons.inj hu).1]⟩
  | double => exact Or.inr ⟨[], glob_double [], Nat.zero_le _, fun ⟨_, h⟩ => absurd h nofun⟩
  | dirs rest ih =>
    rcases ih with h | ⟨t, h, hle, -⟩
    · exact Or.inl (glob_dirs_none h)
    · refine Or.inr ⟨'a' :: '/' :: t, ?_, ?_,
        fun ⟨u, hu⟩ => absurd (List.cons.inj hu).1 (by decide)⟩
      · rw [glob_dirs, afterSlash, afterSlash, h, Bool.and_true, decide_eq_true rfl, Bool.true_or,
          Bool.or_true, Bool.or_true]
      · simp only [count_cons]
        simpa using hle
  | seg p hp ih =>
    rcases ih with h | ⟨t, h, hle, hslash⟩
    · refine Or.inl fun t => ?_
      rw [glob_seg hp, ← Bool.not_eq_true, segLoop_iff]
      rintro ⟨w, t, -, -, -, ht⟩
      rw [h] at ht
      exact Bool.false_ne_true ht
    · by_cases ht : ∃ u, t = '/' :: u
      · obtain ⟨u, rfl⟩ := hslash ht
        exact Or.inl (glob_star_slash u)
      · refine Or.inr ⟨t, ?_, ?_, fun h => absurd h ht⟩
        · rw [glob_seg hp, segLoop_iff]
          exact ⟨[], t, rfl, not_mem_nil, fun u hu => ht ⟨u, hu⟩, h⟩
        · rw [count_cons_of_ne (by decide)]
          exact hle

end

/-! ## Exactly the plain patterns -/

/-- A pattern that matches nothing is not matched as documented. -/
theorem mismatch_of_none (h : ∀ s, glob '*' '/' p s = false) :
    ∃ s, ¬ (glob '*' '/' p s = true ↔ s ∈ language p) := by
  refine ⟨strip p, fun hiff => ?_⟩
  have hmatch := hiff.mpr (strip_mem_language p)
  rw [h] at hmatch
  exact Bool.false_ne_true hmatch

theorem count_strip (p : List Char) : (strip p).count '/' = p.count '/' :=
  count_filter (by decide)

/-- A pattern that is not plain is matched differently on some path. -/
theorem exists_mismatch (h : plainStars p = false) :
    ∃ s, ¬ (glob '*' '/' p s = true ↔ s ∈ language p) := by
  obtain ⟨q, r, hq, rfl, ⟨t, rfl⟩ | ⟨c, t, rfl⟩⟩ := exists_clean h
  · exact mismatch_of_none fun s => glob_clean_none hq (glob_star_slash t)
  · by_cases hc : c = '/'
    · -- a double star before a slash may stand for nothing at all
      subst hc
      rcases exists_few_slashes t with hnone | ⟨u, hu, hle, -⟩
      · exact mismatch_of_none fun s => glob_clean_none hq (glob_dirs_none hnone)
      · refine ⟨strip q ++ u, fun hiff => ?_⟩
        have hdirs : glob '*' '/' ('*' :: '*' :: '/' :: t) u = true := by
          rw [glob_dirs, hu, Bool.true_or]
        have hcount := count_slash_le (hiff.mp (glob_strip_append hq hdirs))
        rw [count_append, count_append, count_strip, count_cons_of_ne (by decide),
          count_cons_of_ne (by decide), count_cons_self] at hcount
        omega
    · -- any other double star does not cross a slash
      have hsingle : Single '*' '/' ('*' :: c :: t) :=
        ⟨by simp, fun rest hr => hc (List.cons.inj (List.cons.inj hr).2).1⟩
      refine ⟨strip q ++ '/' :: strip (c :: t), fun hiff => ?_⟩
      have hmem : strip q ++ '/' :: strip (c :: t) ∈ language (q ++ '*' :: '*' :: c :: t) := by
        rw [language_append hq, language_double, Language.mem_mul]
        refine ⟨strip q, strip_mem_language q, '/' :: strip (c :: t), ?_, rfl⟩
        exact mem_double.mpr ⟨['/'], strip (c :: t), rfl, strip_mem_language _⟩
      have hstop := (glob_before_slash hq rfl (hiff.mpr hmem)).2 rfl
      rw [glob_seg hsingle, segLoop, if_pos rfl] at hstop
      exact Bool.false_ne_true hstop

/-- A pattern is matched as documented on every path exactly when its stars are plain. -/
theorem matchGlob_documented_iff (pattern : List Char) :
    (∀ path, matchGlob (utf8 pattern) (utf8 path) = true ↔ path ∈ language pattern) ↔
      plainStars pattern = true := by
  simp only [matchGlob, globMatch_utf8]
  constructor
  · intro h
    rw [← Bool.not_eq_false]
    intro hplain
    obtain ⟨s, hs⟩ := exists_mismatch hplain
    exact hs (h s)
  · exact fun h s => glob_of_plain h s

/-- `a/*/b` does not match `a/x/b`. -/
theorem matchGlob_star_slash : ¬ ∀ pattern path : List Char,
    matchGlob (utf8 pattern) (utf8 path) = true ↔ path ∈ language pattern := by
  intro h
  have hmem : ['a', '/', 'x', '/', 'b'] ∈ language ['a', '/', '*', '/', 'b'] := by
    have hne : ∀ q, ['/', 'b'] ≠ '*' :: q := fun q h => absurd (List.cons.inj h).1 (by decide)
    rw [language_lit (by decide), language_lit (by decide), language_single hne, mem_lit]
    refine ⟨_, rfl, mem_lit.mpr ⟨_, rfl, mem_single.mpr ⟨['x'], ['/', 'b'], rfl, by decide, ?_⟩⟩⟩
    exact strip_mem_language ['/', 'b']
  have := (h _ _).mpr hmem
  revert this
  decide +kernel

end Tuck.Policy
