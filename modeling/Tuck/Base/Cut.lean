/-
  JSON texts that go on, and JSON texts that are cut off.

  A reader that has found the end of a value does not look further, so that more text behind it
  changes nothing but what is left (`image_append`). Hence the text of an object that is cut
  off before its last byte has no value (`parse_cut`).
-/
import Tuck.Base.Compact

namespace Tuck.Base

open List

/-! ## Strings -/

variable {s t : Bytes} {r : Nat}

theorem hex4_append (h : hex4 s = some (r, t)) (u : Bytes) :
    hex4 (s ++ u) = some (r, t ++ u) := by
  match s, h with
  | a :: b :: c :: d :: s, h =>
    simp only [hex4, Option.bind_eq_bind, Option.pure_def, Option.bind_eq_some_iff] at h
    obtain ⟨a', ha, b', hb, c', hc, d', hd, heq⟩ := h
    cases heq
    simp [hex4, ha, hb, hc, hd]

theorem lowSurrogate_append {c : Nat} (h : lowSurrogate r s = some (c, t))
    (u : Bytes) : lowSurrogate r (s ++ u) = some (c, t ++ u) := by
  unfold lowSurrogate at h
  split at h
  · next s =>
    cases hs : hex4 s with
    | none =>
      rw [hs] at h
      cases h
    | some p =>
      obtain ⟨r2, s1⟩ := p
      rw [hs] at h
      simp only at h
      split_ifs at h with hr
      cases h
      show lowSurrogate r (0x5C :: 0x75 :: (s ++ u)) = _
      rw [lowSurrogate_u (hex4_append hs u), if_pos hr]
  · cases h

variable {v w : Bytes}

/-- What follows a high surrogate is no low one in the longer text either, as long as the
    string goes on. -/
theorem lowSurrogate_append_none (h : lowSurrogate r s = none) (hs : StrText s v w) (u : Bytes) :
    lowSurrogate r (s ++ u) = none := by
  cases hs with
  | close rest => rfl
  | @escape s bs t v _ hesc _ =>
    cases s with
    | nil => cases hesc
    | cons c s =>
      by_cases hc : c = 0x75
      · subst hc
        cases hx : hex4 s with
        | none => simp [unescape, hx] at hesc
        | some p =>
          obtain ⟨r2, s1⟩ := p
          rw [lowSurrogate_u hx] at h
          show lowSurrogate r (0x5C :: 0x75 :: (s ++ u)) = none
          rw [lowSurrogate_u (hex4_append hx u)]
          split_ifs at h ⊢ with hr
          rfl
      · rw [cons_append, cons_append, lowSurrogate.eq_def]
        split
        · next heq =>
          obtain ⟨-, heq⟩ := List.cons.inj heq
          exact absurd (List.cons.inj heq).1 hc
        · rfl
  | @rune q t v _ hq _ =>
    obtain ⟨b, q, rfl⟩ := exists_cons_of_ne_nil hq.1.1
    exact lowSurrogate_of_ne (hq.2 b q rfl).2.1 r _
  | @bad b t v _ hb _ => exact lowSurrogate_of_ne (ne_of_le (le_of_runeLen hb) (by decide)) r _

theorem unescape_append {bs : Bytes}
    (h : unescape s = some (bs, t)) (ht : StrText t v w) (u : Bytes) :
    unescape (s ++ u) = some (bs, t ++ u) := by
  unfold unescape at h
  split at h
  · next s =>
    cases hs : hex4 s with
    | none =>
      rw [hs] at h
      cases h
    | some p =>
      obtain ⟨r, s1⟩ := p
      rw [hs] at h
      simp only at h
      show unescape (0x75 :: (s ++ u)) = _
      rw [unescape, hex4_append hs u]
      simp only
      split_ifs at h ⊢ with hsur
      · cases hlow : lowSurrogate r s1 with
        | none =>
          rw [hlow] at h
          cases h
          rw [lowSurrogate_append_none hlow ht u]
        | some q =>
          obtain ⟨c, s2⟩ := q
          rw [hlow] at h
          cases h
          rw [lowSurrogate_append hlow u]
      · cases h
        rfl
  · next b s hne =>
    show unescape (b :: (s ++ u)) = _
    rw [unescape.eq_def]
    split
    · next heq =>
      obtain ⟨rfl, rfl⟩ := List.cons.inj heq
      exact absurd rfl hne
    · next heq =>
      obtain ⟨rfl, rfl⟩ := List.cons.inj heq
      split_ifs at h ⊢ <;> cases h <;> rfl
    · next heq => cases heq
  · cases h

/-- A string does not end with its continuation bytes. -/
theorem StrText.takeWhile_ne (h : StrText s v w) : s.takeWhile isCont ≠ s := by
  rw [Ne, takeWhile_eq_self_iff]
  induction h with
  | close rest => exact fun hall => absurd (hall _ mem_cons_self) (by decide)
  | escape _ _ _ => exact fun hall => absurd (hall _ mem_cons_self) (by decide)
  | rune _ _ ih => exact fun hall => ih fun b hb => hall b (mem_append_right _ hb)
  | bad _ _ ih => exact fun hall => ih fun b hb => hall b (mem_cons_of_mem _ hb)

/-- A string is read from a longer text as from the text itself. -/
theorem StrText.append (h : StrText s v w) (u : Bytes) : StrText (s ++ u) v (w ++ u) := by
  induction h with
  | close rest => exact .close _
  | escape h ht ih => exact .escape (unescape_append h ht u) ih
  | rune h _ ih =>
    rw [append_assoc]
    exact .rune h ih
  | @bad b t _ _ h ht ih =>
    -- a rune is as wide in the longer text, because the string goes on after it
    refine .bad (t := t ++ u) ?_ ih
    have hlen : (t.takeWhile isCont).length ≠ t.length := fun hlen =>
      ht.takeWhile_ne ((takeWhile_sublist isCont).eq_of_length hlen)
    rw [← h, ← runeLen_takeWhile, ← runeLen_takeWhile b t, takeWhile_append, if_neg hlen]

/-! ## Values -/

theorem skipWs_append (h : skipWs s ≠ []) (u : Bytes) :
    skipWs (s ++ u) = skipWs s ++ u := by
  unfold skipWs at h ⊢
  rw [dropWhile_append, if_neg (by simpa using h)]

/-- Something follows that ends a value. -/
def Closed (rest : Bytes) : Prop :=
  ∃ b t, skipWs rest = b :: t ∧ (b = 0x2C ∨ b = 0x5D ∨ b = 0x7D)

theorem Closed.numEnd {rest : Bytes} (h : Closed rest) (u : Bytes) : NumEnd (rest ++ u) := by
  obtain ⟨b, t, hskip, hb⟩ := h
  cases rest with
  | nil => cases hskip
  | cons c rest =>
    refine numEnd_cons ?_ (rest ++ u)
    by_cases hws : isWs c = true
    · simp only [isWs, Bool.or_eq_true, beq_iff_eq] at hws
      rcases hws with ((rfl | rfl) | rfl) | rfl <;> decide
    · rw [skipWs_cons (by simpa using hws)] at hskip
      obtain ⟨rfl, -⟩ := List.cons.inj hskip
      rcases hb with rfl | rfl | rfl <;> decide

/-- A longer text is read like the text itself. -/
theorem image_append (u : Bytes) : Image Closed (· ++ u) (· ++ u) where
  word := fun hw _ hs => by
    rw [skipWs_append (by rw [hs]; exact append_ne_nil_of_left_ne_nil hw _), hs,
      append_assoc]
  quote := fun hs => by
    rw [skipWs_append (by rw [hs]; exact cons_ne_nil _ _), hs]
    rfl
  str := fun h => h.append u
  ended := fun hs hb => ⟨_, _, hs, hb⟩
  numEnd := fun h => h.numEnd u

/-- The text of an object that is cut off before its end has no value. -/
theorem parse_cut {ms : List (Bytes × Json)} (hms : (Json.obj ms).IntNums) {u : Bytes}
    (hu : u ≠ []) (h : t ++ u = (Json.obj ms).encode) : Json.parse t = none := by
  by_contra hne
  obtain ⟨j, hj⟩ := Option.ne_none_iff_exists'.mp hne
  obtain ⟨rest, htext, -⟩ := parse_iff.mp hj
  -- what stands behind an opening brace is no number
  have hend : (Item.value j).EndsBefore Closed rest := by
    cases htext with
    | num hs =>
      obtain ⟨b, t', hskip, hb⟩ := readNum_head hs
      cases t with
      | nil => cases hskip
      | cons c t =>
        obtain ⟨rfl, -⟩ : c = 0x7B ∧ _ := List.cons.inj h
        rw [skipWs_cons (by decide)] at hskip
        obtain ⟨rfl, -⟩ := List.cons.inj hskip
        cases hb
    | word hw _ =>
      simp only [words, mem_cons, Prod.mk.injEq, not_mem_nil, or_false] at hw
      rcases hw with ⟨-, rfl⟩ | ⟨-, rfl⟩ | ⟨-, rfl⟩ <;> trivial
    | str _ _ | arrNil _ _ | arr _ _ | objNil _ _ | obj _ _ => trivial
  have hlonger := ((image_append u).text htext hend).reads
  have hwhole := parse_encode hms
  rw [← h, Json.parse, hlonger.2 _ (by omega)] at hwhole
  simp only at hwhole
  split_ifs at hwhole with hws
  have hlast : (0x7D : UInt8) ∈ u := by
    refine mem_of_getLast? ?_
    have happ := congrArg List.getLast? h
    rw [List.getLast?_append_of_ne_nil t hu] at happ
    rw [happ, Json.encode, ← cons_append, List.getLast?_concat]
  have hall := dropWhile_eq_nil_iff.mp hws 0x7D (mem_append_right rest hlast)
  exact absurd hall (by decide)

end Tuck.Base
