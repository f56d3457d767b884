/-
  Revocation of a tree of tokens. The recursion follows the children index, which shrinks
  while it runs: the calls for the first children delete entries that the later ones would
  list. `Cut s₀ s` relates the index at a point of the run to the one it started from: an
  entry that is gone has had everything below it deleted.

  `revokeTokenTree_spec`: what is deleted is reachable in the index at the start, and if the
  run returns, everything reachable is gone. `revokeTokenTree_returns`: it returns if the
  index has a rank that decreases from parent to child.
-/
import Tuck.Core.TokenSpecs

namespace Tuck.Core

open Tuck.Base Tuck.Token Prog

variable {sha256 : Bytes → Bytes} {L : KV.Listing} {P : Token → Prop}

/-- `u` is `t` or below it in the children index. -/
abbrev Below (sha256 : Bytes → Bytes) (s : LogicalStore) : Bytes → Bytes → Prop :=
  Relation.ReflTransGen (IsChild sha256 s)

/-- No token with this ID is stored. -/
def Absent (sha256 : Bytes → Bytes) (s : LogicalStore) (id : Bytes) : Prop :=
  ∀ t, Stored sha256 s t → t.id ≠ id

/-- What holds during a tree revocation that started from `s₀`. -/
structure Cut (sha256 : Bytes → Bytes) (s₀ s : LogicalStore) : Prop where
  wf : Wf sha256 s
  sub : ∀ p c, IsChild sha256 s p c → IsChild sha256 s₀ p c
  cut : ∀ p c, IsChild sha256 s₀ p c →
    IsChild sha256 s p c ∨ ∀ u, Below sha256 s₀ c u → Absent sha256 s u

/-- The children that `children` lists. -/
def childIDs (sha256 : Bytes → Bytes) (L : KV.Listing) (s : LogicalStore) (p : Bytes) :
    List Bytes :=
  (L.order (KV.under s (childrenOf sha256 p))).filterMap fun k => (s.lookup k).bind Record.child?

theorem mem_childIDs (hsha : Function.Injective sha256) {s : LogicalStore} (hwf : Wf sha256 s)
    {p c : Bytes} : c ∈ childIDs sha256 L s p ↔ IsChild sha256 s p c := by
  unfold childIDs
  rw [List.mem_filterMap]
  constructor
  · rintro ⟨k, hmem, hk⟩
    obtain ⟨r, hr, hdec⟩ := Option.bind_eq_some_iff.1 hk
    cases r with
    | child c' =>
      obtain rfl := Option.some.inj hdec
      obtain ⟨p', rfl⟩ := hwf.child_key k _ hr
      obtain ⟨y, hy⟩ := (KV.mem_under.1 (L.mem_order.1 hmem)).2
      obtain ⟨rfl, -⟩ := eq_of_childrenOf_append hsha hy
      exact hr
    | _ => cases hdec
  · intro hc
    refine ⟨childKey sha256 p c, L.mem_order.2 (KV.mem_under.2 ⟨?_, List.prefix_append ..⟩), ?_⟩
    · rw [hc]
      rfl
    · rw [hc]
      rfl

theorem run_children (w : LogicalWorld) (p : Bytes) :
    run (KV.handle L) (children sha256 p) w =
      (.ok (childIDs sha256 L w.store p), w) := by
  unfold children childIDs
  simp only [run_andThen, KV.run_list, run_bind, run_collect_getAs, run_ret]

section

variable {s₀ s s' : LogicalStore} {R : Set Bytes} (hsha : Function.Injective sha256)

theorem Cut.refl (hwf : Wf sha256 s) : Cut sha256 s s :=
  ⟨hwf, fun _ _ h => h, fun _ _ h => .inl h⟩

include hsha

theorem Absent.changes {u : Bytes} (h : Absent sha256 s u) (hch : Changes sha256 P s R s') :
    Absent sha256 s' u := by
  intro t ht hid
  obtain ⟨-, t', ht', hkin⟩ := hch.back hsha ht
  exact h t' ht' (hkin.id.trans hid)

/-- Deleting tokens that have nothing stored below them keeps the relation to the start. -/
theorem Cut.changes (h : Cut sha256 s₀ s) (hch : Changes sha256 P s R s')
    (hcut : ∀ p c, IsChild sha256 s p c →
      IsChild sha256 s' p c ∨ ∀ u, Below sha256 s₀ c u → Absent sha256 s' u) :
    Cut sha256 s₀ s' where
  wf := hch.wf hsha h.wf
  sub p c hc := h.sub p c (hch.isChild hsha h.wf hc)
  cut p c hc := by
    obtain hc | hu := h.cut p c hc
    · exact hcut p c hc
    · exact .inr fun u hbelow => (hu u hbelow).changes hsha hch

/-- An entry of another child survives the deletion of `t`. -/
theorem isChild_deleteStore {t p c : Bytes} (hc : IsChild sha256 s p c) (hne : c ≠ t) :
    IsChild sha256 (deleteStore sha256 s t) p c := by
  refine lookup_deleteStore_eq_some.2 ⟨hc, (tokenKey_ne_childKey _ _ _).symm, fun tok _ => ?_⟩
  exact ⟨fun _ => (accessorKey_ne_childKey _ _ _).symm,
    fun _ heq => hne ((childKey_inj hsha).1 heq).2⟩

end

/-- A run that deletes only what is below `T`, and all of it if it returns. -/
def Prunes (sha256 : Bytes → Bytes) (L : KV.Listing) (P : Token → Prop) (s₀ : LogicalStore)
    {β : Type} (p : KV.Code Record (Option β)) (w : LogicalWorld) (T : Set Bytes) : Prop :=
  ∃ r R s', run (KV.handle L) p w = (r, { w with store := s' }) ∧
    Changes sha256 P w.store R s' ∧ Cut sha256 s₀ s' ∧ (∀ x ∈ R, ∃ t ∈ T, Below sha256 s₀ t x) ∧
      (r.isSome = true → ∀ t ∈ T, ∀ u, Below sha256 s₀ t u → Absent sha256 s' u)

section

variable {s₀ : LogicalStore} (hsha : Function.Injective sha256)

include hsha

theorem treeLoop_spec {f : Bytes → KV.Code Record (Option (Except Err Unit))} (cs : List Bytes)
    (hf : ∀ c ∈ cs, ∀ w, Cut sha256 s₀ w.store → Prunes sha256 L P s₀ (f c) w {c})
    (w : LogicalWorld) (hcut : Cut sha256 s₀ w.store) :
    Prunes sha256 L P s₀ (treeLoop f cs) w {c | c ∈ cs} := by
  induction cs generalizing w with
  | nil =>
    exact ⟨some (), ∅, w.store, rfl, .refl _, hcut, fun x hx => hx.elim, fun _ t ht => by cases ht⟩
  | cons c cs ih =>
    obtain ⟨r, R, s', hrun, hch, hcut', hR, hgone⟩ := hf c (List.mem_cons_self ..) w hcut
    have hRc : ∀ x ∈ R, ∃ t ∈ {d | d ∈ c :: cs}, Below sha256 s₀ t x := by
      intro x hx
      obtain ⟨t, ht, hbelow⟩ := hR x hx
      obtain rfl : t = c := ht
      exact ⟨t, List.mem_cons_self .., hbelow⟩
    cases r with
    | none =>
      refine ⟨none, R, s', ?_, hch, hcut', hRc, fun h => by cases h⟩
      rw [treeLoop, run_bind, hrun]
      rfl
    | some res =>
      obtain ⟨r', R', s'', hrun', hch', hcut'', hR', hgone'⟩ :=
        ih (fun d hd => hf d (List.mem_cons_of_mem c hd)) { w with store := s' } hcut'
      refine ⟨r', R ∪ R', s'', ?_, hch.trans hch', hcut'', ?_, ?_⟩
      · rw [treeLoop, run_bind, hrun]
        exact hrun'
      · rintro x (hx | hx)
        · exact hRc x hx
        · obtain ⟨t, ht, hbelow⟩ := hR' x hx
          exact ⟨t, List.mem_cons_of_mem c ht, hbelow⟩
      · intro hr' t ht u hbelow
        obtain rfl | ht := List.mem_cons.1 ht
        · exact (hgone rfl t rfl u hbelow).changes hsha hch'
        · exact hgone' hr' t ht u hbelow

/-- Deleting a token whose children were all dealt with. -/
theorem prunes_self {t : Bytes} {w : LogicalWorld} (hcut : Cut sha256 s₀ w.store)
    (hbelow : ∀ c, IsChild sha256 s₀ t c → ∀ u, Below sha256 s₀ c u → Absent sha256 w.store u) :
    Prunes sha256 L P s₀
      ((purgeToken t).ignore.bind fun _ => (Token.delete sha256 t).bind fun r =>
        .ret (some r)) w {t} := by
  let s₁ := KV.wipe L w.store (cubbyholePrefix ++ (t ++ [0x2F]))
  have hsame : SameTokens sha256 w.store s₁ := sameTokens_wipe L _ _
  have hch : Changes sha256 P w.store {t} (deleteStore sha256 s₁ t) :=
    ((Changes.same hsame).trans (.delete s₁ t)).congr (Set.empty_union _)
  have hgone : ∀ u, Below sha256 s₀ t u → Absent sha256 (deleteStore sha256 s₁ t) u := by
    intro u hu
    obtain rfl | ⟨c, hc, hcu⟩ := hu.cases_head
    · exact fun tok htok => ((stored_deleteStore hsha).1 htok).2
    · exact (hbelow c hc u hcu).changes hsha hch
  refine ⟨some (.ok ()), {t}, deleteStore sha256 s₁ t, ?_, hch, ?_, ?_, ?_⟩
  · rw [run_bind, run_ignore, run_purgeToken, run_bind, run_delete]
    rfl
  · refine hcut.changes hsha hch fun p c hc => ?_
    by_cases hct : c = t
    · exact .inr fun u hu => hgone u (hct ▸ hu)
    · exact .inl (isChild_deleteStore hsha ((hsame.child p c).trans hc) hct)
  · rintro x rfl
    exact ⟨x, rfl, .refl⟩
  · rintro - _ rfl u hu
    exact hgone u hu

/-- The specification of `revokeTokenTree`, by induction on the depth. -/
theorem revokeTokenTree_spec (depth : Nat) (t : Bytes) (w : LogicalWorld)
    (hcut : Cut sha256 s₀ w.store) :
    Prunes sha256 L P s₀ (revokeTokenTree sha256 depth t) w {t} := by
  induction depth generalizing t w with
  | zero =>
    exact ⟨none, ∅, w.store, rfl, .refl _, hcut, fun x hx => hx.elim, fun h => by cases h⟩
  | succ depth ih =>
    obtain ⟨r, R, s', hrun, hch, hcut', hR, hgone⟩ :=
      treeLoop_spec hsha (childIDs sha256 L w.store t) (fun c _ w hw => ih c w hw) w hcut
    have hRt : ∀ x ∈ R, ∃ t' ∈ ({t} : Set Bytes), Below sha256 s₀ t' x := by
      intro x hx
      obtain ⟨c, hc, hbelow⟩ := hR x hx
      exact ⟨t, rfl, .head (hcut.sub t c ((mem_childIDs hsha hcut.wf).1 hc)) hbelow⟩
    cases r with
    | none =>
      refine ⟨none, R, s', ?_, hch, hcut', hRt, fun h => by cases h⟩
      rw [revokeTokenTree, run_bind, run_children, run_bind, hrun]
      rfl
    | some u =>
      have hchildren :
          ∀ c, IsChild sha256 s₀ t c → ∀ u, Below sha256 s₀ c u → Absent sha256 s' u := by
        intro c hc u hu
        obtain hc | habs := hcut.cut t c hc
        · exact hgone rfl c ((mem_childIDs hsha hcut.wf).2 hc) u hu
        · exact (habs u hu).changes hsha hch
      obtain ⟨r', R', s'', hrun', hch', hcut'', hR', hgone'⟩ :=
        prunes_self hsha (L := L) (P := P) (w := { w with store := s' }) hcut' hchildren
      refine ⟨r', R ∪ R', s'', ?_, hch.trans hch', hcut'', ?_, hgone'⟩
      · rw [revokeTokenTree, run_bind, run_children, run_bind, hrun]
        exact hrun'
      · rintro x (hx | hx)
        · exact hRt x hx
        · exact hR' x hx

omit hsha in
theorem treeLoop_returns {f : Bytes → KV.Code Record (Option (Except Err Unit))} (cs : List Bytes)
    (hf : ∀ c ∈ cs, ∀ w, Cut sha256 s₀ w.store → Prunes sha256 L P s₀ (f c) w {c} ∧
      (run (KV.handle L) (f c) w).1 = some (.ok ()))
    (w : LogicalWorld) (hcut : Cut sha256 s₀ w.store) :
    (run (KV.handle L) (treeLoop f cs) w).1 = some () := by
  induction cs generalizing w with
  | nil => rfl
  | cons c cs ih =>
    obtain ⟨⟨r, R, s', hrun, -, hcut', -⟩, hret⟩ := hf c (List.mem_cons_self ..) w hcut
    rw [hrun] at hret
    rw [treeLoop, run_bind, hrun, show r = some (.ok ()) from hret]
    exact ih (fun d hd => hf d (List.mem_cons_of_mem c hd)) { w with store := s' } hcut'

/-- A depth above the rank of the token suffices. -/
theorem revokeTokenTree_returns {rank : Bytes → Nat}
    (hrank : ∀ p c, IsChild sha256 s₀ p c → rank c < rank p) (depth : Nat) (t : Bytes)
    (w : LogicalWorld) (hcut : Cut sha256 s₀ w.store) (hdepth : rank t < depth) :
    (run (KV.handle L) (revokeTokenTree sha256 depth t) w).1 = some (.ok ()) := by
  induction depth generalizing t w with
  | zero => exact absurd hdepth (Nat.not_lt_zero _)
  | succ depth ih =>
    have hloop := treeLoop_returns (L := L) (P := fun _ => True) (childIDs sha256 L w.store t)
      (fun c hc w' hw' => ⟨revokeTokenTree_spec hsha depth c w' hw', by
        have := hrank t c (hcut.sub t c ((mem_childIDs hsha hcut.wf).1 hc))
        exact ih c w' hw' (by omega)⟩) w hcut
    rw [revokeTokenTree, run_bind, run_children, run_bind]
    dsimp only
    rw [hloop, run_bind, run_ignore, run_bind, run_delete]
    rfl

end

end Tuck.Core
