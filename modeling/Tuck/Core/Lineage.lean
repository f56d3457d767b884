/-
  Who created whom. The history of creations is a fact about the past; the children index is
  what the code has. `Lineage` relates them as long as no token is deleted on its own while
  tokens that it created are stored: then every token stored has all its creators stored,
  and the index leads from each of them to the next.

  Under that condition, revoking a tree leaves no token that descends from its root
  (`tree_revocation_complete`).
-/
import Tuck.Core.TokenRuns

namespace Tuck.Core

open Tuck.Base Tuck.Api Prog List KV
open Tuck.Token hiding id

/-- `p` created `u`, and not as an orphan. -/
def CreatedBy (history : List Created) (p u : Bytes) : Prop := ∃ acc, ⟨u, acc, some p⟩ ∈ history

/-- `t` is in the chain of creators of `u`. -/
abbrev Descends (history : List Created) : Bytes → Bytes → Prop :=
  Relation.ReflTransGen (CreatedBy history)

/-- What the history says of a stored token. -/
def historyOf (t : Token) : Created :=
  ⟨t.id, t.accessor, if hasParent t then some t.parentID else none⟩

structure Lineage (sha256 : Bytes → Bytes) (s : State) : Prop where
  inv : Inv sha256 s
  ids_nodup : s.ids.Nodup
  accessors_nodup : (s.created.map Created.accessor).Nodup
  creators : ∀ t, Stored sha256 s.world.store t → historyOf t ∈ s.created
  parents : ∀ t, Stored sha256 s.world.store t → hasParent t = true →
    ∃ p, Stored sha256 s.world.store p ∧ p.id = t.parentID

/-! ## The condition -/

/-- The stored tokens. -/
def storedTokens (s : LogicalStore) : List Token :=
  (sorted.order (under s tokenPrefix)).filterMap fun k => (s.lookup k).bind Record.token?

/-- No stored token has this parent. -/
def childless (s : LogicalStore) (id : Bytes) : Bool :=
  (storedTokens s).all fun u => !(hasParent u && u.parentID == id)

/-- The operation creates no token from a role, and deletes no single token while one that it
    created stays. -/
def Op.keepsTree (sha256 : Bytes → Bytes) (s : LogicalStore) : Op → Bool
  | .create creator _ _ _ _ => !exhausted sha256 s creator || childless s creator
  | .createFromRole .. => false
  | .use id _ => !exhausted sha256 s id || childless s id
  | .gc now => (storedTokens s).all fun p => !p.isExpired now ||
      (storedTokens s).all fun u => !(hasParent u && u.parentID == p.id) || u.isExpired now
  | .revoke id => childless s id
  | .revokeByAccessor acc => (byAccessor sha256 s acc).all fun t => childless s t.id
  | _ => true

section

variable {sha256 : Bytes → Bytes} {L : Listing} {P : Token → Prop}

theorem mem_storedTokens {s : LogicalStore} (hwf : Wf sha256 s) {t : Token} :
    t ∈ storedTokens s ↔ Stored sha256 s t := mem_readAll (w := ⟨s, fun _ => 0⟩) hwf

theorem childless_iff {s : LogicalStore} (hwf : Wf sha256 s) {id : Bytes} :
    childless s id = true ↔ ∀ u, Stored sha256 s u → hasParent u = true → u.parentID ≠ id := by
  unfold childless
  simp only [all_eq_true, mem_storedTokens hwf]
  refine forall₂_congr fun u hu => ?_
  cases hasParent u <;> simp

theorem historyOf_kin {t u : Token} (h : Kin t u) : historyOf t = historyOf u := by
  unfold historyOf
  rw [h.id, h.accessor, h.hasParent, h.parentID]

theorem Start.lineage {s : State} (h : Start s) : Lineage sha256 s where
  inv := h.inv
  ids_nodup := by
    rw [State.ids, h.created]
    exact nodup_nil
  accessors_nodup := by
    rw [h.created]
    exact nodup_nil
  creators t ht := absurd (h.blank _ _ ht).1 (by simp [Record.token?])
  parents t ht := absurd (h.blank _ _ ht).1 (by simp [Record.token?])

variable (hsha : Function.Injective sha256) {s s' : State} {op : Op}

include hsha

/-- No token is left whose parent the operation deleted. -/
theorem parent_not_removed (hinv : Inv sha256 s) {R : Set Bytes}
    (hok : op.keepsTree sha256 s.world.store = true)
    (hch : Changes sha256 P s.world.store R s'.world.store)
    (hR : op.Removes sha256 s.world.store s'.world.store R) {u : Token}
    (hu : Stored sha256 s'.world.store u) (hp : hasParent u = true) : u.parentID ∉ R := by
  obtain ⟨hnot, v, hv, hkin⟩ := hch.back hsha hu
  have hvp : hasParent v = true := hkin.hasParent.trans hp
  rw [← hkin.parentID]
  have hsingle : ∀ id, R = {id} → childless s.world.store id = true → v.parentID ∉ R := by
    rintro id rfl hchild
    exact (childless_iff hinv.wf).1 hchild v hv hvp
  have huse : ∀ id, (R = ∅ ∨ R = {id} ∧ exhausted sha256 s.world.store id = true) →
      (!exhausted sha256 s.world.store id || childless s.world.store id) = true →
      v.parentID ∉ R := by
    rintro id (rfl | ⟨rfl, hex⟩) hcond
    · exact Set.notMem_empty _
    · rw [hex] at hcond
      exact hsingle id rfl hcond
  cases op with
  | create creator req ns now now' => exact huse creator hR hok
  | createFromRole => cases hok
  | use id now => exact huse id hR hok
  | gc now =>
    rintro hmem
    rw [show R = _ from hR] at hmem hnot
    obtain ⟨p, hpst, hpexp, hpid⟩ := hmem
    simp only [Op.keepsTree, all_eq_true, mem_storedTokens hinv.wf] at hok
    have hall := hok p hpst
    rw [hpexp, Bool.not_true, Bool.false_or, all_eq_true] at hall
    have hexp := hall v ((mem_storedTokens hinv.wf).2 hv)
    rw [hvp, hpid, beq_self_eq_true, Bool.and_self, Bool.not_true, Bool.false_or] at hexp
    exact hnot ⟨v, hv, hexp, hkin.id⟩
  | revoke id => exact hsingle id hR hok
  | revokeTree id =>
    intro hmem
    have hedge := hinv.wf.child_of_stored v hv hvp
    exact hR.2 v.id ((hR.1 _ hmem).tail hedge) u hu hkin.id.symm
  | revokeByAccessor acc =>
    obtain ⟨t, ht, rfl, hRt⟩ | ⟨rfl, -⟩ := hR
    · rw [Op.keepsTree, byAccessor_of_stored hsha hinv ht] at hok
      exact hsingle t.id hRt hok
    · exact Set.notMem_empty _
  | issue | renew | narrow =>
    rw [show R = ∅ from hR]
    exact Set.notMem_empty _

/-- One operation keeps the relation between the history and the store. -/
theorem Lineage.of_case (h : Lineage sha256 s) (hfresh : Fresh s op)
    (hok : op.keepsTree sha256 s.world.store = true) (hcase : OpCase sha256 P s op s') :
    Lineage sha256 s' := by
  have hinv' := h.inv.of_case hsha hfresh hcase
  cases hcase with
  | change R hch hcreated hR =>
    refine ⟨hinv', ?_, ?_, fun t ht => ?_, fun t ht hp => ?_⟩
    · rw [State.ids, hcreated]
      exact h.ids_nodup
    · rw [hcreated]
      exact h.accessors_nodup
    · obtain ⟨-, u, hu, hkin⟩ := hch.back hsha ht
      rw [hcreated, ← historyOf_kin hkin]
      exact h.creators u hu
    · obtain ⟨-, u, hu, hkin⟩ := hch.back hsha ht
      obtain ⟨p, hpst, hpid⟩ := h.parents u hu (hkin.hasParent.trans hp)
      have hpar := parent_not_removed hsha h.inv hok hch hR ht hp
      rw [← hkin.parentID, ← hpid] at hpar
      obtain ⟨q, hq, hqkin⟩ := hch.forth hsha hpst hpar
      exact ⟨q, hq, by rw [← hqkin.id, hpid, hkin.parentID]⟩
  | create hop s₁ tok creator hch hput hid hacc hcreated hparent horphan =>
    have hnew := hfresh hop
    -- what was stored before is stored still
    have hforth : ∀ p, Stored sha256 s.world.store p →
        ∃ q, Stored sha256 s'.world.store q ∧ q.id = p.id := by
      intro p hp
      obtain ⟨p₁, hp₁, hkin₁⟩ := hch.forth hsha hp (Set.notMem_empty _)
      have hne : p₁.id ≠ tok.id := by
        rw [← hkin₁.id, hid]
        obtain ⟨e, he, heid, -⟩ := h.inv.known p hp
        exact fun heq => hnew.1 (heq ▸ heid ▸ mem_map_of_mem he)
      obtain ⟨q, hq, hqkin⟩ :=
        hput.forth hsha ((stored_putStore hsha).2 (.inr ⟨hne, hp₁⟩)) (Set.notMem_empty _)
      exact ⟨q, hq, hqkin.id.symm.trans hkin₁.id.symm⟩
    refine ⟨hinv', ?_, ?_, fun t ht => ?_, fun t ht hp => ?_⟩
    · rw [State.ids, hcreated]
      exact nodup_cons.2 ⟨hid ▸ hnew.1, h.ids_nodup⟩
    · rw [hcreated]
      exact nodup_cons.2 ⟨hacc ▸ hnew.2, h.accessors_nodup⟩
    · rw [hcreated]
      obtain hkin | ⟨-, u, hu, hkin⟩ := stored_of_create hsha hch hput ht
      · -- the new token: the history has its parent, or none
        rw [← historyOf_kin hkin, historyOf]
        cases hpar : hasParent tok with
        | true =>
          rw [if_pos rfl, ← (hparent hpar).1]
          exact mem_cons_self ..
        | false =>
          obtain hnone | ⟨_, _, _, _, _, _, rfl⟩ := horphan hpar
          · rw [if_neg Bool.false_ne_true, ← hnone]
            exact mem_cons_self ..
          · cases hok
      · rw [← historyOf_kin hkin]
        exact mem_cons_of_mem _ (h.creators u hu)
    · obtain hkin | ⟨-, u, hu, hkin⟩ := stored_of_create hsha hch hput ht
      · obtain ⟨-, p, hpst, hpid⟩ := hparent (hkin.hasParent.trans hp)
        obtain ⟨q, hq, hqid⟩ := hforth p hpst
        exact ⟨q, hq, by rw [hqid, hpid, hkin.parentID]⟩
      · obtain ⟨p, hpst, hpid⟩ := h.parents u hu (hkin.hasParent.trans hp)
        obtain ⟨q, hq, hqid⟩ := hforth p hpst
        exact ⟨q, hq, by rw [hqid, hpid, hkin.parentID]⟩

theorem lineage_runs (hstart : Start s) {ops : List Op}
    (hops : Meets (stepOp sha256 L)
      (fun s op => Fresh s op ∧ op.keepsTree sha256 s.world.store = true) s ops) :
    Lineage sha256 (runs (stepOp sha256 L) s ops) :=
  hops.holds hstart.lineage fun _ op hok h =>
    h.of_case hsha hok.1 hok.2
      (op_cases (P := fun _ => True) hsha h.inv op fun _ _ _ _ _ => trivial)

end

/-! ## Revoking a tree -/

/-- `c` is a stored token whose parent is `p`. -/
def StoredChild (sha256 : Bytes → Bytes) (s : LogicalStore) (p c : Bytes) : Prop :=
  ∃ u, Stored sha256 s u ∧ hasParent u = true ∧ u.parentID = p ∧ u.id = c

section

variable {sha256 : Bytes → Bytes} {L : Listing} {s : State}

/-- The chain of creators of a stored token is stored. -/
theorem Lineage.chain (h : Lineage sha256 s) {t c : Bytes} (hdesc : Descends s.created t c)
    {u : Token} (hu : Stored sha256 s.world.store u) (hid : u.id = c) :
    Relation.ReflTransGen (StoredChild sha256 s.world.store) t c := by
  induction hdesc generalizing u with
  | refl => exact .refl
  | @tail b c _ hby ih =>
    -- the history has one entry for an ID
    obtain ⟨acc, hentry⟩ := hby
    have heq := inj_on_of_nodup_map h.ids_nodup (h.creators u hu) hentry hid
    have hpar : (if hasParent u then some u.parentID else none) = some b :=
      congrArg Created.creator heq
    split_ifs at hpar with hp
    obtain rfl := Option.some.inj hpar
    obtain ⟨p, hpst, hpid⟩ := h.parents u hu hp
    exact (ih hpst hpid).tail ⟨u, hu, hp, rfl, hid⟩

theorem below_of_chain (hwf : Wf sha256 s.world.store) {t c : Bytes}
    (h : Relation.ReflTransGen (StoredChild sha256 s.world.store) t c) :
    Below sha256 s.world.store t c := by
  refine Relation.ReflTransGen.mono (fun p d hd => ?_) _ _ h
  obtain ⟨u, hu, hp, rfl, rfl⟩ := hd
  exact hwf.child_of_stored u hu hp

theorem authenticate_of_absent (hsha : Function.Injective sha256) {w : LogicalWorld}
    (hwf : Wf sha256 w.store) {id : Bytes} (habs : Absent sha256 w.store id) (now : Int) :
    (run (handle L) (authenticate sha256 id now) w).1 = .error .tokenInvalid := by
  have hnone : validToken sha256 w.store id now = none := by
    refine Option.eq_none_iff_forall_ne_some.2 fun tok htok => ?_
    obtain ⟨hst, hid⟩ := (storedToken_eq_some hsha hwf).1 (Option.filter_eq_some_iff.1 htok).1
    exact habs tok hst hid
  rw [run_authenticate, hnone]

variable (hsha : Function.Injective sha256)

include hsha

theorem Lineage.revokeTree (h : Lineage sha256 s) (t : Bytes) {depth : Nat}
    (hdepth : s.created.length < depth) :
    (run (handle L) (revokeTokenTree sha256 depth t) s.world).1 = some (.ok ()) ∧
      ∀ u now, Descends s.created t u →
        (run (handle L) (authenticate sha256 u now)
          (run (handle L) (revokeTokenTree sha256 depth t) s.world).2).1 =
            .error .tokenInvalid := by
  have hrank : s.ids.idxOf t < depth :=
    (idxOf_le_length.trans_eq (length_map _)).trans_lt hdepth
  have hret := revokeTokenTree_returns (L := L) hsha (fun p c hc => (h.inv.ranked p c hc).2) depth t
    s.world (Cut.refl h.inv.wf) hrank
  obtain ⟨r, R, s', hrun, hch, hcut, -, hgone⟩ := revokeTokenTree_spec (L := L) (P := fun _ => True)
    hsha depth t s.world (Cut.refl h.inv.wf)
  refine ⟨hret, fun u now hdesc => ?_⟩
  rw [hrun] at hret ⊢
  obtain rfl : r = some (.ok ()) := hret
  refine authenticate_of_absent hsha hcut.wf (fun tok htok hid => ?_) now
  -- a token left over would have its chain in the index at the start
  obtain ⟨-, v, hv, hkin⟩ := hch.back hsha htok
  have hbelow := below_of_chain h.inv.wf (h.chain hdesc hv (hkin.id.trans hid))
  exact hgone rfl t rfl u hbelow tok htok hid

theorem Lineage.revokeByAccessor (h : Lineage sha256 s) {t acc : Bytes}
    (hacc : ∃ c ∈ s.created, c.id = t ∧ c.accessor = acc)
    (hok : (Op.revokeByAccessor acc).keepsTree sha256 s.world.store = true)
    (hnil : (run (handle L) (revokeTokenByAccessor sha256 acc) s.world).1 = .ok ())
    (u : Bytes) (now : Int) (hdesc : Descends s.created t u) :
    (run (handle L) (authenticate sha256 u now)
      (run (handle L) (revokeTokenByAccessor sha256 acc) s.world).2).1 =
        .error .tokenInvalid := by
  obtain ⟨tok, htok, rfl, s', hrun, hch⟩ | ⟨-, s', hrun, -⟩ := did_revokeTokenByAccessor (L := L)
    (P := fun _ => True) h.inv.wf acc fun _ _ _ => trivial
  · rw [hrun]
    -- the accessor is that of `t`
    obtain ⟨c, hc, rfl, hcacc⟩ := hacc
    have heq := inj_on_of_nodup_map h.accessors_nodup (h.creators tok htok) hc hcacc.symm
    rw [← heq] at hdesc
    rw [Op.keepsTree, byAccessor_of_stored hsha h.inv htok] at hok
    have hchildless := (childless_iff h.inv.wf).1 hok
    refine authenticate_of_absent hsha (hch.wf hsha h.inv.wf) (fun v hv hid => ?_) now
    obtain ⟨hne, v', hv', hkin⟩ := hch.back hsha hv
    obtain heq | ⟨d, ⟨x, hx, hxp, hxt, -⟩, -⟩ :=
      (h.chain hdesc hv' (hkin.id.trans hid)).cases_head
    · exact hne (hid.trans heq.symm)
    · exact hchildless x hx hxp hxt
  · rw [hrun] at hnil
    cases hnil

/-- After a run that deletes no single token while one that it created stays, and creates none
    from a role, revoking a tree (or a token without stored children by its accessor) leaves
    no token that authenticates and has the revoked one among its creators. -/
theorem tree_revocation_complete (hstart : Start s) {ops : List Op}
    (hops : Meets (stepOp sha256 L)
      (fun s op => Fresh s op ∧ op.keepsTree sha256 s.world.store = true) s ops) (t : Bytes) :
    let s' := runs (stepOp sha256 L) s ops
    (∀ depth, s'.created.length < depth →
      (run (handle L) (revokeTokenTree sha256 depth t) s'.world).1 = some (.ok ()) ∧
        ∀ u now, Descends s'.created t u →
          (run (handle L) (authenticate sha256 u now)
            (run (handle L) (revokeTokenTree sha256 depth t) s'.world).2).1 =
              .error .tokenInvalid) ∧
      ∀ acc, (∃ c ∈ s'.created, c.id = t ∧ c.accessor = acc) →
        (Op.revokeByAccessor acc).keepsTree sha256 s'.world.store = true →
          (run (handle L) (revokeTokenByAccessor sha256 acc) s'.world).1 = .ok () →
            ∀ u now, Descends s'.created t u →
              (run (handle L) (authenticate sha256 u now)
                (run (handle L) (revokeTokenByAccessor sha256 acc) s'.world).2).1 =
                  .error .tokenInvalid := by
  intro s'
  have hlin : Lineage sha256 s' := lineage_runs hsha hstart hops
  exact ⟨fun depth hdepth => hlin.revokeTree hsha t hdepth,
    fun acc hacc hok hnil u now hdesc => hlin.revokeByAccessor hsha hacc hok hnil u now hdesc⟩

end

/-! ### Runs -/

/-- The root token creates a token, that one another. -/
def threeGenerations : List Op :=
  rootAndChild ++ [.create (drawnID (counting.drop 48)) plainReq [] 0 0]

theorem descends_grandchild {history : List Created} {a b c : Bytes} (hab : CreatedBy history a b)
    (hbc : CreatedBy history b c) : Descends history a c := .tail (.single hab) hbc

/-- Revoking the tree of the root of three generations. -/
theorem tree_revocation_complete_threeGenerations :
    Descends (runs (stepOp (fun b => b) sorted) emptyState threeGenerations).created
        (drawnID counting) (drawnID (counting.drop 96)) ∧
      (run (handle sorted) (authenticate (fun b => b) (drawnID (counting.drop 96)) 0)
        (run (handle sorted) (revokeTokenTree (fun b => b) 4 (drawnID counting))
          (runs (stepOp (fun b => b) sorted) emptyState threeGenerations).world).2).1 =
            .error .tokenInvalid := by
  have hmeets : Meets (stepOp (fun b => b) sorted)
      (fun s op => Fresh s op ∧ op.keepsTree (fun b => b) s.world.store = true) emptyState
      threeGenerations := by decide +kernel
  have hdesc : Descends (runs (stepOp (fun b => b) sorted) emptyState threeGenerations).created
      (drawnID counting) (drawnID (counting.drop 96)) :=
    descends_grandchild (b := drawnID (counting.drop 48))
      ⟨drawnAccessor (counting.drop 48), by decide +kernel⟩
      ⟨drawnAccessor (counting.drop 96), by decide +kernel⟩
  obtain ⟨htree, -⟩ :=
    tree_revocation_complete (fun _ _ h => h) start_emptyState hmeets (drawnID counting)
  exact ⟨hdesc, (htree 4 (by decide +kernel)).2 _ 0 hdesc⟩

/-- The token of the middle generation is revoked on its own. -/
def middleRevoked : List Op := threeGenerations ++ [.revoke (drawnID (counting.drop 48))]

/-- After that the tree of the root is revoked, and in the second part the root of a tree of two
    by its accessor. A token that descends from the root authenticates afterwards. -/
theorem descendants_survive :
    Meets (stepOp (fun b => b) sorted) Fresh emptyState middleRevoked ∧
    (Descends (runs (stepOp (fun b => b) sorted) emptyState middleRevoked).created
        (drawnID counting) (drawnID (counting.drop 96)) ∧
      (run (handle sorted) (revokeTokenTree (fun b => b) 4 (drawnID counting))
        (runs (stepOp (fun b => b) sorted) emptyState middleRevoked).world).1 = some (.ok ()) ∧
      ((run (handle sorted) (authenticate (fun b => b) (drawnID (counting.drop 96)) 0)
        (run (handle sorted) (revokeTokenTree (fun b => b) 4 (drawnID counting))
          (runs (stepOp (fun b => b) sorted) emptyState middleRevoked).world).2).1).isOk = true) ∧
    (CreatedBy (runs (stepOp (fun b => b) sorted) emptyState rootAndChild).created
        (drawnID counting) (drawnID (counting.drop 48)) ∧
      (run (handle sorted) (revokeTokenByAccessor (fun b => b) (drawnAccessor counting))
        (runs (stepOp (fun b => b) sorted) emptyState rootAndChild).world).1 = .ok () ∧
      ((run (handle sorted) (authenticate (fun b => b) (drawnID (counting.drop 48)) 0)
        (run (handle sorted)
          (revokeTokenByAccessor (fun b => b) (drawnAccessor counting))
          (runs (stepOp (fun b => b) sorted) emptyState rootAndChild).world).2).1).isOk =
            true) := by
  refine ⟨by decide +kernel, ⟨?_, by decide +kernel, by decide +kernel⟩, ?_, by decide +kernel,
    by decide +kernel⟩
  · exact descends_grandchild (b := drawnID (counting.drop 48))
      ⟨drawnAccessor (counting.drop 48), by decide +kernel⟩
      ⟨drawnAccessor (counting.drop 96), by decide +kernel⟩
  · exact ⟨drawnAccessor (counting.drop 48), by decide +kernel⟩

end Tuck.Core
