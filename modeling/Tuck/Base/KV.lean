/-
  A key-value store that programs call: get, put, delete and list by prefix, and a random
  source. The values are of any type; keys are byte strings.

  A program is confined to a set of keys if every call it makes is (`Call.Within`,
  `Call.Writes`). What follows from that is proved once, for every program and every choice
  of calls that fail: it does not see the rest of the store (`agree_of_within`) and does not
  change it (`frame_of_writes`).
-/
import Tuck.Base.Prog
import Tuck.Base.Bytes

namespace Tuck.Base.KV

open Prog Finmap

variable {V α ε : Type}

/-- A call to the store. -/
inductive Call (V : Type) where
  | get (key : Bytes)
  | put (key : Bytes) (value : V)
  | delete (key : Bytes)
  | list (pre : Bytes)
  | rand (n : Nat)

/-- What a call returns; an absent entry is `none`. -/
def Call.Reply : Call V → Type
  | .get _ => Option V
  | .put _ _ => Unit
  | .delete _ => Unit
  | .list _ => List Bytes
  | .rand _ => Bytes

abbrev Code (V α : Type) := Prog (Call V) Call.Reply α

/-- The store. -/
abbrev Store (V : Type) := Finmap fun _ : Bytes => V

/-- The store and the random source. -/
structure World (V : Type) where
  store : Store V
  rng : Stream' UInt8

/-- How the store lists a set of keys. -/
structure Listing where
  order : Finset Bytes → List Bytes
  nodup : ∀ s, (order s).Nodup
  mem_order : ∀ {s k}, k ∈ order s ↔ k ∈ s

/-- Keys in the order of their bytes. -/
def sortKeys (s : Finset Bytes) : List Bytes :=
  Quotient.liftOn s.val (List.insertionSort (· ≤ ·)) fun a b hab =>
    List.Perm.eq_of_pairwise (fun _ _ _ _ => Std.Antisymm.antisymm _ _)
      (List.pairwise_insertionSort _ a) (List.pairwise_insertionSort _ b)
      ((List.perm_insertionSort _ a).trans (hab.trans (List.perm_insertionSort _ b).symm))

theorem coe_sortKeys (s : Finset Bytes) : (sortKeys s : Multiset Bytes) = s.val := by
  obtain ⟨m, hm⟩ := s
  induction m using Quotient.inductionOn with
  | h l => exact Multiset.coe_eq_coe.2 (List.perm_insertionSort _ l)

theorem pairwise_sortKeys (s : Finset Bytes) : (sortKeys s).Pairwise (· ≤ ·) := by
  obtain ⟨m, hm⟩ := s
  induction m using Quotient.inductionOn with
  | h l => exact List.pairwise_insertionSort _ l

/-- A store that lists its keys sorted. -/
def sorted : Listing where
  order := sortKeys
  nodup s := by rw [← Multiset.coe_nodup, coe_sortKeys]; exact s.nodup
  mem_order := by
    intro s k
    rw [← Multiset.mem_coe, coe_sortKeys, Finset.mem_val]

/-- The keys that start with a prefix. -/
def under (s : Store V) (pre : Bytes) : Finset Bytes := s.keys.filter fun k => hasPrefix k pre

/-- The effect of a call that succeeds. -/
def handle (L : Listing) : (c : Call V) → World V → c.Reply × World V
  | .get k, w => (w.store.lookup k, w)
  | .put k v, w => ((), { w with store := w.store.insert k v })
  | .delete k, w => ((), { w with store := w.store.erase k })
  | .list pre, w => (L.order (under w.store pre), w)
  | .rand n, w => (w.rng.take n, { w with rng := w.rng.drop n })

/-! ## The calls as programs -/

section

variable (e : ε)

def get (k : Bytes) : Code V (Except ε (Option V)) := attempt e (Call.get k)

def put (k : Bytes) (v : V) : Code V (Except ε Unit) := attempt e (Call.put k v)

def delete (k : Bytes) : Code V (Except ε Unit) := attempt e (Call.delete (V := V) k)

def list (pre : Bytes) : Code V (Except ε (List Bytes)) := attempt e (Call.list (V := V) pre)

def rand (n : Nat) : Code V (Except ε Bytes) := attempt e (Call.rand (V := V) n)

variable (L : Listing) (w : World V)

@[simp] theorem run_get (k : Bytes) :
    run (handle L) (get e k) w = (.ok (w.store.lookup k), w) := rfl

@[simp] theorem run_put (k : Bytes) (v : V) :
    run (handle L) (put e k v) w = (.ok (), { w with store := w.store.insert k v }) := rfl

@[simp] theorem run_delete (k : Bytes) :
    run (handle L) (delete e k) w = (.ok (), { w with store := w.store.erase k }) := rfl

@[simp] theorem run_list (pre : Bytes) :
    run (handle L) (list e pre) w = (.ok (L.order (under w.store pre)), w) := rfl

@[simp] theorem run_rand (n : Nat) :
    run (handle L) (rand e n) w = (.ok (w.rng.take n), { w with rng := w.rng.drop n }) := rfl

end

theorem mem_under {s : Store V} {pre k : Bytes} :
    k ∈ under s pre ↔ (s.lookup k).isSome = true ∧ pre <+: k := by
  unfold under
  rw [Finset.mem_filter, mem_keys, hasPrefix_iff, lookup_isSome]

/-- The names that a listing gives when the prefix is cut off. -/
theorem mem_names (L : Listing) (s : Store V) (pre name : Bytes) :
    name ∈ (L.order (under s pre)).map (fun k => trimPrefix k pre) ↔
      (s.lookup (pre ++ name)).isSome = true := by
  rw [List.mem_map]
  constructor
  · intro ⟨k, hk, hname⟩
    obtain ⟨hstored, x, rfl⟩ := mem_under.1 (L.mem_order.1 hk)
    rw [trimPrefix_append] at hname
    rwa [← hname]
  · intro hstored
    refine ⟨pre ++ name, L.mem_order.2 (mem_under.2 ⟨hstored, List.prefix_append ..⟩), ?_⟩
    exact trimPrefix_append pre name

theorem lookup_insert (s : Store V) (k k' : Bytes) (v : V) :
    (s.insert k v).lookup k' = if k' = k then some v else s.lookup k' := by
  split_ifs with hk
  · rw [hk, Finmap.lookup_insert]
  · exact Finmap.lookup_insert_of_ne s hk

theorem lookup_erase (s : Store V) (k k' : Bytes) :
    (s.erase k).lookup k' = if k' = k then none else s.lookup k' := by
  split_ifs with hk
  · rw [hk, Finmap.lookup_erase]
  · exact Finmap.lookup_erase_ne hk

/-! ## Filling a store -/

/-- The values of `s` at the keys `ks`, put into an empty store one by one. -/
def fill (d : V) (s : Store V) (ks : List Bytes) : Store V :=
  ks.foldl (fun m k => m.insert k ((s.lookup k).getD d)) ∅

theorem lookup_foldl_insert (f : Bytes → V) (ks : List Bytes) (m : Store V) (k : Bytes) :
    (ks.foldl (fun m k => m.insert k (f k)) m).lookup k =
      if k ∈ ks then some (f k) else m.lookup k := by
  induction ks generalizing m with
  | nil => rfl
  | cons k' ks ih =>
    rw [List.foldl_cons, ih, lookup_insert]
    by_cases hk : k = k'
    · simp [hk]
    · simp [hk]

/-- Put back in whatever order, all of a store is the store. -/
theorem fill_order (L : Listing) (d : V) (s : Store V) : fill d s (L.order s.keys) = s := by
  refine ext_lookup fun k => ?_
  have hmem : k ∈ L.order s.keys ↔ k ∈ s := L.mem_order.trans mem_keys
  rw [fill, lookup_foldl_insert]
  by_cases hk : k ∈ s
  · obtain ⟨v, hv⟩ := mem_iff.mp hk
    rw [if_pos (hmem.mpr hk), hv, Option.getD_some]
  · rw [if_neg (fun h => hk (hmem.mp h)), lookup_eq_none.mpr hk, lookup_empty]

/-! ## Deleting all keys with a prefix -/

/-- The store without the keys that start with `pre`, as a loop over the listing leaves it. -/
def wipe (L : Listing) (s : Store V) (pre : Bytes) : Store V :=
  (L.order (under s pre)).foldl (fun s k => s.erase k) s

theorem lookup_foldl_erase (ks : List Bytes) (s : Store V) (k : Bytes) :
    (ks.foldl (fun s k => s.erase k) s).lookup k = if k ∈ ks then none else s.lookup k := by
  induction ks generalizing s with
  | nil => rfl
  | cons k' ks ih =>
    rw [List.foldl_cons, ih, lookup_erase]
    by_cases hk : k = k' <;> simp [hk]

theorem lookup_wipe (L : Listing) (s : Store V) (pre k : Bytes) :
    (wipe L s pre).lookup k = if pre <+: k then none else s.lookup k := by
  rw [wipe, lookup_foldl_erase]
  simp only [L.mem_order, mem_under]
  split_ifs with h1 h2 h2
  · rfl
  · exact absurd h1.2 h2
  · by_contra hne
    exact h1 ⟨Option.isSome_iff_ne_none.2 hne, h2⟩
  · rfl

/-- Deleting each key of a listing, errors ignored. -/
theorem run_each_delete (e : ε) (L : Listing) (ks : List Bytes) (w : World V) :
    run (handle L) (each (fun k => (delete e k : Code V (Except ε Unit))) ks) w =
      ((), { w with store := ks.foldl (fun s k => s.erase k) w.store }) := by
  rw [run_each]
  congr 1
  induction ks generalizing w with
  | nil => rfl
  | cons k ks ih => exact ih _

/-- Deleting each key of a listing, up to the first error. -/
theorem run_eachOk_delete (e : ε) (L : Listing) (ks : List Bytes) (w : World V) :
    run (handle L) (eachOk (fun k => (delete e k : Code V (Except ε Unit))) ks) w =
      (.ok (), { w with store := ks.foldl (fun s k => s.erase k) w.store }) := by
  induction ks generalizing w with
  | nil => rfl
  | cons k ks ih =>
    rw [eachOk, run_andThen, run_delete]
    exact ih _

/-! ## Programs confined to a set of keys -/

def HavePrefix (pre : Bytes) (ks : List Bytes) : Prop := ∀ k ∈ ks, pre <+: k

/-- What is known of every reply: listed keys have the prefix. -/
def Call.Plausible : (c : Call V) → c.Reply → Prop
  | .list pre, ks => HavePrefix pre ks
  | _, _ => True

theorem plausible_handle (L : Listing) (c : Call V) (w : World V) :
    c.Plausible (handle L c w).1 := by
  cases c with
  | list pre => exact fun k hk => (mem_under.1 (L.mem_order.1 hk)).2
  | _ => trivial

/-- The call reads and writes only keys of `A`. -/
def Call.Within (A : Set Bytes) : Call V → Prop
  | .get k => k ∈ A
  | .put k _ => k ∈ A
  | .delete k => k ∈ A
  | .list pre => ∀ k, pre <+: k → k ∈ A
  | .rand _ => True

/-- The call writes only keys of `A`. -/
def Call.Writes (A : Set Bytes) : Call V → Prop
  | .put k _ => k ∈ A
  | .delete k => k ∈ A
  | _ => True

/-- The call writes nothing, and deletes only keys of `A`. -/
def Call.Deletes (A : Set Bytes) : Call V → Prop
  | .put _ _ => False
  | .delete k => k ∈ A
  | _ => True

/-- The call changes nothing. -/
def Call.Reads : Call V → Prop
  | .get _ => True
  | .list _ => True
  | _ => False

/-- Every call of the program is within `A`. -/
abbrev Confined (A : Set Bytes) (p : Code V α) : Prop :=
  Calls Call.Plausible (Call.Within A) p

theorem Call.Within.writes {A : Set Bytes} {c : Call V} (h : c.Within A) : c.Writes A := by
  cases c <;> first | exact h | trivial

/-- A program that goes on with a listing knows that the keys have the prefix. -/
theorem calls_list {P : Call V → Prop} {e : ε} {pre : Bytes}
    {f : List Bytes → Code V (Except ε α)} (hc : P (.list pre))
    (hf : ∀ ks, HavePrefix pre ks → Calls Call.Plausible P (f ks)) :
    Calls Call.Plausible P ((list e pre).andThen f) :=
  ⟨hc, trivial, fun ks hks => hf ks hks⟩

/-- Two worlds that agree on `A`. -/
def Agree (A : Set Bytes) (w w' : World V) : Prop :=
  w.rng = w'.rng ∧ ∀ k ∈ A, w.store.lookup k = w'.store.lookup k

theorem handle_agree {A : Set Bytes} (L : Listing) {c : Call V} {w w' : World V} (hc : c.Within A)
    (h : Agree A w w') :
    (handle L c w).1 = (handle L c w').1 ∧ Agree A (handle L c w).2 (handle L c w').2 := by
  obtain ⟨hrng, hlook⟩ := h
  cases c with
  | get k => exact ⟨hlook k hc, hrng, hlook⟩
  | put k v =>
    refine ⟨rfl, hrng, fun k' hk' => ?_⟩
    simp only [handle, lookup_insert, hlook k' hk']
  | delete k =>
    refine ⟨rfl, hrng, fun k' hk' => ?_⟩
    simp only [handle, lookup_erase, hlook k' hk']
  | list pre =>
    refine ⟨congrArg L.order (Finset.ext fun k => ?_), hrng, hlook⟩
    rw [mem_under, mem_under]
    refine and_congr_left fun hpre => ?_
    rw [hlook k (hc k hpre)]
  | rand n => exact ⟨congrArg (Stream'.take n) hrng, congrArg (Stream'.drop n) hrng, hlook⟩

theorem handle_frame {A : Set Bytes} (L : Listing) {c : Call V} (w : World V) (hc : c.Writes A)
    {k : Bytes} (hk : k ∉ A) : (handle L c w).2.store.lookup k = w.store.lookup k := by
  cases c with
  | put k' v => exact lookup_insert_of_ne _ fun h => hk (h ▸ hc)
  | delete k' => exact lookup_erase_ne fun h => hk (h ▸ hc)
  | _ => rfl

section

variable {A : Set Bytes} {p : Code V α} (L : Listing) (allow : Nat → Call V → Bool) (n : Nat)

/-- A confined program gives the same result on worlds that agree on its keys, and leaves
    worlds that agree on them. -/
theorem agree_of_within (hp : Confined A p) {w w' : World V} (h : Agree A w w') :
    (runAllowed (handle L) allow n p w).1 = (runAllowed (handle L) allow n p w').1 ∧
      Agree A (runAllowed (handle L) allow n p w).2
        (runAllowed (handle L) allow n p w').2 :=
  hp.runAllowed_rel (plausible_handle L) (fun _ _ _ hc hw => handle_agree L hc hw) allow n h

/-- A program that only reads leaves the world as it is. -/
theorem world_of_reads (hp : Calls Call.Plausible Call.Reads p) (w : World V) :
    (runAllowed (handle L) allow n p w).2 = w :=
  hp.runAllowed_inv (fun w' => w' = w) (plausible_handle L)
    (fun c w' hc hw => by cases c <;> first | exact hw | exact hc.elim) allow n rfl

theorem run_of_reads (hp : Calls Call.Plausible Call.Reads p) (w : World V) :
    (run (handle L) p w).2 = w := by
  rw [← runAllowed_all (handle L) p 0 w]
  exact world_of_reads L _ 0 hp w

/-- A program that writes only keys of `A` leaves every other key as it is. -/
theorem frame_of_writes (hp : Calls Call.Plausible (Call.Writes A) p) (w : World V) {k : Bytes}
    (hk : k ∉ A) :
    (runAllowed (handle L) allow n p w).2.store.lookup k = w.store.lookup k :=
  hp.runAllowed_inv (fun w' => w'.store.lookup k = w.store.lookup k) (plausible_handle L)
    (fun _ w' hc hw => (handle_frame L w' hc hk).trans hw) allow n rfl

/-- A program that only deletes, and only keys of `A`, leaves every key as it is or removes
    it. -/
theorem lookup_of_deletes (hp : Calls Call.Plausible (Call.Deletes A) p) (w : World V) (k : Bytes) :
    (runAllowed (handle L) allow n p w).2.store.lookup k = w.store.lookup k ∨
      k ∈ A ∧ (runAllowed (handle L) allow n p w).2.store.lookup k = none := by
  refine hp.runAllowed_inv (fun w' => w'.store.lookup k = w.store.lookup k ∨
    k ∈ A ∧ w'.store.lookup k = none) (plausible_handle L) (fun c w' hc hw => ?_) allow n (.inl rfl)
  cases c with
  | put k' v => exact hc.elim
  | delete k' =>
    simp only [handle, lookup_erase]
    split_ifs with hk
    · exact .inr ⟨hk ▸ hc, rfl⟩
    · exact hw
  | _ => exact hw

end

end Tuck.Base.KV
