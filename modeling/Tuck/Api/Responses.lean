/-
  The bodies of the responses to KV reads, as they go over the wire.

  A value that is valid UTF-8 is written as a JSON string; any other value is written in base64,
  and the member "encoding" says so. A KV v2 value without bytes comes out of the barrier as nil,
  as a deleted one does, so that the response to it says "deleted" and has no value.

  `Texts` is what `time` and the errors print.
-/
import Tuck.Api.Secrets
import Tuck.Base.Cut

namespace Tuck.Api

open Tuck.Base List

structure Texts where
  /-- `Format(time.RFC3339)`. -/
  rfc3339 : Int → Bytes
  /-- `MarshalJSON` of a time, between its quotes. -/
  jsonTime : Int → Bytes
  errorText : Err → Bytes

/-! ## Members

Maps are written in the order of their keys. -/

/-- A map of strings. -/
def stringMap (m : List (Bytes × Bytes)) : Json :=
  .obj (((goMap m).insertionSort fun a b => a.1 ≤ b.1).map fun e => (e.1, .str e.2))

/-- A member that is left out when there is nothing. -/
def omitEmpty (name : Bytes) (s : Bytes) : List (Bytes × Json) :=
  if s = [] then [] else [(name, .str s)]

/-- A time that is left out when there is none. -/
def omitNone (name : Bytes) (text : Int → Bytes) : Option Int → List (Bytes × Json)
  | none => []
  | some t => [(name, .str (text t))]

/-- A Go `int`. -/
def intJson (i : Int) : Json := .num (decimalInt (Int64.ofInt i).toInt)

/-- "value": the bytes themselves, or their base64 text. -/
def valueText (v : Bytes) : Bytes := if utf8Valid v then v else stdEncode v

/-- "encoding". -/
def encodingMember (v : Bytes) : List (Bytes × Json) :=
  if utf8Valid v then [] else [(ascii "encoding", .str (ascii "base64"))]

section

variable (T : Texts)

/-- The response of `getSecret`. -/
def secretMembers (p : Bytes) (e : Entry) : List (Bytes × Json) :=
  omitNone (ascii "created_at") T.rfc3339 e.createdAt ++ encodingMember e.value ++
    omitNone (ascii "expires_at") T.rfc3339 e.expiresAt ++
    (if e.metadata = [] then [] else [(ascii "metadata", stringMap e.metadata)]) ++
    [(ascii "path", .str p), (ascii "value", .str (valueText e.value))]

/-- `Author`. -/
def authorJson (a : KVv2.Author) : Json :=
  .obj (omitEmpty (ascii "display_name") a.displayName ++ omitEmpty (ascii "accessor") a.accessor ++
    omitEmpty (ascii "fingerprint") a.fingerprint ++ omitEmpty (ascii "entity_id") a.entityID)

/-- `VerMeta`. -/
def verMetaJson (vm : KVv2.VerMeta) : Json :=
  .obj ([(ascii "version", intJson vm.version),
      (ascii "created_at", .str (T.jsonTime vm.createdAt))] ++
    (match vm.createdBy with
    | none => []
    | some a => [(ascii "created_by", authorJson a)]) ++
    omitNone (ascii "deleted_at") T.jsonTime vm.deletedAt ++
    [(ascii "destroyed", .bool vm.destroyed)])

/-- The response of `v2ReadSecret`. -/
def valueMembers (p : Bytes) (value : Option Bytes) (vm : KVv2.VerMeta) : List (Bytes × Json) :=
  match value.filter fun v => v ≠ [] with
  | none =>
      [(ascii "deleted", .bool true), (ascii "metadata", verMetaJson T vm), (ascii "path", .str p),
        (ascii "version", intJson vm.version)]
  | some v =>
      encodingMember v ++
        [(ascii "metadata", verMetaJson T vm), (ascii "path", .str p),
          (ascii "value", .str (valueText v)), (ascii "version", intJson vm.version)]

def errorMembers : Reason → List (Bytes × Json)
  | .text msg => [(ascii "error", .str msg)]
  | .err e => [(ascii "error", .str (T.errorText e))]

/-- The body of a response to a read, which is a secret or a value. -/
def readMembers : SecretBody → List (Bytes × Json)
  | .secret p e => secretMembers T p e
  | .value p value vm => valueMembers T p value vm
  | _ => []

/-- `writeJSON`: the status, and the text with the newline that the encoder puts behind it. -/
def writeJSON (status : Nat) (ms : List (Bytes × Json)) : Nat × Bytes :=
  (status, (Json.obj ms).encode ++ [0x0A])

/-- The response to a read. -/
def readResponse : Except Refusal (Nat × SecretBody) → Nat × Bytes
  | .ok (status, body) => writeJSON status (readMembers T body)
  | .error r => writeJSON r.status (errorMembers T r.reason)

end

/-! ## What a reader of the text finds -/

/-- A value that every decoder follows to the end: its numbers are Go ints, and it is nested at
    most `k` deep. -/
structure Tame (k : Nat) (j : Json) : Prop where
  ints : j.IntNums
  depth : j.depth ≤ k
  inRange : ∀ num : Bytes → Option Bytes, (∀ i : Int64, (num (decimalInt i.toInt)).isSome) →
    inRange num j = true

theorem tame_str (k : Nat) (s : Bytes) : Tame k (.str s) := ⟨trivial, Nat.zero_le k, fun _ _ => rfl⟩

theorem tame_bool (k : Nat) (b : Bool) : Tame k (.bool b) :=
  ⟨trivial, Nat.zero_le k, fun _ _ => rfl⟩

theorem tame_intJson (k : Nat) (i : Int) : Tame k (intJson i) :=
  ⟨⟨_, rfl⟩, Nat.zero_le k, fun _ h => h _⟩

theorem tame_obj {k : Nat} {ms : List (Bytes × Json)} (h : ∀ m ∈ ms, Tame k m.2) :
    Tame (k + 1) (.obj ms) := by
  induction ms with
  | nil => exact ⟨trivial, Nat.zero_le _ |> Nat.succ_le_succ, fun _ _ => rfl⟩
  | cons m ms ih =>
    have hm := h m mem_cons_self
    have hms := ih fun m' hm' => h m' (mem_cons_of_mem m hm')
    refine ⟨⟨hm.ints, hms.ints⟩,
      Nat.succ_le_succ (max_le hm.depth (Nat.le_of_succ_le_succ hms.depth)), fun num hnum => ?_⟩
    exact Bool.and_eq_true_iff.mpr ⟨hm.inRange num hnum, hms.inRange num hnum⟩

theorem Tame.mono {k l : Nat} {j : Json} (h : Tame k j) (hle : k ≤ l) : Tame l j :=
  ⟨h.ints, h.depth.trans hle, h.inRange⟩

/-- The members of a response beside "value". -/
def otherKeys : List Bytes :=
  [ascii "created_at", ascii "deleted", ascii "encoding", ascii "error", ascii "expires_at",
    ascii "metadata", ascii "path", ascii "version"]

def Other (m : Bytes × Json) : Prop := m.1 ∈ otherKeys ∧ Tame 2 m.2

theorem other_of {k : Bytes} {j : Json} (hk : k ∈ otherKeys) (hj : Tame 2 j) : Other (k, j) :=
  ⟨hk, hj⟩

theorem other_str {k : Bytes} (h : k ∈ otherKeys) (s : Bytes) : Other (k, .str s) :=
  other_of h (tame_str 2 s)

theorem other_omitNone {k : Bytes} (h : k ∈ otherKeys) (text : Int → Bytes) (t : Option Int) :
    ∀ m ∈ omitNone k text t, Other m := by
  cases t with
  | none => exact fun m hm => absurd hm not_mem_nil
  | some t =>
    intro m hm
    rw [mem_singleton.mp hm]
    exact other_str h _

theorem other_encodingMember (v : Bytes) : ∀ m ∈ encodingMember v, Other m := by
  intro m hm
  unfold encodingMember at hm
  split_ifs at hm
  · exact absurd hm not_mem_nil
  · rw [mem_singleton.mp hm]
    exact other_str (by decide) _

theorem tame_stringMap (m : List (Bytes × Bytes)) : Tame 1 (stringMap m) := by
  refine tame_obj fun e he => ?_
  obtain ⟨e', -, rfl⟩ := mem_map.mp he
  exact tame_str 0 _

theorem tame_omitEmpty (k : Nat) (name s : Bytes) : ∀ m ∈ omitEmpty name s, Tame k m.2 := by
  intro m hm
  unfold omitEmpty at hm
  split_ifs at hm
  · exact absurd hm not_mem_nil
  · rw [mem_singleton.mp hm]
    exact tame_str k s

theorem tame_authorJson (a : KVv2.Author) : Tame 1 (authorJson a) := by
  refine tame_obj ?_
  simp only [forall_mem_append]
  exact ⟨⟨⟨tame_omitEmpty 0 _ _, tame_omitEmpty 0 _ _⟩, tame_omitEmpty 0 _ _⟩, tame_omitEmpty 0 _ _⟩

theorem tame_verMetaJson (T : Texts) (vm : KVv2.VerMeta) : Tame 2 (verMetaJson T vm) := by
  refine tame_obj ?_
  simp only [forall_mem_append, forall_mem_cons]
  refine ⟨⟨⟨⟨tame_intJson 1 _, tame_str 1 _, fun _ hm => absurd hm not_mem_nil⟩, ?_⟩, ?_⟩,
    tame_bool 1 _, fun _ hm => absurd hm not_mem_nil⟩
  · cases vm.createdBy with
    | none => exact fun m hm => absurd hm not_mem_nil
    | some a =>
      intro m hm
      rw [mem_singleton.mp hm]
      exact tame_authorJson a
  · cases vm.deletedAt with
    | none => exact fun m hm => absurd hm not_mem_nil
    | some t =>
      intro m hm
      rw [mem_singleton.mp hm]
      exact tame_str 1 _

/-- A response whose "value" is this text. -/
def Holds (ms : List (Bytes × Json)) (x : Bytes) : Prop :=
  ∃ a b, ms = a ++ (ascii "value", .str x) :: b ∧ (∀ m ∈ a, Other m) ∧ ∀ m ∈ b, Other m

theorem holds_secretMembers (T : Texts) (p : Bytes) (e : Entry) :
    Holds (secretMembers T p e) (valueText e.value) := by
  refine ⟨omitNone (ascii "created_at") T.rfc3339 e.createdAt ++ encodingMember e.value ++
      omitNone (ascii "expires_at") T.rfc3339 e.expiresAt ++
      (if e.metadata = [] then [] else [(ascii "metadata", stringMap e.metadata)]) ++
      [(ascii "path", .str p)], [], ?_, ?_, fun _ hm => nomatch hm⟩
  · rw [append_assoc _ [(ascii "path", Json.str p)]]
    rfl
  · simp only [forall_mem_append]
    refine ⟨⟨⟨⟨other_omitNone (by decide) _ _, other_encodingMember _⟩,
      other_omitNone (by decide) _ _⟩, ?_⟩, ?_⟩
    · intro m hm
      split_ifs at hm
      · exact absurd hm not_mem_nil
      · rw [mem_singleton.mp hm]
        exact other_of (by decide) ((tame_stringMap _).mono (by decide))
    · intro m hm
      rw [mem_singleton.mp hm]
      exact other_str (by decide) _

theorem holds_valueMembers (T : Texts) (p : Bytes) {v : Bytes} (hv : v ≠ []) (vm : KVv2.VerMeta) :
    Holds (valueMembers T p (some v) vm) (valueText v) := by
  have hmembers : valueMembers T p (some v) vm = encodingMember v ++
      [(ascii "metadata", verMetaJson T vm), (ascii "path", .str p),
        (ascii "value", .str (valueText v)), (ascii "version", intJson vm.version)] := by
    unfold valueMembers
    simp only [Option.filter_some, decide_eq_true hv, if_true]
  refine ⟨encodingMember v ++ [(ascii "metadata", verMetaJson T vm), (ascii "path", .str p)],
    [(ascii "version", intJson vm.version)], ?_, ?_, ?_⟩
  · rw [hmembers, append_assoc]
    rfl
  · simp only [forall_mem_append, forall_mem_cons]
    exact ⟨other_encodingMember v, other_of (by decide) (tame_verMetaJson T vm),
      other_str (by decide) _, fun _ hm => absurd hm not_mem_nil⟩
  · intro m hm
    rw [mem_singleton.mp hm]
    exact other_of (by decide) (tame_intJson 2 _)

/-- Neither a deleted value nor an empty one is in the response. -/
theorem other_valueMembers (T : Texts) (p : Bytes) {value : Option Bytes}
    (hv : value.filter (fun v => v ≠ []) = none) (vm : KVv2.VerMeta) :
    ∀ m ∈ valueMembers T p value vm, Other m := by
  unfold valueMembers
  rw [hv]
  simp only [forall_mem_cons]
  exact ⟨other_of (by decide) (tame_bool 2 _), other_of (by decide) (tame_verMetaJson T vm),
    other_str (by decide) _, other_of (by decide) (tame_intJson 2 _),
    fun _ hm => absurd hm not_mem_nil⟩

theorem Holds.tame {ms : List (Bytes × Json)} {x : Bytes} (h : Holds ms x) : Tame 3 (.obj ms) := by
  obtain ⟨a, b, rfl, ha, hb⟩ := h
  refine tame_obj ?_
  simp only [forall_mem_append, forall_mem_cons]
  exact ⟨fun m hm => (ha m hm).2, tame_str 2 x, fun m hm => (hb m hm).2⟩

/-- The key of another member is read as it is, and is not taken for "value". -/
theorem otherKeys_spec : ∀ k ∈ otherKeys, sanitize k = k ∧ k ≠ ascii "value" ∧
    foldName k ≠ ascii "VALUE" := by
  decide +kernel

theorem utf8Valid_valueText (v : Bytes) : Utf8Valid (valueText v) := by
  unfold valueText
  split_ifs with hv
  · exact utf8Valid_iff.mp hv
  · exact utf8Valid_ascii fun b hb => mem_stdEncode_lt hb

/-- The text is the value exactly if the value is valid UTF-8. -/
theorem valueText_eq_iff {v : Bytes} : valueText v = v ↔ Utf8Valid v := by
  constructor
  · intro h
    rw [← h]
    exact utf8Valid_valueText v
  · intro h
    rw [valueText, if_pos (utf8Valid_iff.mpr h)]

end Tuck.Api
