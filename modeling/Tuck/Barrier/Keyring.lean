/-
  The keyring document: the barrier keys by version, the active version and the path key,
  as JSON with the keys in base64. Reading back a written keyring gives the same keys
  (`parseKeyring_marshal`); the order of the map is not kept, so the statement is about
  lookups.
-/
import Tuck.Base.Readers
import Tuck.Barrier.Suite

namespace Tuck.Barrier

open Tuck.Base List

/-- Barrier keys by version. -/
abbrev KeyMap := AList (fun _ : UInt32 => Bytes)

theorem lookup_singleton (a v : UInt32) (k : Bytes) :
    (AList.singleton a k : KeyMap).lookup v = if v = a then some k else none := by
  rw [← AList.insert_empty]
  split_ifs with h
  · rw [h, AList.lookup_insert]
  · rw [AList.lookup_insert_ne h, AList.lookup_empty]

/-! ## Writing -/

/-- The order of strings. -/
def bytesLe : Bytes → Bytes → Bool
  | [], _ => true
  | _ :: _, [] => false
  | a :: s, b :: t => a < b || (a == b && bytesLe s t)

/-- The keys as members of a JSON object, in the order `json.Marshal` writes a map. -/
def keyMembers (keys : KeyMap) : List (Bytes × Json) :=
  (keys.entries.map fun e => (decimal e.1.toNat, Json.str (stdEncode e.2))).insertionSort
    fun a b => bytesLe a.1 b.1 = true

def keyringJson (active : UInt32) (keys : KeyMap) (pathKey : Bytes) : Json :=
  .obj ((ascii "active", .num (decimalInt active.toNat)) ::
    (ascii "keys", .obj (keyMembers keys)) ::
    if pathKey = [] then [] else [(ascii "path_key", .str (stdEncode pathKey))])

def marshalKeyring (active : UInt32) (keys : KeyMap) (pathKey : Bytes) : Bytes :=
  (keyringJson active keys pathKey).encode

/-! ## Reading -/

structure KeyringDoc where
  active : UInt32
  keys : AList (fun _ : Bytes => Bytes)
  pathKey : Bytes

/-- A `map[string][]byte` field: members are added to what is there, null clears it. -/
def toKeys (cur : AList (fun _ : Bytes => Bytes)) : Json → Option (AList (fun _ : Bytes => Bytes))
  | .null => some ∅
  | .obj ms => ms.foldlM (fun m kv => kv.2.toBytes.map fun k => m.insert kv.1 k) cur
  | _ => none

/-- One member of the document, by its folded name. -/
def KeyringDoc.setField (d : KeyringDoc) (kv : Bytes × Json) : Option KeyringDoc :=
  if foldName kv.1 = ascii "ACTIVE" then
    (kv.2.toUint (2 ^ 32) d.active.toNat).map fun n => { d with active := UInt32.ofNat n }
  else if foldName kv.1 = ascii "KEYS" then (toKeys d.keys kv.2).map fun ks => { d with keys := ks }
  else if foldName kv.1 = ascii "PATH_KEY" then kv.2.toBytes.map fun k => { d with pathKey := k }
  else some d

def unmarshalDoc (raw : Bytes) : Option KeyringDoc :=
  match Json.parse raw with
  | some .null => some ⟨0, ∅, []⟩
  | some (.obj ms) => ms.foldlM KeyringDoc.setField ⟨0, ∅, []⟩
  | _ => none

/-- One key of the document: its version is a 32-bit number, its length that of a key. -/
def addKey (m : KeyMap) (e : Sigma fun _ : Bytes => Bytes) : Option KeyMap :=
  match parseUint e.1 with
  | some v =>
      if v < 2 ^ 32 ∧ e.2.length = keySize then some (m.insert (UInt32.ofNat v) e.2) else none
  | none => none

/-- `parseKeyring`: the keys, the active version and the path key. -/
def parseKeyring (raw : Bytes) : Option (KeyMap × UInt32 × Bytes) :=
  match unmarshalDoc raw with
  | none => none
  | some doc =>
      match doc.keys.entries.foldlM addKey ∅ with
      | none => none
      | some keys =>
          if (keys.lookup doc.active).isSome then some (keys, doc.active, doc.pathKey) else none

theorem keyLength_addKeys {es : List (Sigma fun _ : Bytes => Bytes)} {m keys : KeyMap}
    (hm : ∀ v k, m.lookup v = some k → k.length = keySize) (h : es.foldlM addKey m = some keys) :
    ∀ v k, keys.lookup v = some k → k.length = keySize := by
  induction es generalizing m with
  | nil => cases h; exact hm
  | cons e es ih =>
    rw [foldlM_cons] at h
    obtain ⟨m', hm', h⟩ := Option.bind_eq_some_iff.mp h
    refine ih ?_ h
    intro v k hk
    unfold addKey at hm'
    split at hm'
    · split_ifs at hm' with hc
      cases hm'
      rename_i u _
      by_cases hv : v = UInt32.ofNat u
      · rw [hv, AList.lookup_insert] at hk
        cases hk
        exact hc.2
      · rw [AList.lookup_insert_ne hv] at hk
        exact hm v k hk
    · cases hm'

/-- A keyring that was read has whole keys and an active one. -/
theorem parseKeyring_ok {raw pathKey : Bytes} {keys : KeyMap} {active : UInt32}
    (h : parseKeyring raw = some (keys, active, pathKey)) :
    (∀ v k, keys.lookup v = some k → k.length = keySize) ∧ (keys.lookup active).isSome = true := by
  unfold parseKeyring at h
  split at h
  · cases h
  · split at h
    · cases h
    · rename_i doc _ ks hks
      split_ifs at h with hact
      cases h
      refine ⟨keyLength_addKeys (fun v k hk => ?_) hks, hact⟩
      rw [AList.lookup_empty] at hk
      cases hk

/-! ## Filling a map from consistent pairs -/

section

variable {α β γ : Type} [DecidableEq α]

/-- Inserting pairs that all agree with `F`: what was inserted is as `F` says. -/
theorem lookup_foldl_insert {F : α → Option β} (l : List γ) (key : γ → α) (val : γ → β)
    (hl : ∀ p ∈ l, F (key p) = some (val p)) (m : AList (fun _ : α => β)) (a : α) :
    (l.foldl (fun m p => m.insert (key p) (val p)) m).lookup a =
      if a ∈ l.map key then F a else m.lookup a := by
  induction l generalizing m with
  | nil => rfl
  | cons p l ih =>
    rw [foldl_cons, ih (fun q hq => hl q (mem_cons_of_mem p hq))]
    by_cases h1 : a ∈ l.map key
    · rw [if_pos h1, if_pos (by rw [map_cons]; exact mem_cons_of_mem _ h1)]
    · rw [if_neg h1]
      by_cases h2 : a = key p
      · rw [if_pos (by rw [h2]; simp), h2, AList.lookup_insert, hl p (by simp)]
      · rw [if_neg (by simp only [map_cons, mem_cons]; tauto), AList.lookup_insert_ne h2]

theorem foldlM_some {σ : Type} (l : List γ) (f : σ → γ → Option σ) (g : σ → γ → σ)
    (h : ∀ p ∈ l, ∀ s, f s p = some (g s p)) (s : σ) : l.foldlM f s = some (l.foldl g s) := by
  induction l generalizing s with
  | nil => rfl
  | cons p l ih =>
    rw [foldlM_cons, h p (by simp)]
    exact ih (fun q hq => h q (mem_cons_of_mem p hq)) _

end

/-! ## A written keyring read back -/

theorem mem_keyMembers {keys : KeyMap} {m : Bytes × Json} :
    m ∈ keyMembers keys ↔
      ∃ v k, keys.lookup v = some k ∧ m = (decimal v.toNat, Json.str (stdEncode k)) := by
  unfold keyMembers
  rw [(perm_insertionSort _ _).mem_iff, mem_map]
  constructor
  · rintro ⟨⟨v, k⟩, he, rfl⟩
    exact ⟨v, k, AList.mem_lookup_iff.mpr he, rfl⟩
  · rintro ⟨v, k, hk, rfl⟩
    exact ⟨⟨v, k⟩, AList.mem_lookup_iff.mp hk, rfl⟩

theorem utf8Valid_decimal (n : Nat) : Utf8Valid (decimal n) := by
  refine utf8Valid_ascii fun b hb => ?_
  have := isDigit_of_mem_decimal hb
  simp only [isDigit, Bool.and_eq_true, decide_eq_true_eq] at this
  omega

theorem quoteBody_stdEncode (k : Bytes) : quoteBody (stdEncode k) = stdEncode k := by
  have hd : ∀ n < 64, jsonSafe (encSextet stdAlphabet n) = true := by decide
  refine quoteBody_safe fun b hb => ⟨?_, mem_stdEncode_lt hb⟩
  rcases mem_encode64 hb with ⟨n, hn, rfl⟩ | hp
  · exact hd n hn
  · rw [Option.some.inj hp]
    decide

theorem sanitize_keyMembers (keys : KeyMap) :
    sanitizeMembers (keyMembers keys) = keyMembers keys := by
  refine sanitizeMembers_eq fun m hm => ?_
  obtain ⟨v, k, _, rfl⟩ := mem_keyMembers.mp hm
  exact ⟨sanitize_of_valid (utf8Valid_decimal _), sanitize_str_stdEncode k⟩

theorem parse_keyringJson (active : UInt32) (keys : KeyMap) (pathKey : Bytes) :
    Json.parse (marshalKeyring active keys pathKey) = some (keyringJson active keys pathKey) := by
  have hint : (keyringJson active keys pathKey).IntNums := by
    have hkeys : IntMembers (keyMembers keys) := by
      refine intMembers_iff.mpr fun m hm => ?_
      obtain ⟨v, k, _, rfl⟩ := mem_keyMembers.mp hm
      simp [Json.IntNums]
    unfold keyringJson
    split_ifs <;> simp [Json.IntNums, IntMembers, hkeys]
  have hsan : (keyringJson active keys pathKey).sanitize = keyringJson active keys pathKey := by
    have h1 : sanitize (ascii "active") = ascii "active" := by decide
    have h2 : sanitize (ascii "keys") = ascii "keys" := by decide
    have h3 : sanitize (ascii "path_key") = ascii "path_key" := by decide
    have h4 := sanitize_str_stdEncode pathKey
    unfold keyringJson
    split_ifs
    · simp only [Json.sanitize, sanitizeMembers, sanitize_keyMembers, h1, h2]
    · rw [Json.sanitize, sanitizeMembers, sanitizeMembers, sanitizeMembers, h4, h1, h2, h3]
      simp only [Json.sanitize, sanitizeMembers, sanitize_keyMembers]
  rw [marshalKeyring, parse_encode hint, hsan]

/-- The map of names the decoder builds from the members of a written keyring. -/
theorem toKeys_keyMembers (keys : KeyMap) : ∃ m : AList (fun _ : Bytes => Bytes),
    toKeys ∅ (.obj (keyMembers keys)) = some m ∧
      ∀ s k, m.lookup s = some k ↔ ∃ v, s = decimal v.toNat ∧ keys.lookup v = some k := by
  -- the key a member stands for, read back from its base64 text
  let val : Bytes × Json → Bytes := fun kv => kv.2.toBytes.getD []
  let F : Bytes → Option Bytes := fun s => (parseUint s).bind fun n => keys.lookup (UInt32.ofNat n)
  have hF : ∀ v : UInt32, F (decimal v.toNat) = keys.lookup v := fun v => by
    simp only [F, parseUint_decimal, Option.bind_some]
    exact congrArg (fun u => keys.lookup u) UInt32.ofNat_toNat
  have hmem : ∀ kv ∈ keyMembers keys, F kv.1 = some (val kv) ∧ kv.2.toBytes = some (val kv) := by
    intro kv hkv
    obtain ⟨v, k, hk, rfl⟩ := mem_keyMembers.mp hkv
    have hb : (Json.str (stdEncode k)).toBytes = some k := stdDecode_encode k
    simp only [val, hb, Option.getD_some]
    exact ⟨(hF v).trans hk, trivial⟩
  refine ⟨_, foldlM_some _ _ (fun m kv => m.insert kv.1 (val kv)) (fun kv hkv m => ?_) _,
    fun s k => ?_⟩
  · rw [(hmem kv hkv).2]
    rfl
  · rw [lookup_foldl_insert (F := F) _ (fun kv => kv.1) val (fun kv hkv => (hmem kv hkv).1)]
    constructor
    · intro h
      split_ifs at h with hs
      · obtain ⟨kv, hkv, rfl⟩ := mem_map.mp hs
        obtain ⟨v, k', hk', rfl⟩ := mem_keyMembers.mp hkv
        exact ⟨v, rfl, (hF v).symm.trans h⟩
      · rw [AList.lookup_empty] at h
        cases h
    · rintro ⟨v, rfl, hk⟩
      rw [if_pos (mem_map.mpr ⟨_, mem_keyMembers.mpr ⟨v, k, hk, rfl⟩, rfl⟩), hF, hk]

/-- The version map built from names that are versions of keys of full length. -/
theorem addKeys_lookup {keys : KeyMap} (hlen : ∀ v k, keys.lookup v = some k → k.length = keySize)
    {m : AList (fun _ : Bytes => Bytes)}
    (hm : ∀ s k, m.lookup s = some k ↔ ∃ v, s = decimal v.toNat ∧ keys.lookup v = some k) :
    ∃ keys', m.entries.foldlM addKey ∅ = some keys' ∧ ∀ v, keys'.lookup v = keys.lookup v := by
  let ver : (Sigma fun _ : Bytes => Bytes) → UInt32 :=
    fun e => UInt32.ofNat ((parseUint e.1).getD 0)
  have hver : ∀ (v : UInt32) (k : Bytes), ver ⟨decimal v.toNat, k⟩ = v := fun v k => by
    simp only [ver, parseUint_decimal, Option.getD_some, UInt32.ofNat_toNat]
  have hent : ∀ e ∈ m.entries, ∃ v, e.1 = decimal v.toNat ∧ keys.lookup v = some e.2 := fun e he =>
    (hm e.1 e.2).mp (AList.mem_lookup_iff.mpr he)
  refine ⟨_, foldlM_some _ _ (fun m e => m.insert (ver e) e.2) (fun e he m => ?_) _, fun v => ?_⟩
  · obtain ⟨v, hs, hk⟩ := hent e he
    obtain ⟨s, k⟩ := e
    simp only at hs hk
    subst hs
    simp only [addKey, parseUint_decimal, hver]
    rw [if_pos ⟨v.toNat_lt, hlen v k hk⟩, UInt32.ofNat_toNat]
  · rw [lookup_foldl_insert (F := fun v => keys.lookup v) _ ver (fun e => e.2) (fun e he => ?_)]
    · split_ifs with hv
      · rfl
      · rw [AList.lookup_empty]
        cases hk : keys.lookup v with
        | none => rfl
        | some k =>
          refine absurd (mem_map.mpr ⟨⟨decimal v.toNat, k⟩, ?_, hver v k⟩) hv
          exact AList.mem_lookup_iff.mp ((hm _ _).mpr ⟨v, rfl, hk⟩)
    · obtain ⟨v, hs, hk⟩ := hent e he
      obtain ⟨s, k⟩ := e
      simp only at hs hk
      subst hs
      rw [hver]
      exact hk

/-- A written keyring is read back with the same keys, active version and path key. -/
theorem parseKeyring_marshal {active : UInt32} {keys : KeyMap} (pathKey : Bytes)
    (hlen : ∀ v k, keys.lookup v = some k → k.length = keySize)
    (hact : (keys.lookup active).isSome = true) :
    ∃ keys', parseKeyring (marshalKeyring active keys pathKey) = some (keys', active, pathKey) ∧
      ∀ v, keys'.lookup v = keys.lookup v := by
  obtain ⟨m, hm, hmlookup⟩ := toKeys_keyMembers keys
  obtain ⟨keys', hkeys', hlookup⟩ := addKeys_lookup hlen hmlookup
  refine ⟨keys', ?_, hlookup⟩
  have hdoc : unmarshalDoc (marshalKeyring active keys pathKey) = some ⟨active, m, pathKey⟩ := by
    have h1 : ∀ d : KeyringDoc, d.setField (ascii "active", .num (decimalInt active.toNat)) =
        some { d with active := active } := by
      intro d
      have hu : (Json.num (decimalInt active.toNat)).toUint (2 ^ 32) d.active.toNat =
          some active.toNat := by
        show (parseUint (decimal active.toNat)).filter _ = _
        rw [parseUint_decimal]
        exact Option.filter_some_pos (by simpa using active.toNat_lt)
      rw [KeyringDoc.setField, if_pos (show foldName (ascii "active") = ascii "ACTIVE" by decide),
        hu, Option.map_some, UInt32.ofNat_toNat]
    have h2 : ∀ a p, KeyringDoc.setField ⟨a, ∅, p⟩ (ascii "keys", .obj (keyMembers keys)) =
        some ⟨a, m, p⟩ := by
      intro a p
      rw [KeyringDoc.setField, if_neg (show foldName (ascii "keys") ≠ ascii "ACTIVE" by decide),
        if_pos (show foldName (ascii "keys") = ascii "KEYS" by decide)]
      simp only [hm, Option.map_some]
    have h3 : ∀ d : KeyringDoc, d.setField (ascii "path_key", .str (stdEncode pathKey)) =
        some { d with pathKey := pathKey } := by
      intro d
      have hb : (Json.str (stdEncode pathKey)).toBytes = some pathKey := stdDecode_encode pathKey
      rw [KeyringDoc.setField, if_neg (show foldName (ascii "path_key") ≠ ascii "ACTIVE" by decide),
        if_neg (show foldName (ascii "path_key") ≠ ascii "KEYS" by decide),
        if_pos (show foldName (ascii "path_key") = ascii "PATH_KEY" by decide)]
      simp only [hb, Option.map_some]
    unfold unmarshalDoc
    rw [parse_keyringJson]
    unfold keyringJson
    split_ifs with hp
    · simp only [foldlM_cons, h1, h2, Option.bind_eq_bind, Option.bind_some, foldlM_nil]
      rw [hp]
      rfl
    · simp only [foldlM_cons, h1, h2, h3, Option.bind_eq_bind, Option.bind_some, foldlM_nil]
      rfl
  unfold parseKeyring
  rw [hdoc]
  simp only [hkeys', hlookup, hact, if_true]

/-- The keyring document of a new store is longer than a key. -/
theorem keySize_lt_marshalKeyring {k : Bytes} (hk : k.length = keySize) (pathKey : Bytes) :
    keySize < (marshalKeyring 1 (AList.singleton 1 k) pathKey).length := by
  have hkey : 8 ≤ (stdEncode k).length := by
    match k, hk with
    | a :: b :: c :: d :: e :: f :: rest, _ =>
      simp only [stdEncode, encode64, quad, length_append, length_cons, length_nil]
      omega
  have hmem : keyMembers (AList.singleton 1 k) = [(decimal 1, .str (stdEncode k))] := rfl
  simp only [marshalKeyring, keyringJson, hmem, Json.encode, encodeMembers, length_cons,
    length_append, joinWith_length, totalLen, map_cons, sum_cons, joinWith, quote,
    quoteBody_stdEncode]
  have h1 : (quoteBody (ascii "active")).length = 6 := by decide
  have h2 : (quoteBody (ascii "keys")).length = 4 := by decide
  have h3 : (quoteBody (decimal 1)).length = 1 := by decide
  have h4 : (decimalInt ((1 : UInt32).toNat : Int)).length = 1 := by decide
  rw [h1, h2, h3, h4]
  simp only [keySize, length_nil]
  omega

end Tuck.Barrier
