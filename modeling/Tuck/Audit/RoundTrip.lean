/-
  What the dispatcher writes, `VerifyFile` accepts: exactly for the non-empty sequences of
  records whose strings are valid UTF-8 and whose lines stay within `maxVerifyLine`.

  The hash of a record is taken over the encoding of the record in memory, the verifier
  hashes the re-encoding of what it decoded. A bad byte is written as the escape of U+FFFD
  and read back as that rune, whose encoding is its three bytes: the two texts differ.
-/
import Tuck.Audit.Chain

namespace Tuck.Audit

open Tuck.Base List

/-! ## The lines of the file -/

theorem fileLines_flatMap (lines : List Bytes) (h : ∀ l ∈ lines, Printable l) :
    fileLines (lines.flatMap fun l => l ++ [0x0A]) = lines := by
  have hsplit : (lines.flatMap fun l => l ++ [0x0A]).splitOn 0x0A = lines ++ [[]] := by
    induction lines with
    | nil => rfl
    | cons l lines ih =>
      have hl : ∀ b ∈ l, (b == 0x0A) = false := by
        intro b hb
        have := printable_iff.mp (h l (by simp)) b hb
        simp only [beq_eq_false_iff_ne]
        rintro rfl
        exact absurd this (by decide)
      have hcons : ((l :: lines).flatMap fun l => l ++ [0x0A]) =
          l ++ 0x0A :: lines.flatMap fun l => l ++ [0x0A] := by simp
      rw [hcons, List.splitOn, splitOnP_append_cons_of_forall_mem hl _ (by decide)]
      have := ih fun m hm => h m (mem_cons_of_mem l hm)
      rw [List.splitOn] at this
      rw [this]
      rfl
  unfold fileLines
  rw [hsplit, dropLast_concat]

theorem trimLine_of_printable {l : Bytes} (h : Printable l) : trimLine l = l := by
  unfold trimLine
  rw [rdropWhile_eq_self_iff]
  intro hne hlast
  have hb := printable_iff.mp h _ (getLast_mem hne)
  simp only [Bool.or_eq_true, beq_iff_eq] at hlast
  rcases hlast with hlast | hlast <;> rw [hlast] at hb <;> exact absurd hb (by decide)

theorem marshal_ne_nil (e : Entry) : e.marshal ≠ [] := by
  intro h
  cases h

/-! ## Hex digests -/

theorem hexEncode_length (s : Bytes) : (hexEncode s).length = 2 * s.length := by
  induction s with
  | nil => rfl
  | cons b s ih =>
    simp only [hexEncode, flatMap_cons, length_append] at ih ⊢
    rw [ih]
    simp only [length_cons, length_nil]
    omega

theorem hexDigit_range :
    ∀ n < 16, jsonSafe (hexDigit n) = true ∧ (hexDigit n).toNat < 0x80 := by decide

theorem mem_hexEncode {s : Bytes} {b : UInt8} (h : b ∈ hexEncode s) :
    jsonSafe b = true ∧ b.toNat < 0x80 := by
  obtain ⟨c, _, hc⟩ := mem_flatMap.mp h
  have := c.toNat_lt
  simp only [mem_cons, not_mem_nil, or_false] at hc
  rcases hc with rfl | rfl
  · exact hexDigit_range _ (by omega)
  · exact hexDigit_range _ (by omega)

/-- A digest as it stands in a record: hex digits, sixty-four of them. -/
structure Digest (h : Bytes) : Prop where
  plain : ∀ b ∈ h, jsonSafe b = true ∧ b.toNat < 0x80
  length : h.length = 64

variable {h : Bytes}

theorem Digest.valid (hd : Digest h) : Utf8Valid h :=
  utf8Valid_ascii fun b hb => (hd.plain b hb).2

theorem Digest.ne_nil (hd : Digest h) : h ≠ [] := by
  intro hn
  have := hd.length
  rw [hn] at this
  cases this

theorem Digest.quote_length (hd : Digest h) : (quote h).length = 66 := by
  simp only [quote, quoteBody_safe hd.plain, length_cons, length_append, length_nil,
    hd.length]

theorem digest_genesis : Digest genesisHash where
  plain := by
    intro b hb
    rw [eq_of_mem_replicate hb]
    decide
  length := by simp [genesisHash]

/-! ## The record as it is sealed -/

theorem utf8Valid_operation (method path : Bytes) : Utf8Valid (operation method path) := by
  have h : ∀ s ∈ [ascii "login", ascii "read", ascii "list", ascii "write", ascii "delete",
      ascii "other"], Utf8Valid s := by decide
  unfold operation
  simp only
  split_ifs <;> exact h _ (by simp)

/-- The record at sequence number `n`, with sixty-four characters for each digest. -/
def Entry.stamped (e : Entry) (n : UInt64) : Entry :=
  { e with
    operation := if e.operation = [] then Audit.operation e.method e.path else e.operation
    seq := n, prevHash := genesisHash, hash := genesisHash }

theorem totalLen_append (xs ys : List Bytes) : totalLen (xs ++ ys) = totalLen xs + totalLen ys := by
  simp [totalLen]

theorem totalLen_strField {f : Field} {s t : Bytes} (h : (quote s).length = (quote t).length) :
    totalLen ((strField f s).map fun m => quote m.1 ++ 0x3A :: m.2.encode) =
      totalLen ((strField f t).map fun m => quote m.1 ++ 0x3A :: m.2.encode) := by
  simp only [totalLen, strField, Json.encode, map_cons, map_nil, sum_cons, sum_nil, length_append,
    length_cons, h]

/-- The length of a line does not depend on which digests it carries. -/
theorem marshal_length_digests (e : Entry) {p q k : Bytes} (hp : Digest p) (hq : Digest q)
    (hh : Digest h) (hk : Digest k) :
    { e with prevHash := p, hash := h }.marshal.length =
      { e with prevHash := q, hash := k }.marshal.length := by
  have h1 : (quote p).length = (quote q).length := by rw [hp.quote_length, hq.quote_length]
  have h2 : (quote h).length = (quote k).length := by rw [hh.quote_length, hk.quote_length]
  simp only [Entry.marshal, Entry.toJson, Json.encode, length_cons, length_append,
    joinWith_length, encodeMembers_map, length_map, Entry.members, map_append, totalLen_append,
    totalLen_strField h1, totalLen_strField h2]
  simp only [strField, length_cons, length_nil]

section

variable {sha : Bytes → Bytes}

theorem seal_eq (d : Dispatcher) (e : Entry) :
    d.seal sha e = { e.stamped (d.seq + 1) with
      prevHash := d.prevHash, hash := (d.seal sha e).hash } := by
  unfold Dispatcher.seal Entry.stamped
  by_cases h : e.operation = [] <;> simp [h]

theorem seal_seq (d : Dispatcher) (e : Entry) : (d.seal sha e).seq = d.seq + 1 := by
  rw [seal_eq]; rfl

theorem seal_prevHash (d : Dispatcher) (e : Entry) : (d.seal sha e).prevHash = d.prevHash := by
  rw [seal_eq]

/-- A sealed record carries its own hash: the hash field does not enter the digest. -/
theorem computeHash_seal (d : Dispatcher) (e : Entry) :
    computeHash sha (d.seal sha e) = (d.seal sha e).hash := rfl

/-- The records as a run of `Dispatcher.Log` seals them. -/
def Dispatcher.sealed (sha : Bytes → Bytes) (d : Dispatcher) : List Entry → List Entry
  | [] => []
  | e :: es => d.seal sha e :: (d.log sha e).sealed sha es

section

variable (hlen : ∀ s, (sha s).length = 32)

include hlen

theorem digest_computeHash (e : Entry) :
    Digest (computeHash sha e) where
  plain := fun _ hb => mem_hexEncode hb
  length := by rw [computeHash, hexEncode_length, hlen]

theorem digest_seal (d : Dispatcher) (e : Entry) :
    Digest (d.seal sha e).hash := by
  rw [← computeHash_seal]
  exact digest_computeHash hlen _

theorem seal_marshal_length (d : Dispatcher)
    (hd : Digest d.prevHash) (e : Entry) :
    (d.seal sha e).marshal.length = (e.stamped (d.seq + 1)).marshal.length := by
  rw [seal_eq]
  exact marshal_length_digests (e.stamped (d.seq + 1)) hd digest_genesis (digest_seal hlen d e)
    digest_genesis

/-- Sealing adds no bad byte and removes none. -/
theorem seal_valid_iff (d : Dispatcher) (hd : Digest d.prevHash)
    (e : Entry) : (d.seal sha e).Valid ↔ ∀ s ∈ e.texts, Utf8Valid s := by
  have hh : Utf8Valid (d.seal sha e).hash := (digest_seal hlen d e).valid
  have hop : Utf8Valid (if e.operation = [] then operation e.method e.path else e.operation) ↔
      Utf8Valid e.operation := by
    split_ifs with h
    · rw [h]
      exact iff_of_true (utf8Valid_operation _ _) utf8Valid_nil
    · rfl
  rw [seal_eq]
  simp only [Entry.Valid, Entry.texts, Entry.stamped, forall_mem_cons, hop, hd.valid, hh, and_true]

theorem log_eq (d : Dispatcher) (e : Entry) :
    d.log sha e = ⟨d.seq + 1, (d.seal sha e).hash, ⟨(d.seal sha e).hash,
      d.logger.out ++ ((d.seal sha e).marshal ++ [0x0A])⟩⟩ := by
  have hne := (digest_seal hlen d e).ne_nil
  simp only [Dispatcher.log, Logger.write, seal_seq, if_neg hne]

/-- The file holds one line for each sealed record. -/
theorem logAll_file (es : List Entry) (d : Dispatcher) :
    (d.logAll sha es).file =
      d.file ++ ((d.sealed sha es).map Entry.marshal).flatMap fun l => l ++ [0x0A] := by
  induction es generalizing d with
  | nil => simp [Dispatcher.logAll, Dispatcher.sealed]
  | cons e es ih =>
    have hstep : (d.log sha e).file = d.file ++ ((d.seal sha e).marshal ++ [0x0A]) := by
      rw [log_eq hlen]; rfl
    have hcons : d.logAll sha (e :: es) = (d.log sha e).logAll sha es := rfl
    rw [hcons, ih, hstep]
    simp [Dispatcher.sealed]

theorem fileLines_logAll (es : List Entry) :
    fileLines (Dispatcher.fresh.logAll sha es).file =
      (Dispatcher.fresh.sealed sha es).map Entry.marshal := by
  rw [logAll_file hlen]
  refine fileLines_flatMap _ fun l hl => ?_
  obtain ⟨e, _, rfl⟩ := mem_map.mp hl
  exact printable_marshal e

end

/-! ## One line -/

/-- The record `VerifyFile` last accepted is the one the dispatcher last sealed. -/
def Follows (sha : Bytes → Bytes) (d : Dispatcher) : Option Entry → Prop
  | none => True
  | some p => p.hash = d.prevHash ∧ p.seq = d.seq ∧ computeHash sha p = p.hash ∧ p.hash ≠ []

theorem checkRecord_self {e : Entry} (h : computeHash sha e = e.hash) (hne : e.hash ≠ []) :
    checkRecord sha [] none e = none := by
  unfold checkRecord
  rw [if_neg (by rw [h]; simp [hne])]
  simp

variable {prev : Option Entry}

/-- The window of an accepted record and the next one fails where the next one does. -/
theorem verifyEntries_toList (hp : ∀ p ∈ prev, checkRecord sha [] none p = none)
    (e : Entry) :
    (verifyEntries sha (prev.toList ++ [e]) []).ok = (checkRecord sha [] prev e).isNone ∧
      ∀ reason, checkRecord sha [] prev e = some reason →
        (verifyEntries sha (prev.toList ++ [e]) []).reason = reason := by
  cases prev with
  | none =>
    simp only [Option.toList_none, nil_append, verifyEntries, verifyFrom]
    cases checkRecord sha [] none e with
    | none => split_ifs <;> simp [VerifyResult.init]
    | some r => simp
  | some p =>
    simp only [Option.toList_some, cons_append, nil_append, verifyEntries, verifyFrom,
      hp p rfl]
    cases checkRecord sha [] (some p) e with
    | none => split_ifs <;> simp_all [VerifyResult.init]
    | some r => simp

variable {d : Dispatcher}

theorem verifyEntries_window (hp : Follows sha d prev)
    (e : Entry) : (verifyEntries sha (prev.toList ++ [e]) []).ok = true ↔
      checkRecord sha [] prev e = none := by
  rw [(verifyEntries_toList _ e).1, Option.isNone_iff_eq_none]
  rintro p rfl
  exact checkRecord_self hp.2.2.1 hp.2.2.2

theorem checkRecord_of_follows (hp : Follows sha d prev) {e : Entry}
    (hh : computeHash sha e = e.hash) (hne : e.hash ≠ []) (hprev : e.prevHash = d.prevHash)
    (hseq : e.seq = d.seq + 1) : checkRecord sha [] prev e = none := by
  unfold checkRecord
  rw [if_neg (by rw [hh]; simp [hne])]
  cases prev with
  | none => simp
  | some p =>
    obtain ⟨h1, h2, _, _⟩ := hp
    simp only [hprev, h1, ne_eq, not_true_eq_false, if_false, hseq, h2, and_false]

/-- No collision of SHA-256 between the text a record is sealed over and the text the
    verifier hashes for it. -/
def NoCollision (sha : Bytes → Bytes) (s : Entry) : Prop :=
  sha { s.sanitize with hash := [] }.marshal = sha { s with hash := [] }.marshal →
    { s.sanitize with hash := [] }.marshal = { s with hash := [] }.marshal

/-- What `VerifyFile` needs of one record: valid strings, and a line it is willing to read. -/
def Entry.Loggable (e : Entry) (n : UInt64) : Prop :=
  (∀ s ∈ e.texts, Utf8Valid s) ∧ (e.stamped n).marshal.length ≤ maxVerifyLine

/-- The records of a run, each loggable at its own sequence number. -/
def AllLoggable : UInt64 → List Entry → Prop
  | _, [] => True
  | n, e :: es => e.Loggable n ∧ AllLoggable (n + 1) es

section

variable (hlen : ∀ s, (sha s).length = 32)

include hlen

/-- The record read back from a sealed line passes exactly when its strings were valid. -/
theorem checkRecord_sealed (hp : Follows sha d prev) (e : Entry)
    (hsha : NoCollision sha (d.seal sha e)) :
    checkRecord sha [] prev (d.seal sha e).sanitize = none ↔ (d.seal sha e).Valid := by
  have hdig := digest_seal hlen d e
  constructor
  · intro hc
    have hhash : (d.seal sha e).sanitize.hash = (d.seal sha e).hash := sanitize_of_valid hdig.valid
    have hh : computeHash sha (d.seal sha e).sanitize = computeHash sha (d.seal sha e) := by
      rw [computeHash_seal, ← hhash]
      by_contra hne
      unfold checkRecord at hc
      rw [if_pos (Or.inr hne)] at hc
      cases hc
    -- the digests agree, so the two texts do, so no byte was replaced
    have htext := hsha (hexEncode_injective hh)
    have hvalid := marshal_sanitize_eq_iff.mp
      (show { d.seal sha e with hash := [] }.sanitize.marshal = _ from htext)
    exact ⟨hvalid.1, hvalid.2.1, hdig.valid⟩
  · intro hv
    rw [sanitize_eq_self_iff.mpr hv]
    exact checkRecord_of_follows hp (computeHash_seal d e) hdig.ne_nil (seal_prevHash d e)
      (seal_seq d e)

/-! ## The whole file -/

theorem verifyLines_seal (hd : Digest d.prevHash) (hp : Follows sha d prev) (e : Entry)
    (hsha : NoCollision sha (d.seal sha e)) (idx : Nat) (res : VerifyResult) (lines : List Bytes) :
    (e.Loggable (d.seq + 1) ∧ ∃ res', res'.ok = res.ok ∧ res'.checked = res.checked + 1 ∧
        res'.headHash = (d.seal sha e).hash ∧
        verifyLines sha prev idx res ((d.seal sha e).marshal :: lines) =
          verifyLines sha (some (d.seal sha e)) (idx + 1) res' lines) ∨
      (¬ e.Loggable (d.seq + 1) ∧
        (verifyLines sha prev idx res ((d.seal sha e).marshal :: lines)).ok = false) := by
  have hline := seal_marshal_length hlen d hd e
  have hvalid := seal_valid_iff hlen d hd e
  have hcheck := checkRecord_sealed hlen hp e hsha
  simp only [verifyLines, trimLine_of_printable (printable_marshal _), if_neg (marshal_ne_nil _),
    hline, unmarshal_marshal]
  by_cases hbig : maxVerifyLine < (e.stamped (d.seq + 1)).marshal.length
  · exact Or.inr ⟨fun h => absurd h.2 (by omega), by rw [if_pos hbig]⟩
  · rw [if_neg hbig]
    by_cases hv : (d.seal sha e).Valid
    · have hok := (verifyEntries_window hp _).mpr (hcheck.mpr hv)
      refine Or.inl ⟨⟨hvalid.mp hv, by omega⟩, ?_⟩
      rw [if_neg (by rw [hok]; simp), sanitize_eq_self_iff.mpr hv]
      refine ⟨_, ?_, ?_, ?_, rfl⟩
      · split_ifs <;> rfl
      · split_ifs <;> rfl
      · rfl
    · have hbad : (verifyEntries sha (prev.toList ++ [(d.seal sha e).sanitize]) []).ok = false := by
        rw [← Bool.not_eq_true, verifyEntries_window hp, hcheck]
        exact hv
      exact Or.inr ⟨fun h => hv (hvalid.mpr h.1), by rw [if_pos hbad]⟩

theorem follows_log (d : Dispatcher) (e : Entry) :
    Follows sha (d.log sha e) (some (d.seal sha e)) := by
  rw [log_eq hlen]
  exact ⟨rfl, seal_seq d e, computeHash_seal d e, (digest_seal hlen d e).ne_nil⟩

/-- Over a run, `VerifyFile` accepts the rest of the file exactly when the rest of the
    records is loggable, and then it has counted them and stopped at the last one. -/
theorem verifyLines_sealed (es : List Entry) (d : Dispatcher)
    (hd : Digest d.prevHash) (prev : Option Entry) (hp : Follows sha d prev)
    (hsha : ∀ s ∈ d.sealed sha es, NoCollision sha s) (idx : Nat) (res : VerifyResult)
    (hres : res.ok = true) :
    let out := verifyLines sha prev idx res ((d.sealed sha es).map Entry.marshal)
    (out.ok = true ↔ AllLoggable (d.seq + 1) es) ∧
      (AllLoggable (d.seq + 1) es → out.checked = res.checked + es.length ∧
        out.headHash = if es = [] then res.headHash else (d.logAll sha es).head) := by
  induction es generalizing d prev idx res with
  | nil => simp [Dispatcher.sealed, verifyLines, AllLoggable, hres]
  | cons e es ih =>
    have hlog := log_eq hlen d e
    simp only [Dispatcher.sealed, forall_mem_cons] at hsha
    simp only [Dispatcher.sealed, map_cons, AllLoggable]
    rcases verifyLines_seal hlen hd hp e hsha.1 idx res
      (((d.log sha e).sealed sha es).map Entry.marshal) with
      ⟨hgood, res', h1, h2, h3, h4⟩ | ⟨hbad, h4⟩
    · have hrest := ih (d.log sha e) (by rw [hlog]; exact digest_seal hlen d e) _
        (follows_log hlen d e) hsha.2 (idx + 1) res' (h1.trans hres)
      have hseq : (d.log sha e).seq = d.seq + 1 := by rw [hlog]
      rw [hseq] at hrest
      rw [h4]
      refine ⟨hrest.1.trans (by simp [hgood]), fun hall => ?_⟩
      obtain ⟨hc, hhead⟩ := hrest.2 hall.2
      refine ⟨by rw [hc, h2, length_cons]; omega, ?_⟩
      rw [hhead, if_neg (cons_ne_nil e es)]
      split_ifs with hnil
      · rw [hnil, h3]
        show _ = (d.log sha e).head
        rw [hlog]
        rfl
      · rfl
    · rw [h4]
      simp [hbad]

end

/-- What is logged to a fresh file verifies, with every record counted and the head of the
    dispatcher as its head, exactly when something was logged, every string is valid UTF-8
    and every line stays within the bound of the verifier. -/
theorem verifyFile_logAll_iff (sha : Bytes → Bytes) (hlen : ∀ s, (sha s).length = 32)
    (es : List Entry) (hsha : ∀ s ∈ Dispatcher.fresh.sealed sha es, NoCollision sha s) :
    ((verifyFile sha (Dispatcher.fresh.logAll sha es).file).ok = true ∧
      (verifyFile sha (Dispatcher.fresh.logAll sha es).file).checked = es.length ∧
      (verifyFile sha (Dispatcher.fresh.logAll sha es).file).headHash =
        (Dispatcher.fresh.logAll sha es).head) ↔
      es ≠ [] ∧ AllLoggable 1 es := by
  have hrun := verifyLines_sealed hlen es Dispatcher.fresh digest_genesis none trivial hsha 0
    VerifyResult.init rfl
  have hseq : Dispatcher.fresh.seq + 1 = 1 := rfl
  rw [hseq] at hrun
  unfold verifyFile
  rw [fileLines_logAll hlen]
  constructor
  · rintro ⟨hok, -, hhead⟩
    have hall := hrun.1.mp hok
    refine ⟨?_, hall⟩
    rintro rfl
    -- an empty file has an empty head, the dispatcher starts at the genesis hash
    have hgen : ([] : Bytes) = genesisHash := hhead
    exact absurd hgen (by decide)
  · rintro ⟨hne, hall⟩
    obtain ⟨hc, hhead⟩ := hrun.2 hall
    refine ⟨hrun.1.mpr hall, ?_, ?_⟩
    · rw [hc]
      exact Nat.zero_add _
    · rw [hhead, if_neg hne]

end

/-- A stand-in digest for runs on fixed inputs: the length of the text. -/
def lengthSha (s : Bytes) : Bytes := be32 (UInt32.ofNat s.length) ++ List.replicate 28 0

theorem lengthSha_length (s : Bytes) : (lengthSha s).length = 32 := by
  simp [lengthSha, be32_length]

/-- A request for `/v1/secret/a`. -/
def sampleEntry : Entry :=
  { Entry.zero with method := ascii "GET", path := ascii "/v1/secret/a", status := 200 }

theorem verifyFile_sample :
    (verifyFile lengthSha (Dispatcher.fresh.logAll lengthSha [sampleEntry]).file).ok = true := by
  have hsha : ∀ s ∈ Dispatcher.fresh.sealed lengthSha [sampleEntry], NoCollision lengthSha s := by
    intro s hs
    rw [mem_singleton.mp hs]
    unfold NoCollision
    decide +kernel
  exact ((verifyFile_logAll_iff lengthSha lengthSha_length [sampleEntry] hsha).mpr
    ⟨by simp, ⟨by decide, by decide +kernel⟩, trivial⟩).1

/-- The records of two requests, sealed one after the other. -/
def sampleChain : List Entry :=
  Dispatcher.fresh.sealed lengthSha
    [sampleEntry, { sampleEntry with path := ascii "/v1/secret/ab" }]

theorem valid_sampleChain : ∀ e ∈ sampleChain, e.Valid := by
  unfold Entry.Valid
  decide +kernel

/-- The same request with the percent-decoded byte FF in its path. -/
def badByteEntry : Entry := { sampleEntry with path := ascii "/v1/secret/" ++ [0xFF] }

theorem verifyFile_bad_byte :
    ¬ ((verifyFile lengthSha (Dispatcher.fresh.logAll lengthSha [badByteEntry]).file).ok = true ∧
      (verifyFile lengthSha (Dispatcher.fresh.logAll lengthSha [badByteEntry]).file).checked = 1 ∧
      (verifyFile lengthSha (Dispatcher.fresh.logAll lengthSha [badByteEntry]).file).headHash =
        (Dispatcher.fresh.logAll lengthSha [badByteEntry]).head) := by
  rintro ⟨hok, -, -⟩
  have hbad : (verifyFile lengthSha
      (Dispatcher.fresh.logAll lengthSha [badByteEntry]).file).ok = false := by decide +kernel
  rw [hbad] at hok
  cases hok

end Tuck.Audit
