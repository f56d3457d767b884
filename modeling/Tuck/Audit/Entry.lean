/-
  The audit record: its JSON encoding, the decoder `json.Unmarshal` runs on a line, and
  the hash of a record (SHA-256 of the encoding with an empty hash field).

  A line is read back as the record with the bad bytes of its strings replaced by U+FFFD
  (`decodeLine_line`), so the records that survive the trip are those with valid strings.
-/
import Tuck.Base.Readers

namespace Tuck.Audit

open Tuck.Base

/-- One audit record. -/
structure Entry where
  time : Bytes
  seq : UInt64
  requestID : Bytes
  method : Bytes
  path : Bytes
  operation : Bytes
  ns : Bytes
  status : Int64
  clientIP : Bytes
  fingerprint : Bytes
  identity : Bytes
  entityID : Bytes
  durationMS : Int64
  prevHash : Bytes
  hash : Bytes
  deriving DecidableEq

/-- The zero value. -/
def Entry.zero : Entry :=
  ⟨[], 0, [], [], [], [], [], 0, [], [], [], [], 0, [], []⟩

/-- The fields, named as the struct tags name them. -/
inductive Field where
  | time | seq | requestID | method | path | operation | ns | status | clientIP | fingerprint
  | identity | entityID | durationMS | prevHash | hash
  deriving DecidableEq

def Field.tag : Field → Bytes
  | .time => ascii "time"
  | .seq => ascii "seq"
  | .requestID => ascii "request_id"
  | .method => ascii "method"
  | .path => ascii "path"
  | .operation => ascii "operation"
  | .ns => ascii "namespace"
  | .status => ascii "status"
  | .clientIP => ascii "client_ip"
  | .fingerprint => ascii "fingerprint"
  | .identity => ascii "identity"
  | .entityID => ascii "entity_id"
  | .durationMS => ascii "duration_ms"
  | .prevHash => ascii "prev_hash"
  | .hash => ascii "hash"

def Field.all : List Field :=
  [.time, .seq, .requestID, .method, .path, .operation, .ns, .status, .clientIP, .fingerprint,
    .identity, .entityID, .durationMS, .prevHash, .hash]

/-! ## Encoding -/

/-- A string field. -/
def strField (f : Field) (s : Bytes) : List (Bytes × Json) := [(f.tag, .str s)]

/-- A string field with `omitempty`. -/
def optField (f : Field) (s : Bytes) : List (Bytes × Json) :=
  if s = [] then [] else strField f s

/-- A signed field. -/
def intField (f : Field) (i : Int64) : List (Bytes × Json) := [(f.tag, .num (decimalInt i.toInt))]

/-- `seq`, with `omitempty`. -/
def seqField (n : UInt64) : List (Bytes × Json) :=
  if n = 0 then [] else [(Field.tag .seq, .num (decimalInt n.toNat))]

/-- The members, in the order of the struct. -/
def Entry.members (e : Entry) : List (Bytes × Json) :=
  strField .time e.time ++ (seqField e.seq ++ (optField .requestID e.requestID ++
    (strField .method e.method ++ (strField .path e.path ++ (optField .operation e.operation ++
    (optField .ns e.ns ++ (intField .status e.status ++ (optField .clientIP e.clientIP ++
    (optField .fingerprint e.fingerprint ++ (optField .identity e.identity ++
    (optField .entityID e.entityID ++ (intField .durationMS e.durationMS ++
    (strField .prevHash e.prevHash ++ strField .hash e.hash)))))))))))))

def Entry.toJson (e : Entry) : Json := .obj e.members

/-- `json.Marshal(e)`. -/
def Entry.marshal (e : Entry) : Bytes := e.toJson.encode

/-! ## Decoding -/

/-- The field a member sets, found by its folded name. -/
def fieldOf (k : Bytes) : Option Field := Field.all.find? fun f => foldName f.tag == k

def Entry.setField (j : Json) (e : Entry) : Field → Option Entry
  | .time => (j.toStr e.time).map fun s => { e with time := s }
  | .seq => (j.toUint (2 ^ 64) e.seq.toNat).map fun n => { e with seq := UInt64.ofNat n }
  | .requestID => (j.toStr e.requestID).map fun s => { e with requestID := s }
  | .method => (j.toStr e.method).map fun s => { e with method := s }
  | .path => (j.toStr e.path).map fun s => { e with path := s }
  | .operation => (j.toStr e.operation).map fun s => { e with operation := s }
  | .ns => (j.toStr e.ns).map fun s => { e with ns := s }
  | .status => (j.toInt64 e.status).map fun i => { e with status := i }
  | .clientIP => (j.toStr e.clientIP).map fun s => { e with clientIP := s }
  | .fingerprint => (j.toStr e.fingerprint).map fun s => { e with fingerprint := s }
  | .identity => (j.toStr e.identity).map fun s => { e with identity := s }
  | .entityID => (j.toStr e.entityID).map fun s => { e with entityID := s }
  | .durationMS => (j.toInt64 e.durationMS).map fun i => { e with durationMS := i }
  | .prevHash => (j.toStr e.prevHash).map fun s => { e with prevHash := s }
  | .hash => (j.toStr e.hash).map fun s => { e with hash := s }

/-- One member of the object; a member that names no field is skipped. -/
def decodeStep (e : Entry) (m : Bytes × Json) : Option Entry :=
  match fieldOf (foldName m.1) with
  | some f => e.setField m.2 f
  | none => some e

/-- `json.Unmarshal(line, &e)` into a zero record: null is no change, a value that is
    neither null nor an object is an error. -/
def unmarshal (line : Bytes) : Option Entry :=
  match Json.parse line with
  | some .null => some Entry.zero
  | some (.obj ms) => ms.foldlM decodeStep Entry.zero
  | _ => none

/-! ## A record written and read back -/

/-- The record with the bad bytes of its strings replaced. -/
def Entry.sanitize (e : Entry) : Entry :=
  { e with
    time := Base.sanitize e.time, requestID := Base.sanitize e.requestID
    method := Base.sanitize e.method, path := Base.sanitize e.path
    operation := Base.sanitize e.operation, ns := Base.sanitize e.ns
    clientIP := Base.sanitize e.clientIP, fingerprint := Base.sanitize e.fingerprint
    identity := Base.sanitize e.identity, entityID := Base.sanitize e.entityID
    prevHash := Base.sanitize e.prevHash, hash := Base.sanitize e.hash }

theorem sanitizeMembers_append (xs ys : List (Bytes × Json)) :
    sanitizeMembers (xs ++ ys) = sanitizeMembers xs ++ sanitizeMembers ys := by
  simp only [sanitizeMembers_map, List.map_append]

variable {s : Bytes}

theorem sanitize_eq_nil : sanitize s = [] ↔ s = [] := by
  induction s using chunks_induction with
  | nil => simp [sanitize_nil]
  | rune r s hr _ => simp [sanitize_rune hr, hr.1]
  | bad b s hb _ => simp [sanitize_bad hb]

theorem sanitize_tag (f : Field) : sanitize f.tag = f.tag := by
  cases f <;> decide

theorem fieldOf_tag (f : Field) : fieldOf (foldName f.tag) = some f := by
  cases f <;> decide

theorem sanitizeMembers_strField (f : Field) (s : Bytes) :
    sanitizeMembers (strField f s) = strField f (sanitize s) := by
  simp only [strField, sanitizeMembers, Json.sanitize, sanitize_tag]

theorem sanitizeMembers_optField (f : Field) (s : Bytes) :
    sanitizeMembers (optField f s) = optField f (sanitize s) := by
  unfold optField
  simp only [sanitize_eq_nil]
  split_ifs
  · rfl
  · exact sanitizeMembers_strField f s

theorem sanitizeMembers_intField (f : Field) (i : Int64) :
    sanitizeMembers (intField f i) = intField f i := by
  simp only [intField, sanitizeMembers, Json.sanitize, sanitize_tag]

theorem sanitizeMembers_seqField (n : UInt64) : sanitizeMembers (seqField n) = seqField n := by
  unfold seqField
  split_ifs
  · rfl
  · simp only [sanitizeMembers, Json.sanitize, sanitize_tag]

theorem toJson_sanitize (e : Entry) : e.toJson.sanitize = e.sanitize.toJson := by
  simp only [Entry.toJson, Json.sanitize, Entry.members, sanitizeMembers_append,
    sanitizeMembers_seqField, sanitizeMembers_strField, sanitizeMembers_optField,
    sanitizeMembers_intField]
  rfl

theorem decodeStep_tag (e : Entry) (f : Field) (j : Json) :
    decodeStep e (f.tag, j) = e.setField j f := by
  simp only [decodeStep, fieldOf_tag]

variable {e : Entry}

theorem foldlM_append_some {xs ys : List (Bytes × Json)} {g : Entry}
    (h : xs.foldlM decodeStep e = some g) :
    (xs ++ ys).foldlM decodeStep e = ys.foldlM decodeStep g := by
  rw [List.foldlM_append, h]
  rfl

variable {e' : Entry} {f : Field} {j : Json}

theorem foldlM_member (h : e.setField j f = some e') :
    [(f.tag, j)].foldlM decodeStep e = some e' := by
  rw [List.foldlM_cons, decodeStep_tag, h]
  rfl

theorem foldlM_strField
    (h : e.setField (.str s) f = some e') : (strField f s).foldlM decodeStep e = some e' :=
  foldlM_member h

theorem foldlM_optField
    (h : e.setField (.str s) f = some e') (h0 : s = [] → e' = e) :
    (optField f s).foldlM decodeStep e = some e' := by
  unfold optField
  split_ifs with hs
  · rw [h0 hs]; rfl
  · exact foldlM_strField h

theorem foldlM_intField {i : Int64}
    (h : e.setField (.num (decimalInt i.toInt)) f = some e') :
    (intField f i).foldlM decodeStep e = some e' :=
  foldlM_member h

/-- The record after its first `i` fields have been set. -/
def Entry.upto (e : Entry) (i : Nat) : Entry where
  time := if 0 < i then e.time else []
  seq := if 1 < i then e.seq else 0
  requestID := if 2 < i then e.requestID else []
  method := if 3 < i then e.method else []
  path := if 4 < i then e.path else []
  operation := if 5 < i then e.operation else []
  ns := if 6 < i then e.ns else []
  status := if 7 < i then e.status else 0
  clientIP := if 8 < i then e.clientIP else []
  fingerprint := if 9 < i then e.fingerprint else []
  identity := if 10 < i then e.identity else []
  entityID := if 11 < i then e.entityID else []
  durationMS := if 12 < i then e.durationMS else 0
  prevHash := if 13 < i then e.prevHash else []
  hash := if 14 < i then e.hash else []

theorem decode_seq (e : Entry) :
    (seqField e.seq).foldlM decodeStep (e.upto 1) = some (e.upto 2) := by
  unfold seqField
  split_ifs with hn
  · have h : e.upto 2 = e.upto 1 := by simp [Entry.upto, hn]
    rw [h]
    rfl
  · refine foldlM_member ?_
    have hu : (Json.num (decimalInt e.seq.toNat)).toUint (2 ^ 64) (e.upto 1).seq.toNat =
        some e.seq.toNat := by
      show (parseUint (decimal e.seq.toNat)).filter _ = _
      rw [parseUint_decimal]
      exact Option.filter_some_pos (by simpa using e.seq.toNat_lt)
    simp only [Entry.setField, hu, Option.map_some, UInt64.ofNat_toNat]
    rfl

theorem decode_status (e : Entry) :
    (intField .status e.status).foldlM decodeStep (e.upto 7) = some (e.upto 8) := by
  refine foldlM_intField ?_
  simp only [Entry.setField, toInt64_decimalInt, Option.map_some]
  rfl

theorem decode_durationMS (e : Entry) :
    (intField .durationMS e.durationMS).foldlM decodeStep (e.upto 12) = some (e.upto 13) := by
  refine foldlM_intField ?_
  simp only [Entry.setField, toInt64_decimalInt, Option.map_some]
  rfl

/-- The decoder inverts the encoder's members. -/
theorem decode_members (e : Entry) : e.members.foldlM decodeStep Entry.zero = some e := by
  -- one struct field after the other; an empty field left out stays as it was
  show e.members.foldlM decodeStep (e.upto 0) = some (e.upto 15)
  unfold Entry.members
  rw [foldlM_append_some (g := e.upto 1) (foldlM_strField rfl), foldlM_append_some (decode_seq e),
    foldlM_append_some (g := e.upto 3) (foldlM_optField rfl fun h => by simp [Entry.upto, h]),
    foldlM_append_some (g := e.upto 4) (foldlM_strField rfl),
    foldlM_append_some (g := e.upto 5) (foldlM_strField rfl),
    foldlM_append_some (g := e.upto 6) (foldlM_optField rfl fun h => by simp [Entry.upto, h]),
    foldlM_append_some (g := e.upto 7) (foldlM_optField rfl fun h => by simp [Entry.upto, h]),
    foldlM_append_some (decode_status e),
    foldlM_append_some (g := e.upto 9) (foldlM_optField rfl fun h => by simp [Entry.upto, h]),
    foldlM_append_some (g := e.upto 10) (foldlM_optField rfl fun h => by simp [Entry.upto, h]),
    foldlM_append_some (g := e.upto 11) (foldlM_optField rfl fun h => by simp [Entry.upto, h]),
    foldlM_append_some (g := e.upto 12) (foldlM_optField rfl fun h => by simp [Entry.upto, h]),
    foldlM_append_some (decode_durationMS e),
    foldlM_append_some (g := e.upto 14) (foldlM_strField rfl)]
  exact foldlM_strField rfl

theorem intMembers_append {xs ys : List (Bytes × Json)} :
    IntMembers (xs ++ ys) ↔ IntMembers xs ∧ IntMembers ys := by
  induction xs with
  | nil => simp [IntMembers]
  | cons x xs ih =>
    obtain ⟨k, v⟩ := x
    simp only [List.cons_append, IntMembers, ih, and_assoc]

theorem intMembers_strField (f : Field) (s : Bytes) : IntMembers (strField f s) := by
  simp [strField, IntMembers, Json.IntNums]

theorem intMembers_optField (f : Field) (s : Bytes) : IntMembers (optField f s) := by
  unfold optField
  split_ifs
  · simp [IntMembers]
  · exact intMembers_strField f s

theorem intMembers_intField (f : Field) (i : Int64) : IntMembers (intField f i) := by
  simp only [intField, IntMembers, Json.IntNums, and_true]
  exact ⟨_, rfl⟩

theorem intMembers_seqField (n : UInt64) : IntMembers (seqField n) := by
  unfold seqField
  split_ifs
  · simp [IntMembers]
  · simp only [IntMembers, Json.IntNums, and_true]
    exact ⟨_, rfl⟩

theorem intNums_toJson (e : Entry) : e.toJson.IntNums := by
  simp only [Entry.toJson, Json.IntNums, Entry.members, intMembers_append, intMembers_strField,
    intMembers_optField, intMembers_intField, intMembers_seqField, and_self]

/-- A written record is read back with the bad bytes of its strings replaced. -/
theorem unmarshal_marshal (e : Entry) : unmarshal e.marshal = some e.sanitize := by
  have h : Json.parse e.marshal = some (.obj e.sanitize.members) := by
    rw [Entry.marshal, parse_encode (intNums_toJson e), toJson_sanitize]
    rfl
  simp only [unmarshal, h]
  exact decode_members e.sanitize

/-! ## Records with valid strings -/

/-- The strings a caller supplies. -/
def Entry.texts (e : Entry) : List Bytes :=
  [e.time, e.requestID, e.method, e.path, e.operation, e.ns, e.clientIP, e.fingerprint, e.identity,
    e.entityID]

/-- Every string is valid UTF-8. -/
def Entry.Valid (e : Entry) : Prop :=
  (∀ s ∈ e.texts, Utf8Valid s) ∧ Utf8Valid e.prevHash ∧ Utf8Valid e.hash

theorem sanitize_eq_self_iff : e.sanitize = e ↔ e.Valid := by
  cases e
  simp only [Entry.sanitize, Entry.Valid, Entry.texts, Entry.mk.injEq, sanitize_eq_iff, true_and,
    List.forall_mem_cons, and_assoc]
  simp

theorem unmarshal_of_valid (h : e.Valid) : unmarshal e.marshal = some e := by
  rw [unmarshal_marshal, sanitize_eq_self_iff.mpr h]

theorem toJson_injective : Function.Injective Entry.toJson := by
  intro a b h
  have hm : a.members = b.members := by
    simp only [Entry.toJson, Json.obj.injEq] at h
    exact h
  have hb := decode_members b
  rw [← hm, decode_members a] at hb
  exact Option.some.inj hb

/-- Records with valid strings are told apart by their text. -/
theorem marshal_injective {a b : Entry} (ha : a.Valid) (hb : b.Valid) (h : a.marshal = b.marshal) :
    a = b := by
  have h' := unmarshal_of_valid ha
  rw [h, unmarshal_of_valid hb] at h'
  exact (Option.some.inj h').symm

/-- The record that is read back has another text unless all strings were valid. -/
theorem marshal_sanitize_eq_iff : e.sanitize.marshal = e.marshal ↔ e.Valid := by
  unfold Entry.marshal
  rw [← toJson_sanitize, encode_sanitize_eq_iff, toJson_sanitize, toJson_injective.eq_iff,
    sanitize_eq_self_iff]

theorem printable_marshal (e : Entry) : Printable e.marshal :=
  printable_encode (intNums_toJson e)

/-! ## Decoded records have valid strings -/

theorem utf8Valid_toStr {cur : Bytes} (hj : j.sanitize = j) (hcur : Utf8Valid cur)
    (h : j.toStr cur = some s) : Utf8Valid s := by
  cases j with
  | null => exact Option.some.inj h ▸ hcur
  | str t =>
    simp only [Json.sanitize, Json.str.injEq] at hj
    exact Option.some.inj h ▸ sanitize_eq_iff.mp hj
  | bool b => cases h
  | num l => cases h
  | arr xs => cases h
  | obj ms => cases h

/-- A member that was read sets its field to a valid string. -/
theorem valid_setField {g : Entry} (hj : j.sanitize = j) (he : e.Valid)
    (h : e.setField j f = some g) : g.Valid := by
  obtain ⟨htexts, hprev, hhash⟩ := he
  simp only [Entry.texts, List.forall_mem_cons] at htexts
  obtain ⟨h1, h2, h3, h4, h5, h6, h7, h8, h9, h10, -⟩ := htexts
  unfold Entry.Valid
  simp only [Entry.texts, List.forall_mem_cons]
  cases f
  all_goals
    obtain ⟨v, hv, rfl⟩ := Option.map_eq_some_iff.mp h
    first
      | exact ⟨⟨h1, h2, h3, h4, h5, h6, h7, h8, h9, h10, by simp⟩, hprev, hhash⟩
      | have hs := utf8Valid_toStr hj (by assumption) hv
        refine ⟨⟨?_, ?_, ?_, ?_, ?_, ?_, ?_, ?_, ?_, ?_, by simp⟩, ?_, ?_⟩ <;> assumption

theorem valid_zero : Entry.zero.Valid := by
  unfold Entry.Valid
  decide

/-- What `json.Unmarshal` accepts has valid strings. -/
theorem unmarshal_valid {line : Bytes} (h : unmarshal line = some e) : e.Valid := by
  have hrun : ∀ (ms : List (Bytes × Json)) (g : Entry), sanitizeMembers ms = ms → g.Valid →
      ms.foldlM decodeStep g = some e → e.Valid := by
    intro ms
    induction ms with
    | nil =>
      intro g _ hg hf
      exact Option.some.inj hf ▸ hg
    | cons m ms ih =>
      intro g hms hg hf
      obtain ⟨k, v⟩ := m
      simp only [sanitizeMembers, List.cons.injEq, Prod.mk.injEq] at hms
      rw [List.foldlM_cons] at hf
      obtain ⟨g', hstep, hrest⟩ := Option.bind_eq_some_iff.mp hf
      refine ih g' hms.2 ?_ hrest
      simp only [decodeStep] at hstep
      split at hstep
      · exact valid_setField hms.1.2 hg hstep
      · exact Option.some.inj hstep ▸ hg
  unfold unmarshal at h
  split at h
  · exact Option.some.inj h ▸ valid_zero
  · next ms hp =>
    have hs := sanitize_parse hp
    simp only [Json.sanitize, Json.obj.injEq] at hs
    exact hrun ms Entry.zero hs valid_zero h
  · cases h

end Tuck.Audit
