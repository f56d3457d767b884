/-
  From a stored secret to its consumers: the operator's client and the CSI driver.

  Both append the path to a URL as it is, and take the member "value" of the answer as it is. So
  a path with a '?' asks for another secret, and a value that is not valid UTF-8 arrives as its
  base64 text, since neither looks at "encoding". The operator takes an answer without a value
  for the empty value, and thereby a soft-deleted version for an empty secret. The driver
  refuses an answer without a value, which the server also gives to an empty KV v2 value, and
  one that is longer than it reads.
  What is stored at a path that the URLs carry arrives exactly in the other cases
  (`delivered_iff`).
-/
import Tuck.Api.Responses
import Tuck.Csi.Fetch
import Tuck.Operator.Paths
import Tuck.Secrets.Faults

namespace Tuck

open Tuck.Base Prog List KV

/-! ## The operator's client -/

namespace Operator

/-- The field of `GetSecret`'s result that a member of the answer sets. -/
def setValue (cur : Bytes) (m : Bytes × Json) : Option Bytes :=
  if foldName m.1 = ascii "VALUE" then m.2.toStr cur else some cur

/-- `json.NewDecoder(body).Decode(&result)`: the first value of the body; none on an error. -/
def decodeResult (body : Bytes) : Option Bytes :=
  match (readValue (body.length + 1) body).map Prod.fst with
  | some (.obj ms) => if (Json.obj ms).depth ≤ maxNestingDepth then ms.foldlM setValue [] else none
  | some .null => some []
  | _ => none

/-- `GetSecret`, with the answer to its request. -/
def getSecret (a : Csi.Answer) : Option Bytes :=
  if a.status < 200 ∨ 300 ≤ a.status then none else decodeResult a.body

end Operator

namespace Csi

open Tuck.Api

/-! ## Answers that are decoded -/

section

variable {ms : List (Bytes × Json)} {x : Bytes}

/-- The answer with these members. -/
def answerOf (status : Nat) (ms : List (Bytes × Json)) : Answer :=
  ⟨status, (Json.obj ms).encode ++ [0x0A]⟩

theorem setValue_other {m : Bytes × Json} (h : Other m) (cur : Bytes) :
    Operator.setValue cur (sanitize m.1, m.2.sanitize) = some cur := by
  obtain ⟨hkey, -, hne⟩ := otherKeys_spec m.1 h.1
  rw [Operator.setValue, hkey, if_neg hne]

theorem foldlM_others (h : ∀ m ∈ ms, Other m) (cur : Bytes) :
    (sanitizeMembers ms).foldlM Operator.setValue cur = some cur := by
  rw [sanitizeMembers_map]
  induction ms with
  | nil => rfl
  | cons m ms ih =>
    rw [map_cons, foldlM_cons, setValue_other (h m mem_cons_self)]
    exact ih fun m' hm => h m' (mem_cons_of_mem m hm)

theorem decodeResult_encode (h : Tame 3 (.obj ms)) :
    Operator.decodeResult ((Json.obj ms).encode ++ [0x0A]) =
      (sanitizeMembers ms).foldlM Operator.setValue [] := by
  have hend : NumEnd [0x0A] := numEnd_cons (by decide) []
  have hread := (Text.encoded h.ints hend).reads.2
    (((Json.obj ms).encode ++ [0x0A]).length + 1) (by omega)
  have hdepth : (Json.obj ms).sanitize.depth ≤ maxNestingDepth := by
    rw [depth_sanitize]
    exact h.depth.trans (by decide)
  rw [Operator.decodeResult, hread]
  exact if_pos hdepth

/-- The operator takes the text of the value. -/
theorem getSecret_holds (h : Holds ms x) (hx : Utf8Valid x) :
    Operator.getSecret (answerOf 200 ms) = some x := by
  have hstatus : ¬ ((200 : Nat) < 200 ∨ 300 ≤ 200) := by decide
  rw [Operator.getSecret, answerOf, if_neg hstatus, decodeResult_encode h.tame]
  obtain ⟨a, b, rfl, ha, hb⟩ := h
  rw [sanitizeMembers_map, map_append, map_cons, foldlM_append,
    ← sanitizeMembers_map a, foldlM_others ha]
  have hvalue :
      Operator.setValue [] (sanitize (ascii "value"), (Json.str x).sanitize) = some x := by
    have hkey : foldName (sanitize (ascii "value")) = ascii "VALUE" := by decide +kernel
    rw [Operator.setValue, if_pos hkey]
    exact congrArg some (sanitize_of_valid hx)
  rw [Option.bind_eq_bind, Option.bind_some, foldlM_cons, hvalue, ← sanitizeMembers_map b]
  exact foldlM_others hb x

/-- An answer without a value is the empty value for the operator. -/
theorem getSecret_others (h : ∀ m ∈ ms, Other m) :
    Operator.getSecret (answerOf 200 ms) = some [] := by
  have hstatus : ¬ ((200 : Nat) < 200 ∨ 300 ≤ 200) := by decide
  rw [Operator.getSecret, answerOf, if_neg hstatus,
    decodeResult_encode (tame_obj fun m hm => (h m hm).2), foldlM_others h]

/-- The driver decodes what it reads of an answer if that is all of its text. -/
theorem decodeMap_answer {num : Bytes → Option Bytes}
    (hnum : ∀ i : Int64, (num (decimalInt i.toInt)).isSome) (h : Tame 3 (.obj ms)) (limit : Nat) :
    decodeMap num (((Json.obj ms).encode ++ [0x0A]).take limit) =
      if (Json.obj ms).encode.length ≤ limit then some (goMap (sanitizeMembers ms)) else none := by
  split_ifs with hlen
  · obtain ⟨ws, hws, hskip, hend⟩ : ∃ ws, ((Json.obj ms).encode ++ [0x0A]).take limit =
        (Json.obj ms).encode ++ ws ∧ skipWs ws = [] ∧ NumEnd ws := by
      rw [take_append, take_of_length_le hlen]
      refine ⟨_, rfl, ?_⟩
      cases limit - (Json.obj ms).encode.length with
      | zero => exact ⟨rfl, fun b t hb => nomatch hb⟩
      | succ k =>
        rw [take_succ_cons, take_nil]
        exact ⟨rfl, numEnd_cons (by decide) []⟩
    have hparse : jsonValue ((Json.obj ms).encode ++ ws) = some (Json.obj ms).sanitize := by
      rw [jsonValue, parse_iff.mpr ⟨ws, .encoded h.ints hend, hskip⟩]
      have hdepth : (Json.obj ms).sanitize.depth ≤ maxNestingDepth := by
        rw [depth_sanitize]
        exact h.depth.trans (by decide)
      rw [Option.filter_some, if_pos (decide_eq_true hdepth)]
    have hrange : inRangeMembers num (sanitizeMembers ms) = true := by
      rw [inRangeMembers_sanitize]
      exact h.inRange num hnum
    rw [hws, decodeMap, hparse]
    exact if_pos hrange
  · have hcut : (Json.obj ms).encode.take limit ++ (Json.obj ms).encode.drop limit =
        (Json.obj ms).encode := take_append_drop _ _
    have hrest : (Json.obj ms).encode.drop limit ≠ [] := by
      rw [Ne, drop_eq_nil_iff]
      exact hlen
    rw [take_append_of_le_length (by omega), decodeMap, jsonValue, parse_cut h.ints hrest hcut]
    rfl

theorem lookup_others (h : ∀ m ∈ ms, Other m) :
    (sanitizeMembers ms).reverse.lookup (ascii "value") = none := by
  rw [sanitizeMembers_map, lookup_eq_none_iff]
  intro e he
  obtain ⟨m, hm, rfl⟩ := mem_map.mp (mem_reverse.mp he)
  obtain ⟨hkey, hne, -⟩ := otherKeys_spec m.1 (h m hm).1
  rw [hkey]
  exact bne_iff_ne.mpr hne.symm

theorem lookup_holds (h : Holds ms x) (hx : Utf8Valid x) :
    (sanitizeMembers ms).reverse.lookup (ascii "value") = some (.str x) := by
  obtain ⟨a, b, rfl, ha, hb⟩ := h
  have hkey : sanitize (ascii "value") = ascii "value" := by decide +kernel
  have hmem : (sanitize (ascii "value"), (Json.str x).sanitize) = (ascii "value", Json.str x) := by
    rw [hkey, Json.sanitize, sanitize_of_valid hx]
  rw [sanitizeMembers_map, map_append, map_cons, reverse_append, reverse_cons,
    hmem, lookup_append, lookup_append, ← sanitizeMembers_map b, lookup_others hb,
    lookup_cons_self]
  rfl

/-- The values that the driver writes for a volume with this one entry and without key
    expansion. -/
def written (num : Bytes → Option Bytes) (spec : Bytes) (a : Option Answer) :
    Except Refusal (List Bytes) :=
  (fetchPaths num false [] [(spec, a)]).map fun files => files.map File.value

section

variable {num : Bytes → Option Bytes} {spec p aliased : Bytes}
  (hspec : parsePathSpec spec = some (p, aliased))

include hspec

theorem written_of_ok {a : Answer} {v : Bytes}
    (h : fetchSecretFiles num false p (some a) = .ok [⟨filepathBase p, ⟨p, none⟩, v⟩]) :
    written num spec (some a) = .ok [v] := by
  unfold written fetchPaths
  simp only [hspec, h]
  by_cases haliased : aliased = []
  · simp [haliased, renamed, fetchPaths, Except.map]
  · simp [haliased, renamed, fetchPaths, Except.map]

theorem written_of_error {a : Answer} {e : FetchErr}
    (h : fetchSecretFiles num false p (some a) = .error e) :
    written num spec (some a) = .error (.fetch e) := by
  unfold written fetchPaths
  simp only [hspec, h]
  rfl

theorem written_refused {a : Answer} (h : a.status ≠ 200) :
    written num spec (some a) = .error (.fetch (.status a.status)) := by
  refine written_of_error hspec ?_
  rw [fetchSecretFiles, if_pos h]

theorem written_holds (hnum : ∀ i : Int64, (num (decimalInt i.toInt)).isSome) (h : Holds ms x)
    (hx : Utf8Valid x) :
    written num spec (some (answerOf 200 ms)) =
      if (Json.obj ms).encode.length ≤ readLimit then .ok [x]
      else .error (.fetch .unmarshal) := by
  have hstatus : ¬ ((200 : Nat) ≠ 200) := by decide
  split_ifs with hlen
  · refine written_of_ok hspec ?_
    rw [fetchSecretFiles, answerOf, if_neg hstatus, decodeMap_answer hnum h.tame, if_pos hlen]
    simp only [lookup_goMap, lookup_holds h hx]
    rfl
  · refine written_of_error hspec ?_
    rw [fetchSecretFiles, answerOf, if_neg hstatus, decodeMap_answer hnum h.tame, if_neg hlen]

theorem written_others (hnum : ∀ i : Int64, (num (decimalInt i.toInt)).isSome)
    (h : ∀ m ∈ ms, Other m) : ∃ e, written num spec (some (answerOf 200 ms)) = .error e := by
  have hstatus : ¬ ((200 : Nat) ≠ 200) := by decide
  have htame : Tame 3 (.obj ms) := tame_obj fun m hm => (h m hm).2
  by_cases hlen : (Json.obj ms).encode.length ≤ readLimit
  · refine ⟨.fetch .missingValue, written_of_error hspec ?_⟩
    rw [fetchSecretFiles, answerOf, if_neg hstatus, decodeMap_answer hnum htame, if_pos hlen]
    simp only [lookup_goMap, lookup_others h]
  · refine ⟨.fetch .unmarshal, written_of_error hspec ?_⟩
    rw [fetchSecretFiles, answerOf, if_neg hstatus, decodeMap_answer hnum htame, if_neg hlen]

end

theorem getSecret_refused {a : Answer} (h : 300 ≤ a.status) : Operator.getSecret a = none := by
  rw [Operator.getSecret, if_pos (Or.inr h)]

end

/-! ## What is stored, and what the server answers -/

/-- What stands at a path for a reader of its current version. -/
inductive Standing where
  /-- With the length of the text that describes it. -/
  | value (v : Bytes) (size : Nat)
  | softDeleted
  /-- Absent, expired or destroyed. -/
  | gone
  deriving DecidableEq

def Standing.value? : Standing → Option Bytes
  | .value v _ => some v
  | _ => none

section

variable (T : Texts)

/-- What is stored for a path of KV v1. -/
def standingV1 (store : LogicalStore) (ns p : Bytes) (now : Int) : Standing :=
  match store.lookup (Namespace.storagePrefix ns ++ Secrets.secretKey p) with
  | none => .gone
  | some r =>
      let e := Secrets.unmarshal r
      if e.isExpired now then .gone
      else .value e.value (Json.obj (secretMembers T p e)).encode.length

/-- What is stored for a path of KV v2. -/
def standingV2 (store : LogicalStore) (ns p : Bytes) : Standing :=
  match KVv2.readOf (KVv2.pathState store ns p) 0 with
  | .ok (some (some v, vm)) => .value v (Json.obj (valueMembers T p (some v) vm)).encode.length
  | .ok (some (none, _)) => .softDeleted
  | _ => .gone

def standing (store : LogicalStore) (ns kvVersion p : Bytes) (now : Int) : Standing :=
  if kvVersion = ascii "2" then standingV2 T store ns p else standingV1 T store ns p now

variable (sha256 : Bytes → Bytes) (L : Listing) (ctx : Ctx) (clock : Nat → Int)

/-- The answer of a read handler. -/
def readAnswer (r : SecretRequest) (w : LogicalWorld) : Answer :=
  let r := readResponse T (run (handle L) (r.handle sha256 ctx clock) w).1
  ⟨r.1, r.2⟩

/-- The answer of the server to a GET of a URL, without one if the text is no URL. Of the
    requests only the reads without a query are followed; `other` is what becomes of the
    rest. -/
def serve (other : Bytes → Answer) (url : Bytes) (w : LogicalWorld) : Option Answer :=
  (urlPath url).map fun path =>
    match dispatch (ascii "GET") path, urlQuery url with
    | .handler .getSecret p, [] => readAnswer T sha256 L ctx clock (.getSecret p) w
    | .handler .v2ReadSecret p, [] => readAnswer T sha256 L ctx clock (.v2ReadSecret p []) w
    | _, _ => other url

/-- The URL of `fetchSecretFiles`, after the server's address. -/
def fetchURL (kvVersion path : Bytes) : Bytes :=
  (if kvVersion = ascii "2" then ascii "/v2/secret/" else ascii "/v1/secret/") ++ path

/-- A GET of the URL is a read of the path, by the handler of the engine and without a query. -/
def Asks (url kvVersion p : Bytes) : Prop :=
  (urlPath url).map (dispatch (ascii "GET")) =
      some (.handler (Operator.readHandler kvVersion) p) ∧ urlQuery url = []

/-- The URLs of both clients carry the path. -/
def Carried (kvVersion p : Bytes) : Prop :=
  Asks (Operator.secretURL kvVersion p) kvVersion p ∧ Asks (fetchURL kvVersion p) kvVersion p

/-- The paths that the operator accepts are carried, but for those that KV v2 takes for
    metadata. -/
theorem carried_of_normalized {p n : Bytes} (h : Operator.normalizePath p = .ok n)
    {kvVersion : Bytes}
    (hmeta : kvVersion = ascii "2" → (n.splitOn slash).head? ≠ some (ascii "metadata")) :
    Carried kvVersion n := by
  obtain ⟨hne, -, hnames⟩ := Operator.normalizePath_ok h
  have hurl : fetchURL kvVersion n = Operator.secretURL kvVersion n := by
    rw [Operator.secretURL, trimLeft_of_head (Operator.head_of_isName hne hnames), fetchURL]
  have hasks : Asks (Operator.secretURL kvVersion n) kvVersion n :=
    ⟨(Operator.served_iff h kvVersion).mpr hmeta, (Operator.url_of_normalized h kvVersion).2⟩
  refine ⟨hasks, ?_⟩
  rw [hurl]
  exact hasks

/-- The caller may read the path. -/
def MayRead (w : LogicalWorld) (p : Bytes) : Prop :=
  ∃ tok, Core.validToken sha256 w.store ctx.token (clock 0) = some tok ∧
    Core.Grants w.store tok (ascii "secret/" ++ clean p) Policy.capRead

variable {T sha256 L ctx clock} {w : LogicalWorld} {p : Bytes}

theorem serve_of_asks {url kvVersion : Bytes} (h : Asks url kvVersion p) (other : Bytes → Answer) :
    serve T sha256 L ctx clock other url w =
      some (readAnswer T sha256 L ctx clock (Operator.readRequest kvVersion p) w) := by
  obtain ⟨hserved, hquery⟩ := h
  obtain ⟨path, hpath, hdispatch⟩ := Option.map_eq_some_iff.mp hserved
  rw [serve, hpath, Option.map_some, hdispatch, hquery, Operator.readHandler, Operator.readRequest]
  split_ifs <;> rfl

theorem run_enforce (h : MayRead sha256 ctx clock w p) :
    run (handle L) (enforce sha256 ctx (ascii "secret/" ++ clean p) Policy.capRead (clock 0)) w =
      (.ok (), w) := by
  have hworld := run_of_reads L
    (Core.reads_enforceAccess sha256 ctx.token (ascii "secret/" ++ clean p) Policy.capRead
      (clock 0)) w
  have hok := (Core.run_enforceAccess (L := L)).mpr h
  rw [enforce, orRefuse, run_bind, hworld, hok]
  rfl

theorem readAnswer_v1 (h : MayRead sha256 ctx clock w p) :
    match standingV1 T w.store ctx.ns p (clock 1) with
    | .value v size => ∃ e : Entry, e.value = v ∧
        (Json.obj (secretMembers T p e)).encode.length = size ∧
        readAnswer T sha256 L ctx clock (.getSecret p) w = answerOf 200 (secretMembers T p e)
    | _ => (readAnswer T sha256 L ctx clock (.getSecret p) w).status = 404 := by
  unfold readAnswer standingV1
  rw [SecretRequest.handle, Api.getSecret, secretEnforcePath, run_andThen, run_enforce h]
  dsimp only
  rw [run_andThen, orRefuse, run_bind, Secrets.getSecretEntry, run_andThen, run_get]
  cases hget : w.store.lookup (Namespace.storagePrefix ctx.ns ++ Secrets.secretKey p) with
  | none => rfl
  | some r =>
    simp only
    by_cases hexp : (Secrets.unmarshal r).isExpired (clock 1) = true
    · simp only [hexp, if_true]
      rfl
    · simp only [hexp]
      exact ⟨Secrets.unmarshal r, rfl, rfl, rfl⟩

theorem readAnswer_v2 (h : MayRead sha256 ctx clock w p) :
    match standingV2 T w.store ctx.ns p with
    | .value v size => ∃ vm, (Json.obj (valueMembers T p (some v) vm)).encode.length = size ∧
        readAnswer T sha256 L ctx clock (.v2ReadSecret p []) w =
          answerOf 200 (valueMembers T p (some v) vm)
    | .softDeleted => ∃ vm, readAnswer T sha256 L ctx clock (.v2ReadSecret p []) w =
        answerOf 200 (valueMembers T p none vm)
    | .gone => (readAnswer T sha256 L ctx clock (.v2ReadSecret p []) w).status = 404 := by
  unfold readAnswer standingV2
  rw [SecretRequest.handle, Api.v2ReadSecret, v2EnforcePath, run_andThen, run_enforce h]
  dsimp only
  rw [if_neg fun hc => hc.1 rfl, run_andThen, orRefuse, run_bind,
    show (atoi []).getD 0 = 0 from rfl, KVv2.run_read]
  cases hread : KVv2.readOf (KVv2.pathState w.store ctx.ns p) 0 with
  | error e => rfl
  | ok r =>
    cases r with
    | none => rfl
    | some r =>
      obtain ⟨value, vm⟩ := r
      cases value with
      | none => exact ⟨vm, rfl⟩
      | some v => exact ⟨vm, rfl, rfl⟩

end

/-! ## What arrives -/

/-- The consumers get what is stored, and an error if nothing is: the operator from the answer
    `a` to its request, the driver from `b`. -/
structure Delivered (num : Bytes → Option Bytes) (spec : Bytes) (a b : Option Answer)
    (s : Standing) : Prop where
  operator : a.bind Operator.getSecret = s.value?
  driver : match s.value? with
    | some v => written num spec b = .ok [v]
    | none => ∃ e, written num spec b = .error e

/-- A value that is valid UTF-8, in KV v2 not empty, and whose description the driver reads to
    its end; and no version that is soft-deleted. -/
def Deliverable (kvVersion : Bytes) : Standing → Prop
  | .value v size => Utf8Valid v ∧ (kvVersion = ascii "2" → v ≠ []) ∧ size ≤ readLimit
  | .softDeleted => False
  | .gone => True

section

variable {num : Bytes → Option Bytes} {spec p aliased : Bytes}
  (hnum : ∀ i : Int64, (num (decimalInt i.toInt)).isSome)
  (hspec : parsePathSpec spec = some (p, aliased)) {ms : List (Bytes × Json)}

include hspec

theorem delivered_gone {a : Answer} (h : a.status = 404) :
    Delivered num spec (some a) (some a) .gone where
  operator := getSecret_refused (by rw [h]; decide)
  driver := ⟨_, written_refused hspec (by rw [h]; decide)⟩

include hnum

theorem delivered_holds_iff {v : Bytes} (h : Holds ms (valueText v)) :
    Delivered num spec (some (answerOf 200 ms)) (some (answerOf 200 ms))
        (.value v (Json.obj ms).encode.length) ↔
      Utf8Valid v ∧ (Json.obj ms).encode.length ≤ readLimit := by
  have hvalid := utf8Valid_valueText v
  constructor
  · intro hd
    have hop := hd.operator
    rw [Option.bind_some, getSecret_holds h hvalid, Standing.value?, Option.some_inj,
      valueText_eq_iff] at hop
    refine ⟨hop, ?_⟩
    by_contra hlen
    have hdriver : written num spec (some (answerOf 200 ms)) = .ok [v] := hd.driver
    rw [written_holds hspec hnum h hvalid, if_neg hlen] at hdriver
    cases hdriver
  · rintro ⟨hv, hlen⟩
    have htext := valueText_eq_iff.mpr hv
    rw [htext] at h hvalid
    refine ⟨getSecret_holds h hvalid, ?_⟩
    show written num spec (some (answerOf 200 ms)) = .ok [v]
    rw [written_holds hspec hnum h hvalid, if_pos hlen]

theorem not_delivered_others (h : ∀ m ∈ ms, Other m) {s : Standing} (hs : s ≠ .gone) :
    ¬ Delivered num spec (some (answerOf 200 ms)) (some (answerOf 200 ms)) s := by
  intro hd
  cases s with
  | value v size =>
    obtain ⟨e, he⟩ := written_others hspec hnum h
    have hdriver : written num spec (some (answerOf 200 ms)) = .ok [v] := hd.driver
    rw [he] at hdriver
    cases hdriver
  | softDeleted =>
    have hop := hd.operator
    rw [Option.bind_some, getSecret_others h] at hop
    cases hop
  | gone => exact hs rfl

end

/-- A server with a root token, after some requests. -/
def afterRequests (rs : List SecretRequest) : LogicalWorld :=
  rs.foldl (fun w r => (run (handle sorted)
    (r.handle (fun m => m) ⟨ascii "t", []⟩ fun _ => 0) w).2) rootTokenWorld

def plainTexts : Texts := ⟨fun _ => ascii "t", fun _ => ascii "t", fun _ => ascii "error"⟩

/-- The answer to the URL of a client for a path after these requests. -/
def answerAfter (rs : List SecretRequest) (url : Bytes → Bytes → Bytes) (kvVersion p : Bytes) :
    Option Answer :=
  serve plainTexts (fun m => m) sorted ⟨ascii "t", []⟩ (fun _ => 0) (fun _ => ⟨404, []⟩)
    (url kvVersion p) (afterRequests rs)

def standingAfter (rs : List SecretRequest) (kvVersion p : Bytes) : Standing :=
  standing plainTexts (afterRequests rs).store [] kvVersion p 0

end Csi

end Tuck
