/-
  The paths a TuckSecret may read, and where the server takes them.

  Three places read the same text: the operator's check, the URL it builds and the server's
  routes. An accepted path consists of names, so the URL carries it unchanged and the server
  neither cleans it nor takes a part of it for a query (`url_of_normalized`). The routes of KV v2
  have one more meaning for it: below "metadata" a read is a read of metadata, of the path
  that follows, which no prefix check has seen (`reads_confined_iff`).
-/
import Tuck.Api.Routes
import Tuck.Base.Text

namespace Tuck.Operator

open Tuck.Base Tuck.Api List

/-! ## The check -/

/-- The errors of a path, with the path they name. -/
inductive PathErr where
  | emptyPath
  | forbiddenCharacter (p : Bytes)
  | emptySegment (p : Bytes)
  | dotSegment (p seg : Bytes)
  /-- The annotation with the allowed paths. -/
  | allowedPaths (e : PathErr)
  | tuckNamespace (name : Bytes)
  | outside (key p : Bytes) (ns : Bytes) (allowed : List Bytes)
  | entry (key : Bytes) (e : PathErr)
  | namespaceUnread (ns : Bytes)
  deriving DecidableEq

/-- The characters that a path must not contain; all of them are single bytes. -/
def forbidden (b : UInt8) : Bool :=
  b < 0x20 || b == 0x7F || b == 0x20 || b == 0x3F || b == 0x23 || b == 0x25 || b == 0x5C

/-- The first segment that is not a name. -/
def checkSegments (p : Bytes) : List Bytes → Except PathErr Unit
  | [] => .ok ()
  | seg :: segs =>
      if seg = [] then .error (.emptySegment p)
      else if seg = ascii "." ∨ seg = ascii ".." then .error (.dotSegment p seg)
      else checkSegments p segs

def normalizePath (p : Bytes) : Except PathErr Bytes :=
  let p := trimLeft slash p
  if p = [] then .error .emptyPath
  else if p.any forbidden then .error (.forbiddenCharacter p)
  else (checkSegments p (p.splitOn slash)).map fun _ => p

/-- The annotations of a Namespace that the operator reads; an absent one is empty. -/
structure Annotations where
  allowedPaths : Bytes
  tuckNamespace : Bytes

def allowedPrefixes (ns : Bytes) (a : Annotations) : Except PathErr (List Bytes) :=
  let raw := trimSpace a.allowedPaths
  if raw = [] then .ok [ns]
  else
    (((raw.splitOn 0x2C).map trimSpace).filter (· ≠ [])).foldlM (fun prefixes item =>
      match normalizePath (trimRight slash item) with
      | .ok n => .ok (prefixes ++ [n])
      | .error e => .error (.allowedPaths e)) [ns]

def pathAllowed (path : Bytes) (prefixes : List Bytes) : Bool :=
  prefixes.any fun pre => path = pre || hasPrefix path (pre ++ [slash])

def tuckNamespaceOf (a : Annotations) : Except PathErr Bytes :=
  let v := trimSpace a.tuckNamespace
  if v = [] then .ok []
  else if Namespace.validateName v then .ok v
  else .error (.tuckNamespace v)

/-- One entry of `authorizePaths`. -/
def authorizeEntry (ns tuckNS : Bytes) (prefixes : List Bytes) (e : Bytes × Bytes) :
    Except PathErr (Bytes × Bytes) :=
  match normalizePath e.2 with
  | .error err => .error (.entry e.1 err)
  | .ok n =>
      if tuckNS = [] ∧ pathAllowed n prefixes = false then .error (.outside e.1 n ns prefixes)
      else .ok (e.1, n)

/-- `authorizePaths`, with the annotations as the Namespace was read. -/
def authorizePaths (enforce : Bool) (ns : Bytes) (annotations : Option Annotations)
    (entries : List (Bytes × Bytes)) : Except PathErr (List (Bytes × Bytes) × Bytes) :=
  if enforce = false then .ok (entries, [])
  else
    match annotations with
    | none => .error (.namespaceUnread ns)
    | some a => do
        let tuckNS ← tuckNamespaceOf a
        let prefixes ← allowedPrefixes ns a
        let out ← entries.mapM (authorizeEntry ns tuckNS prefixes)
        return (out, tuckNS)

/-! ## The request -/

/-- The URL of `GetSecret`, after the server's address. -/
def secretURL (kvVersion path : Bytes) : Bytes :=
  (if kvVersion = ascii "2" then ascii "/v2/secret/" else ascii "/v1/secret/") ++
    trimLeft slash path

/-- The handler of a read. -/
def readHandler (kvVersion : Bytes) : Handler :=
  if kvVersion = ascii "2" then .v2ReadSecret else .getSecret

/-- What the server does with the request: the path of the URL, decoded once, finds its
    route. -/
def served (kvVersion path : Bytes) : Option Dispatch :=
  (urlPath (secretURL kvVersion path)).map (dispatch (ascii "GET"))

/-- The request that the read handler then serves. -/
def readRequest (kvVersion n : Bytes) : SecretRequest :=
  if kvVersion = ascii "2" then .v2ReadSecret n [] else .getSecret n

/-- The read handler of the engine gets the path, without a query; it asks for `read` on "secret/"
    and this path, and then touches only keys of it, the mount options and the caller's
    token; and the path lies under an allowed prefix. -/
structure Confined (kvVersion n : Bytes) (prefixes : List Bytes) : Prop where
  dispatched : served kvVersion n = some (.handler (readHandler kvVersion) n)
  noQuery : urlQuery (secretURL kvVersion n) = []
  authorised : ∀ (sha256 : Bytes → Bytes) (ctx : Ctx) (clock : Nat → Int),
    ∃ rest : Answer (Nat × SecretBody),
      (readRequest kvVersion n).handle sha256 ctx clock =
          (enforce sha256 ctx (ascii "secret/" ++ n) Policy.capRead (clock 0)).andThen
            (fun _ => rest) ∧
        KV.Confined (pathKeys ctx.ns n ∪
          {KVv2.mountConfigKey, Token.tokenKey sha256 ctx.token}) rest
  allowed : ∃ pre ∈ prefixes, n = pre ∨ pre ++ [slash] <+: n

/-! ## Accepted paths -/

theorem isName_of_checkSegments {p : Bytes} {segs : List Bytes} (hslash : ∀ seg ∈ segs, slash ∉ seg)
    (h : checkSegments p segs = .ok ()) : ∀ seg ∈ segs, IsName seg := by
  induction segs with
  | nil => exact fun _ hseg => absurd hseg not_mem_nil
  | cons x segs ih =>
    rw [checkSegments] at h
    split_ifs at h with hempty hdot
    intro seg hseg
    rcases mem_cons.mp hseg with rfl | hseg
    · rw [not_or] at hdot
      exact ⟨hempty, hdot.1, hdot.2, hslash _ mem_cons_self⟩
    · exact ih (fun y hy => hslash y (mem_cons_of_mem x hy)) h seg hseg

/-- What `normalizePath` accepts. -/
theorem normalizePath_ok {p n : Bytes} (h : normalizePath p = .ok n) :
    n ≠ [] ∧ (∀ b ∈ n, forbidden b = false) ∧ ∀ seg ∈ n.splitOn slash, IsName seg := by
  unfold normalizePath at h
  simp only at h
  split_ifs at h with hempty hforbidden
  cases hcheck : checkSegments (trimLeft slash p) ((trimLeft slash p).splitOn slash) with
  | error e =>
    rw [hcheck] at h
    exact nomatch h
  | ok u =>
    rw [hcheck] at h
    cases h
    refine ⟨hempty, fun b hb => ?_,
      isName_of_checkSegments (fun seg => slash_notMem_splitOn) hcheck⟩
    rw [Bool.not_eq_true, any_eq_false] at hforbidden
    exact Bool.eq_false_iff.mpr (hforbidden b hb)

theorem head_of_isName {n : Bytes} (hne : n ≠ []) (h : ∀ seg ∈ n.splitOn slash, IsName seg) :
    n.head? ≠ some slash := by
  cases n with
  | nil => exact absurd rfl hne
  | cons b n =>
    rintro hb
    cases hb
    refine (h [] ?_).1 rfl
    rw [List.splitOn, splitOnP_cons_eq_if_modifyHead, if_pos (beq_self_eq_true slash)]
    exact mem_cons_self

/-- The URL of an accepted path carries it as it is. -/
theorem url_of_normalized {p n : Bytes} (h : normalizePath p = .ok n) (kvVersion : Bytes) :
    urlPath (secretURL kvVersion n) =
        some ((if kvVersion = ascii "2" then ascii "/v2/secret/" else ascii "/v1/secret/") ++ n) ∧
      urlQuery (secretURL kvVersion n) = [] := by
  obtain ⟨hne, hforbidden, hnames⟩ := normalizePath_ok h
  have hallowed : ∀ b ∈ secretURL kvVersion n, forbidden b = false := by
    rw [secretURL, trimLeft_of_head (head_of_isName hne hnames)]
    have hv1 : ∀ b ∈ ascii "/v1/secret/", forbidden b = false := by decide +kernel
    have hv2 : ∀ b ∈ ascii "/v2/secret/", forbidden b = false := by decide +kernel
    intro b hb
    rcases mem_append.mp hb with hb | hb
    · split_ifs at hb
      · exact hv2 b hb
      · exact hv1 b hb
    · exact hforbidden b hb
  have hnot : ∀ c, forbidden c = true → c ∉ secretURL kvVersion n := fun c hc hmem => by
    rw [hallowed c hmem] at hc
    exact nomatch hc
  have hurl := urlPath_of_plain (s := secretURL kvVersion n) (fun b hb hctl => ?_)
    (hnot _ (by decide)) (hnot _ (by decide)) (hnot _ (by decide))
  · rw [hurl.1]
    refine ⟨?_, hurl.2⟩
    rw [secretURL, trimLeft_of_head (head_of_isName hne hnames)]
  · have hfree := hallowed b hb
    unfold forbidden at hfree
    simp only [Bool.or_eq_false_iff] at hfree
    rw [hfree.1.1.1.1.1.1, hfree.1.1.1.1.1.2] at hctl
    exact nomatch hctl

theorem pathAllowed_iff {n : Bytes} {prefixes : List Bytes} :
    pathAllowed n prefixes = true ↔ ∃ pre ∈ prefixes, n = pre ∨ pre ++ [slash] <+: n := by
  simp only [pathAllowed, any_eq_true, Bool.or_eq_true, decide_eq_true_eq, hasPrefix_iff]

/-- What a read of a clean path authorises and touches. -/
theorem read_touches {n : Bytes} (hclean : clean n = n) (kvVersion : Bytes)
    (sha256 : Bytes → Bytes) (ctx : Ctx) (clock : Nat → Int) :
    ∃ rest : Answer (Nat × SecretBody),
      (readRequest kvVersion n).handle sha256 ctx clock =
          (enforce sha256 ctx (ascii "secret/" ++ n) Policy.capRead (clock 0)).andThen
            (fun _ => rest) ∧
        KV.Confined (pathKeys ctx.ns n ∪
          {KVv2.mountConfigKey, Token.tokenKey sha256 ctx.token}) rest := by
  have hkey (d : DataKey) : d.key ctx.ns (clean n) ∈ pathKeys ctx.ns n ∪
      {KVv2.mountConfigKey, Token.tokenKey sha256 ctx.token} := .inl ⟨d, by rw [hclean]⟩
  have hcov : KVv2.Covers (pathKeys ctx.ns n ∪
      {KVv2.mountConfigKey, Token.tokenKey sha256 ctx.token}) ctx.ns n :=
    ⟨hkey .metadata, fun v => hkey (.data v), .inr (.inl rfl)⟩
  have hpath : (readRequest kvVersion n).path = n := by
    unfold readRequest
    split_ifs <;> rfl
  have hcap : (readRequest kvVersion n).cap = Policy.capRead := by
    unfold readRequest
    split_ifs <;> rfl
  obtain ⟨rest, heq, hconf⟩ := handle_eq_enforce clock (readRequest kvVersion n) hpath
    (hkey .secret) hcov (.inr (.inr rfl))
  rw [hclean, hcap] at heq
  exact ⟨rest, heq, hconf⟩

/-- An accepted path reaches the read handler unless the engine is KV v2 and the path begins
    with "metadata". -/
theorem served_iff {p n : Bytes} (h : normalizePath p = .ok n) (kvVersion : Bytes) :
    served kvVersion n = some (.handler (readHandler kvVersion) n) ↔
      (kvVersion = ascii "2" → (n.splitOn slash).head? ≠ some (ascii "metadata")) := by
  obtain ⟨-, -, hnames⟩ := normalizePath_ok h
  rw [served, (url_of_normalized h kvVersion).1, Option.map_some, Option.some_inj, readHandler]
  by_cases hkv : kvVersion = ascii "2"
  · rw [if_pos hkv, if_pos hkv, dispatch_v2 hnames]
    exact ⟨fun hne _ => hne, fun hne => hne hkv⟩
  · rw [if_neg hkv, if_neg hkv, dispatch_v1 hnames]
    exact iff_of_true rfl fun heq => absurd heq hkv

theorem authorizeEntry_ok {ns : Bytes} {prefixes : List Bytes} {e e' : Bytes × Bytes}
    (h : authorizeEntry ns [] prefixes e = .ok e') :
    normalizePath e.2 = .ok e'.2 ∧ pathAllowed e'.2 prefixes = true := by
  unfold authorizeEntry at h
  split at h
  · exact nomatch h
  · rename_i n hn
    split_ifs at h with houtside
    cases h
    refine ⟨hn, ?_⟩
    by_contra hnot
    exact houtside ⟨rfl, Bool.eq_false_iff.mpr hnot⟩

theorem exists_of_mem_mapM {ε α β : Type} {f : α → Except ε β} {l : List α} {out : List β}
    (h : l.mapM f = .ok out) {b : β} (hb : b ∈ out) : ∃ a, f a = .ok b := by
  induction l generalizing out with
  | nil =>
    cases h
    exact absurd hb not_mem_nil
  | cons a l ih =>
    rw [mapM_cons] at h
    cases hfa : f a with
    | error e =>
      rw [hfa] at h
      exact nomatch h
    | ok b' =>
      cases hl : l.mapM f with
      | error e =>
        simp only [hfa, hl, bind, Except.bind] at h
        exact nomatch h
      | ok out' =>
        simp only [hfa, hl, bind, Except.bind, pure, Except.pure] at h
        cases h
        rcases mem_cons.mp hb with rfl | hb
        · exact ⟨a, hfa⟩
        · exact ih hl hb

/-- Where a TuckSecret entry is accepted, with enforcement on and without a Tuck namespace, its
    request is a read of the accepted path under an allowed prefix, unless the engine is KV v2
    and the path begins with "metadata". -/
theorem reads_confined_iff (ns kvVersion tuckNS : Bytes) (a : Annotations)
    (entries out : List (Bytes × Bytes)) (habsent : a.tuckNamespace = [])
    (h : authorizePaths true ns (some a) entries = .ok (out, tuckNS)) :
    ∃ prefixes, allowedPrefixes ns a = .ok prefixes ∧
      ∀ e ∈ out, Confined kvVersion e.2 prefixes ↔
        (kvVersion = ascii "2" → (e.2.splitOn slash).head? ≠ some (ascii "metadata")) := by
  have hns : tuckNamespaceOf a = .ok [] := by
    rw [tuckNamespaceOf, habsent]
    rfl
  have hout : ∃ prefixes, allowedPrefixes ns a = .ok prefixes ∧
      entries.mapM (authorizeEntry ns [] prefixes) = .ok out := by
    simp only [authorizePaths, Bool.true_eq_false, if_false, hns] at h
    cases hprefixes : allowedPrefixes ns a with
    | error e =>
      rw [hprefixes] at h
      exact nomatch h
    | ok prefixes =>
      rw [hprefixes] at h
      cases hmap : entries.mapM (authorizeEntry ns [] prefixes) with
      | error e =>
        simp only [bind, Except.bind, hmap] at h
        exact nomatch h
      | ok out' =>
        simp only [bind, Except.bind, hmap] at h
        cases h
        exact ⟨prefixes, rfl, hmap⟩
  obtain ⟨prefixes, hprefixes, hmap⟩ := hout
  refine ⟨prefixes, hprefixes, fun e he => ?_⟩
  obtain ⟨e', he'⟩ := exists_of_mem_mapM hmap he
  obtain ⟨hnorm, hallowed⟩ := authorizeEntry_ok he'
  obtain ⟨-, -, hnames⟩ := normalizePath_ok hnorm
  have hclean : clean e.2 = e.2 := by
    refine clean_of_isName fun seg hseg => hnames seg ?_
    unfold segments at hseg
    split_ifs at hseg with hnil
    · exact absurd hseg not_mem_nil
    · exact hseg
  exact ⟨fun hc => (served_iff hnorm kvVersion).mp hc.dispatched, fun hcond =>
    ⟨(served_iff hnorm kvVersion).mpr hcond, (url_of_normalized hnorm kvVersion).2,
      read_touches hclean kvVersion, pathAllowed_iff.mp hallowed⟩⟩

/-- A namespace, an entry of it and the engine for which the request stays where it belongs. -/
theorem confined_team_a :
    ∃ prefixes, allowedPrefixes (ascii "team-a") ⟨[], []⟩ = .ok prefixes ∧
      Confined (ascii "2") (ascii "team-a/db") prefixes := by
  obtain ⟨prefixes, hprefixes, hiff⟩ := reads_confined_iff (ascii "team-a") (ascii "2") [] ⟨[], []⟩
    [(ascii "password", ascii "/team-a/db")] [(ascii "password", ascii "team-a/db")] rfl
    (by decide +kernel)
  exact ⟨prefixes, hprefixes, (hiff _ (mem_singleton_self _)).mpr fun _ => by decide +kernel⟩

/-- In the namespace "metadata" an accepted entry reads the metadata of another team's secret. -/
theorem metadata_not_confined :
    authorizePaths true (ascii "metadata") (some ⟨[], []⟩)
        [(ascii "password", ascii "metadata/team-b/db")] =
      .ok ([(ascii "password", ascii "metadata/team-b/db")], []) ∧
    served (ascii "2") (ascii "metadata/team-b/db") =
      some (.handler .v2GetMeta (ascii "team-b/db")) ∧
    ¬ Confined (ascii "2") (ascii "metadata/team-b/db") [ascii "metadata"] := by
  have hserved : served (ascii "2") (ascii "metadata/team-b/db") =
      some (.handler .v2GetMeta (ascii "team-b/db")) := by decide +kernel
  refine ⟨by decide +kernel, hserved, fun hc => ?_⟩
  have hread := hc.dispatched
  rw [hserved] at hread
  exact absurd hread (by decide +kernel)

end Tuck.Operator
