/-
  The routes of the KV engines, as `http.ServeMux` finds them.

  Every pattern here is a list of literal segments and a wildcard for the rest, so of two
  patterns that match a request the one with more segments is the more specific, and of two
  with the same segments the one with a method. The patterns of the other resources have other
  literal segments where these have "secret", and match none of the paths below.

  Paths are the decoded ones.
-/
import Tuck.Api.Secrets

namespace Tuck.Api

open Tuck.Base List

/-- The handlers that the routes name. -/
inductive Handler where
  | ui
  | root
  | getSecret
  | putSecret
  | deleteSecret
  | listSecrets
  | v2WriteSecret
  | v2ReadSecret
  | v2DeleteSecret
  | v2ListSecrets
  | v2Undelete
  | v2Destroy
  | v2GetMeta
  | v2UpdateMeta
  | v2PatchMeta
  | v2DeleteMeta
  | v2ListMeta
  deriving DecidableEq

/-- The pattern "METHOD /seg/…/seg/{path...}"; without a method it stands for every one. -/
structure Route where
  method : Option Bytes
  segs : List Bytes
  handler : Handler

def route (method : String) (segs : List String) (handler : Handler) : Route :=
  ⟨some (ascii method), segs.map ascii, handler⟩

def routes : List Route :=
  [⟨none, [ascii "ui"], .ui⟩,
   ⟨none, [], .root⟩,
   route "GET" ["v1", "secret"] .getSecret,
   route "PUT" ["v1", "secret"] .putSecret,
   route "DELETE" ["v1", "secret"] .deleteSecret,
   route "LIST" ["v1", "secret"] .listSecrets,
   route "PUT" ["v2", "secret"] .v2WriteSecret,
   route "GET" ["v2", "secret"] .v2ReadSecret,
   route "DELETE" ["v2", "secret"] .v2DeleteSecret,
   route "LIST" ["v2", "secret"] .v2ListSecrets,
   route "POST" ["v2", "secret", "undelete"] .v2Undelete,
   route "POST" ["v2", "secret", "destroy"] .v2Destroy,
   route "GET" ["v2", "secret", "metadata"] .v2GetMeta,
   route "PUT" ["v2", "secret", "metadata"] .v2UpdateMeta,
   route "PATCH" ["v2", "secret", "metadata"] .v2PatchMeta,
   route "DELETE" ["v2", "secret", "metadata"] .v2DeleteMeta,
   route "LIST" ["v2", "secret", "metadata"] .v2ListMeta]

namespace Route

/-- The wildcard needs a '/' before it, and may be empty. -/
def accepts (method : Bytes) (segs : List Bytes) (r : Route) : Bool :=
  r.method.all (· = method) && r.segs.isPrefixOf segs && r.segs.length < segs.length

def rank (r : Route) : Nat := 2 * r.segs.length + if r.method.isSome then 1 else 0

end Route

/-- The most specific pattern that matches. -/
def select (method : Bytes) (segs : List Bytes) : Option Route :=
  (routes.filter (Route.accepts method segs)).argmax Route.rank

/-- What the mux does with a request. -/
inductive Dispatch where
  | handler (h : Handler) (path : Bytes)
  | redirect (path : Bytes)
  | notFound
  deriving DecidableEq

/-- `cleanPath`: a '/' at the end is kept. -/
def muxClean (path : Bytes) : Bytes :=
  if clean path = [] then [slash]
  else slash :: (if endsInSlash path then clean path ++ [slash] else clean path)

/-- The segments of a path that begins with '/'. -/
def pathSegs (path : Bytes) : List Bytes := path.tail.splitOn slash

/-- The wildcard matches nothing. -/
def exactMatch (segs : List Bytes) (r : Option Route) : Bool :=
  r.any fun r => r.segs.length + 1 = segs.length && segs.getLast? = some []

/-- `ServeMux.findHandler`. -/
def dispatch (method path : Bytes) : Dispatch :=
  let cleaned := muxClean path
  let found := select method (pathSegs cleaned)
  let slashed := pathSegs (cleaned ++ [slash])
  -- "/tree" is sent to "/tree/" where that is a pattern of its own
  if ¬ exactMatch (pathSegs cleaned) found ∧ ¬ endsInSlash cleaned ∧
      exactMatch slashed (select method slashed) then .redirect (cleaned ++ [slash])
  else if cleaned ≠ path then .redirect cleaned
  else
    match found with
    | some r => .handler r.handler (joinWith slash ((pathSegs path).drop r.segs.length))
    | none => .notFound

/-! ## Reads -/

section

variable (x : Bytes) (rest : List Bytes)

theorem accepted_v1 :
    routes.filter (Route.accepts (ascii "GET") (ascii "v1" :: ascii "secret" :: x :: rest)) =
      [⟨none, [], .root⟩, route "GET" ["v1", "secret"] .getSecret] := rfl

/-- A path below "metadata" has a route of its own. -/
theorem accepted_v2 :
    routes.filter (Route.accepts (ascii "GET") (ascii "v2" :: ascii "secret" :: x :: rest)) =
      [⟨none, [], .root⟩, route "GET" ["v2", "secret"] .v2ReadSecret] ++
        if x = ascii "metadata" ∧ rest ≠ [] then
          [route "GET" ["v2", "secret", "metadata"] .v2GetMeta] else [] := by
  have hmeta : Route.accepts (ascii "GET") (ascii "v2" :: ascii "secret" :: x :: rest)
      (route "GET" ["v2", "secret", "metadata"] .v2GetMeta) =
        decide (x = ascii "metadata" ∧ rest ≠ []) := by
    by_cases hx : x = ascii "metadata"
    · subst hx
      cases rest <;> rfl
    · have hne : (ascii "metadata" == x) = false := by
        rw [beq_eq_false_iff_ne]
        exact Ne.symm hx
      simp [Route.accepts, route, List.isPrefixOf, hne, hx]
  have hroutes : routes = routes.take 12 ++
      (route "GET" ["v2", "secret", "metadata"] .v2GetMeta :: routes.drop 13) := rfl
  rw [hroutes, filter_append, filter_cons, hmeta]
  by_cases h : x = ascii "metadata" ∧ rest ≠ []
  · rw [if_pos (decide_eq_true h), if_pos h]
    rfl
  · rw [if_neg (by rw [decide_eq_true_iff]; exact h), if_neg h]
    rfl

theorem select_v1 :
    select (ascii "GET") (ascii "v1" :: ascii "secret" :: x :: rest) =
      some (route "GET" ["v1", "secret"] .getSecret) := by
  rw [select, accepted_v1]
  rfl

theorem select_v2 :
    select (ascii "GET") (ascii "v2" :: ascii "secret" :: x :: rest) =
      if x = ascii "metadata" ∧ rest ≠ [] then
        some (route "GET" ["v2", "secret", "metadata"] .v2GetMeta)
      else some (route "GET" ["v2", "secret"] .v2ReadSecret) := by
  rw [select, accepted_v2]
  split_ifs
  · rfl
  · rfl

end

/-- The path of these segments. -/
def pathOf (segs : List Bytes) : Bytes := slash :: joinWith slash segs

section

variable {segs : List Bytes} (hne : segs ≠ []) (h : ∀ seg ∈ segs, IsName seg)

include hne h

theorem splitOn_names : (joinWith slash segs).splitOn slash = segs :=
  splitOn_joinWith hne fun seg hseg => (h seg hseg).2.2.2

theorem joinWith_ne_nil : joinWith slash segs ≠ [] := by
  rw [Ne, joinWith_eq_nil_iff fun seg hseg => (h seg hseg).1]
  exact hne

theorem clean_pathOf : clean (pathOf segs) = joinWith slash segs := by
  have hsplit : (pathOf segs).splitOn slash = [] :: segs := by
    rw [pathOf, List.splitOn, splitOnP_cons_eq_if_modifyHead, if_pos (by simp)]
    exact congrArg _ (splitOn_names hne h)
  rw [clean, cleanSegments, hsplit, foldl_cons, foldl_cleanStep_of_isName h]
  simp [cleanStep]

theorem endsInSlash_pathOf : endsInSlash (pathOf segs) = false := by
  obtain ⟨init, last, rfl⟩ := (eq_nil_or_concat' segs).resolve_left hne
  obtain ⟨hlast, -, -, hslash⟩ := h last (mem_append_right _ (mem_singleton_self last))
  obtain ⟨pre, hpre⟩ : ∃ pre, pathOf (init ++ [last]) = pre ++ last := by
    cases init with
    | nil => exact ⟨[slash], rfl⟩
    | cons x xs =>
      refine ⟨slash :: (joinWith slash (x :: xs) ++ [slash]), ?_⟩
      rw [pathOf, joinWith_append (cons_ne_nil x xs) (cons_ne_nil last [])]
      simp only [joinWith, cons_append, append_assoc, nil_append]
  rw [endsInSlash, hpre, List.getLast?_append_of_ne_nil _ hlast, decide_eq_false_iff_not]
  exact fun hend => hslash (mem_of_getLast? hend)

theorem muxClean_pathOf : muxClean (pathOf segs) = pathOf segs := by
  rw [muxClean, clean_pathOf hne h, if_neg (joinWith_ne_nil hne h), endsInSlash_pathOf hne h]
  rfl

theorem pathSegs_pathOf : pathSegs (pathOf segs) = segs := splitOn_names hne h

theorem pathSegs_slashed : pathSegs (pathOf segs ++ [slash]) = segs ++ [[]] := by
  have hjoin : joinWith slash segs ++ [slash] = joinWith slash (segs ++ [[]]) := by
    rw [joinWith_append hne (cons_ne_nil [] [])]
    rfl
  show (joinWith slash segs ++ [slash]).splitOn slash = segs ++ [[]]
  rw [hjoin]
  refine splitOn_joinWith (append_ne_nil_of_left_ne_nil hne _) fun seg hseg => ?_
  rcases mem_append.mp hseg with hseg | hseg
  · exact (h seg hseg).2.2.2
  · rw [mem_singleton.mp hseg]
    exact not_mem_nil

/-- A path of names is not cleaned; it is sent on only where a pattern ends with it. -/
theorem dispatch_pathOf (method : Bytes) :
    dispatch method (pathOf segs) =
      if exactMatch (segs ++ [[]]) (select method (segs ++ [[]])) = true then
        .redirect (pathOf segs ++ [slash])
      else
        match select method segs with
        | some r => .handler r.handler (joinWith slash (segs.drop r.segs.length))
        | none => .notFound := by
  have hinexact : ∀ r, exactMatch segs r = false := by
    intro r
    have hlast : segs.getLast? ≠ some [] := fun hlast =>
      (h [] (mem_of_getLast? hlast)).1 rfl
    cases r with
    | none => rfl
    | some r => simp only [exactMatch, Option.any_some, hlast, decide_false, Bool.and_false]
  unfold dispatch
  simp only [muxClean_pathOf hne h, pathSegs_pathOf hne h, pathSegs_slashed hne h, hinexact,
    endsInSlash_pathOf hne h, Bool.false_eq_true, not_false_eq_true, true_and, ne_eq,
    not_true_eq_false, if_false]

end

theorem exists_splitOn (n : Bytes) :
    ∃ x rest, n.splitOn slash = x :: rest ∧ joinWith slash (x :: rest) = n := by
  cases hsplit : n.splitOn slash with
  | nil => exact absurd hsplit (splitOnP_ne_nil _ _)
  | cons x rest => exact ⟨x, rest, rfl, hsplit ▸ joinWith_splitOn n⟩

/-- The path of a read of the secret `n`. -/
theorem pathOf_read (v n : Bytes) :
    slash :: (v ++ ascii "/secret/" ++ n) = pathOf (v :: ascii "secret" :: n.splitOn slash) := by
  have hsecret : ascii "/secret/" = slash :: (ascii "secret" ++ [slash]) := by decide
  obtain ⟨x, rest, hsplit, hjoin⟩ := exists_splitOn n
  rw [hsplit, pathOf, joinWith_cons, joinWith_cons, hjoin, hsecret]
  simp only [cons_append, append_assoc, nil_append]

theorem exactMatch_read (v x : Bytes) (rest : List Bytes) (s : String) (hd : Handler) :
    exactMatch (v :: ascii "secret" :: x :: (rest ++ [[]]))
      (some (route "GET" [s, "secret"] hd)) = false := by
  simp [exactMatch, route]

section

variable {n : Bytes} (h : ∀ seg ∈ n.splitOn slash, IsName seg)

include h

theorem isName_read {v : Bytes} (hv : IsName v) :
    ∀ seg ∈ v :: ascii "secret" :: n.splitOn slash, IsName seg := by
  intro seg hseg
  rcases mem_cons.mp hseg with rfl | hseg
  · exact hv
  rcases mem_cons.mp hseg with rfl | hseg
  · decide
  · exact h seg hseg

/-- A read of a KV v1 secret reaches its handler. -/
theorem dispatch_v1 :
    dispatch (ascii "GET") (ascii "/v1/secret/" ++ n) = .handler .getSecret n := by
  have hpath : ascii "/v1/secret/" ++ n =
      pathOf (ascii "v1" :: ascii "secret" :: n.splitOn slash) := pathOf_read (ascii "v1") n
  rw [hpath, dispatch_pathOf (cons_ne_nil _ _) (isName_read h (by decide))]
  obtain ⟨x, rest, hsplit, hjoin⟩ := exists_splitOn n
  simp only [hsplit, cons_append]
  rw [select_v1, select_v1, exactMatch_read]
  exact congrArg (Dispatch.handler .getSecret) hjoin

/-- A read of a KV v2 secret reaches its handler unless its first segment is "metadata". -/
theorem dispatch_v2 :
    dispatch (ascii "GET") (ascii "/v2/secret/" ++ n) = .handler .v2ReadSecret n ↔
      (n.splitOn slash).head? ≠ some (ascii "metadata") := by
  have hpath : ascii "/v2/secret/" ++ n =
      pathOf (ascii "v2" :: ascii "secret" :: n.splitOn slash) := pathOf_read (ascii "v2") n
  rw [hpath, dispatch_pathOf (cons_ne_nil _ _) (isName_read h (by decide))]
  obtain ⟨x, rest, hsplit, hjoin⟩ := exists_splitOn n
  have hhead : some x ≠ some (ascii "metadata") ↔ x ≠ ascii "metadata" :=
    not_congr Option.some_inj
  simp only [hsplit, cons_append]
  rw [List.head?_cons, hhead]
  by_cases hx : x = ascii "metadata"
  · -- the metadata route takes the request, or the mux sends it there
    refine iff_of_false (fun heq => ?_) (not_not.mpr hx)
    split_ifs at heq with hexact
    have hrest : rest ≠ [] := by
      rintro rfl
      subst hx
      exact hexact (by decide +kernel)
    rw [select_v2, if_pos ⟨hx, hrest⟩] at heq
    exact nomatch heq
  · have hmeta : ∀ rest', ¬ (x = ascii "metadata" ∧ rest' ≠ ([] : List Bytes)) :=
      fun _ h => hx h.1
    refine iff_of_true ?_ hx
    rw [select_v2, select_v2, if_neg (hmeta _), if_neg (hmeta _), exactMatch_read]
    exact congrArg (Dispatch.handler .v2ReadSecret) hjoin

end

end Tuck.Api
