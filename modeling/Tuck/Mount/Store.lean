/-
  The mount table and the mount configuration (`Store`, `ConfigStore`), over a store whose calls
  succeed.

  Both are meant to be maps from normalised paths. The storage key of a path is the path with its
  slashes replaced by underscores, so "a/b" and "a_b" share a key, and `List` of the configuration
  turns every underscore of a key into a slash. A run behaves as the two maps as long as no step
  uses a path whose key another path in use has, and what is written survives the way to the key or
  through JSON and back (`maps_of_fits`); otherwise not (`paths_collide`).
-/
import Tuck.Base.Machine
import Tuck.Base.Mirror
import Tuck.Base.Text

namespace Tuck.Mount

open Tuck.Base Prog List Function

/-! ## Paths and keys -/

def slash : UInt8 := 0x2F

def underscore : UInt8 := 0x5F

/-- `strings.Trim(p, "/")`. -/
def trim (p : Bytes) : Bytes := trimRight slash (trimLeft slash p)

def normalizePath (p : Bytes) : Bytes :=
  let p := trim p
  if p = [] then [slash] else p ++ [slash]

def pathKey (p : Bytes) : Bytes := (trim p).map fun b => if b = slash then underscore else b

def storePrefix : Bytes := ascii "sys/mounts/"

def configPrefix : Bytes := ascii "sys/mount-config/"

def configKey (mountPath : Bytes) : Bytes := configPrefix ++ pathKey (normalizePath mountPath)

/-- `mountPathFromKey`: rune by rune, where a bad byte is read as U+FFFD. -/
def mountPathFromKey (k : Bytes) : Bytes :=
  let base := k.drop configPrefix.length
  let p := (chunks base).flatMap fun c => if c = .rune [underscore] then [slash] else c.sanitize
  if p ≠ [] ∧ p.getLast? ≠ some slash then p ++ [slash] else p

/-! ## Records -/

structure Entry where
  path : Bytes
  type : Bytes
  accessor : Bytes
  description : Bytes
  builtin : Bool
  createdAt : Int
  deriving DecidableEq

/-- `Config`; no time is the zero time. -/
structure Config where
  defaultLeaseTTL : Int := 0
  maxLeaseTTL : Int := 0
  forceNoCache : Bool := false
  allowedResponseHeaders : List Bytes := []
  passthroughRequestHeaders : List Bytes := []
  description : Bytes := []
  maxVersions : Int := 0
  casRequired : Bool := false
  updatedAt : Option Int := none
  deriving DecidableEq

/-- The entry as it is read back from its JSON. -/
def Entry.stored (e : Entry) : Entry :=
  { e with
    path := sanitize e.path, type := sanitize e.type, accessor := sanitize e.accessor
    description := sanitize e.description }

/-- The configuration as it is read back from its JSON. -/
def Config.stored (c : Config) : Config :=
  { c with
    allowedResponseHeaders := c.allowedResponseHeaders.map sanitize
    passthroughRequestHeaders := c.passthroughRequestHeaders.map sanitize
    description := sanitize c.description }

/-- What is stored. -/
inductive Value where
  | entry (e : Entry)
  | config (c : Config)

def Value.entry? : Value → Option Entry
  | .entry e => some e
  | .config _ => none

def Value.config? : Value → Option Config
  | .entry _ => none
  | .config c => some c

inductive Err where
  | alreadyExists | notFound | builtin | storage | decode
  deriving DecidableEq

abbrev Code (α : Type) := KV.Code Value (Except Err α)

/-! ## The mount table -/

/-- `newAccessor`; an error of the random source is ignored. -/
def newAccessor : KV.Code Value Bytes :=
  (KV.rand Err.storage 8).bind fun
    | .ok b => .ret (hexEncode b)
    | .error _ => .ret (hexEncode (List.replicate 8 0))

def put (e : Entry) : Code Unit := KV.put .storage (storePrefix ++ pathKey e.path) (.entry e.stored)

def get (path : Bytes) : Code Entry :=
  (KV.get Err.storage (storePrefix ++ pathKey (normalizePath path))).bind fun
    | .ok (some v) =>
        match v.entry? with
        | some e => .ret (.ok e)
        | none => .ret (.error .decode)
    | _ => .ret (.error .notFound)

def register (path engineType description : Bytes) (now : Int) : Code Entry :=
  (get (normalizePath path)).bind fun
    | .ok _ => .ret (.error .alreadyExists)
    | .error _ => newAccessor.bind fun accessor =>
        let e : Entry := ⟨normalizePath path, engineType, accessor, description, false, now⟩
        (put e).andThen fun _ => .ret (.ok e)

def registerBuiltin (path engineType description : Bytes) (now : Int) : Code Unit :=
  (get (normalizePath path)).bind fun
    | .ok _ => .ret (.ok ())
    | .error _ => newAccessor.bind fun accessor =>
        put ⟨normalizePath path, engineType, accessor, description, true, now⟩

def delete (path : Bytes) : Code Unit :=
  (get (normalizePath path)).bind fun
    | .error _ => .ret (.error .notFound)
    | .ok e =>
        if e.builtin then .ret (.error .builtin)
        else KV.delete .storage (storePrefix ++ pathKey (normalizePath path))

def list : Code (List Entry) :=
  (KV.list .storage storePrefix).andThen fun keys =>
    (collect (fun k => (KV.get Err.storage k).bind fun
      | .ok (some v) => .ret v.entry?
      | _ => .ret none) keys).bind fun es => .ret (.ok es)

/-! ## The configuration -/

/-- `ConfigStore.Get`. -/
def getConfig (mountPath : Bytes) : Code Config :=
  (KV.get Err.storage (configKey mountPath)).bind fun
    | .ok (some v) =>
        match v.config? with
        | some c => .ret (.ok c)
        | none => .ret (.error .decode)
    | _ => .ret (.ok {})

/-- `ConfigStore.Put`. -/
def putConfig (mountPath : Bytes) (c : Config) (now : Int) : Code Unit :=
  KV.put .storage (configKey mountPath) (.config { c with updatedAt := some now }.stored)

/-- `ConfigStore.Delete`. -/
def deleteConfig (mountPath : Bytes) : Code Unit := KV.delete .storage (configKey mountPath)

/-- A Go map, filled in the order of the pairs. -/
def toMap (pairs : List (Bytes × Config)) : Bytes → Option Config :=
  pairs.foldl (fun m pc => Function.update m pc.1 (some pc.2)) fun _ => none

/-- `ConfigStore.List`. -/
def listConfig : Code (Bytes → Option Config) :=
  (KV.list .storage configPrefix).andThen fun keys =>
    (collect (fun k => (KV.get Err.storage k).bind fun
      | .ok (some v) => .ret (v.config?.map fun c => (mountPathFromKey k, c))
      | _ => .ret none) keys).bind fun pairs => .ret (.ok (toMap pairs))

/-! ## Runs -/

inductive Op where
  | register (path engineType description : Bytes) (now : Int)
  | registerBuiltin (path engineType description : Bytes) (now : Int)
  | get (path : Bytes)
  | delete (path : Bytes)
  | list
  | getConfig (mountPath : Bytes)
  | putConfig (mountPath : Bytes) (c : Config) (now : Int)
  | deleteConfig (mountPath : Bytes)
  | listConfig

inductive Result where
  | entry (r : Except Err Entry)
  | done (r : Except Err Unit)
  | entries (r : Except Err (List Entry))
  | config (r : Except Err Config)
  | configs (r : Except Err (Bytes → Option Config))

abbrev World := KV.World Value

/-- One operation. -/
def exec (L : KV.Listing) (w : World) : Op → Result × World
  | .register p ty d now => (run (KV.handle L) (register p ty d now) w).map .entry id
  | .registerBuiltin p ty d now => (run (KV.handle L) (registerBuiltin p ty d now) w).map .done id
  | .get p => (run (KV.handle L) (get p) w).map .entry id
  | .delete p => (run (KV.handle L) (delete p) w).map .done id
  | .list => (run (KV.handle L) list w).map .entries id
  | .getConfig p => (run (KV.handle L) (getConfig p) w).map .config id
  | .putConfig p c now => (run (KV.handle L) (putConfig p c now) w).map .done id
  | .deleteConfig p => (run (KV.handle L) (deleteConfig p) w).map .done id
  | .listConfig => (run (KV.handle L) listConfig w).map .configs id

/-! ## The maps -/

/-- What the two stores stand for: maps from normalised paths, and the random source. -/
structure Tables where
  mounts : Bytes → Option Entry
  configs : Bytes → Option Config
  rng : Stream' UInt8

/-- The entry that a registration adds. -/
def Tables.newEntry (t : Tables) (path engineType description : Bytes) (builtin : Bool)
    (now : Int) :
    Entry :=
  ⟨normalizePath path, engineType, hexEncode (t.rng.take 8), description, builtin, now⟩

/-- The maps with an entry that was not there. -/
def Tables.add (t : Tables) (path engineType description : Bytes) (builtin : Bool) (now : Int) :
    Tables :=
  if (t.mounts (normalizePath path)).isSome then t
  else
    { t with
      mounts := Function.update t.mounts (normalizePath path)
        (some (t.newEntry path engineType description builtin now))
      rng := t.rng.drop 8 }

def Tables.step (t : Tables) : Op → Tables
  | .register p ty d now => t.add p ty d false now
  | .registerBuiltin p ty d now => t.add p ty d true now
  | .delete p =>
      match t.mounts (normalizePath p) with
      | some e =>
          if e.builtin then t
          else { t with mounts := Function.update t.mounts (normalizePath p) none }
      | none => t
  | .putConfig p c now =>
      { t with
        configs :=
          Function.update t.configs (normalizePath p) (some { c with updatedAt := some now }) }
  | .deleteConfig p => { t with configs := Function.update t.configs (normalizePath p) none }
  | .get _ | .list | .getConfig _ | .listConfig => t

/-- What the maps answer. A listing has each entry once, in any order. -/
def Tables.Answers (t : Tables) : Op → Result → Prop
  | .register p ty d now, r =>
      r = .entry (if (t.mounts (normalizePath p)).isSome then .error .alreadyExists
        else .ok (t.newEntry p ty d false now))
  | .registerBuiltin _ _ _ _, r => r = .done (.ok ())
  | .get p, r =>
      r = .entry (match t.mounts (normalizePath p) with
        | some e => .ok e
        | none => .error .notFound)
  | .delete p, r =>
      r = .done (match t.mounts (normalizePath p) with
        | some e => if e.builtin then .error .builtin else .ok ()
        | none => .error .notFound)
  | .list, r => ∃ qs : List Bytes, qs.Nodup ∧ (∀ q, q ∈ qs ↔ (t.mounts q).isSome = true) ∧
      r = .entries (.ok (qs.filterMap t.mounts))
  | .getConfig p, r => r = .config (.ok ((t.configs (normalizePath p)).getD {}))
  | .putConfig _ _ _, r => r = .done (.ok ())
  | .deleteConfig _, r => r = .done (.ok ())
  | .listConfig, r => r = .configs (.ok t.configs)

/-- The operation does not touch another path than its own, and what it writes can be read back:
    the strings of an entry and of a configuration are valid UTF-8, and the path of a configuration
    is found again from its key. -/
def Tables.Fits (t : Tables) : Op → Prop
  | .register p ty d _ | .registerBuiltin p ty d _ =>
      Distinct pathKey t.mounts (normalizePath p) ∧ Utf8Valid (normalizePath p) ∧ Utf8Valid ty ∧
        Utf8Valid d
  | .get p | .delete p => Distinct pathKey t.mounts (normalizePath p)
  | .putConfig p c _ =>
      Distinct pathKey t.configs (normalizePath p) ∧
        mountPathFromKey (configKey p) = normalizePath p ∧ c.stored = c
  | .getConfig p | .deleteConfig p => Distinct pathKey t.configs (normalizePath p)
  | .list | .listConfig => True

/-! ## Paths -/

theorem trimRight_idem (b : UInt8) (s : Bytes) : trimRight b (trimRight b s) = trimRight b s := by
  unfold trimRight
  rw [reverse_reverse, dropWhile_idempotent]

theorem trimRight_append_self (b : UInt8) (s : Bytes) : trimRight b (s ++ [b]) = trimRight b s := by
  unfold trimRight
  rw [reverse_append, reverse_singleton, singleton_append,
    dropWhile_cons, if_pos (beq_self_eq_true b)]

theorem trimRight_isPrefix (b : UInt8) (s : Bytes) : trimRight b s <+: s := by
  rw [← reverse_suffix]
  unfold trimRight
  rw [reverse_reverse]
  exact dropWhile_suffix _

/-- A trimmed path is trimmed, also with a slash behind it. -/
theorem trim_append_slash (p : Bytes) (hp : trim p ≠ []) : trim (trim p ++ [slash]) = trim p := by
  have hhead : (trim p ++ [slash]).head? ≠ some slash := by
    obtain ⟨rest, hrest⟩ : trim p <+: trimLeft slash p := trimRight_isPrefix slash _
    have hleft := head_trimLeft slash p
    rw [← hrest, List.head?_append_of_ne_nil _ hp] at hleft
    rwa [List.head?_append_of_ne_nil _ hp]
  rw [trim, trimLeft_of_head hhead, trimRight_append_self]
  exact trimRight_idem slash _

theorem trim_normalizePath (p : Bytes) : trim (normalizePath p) = trim p := by
  unfold normalizePath
  dsimp only
  split_ifs with hp
  · rw [hp]
    rfl
  · exact trim_append_slash p hp

theorem normalizePath_idem (p : Bytes) : normalizePath (normalizePath p) = normalizePath p := by
  conv_lhs => rw [normalizePath, trim_normalizePath]
  rfl

/-! ## What is read back -/

theorem utf8Valid_hexEncode (s : Bytes) : Utf8Valid (hexEncode s) := by
  have digit : ∀ n < 16, (hexDigit n).toNat < 0x80 := by decide
  refine utf8Valid_ascii fun b hb => ?_
  obtain ⟨c, -, hc⟩ := mem_flatMap.1 hb
  have := c.toNat_lt
  simp only [mem_cons, not_mem_nil, or_false] at hc
  obtain rfl | rfl := hc
  · exact digit _ (by omega)
  · exact digit _ (by omega)

variable {p : Bytes}

theorem stored_newEntry {t : Tables} {ty d : Bytes} (hp : Utf8Valid (normalizePath p))
    (hty : Utf8Valid ty) (hd : Utf8Valid d) (builtin : Bool) (now : Int) :
    (t.newEntry p ty d builtin now).stored = t.newEntry p ty d builtin now := by
  unfold Tables.newEntry Entry.stored
  simp only [sanitize_of_valid hp, sanitize_of_valid hty, sanitize_of_valid hd,
    sanitize_of_valid (utf8Valid_hexEncode _)]

/-! ## The simulation -/

/-- The stores hold what the maps say, and the paths of the configurations can be found again. -/
structure Sim (w : World) (t : Tables) : Prop where
  mounts : Mirrors .entry storePrefix pathKey w.store t.mounts
  configs : Mirrors .config configPrefix pathKey w.store t.configs
  found : ∀ q, (t.configs q).isSome = true → mountPathFromKey (configPrefix ++ pathKey q) = q
  rng : w.rng = t.rng

section

variable {L : KV.Listing} {w : World} {t : Tables}

/-- The operation answers as the maps do, and the stores follow them. -/
def Tables.Follows (t : Tables) (L : KV.Listing) (w : World) (op : Op) : Prop :=
  t.Answers op (exec L w op).1 ∧ Sim (exec L w op).2 (t.step op)

theorem overlaps_prefixes : overlaps storePrefix configPrefix = false := by decide

/-- A change of the mount table leaves the configurations. -/
theorem Sim.of_mounts (h : Sim w t) {w' : World} {m : Bytes → Option Entry} {rng : Stream' UInt8}
    (hm : Mirrors .entry storePrefix pathKey w'.store m)
    (hs : ∀ k, w'.store.lookup (configPrefix ++ k) = w.store.lookup (configPrefix ++ k))
    (hrng : w'.rng = rng) : Sim w' { t with mounts := m, rng := rng } :=
  ⟨hm, h.configs.congr hs, h.found, hrng⟩

/-- A change of the configurations leaves the mount table. -/
theorem Sim.of_configs (h : Sim w t) {s : KV.Store Value} {m : Bytes → Option Config}
    (hm : Mirrors .config configPrefix pathKey s m)
    (hs : ∀ k, s.lookup (storePrefix ++ k) = w.store.lookup (storePrefix ++ k))
    (hfound : ∀ q, (m q).isSome = true → mountPathFromKey (configPrefix ++ pathKey q) = q) :
    Sim ⟨s, w.rng⟩ { t with configs := m } :=
  ⟨h.mounts.congr hs, hm, hfound, h.rng⟩

variable {p : Bytes}

/-- `Get` reads the map. -/
theorem run_get (h : Sim w t) (hp : Distinct pathKey t.mounts (normalizePath p)) :
    run (KV.handle L) (get p) w =
      (match t.mounts (normalizePath p) with
        | some e => .ok e
        | none => .error .notFound, w) := by
  unfold get
  rw [run_bind, KV.run_get]
  dsimp only
  rw [h.mounts.lookup_eq hp]
  cases t.mounts (normalizePath p) <;> rfl

theorem get_normalizePath (p : Bytes) : get (normalizePath p) = get p := by
  unfold get
  rw [normalizePath_idem]

variable {ty d : Bytes}

/-- A new entry, in the store and in the map. -/
theorem Sim.add (h : Sim w t) (hp : Distinct pathKey t.mounts (normalizePath p))
    (hvalid : Utf8Valid (normalizePath p) ∧ Utf8Valid ty ∧ Utf8Valid d)
    (hnew : t.mounts (normalizePath p) = none) (builtin : Bool) (now : Int) :
    Sim ⟨w.store.insert (storePrefix ++ pathKey (normalizePath p))
        (.entry (t.newEntry p ty d builtin now).stored), w.rng.drop 8⟩
        (t.add p ty d builtin now) := by
  unfold Tables.add
  rw [hnew, stored_newEntry hvalid.1 hvalid.2.1 hvalid.2.2]
  refine h.of_mounts (h.mounts.insert hp _) (fun k => ?_) (by rw [h.rng])
  exact Finmap.lookup_insert_of_ne _ (append_ne_append overlaps_prefixes _ _).symm

theorem step_register (h : Sim w t) (now : Int)
    (hfits : t.Fits (.register p ty d now)) :
    t.Follows L w (.register p ty d now) := by
  obtain ⟨hp, hvalid⟩ := hfits
  unfold Tables.Follows exec Tables.Answers Tables.step
  dsimp only
  unfold register
  rw [run_bind, get_normalizePath, run_get h hp]
  cases hm : t.mounts (normalizePath p) with
  | some e =>
    refine ⟨rfl, ?_⟩
    unfold Tables.add
    rw [hm]
    exact h
  | none =>
    have hnew := h.add hp hvalid hm false now
    unfold Tables.newEntry at hnew ⊢
    rw [← h.rng] at hnew ⊢
    exact ⟨rfl, hnew⟩

theorem step_registerBuiltin (h : Sim w t) (now : Int)
    (hfits : t.Fits (.registerBuiltin p ty d now)) :
    t.Follows L w (.registerBuiltin p ty d now) := by
  obtain ⟨hp, hvalid⟩ := hfits
  unfold Tables.Follows exec Tables.Answers Tables.step
  dsimp only
  unfold registerBuiltin
  rw [run_bind, get_normalizePath, run_get h hp]
  cases hm : t.mounts (normalizePath p) with
  | some e =>
    refine ⟨rfl, ?_⟩
    unfold Tables.add
    rw [hm]
    exact h
  | none =>
    have hnew := h.add hp hvalid hm true now
    unfold Tables.newEntry at hnew
    rw [← h.rng] at hnew
    exact ⟨rfl, hnew⟩

theorem step_delete (h : Sim w t) (hp : t.Fits (.delete p)) :
    t.Follows L w (.delete p) := by
  unfold Tables.Follows exec Tables.Answers Tables.step
  dsimp only
  unfold delete
  rw [run_bind, get_normalizePath, run_get h hp]
  cases hm : t.mounts (normalizePath p) with
  | none => exact ⟨rfl, h⟩
  | some e =>
    dsimp only
    by_cases hb : e.builtin = true
    · rw [if_pos hb, if_pos hb, if_pos hb]
      exact ⟨rfl, h⟩
    · rw [if_neg hb, if_neg hb, if_neg hb]
      refine ⟨rfl, h.of_mounts (h.mounts.erase hp) (fun k => ?_) h.rng⟩
      exact Finmap.lookup_erase_ne (append_ne_append overlaps_prefixes _ _).symm

theorem run_list : run (KV.handle L) list w =
    (.ok ((L.order (KV.under w.store storePrefix)).filterMap fun k =>
      (w.store.lookup k).bind Value.entry?), w) := by
  unfold list
  rw [run_andThen, KV.run_list]
  dsimp only
  rw [run_bind, run_collect (g := fun k => (w.store.lookup k).bind Value.entry?)]
  · rfl
  · intro k
    rw [run_bind, KV.run_get]
    cases w.store.lookup k <;> rfl

theorem step_list (h : Sim w t) : t.Answers .list (exec L w .list).1 := by
  obtain ⟨qs, hnodup, hmem, hkeys⟩ := h.mounts.exists_listed L
  refine ⟨qs, hnodup, hmem, ?_⟩
  unfold exec
  rw [run_list, hkeys, filterMap_map]
  refine congrArg (fun es => Result.entries (.ok es)) (filterMap_congr fun q hq => ?_)
  obtain ⟨e, he⟩ := Option.isSome_iff_exists.1 ((hmem q).1 hq)
  rw [comp_apply, h.mounts.lookup he, he]
  rfl

/-! ### Configurations -/

theorem step_getConfig (h : Sim w t) (hp : t.Fits (.getConfig p)) :
    t.Follows L w (.getConfig p) := by
  have hlookup : w.store.lookup (configKey p) = _ := h.configs.lookup_eq hp
  unfold Tables.Follows exec Tables.Answers Tables.step
  dsimp only
  unfold getConfig
  rw [run_bind, KV.run_get]
  dsimp only
  rw [hlookup]
  cases t.configs (normalizePath p) with
  | none => exact ⟨rfl, h⟩
  | some c => exact ⟨rfl, h⟩

theorem stored_updatedAt {c : Config} (hc : c.stored = c) (now : Option Int) :
    { c with updatedAt := now }.stored = { c with updatedAt := now } :=
  congrArg (fun c : Config => { c with updatedAt := now }) hc

theorem step_putConfig (h : Sim w t) {c : Config} (now : Int)
    (hfits : t.Fits (.putConfig p c now)) :
    t.Follows L w (.putConfig p c now) := by
  obtain ⟨hp, hfound, hc⟩ := hfits
  refine ⟨rfl, ?_⟩
  change Sim ⟨w.store.insert (configKey p) (.config { c with updatedAt := some now }.stored),
    w.rng⟩ _
  rw [stored_updatedAt hc]
  refine h.of_configs (h.configs.insert hp _) (fun k => ?_) fun q hq => ?_
  · exact Finmap.lookup_insert_of_ne _ (append_ne_append overlaps_prefixes _ _)
  · by_cases hqp : q = normalizePath p
    · rw [hqp]
      exact hfound
    · rw [update_of_ne hqp] at hq
      exact h.found q hq

theorem step_deleteConfig (h : Sim w t) (hp : t.Fits (.deleteConfig p)) :
    t.Follows L w (.deleteConfig p) := by
  refine ⟨rfl, h.of_configs (h.configs.erase hp) (fun k => ?_) fun q hq => ?_⟩
  · exact Finmap.lookup_erase_ne (append_ne_append overlaps_prefixes _ _)
  · by_cases hqp : q = normalizePath p
    · rw [hqp, update_self] at hq
      cases hq
    · rw [update_of_ne hqp] at hq
      exact h.found q hq

theorem toMap_append (pairs : List (Bytes × Config)) (q : Bytes) (c : Config) :
    toMap (pairs ++ [(q, c)]) = Function.update (toMap pairs) q (some c) := foldl_append

/-- The pairs of a table, in any order, make the table. -/
theorem toMap_filterMap (m : Bytes → Option Config) (qs : List Bytes) (q : Bytes) :
    toMap (qs.filterMap fun q => (m q).map fun c => (q, c)) q = if q ∈ qs then m q else none := by
  induction qs using List.reverseRecOn with
  | nil => rfl
  | append_singleton qs q' ih =>
    rw [filterMap_append]
    cases hm : m q' with
    | none =>
      simp only [filterMap_cons, hm, Option.map_none, filterMap_nil, append_nil]
      rw [ih]
      by_cases hq : q = q'
      · subst hq
        simp [hm]
      · simp [hq]
    | some c =>
      simp only [filterMap_cons, hm, Option.map_some, filterMap_nil]
      rw [toMap_append]
      by_cases hq : q = q'
      · subst hq
        simp [hm]
      · rw [update_of_ne hq, ih]
        simp [hq]

theorem run_listConfig : run (KV.handle L) listConfig w =
    (.ok (toMap ((L.order (KV.under w.store configPrefix)).filterMap fun k =>
      ((w.store.lookup k).bind Value.config?).map fun c => (mountPathFromKey k, c))), w) := by
  unfold listConfig
  rw [run_andThen, KV.run_list]
  dsimp only
  rw [run_bind, run_collect (g := fun k =>
    ((w.store.lookup k).bind Value.config?).map fun c => (mountPathFromKey k, c))]
  · rfl
  · intro k
    rw [run_bind, KV.run_get]
    cases w.store.lookup k <;> rfl

theorem step_listConfig (h : Sim w t) : t.Answers .listConfig (exec L w .listConfig).1 := by
  obtain ⟨qs, -, hmem, hkeys⟩ := h.configs.exists_listed L
  have hpairs : ((L.order (KV.under w.store configPrefix)).filterMap fun k =>
      ((w.store.lookup k).bind Value.config?).map fun c => (mountPathFromKey k, c)) =
        qs.filterMap fun q => (t.configs q).map fun c => (q, c) := by
    rw [hkeys, filterMap_map]
    refine filterMap_congr fun q hq => ?_
    obtain ⟨c, hc⟩ := Option.isSome_iff_exists.1 ((hmem q).1 hq)
    rw [comp_apply, h.configs.lookup hc, hc, h.found q ((hmem q).1 hq)]
    rfl
  unfold exec Tables.Answers
  rw [run_listConfig, hpairs]
  refine congrArg (fun m => Result.configs (.ok m)) (funext fun q => ?_)
  rw [toMap_filterMap]
  split_ifs with hq
  · rfl
  · exact (Option.not_isSome_iff_eq_none.1 fun hsome => hq ((hmem q).2 hsome)).symm

/-! ## Runs -/

/-- One operation: its answer is that of the maps, and the stores follow them. -/
theorem step_answers (h : Sim w t) {op : Op} (hop : t.Fits op) :
    t.Follows L w op := by
  cases op with
  | register p ty d now => exact step_register h now hop
  | registerBuiltin p ty d now => exact step_registerBuiltin h now hop
  | get p =>
    have hget := run_get (L := L) h hop
    unfold Tables.Follows exec
    dsimp only
    rw [hget]
    exact ⟨rfl, h⟩
  | delete p => exact step_delete h hop
  | list =>
    refine ⟨step_list h, ?_⟩
    unfold exec
    rw [run_list]
    exact h
  | getConfig p => exact step_getConfig h hop
  | putConfig p c now => exact step_putConfig h now hop
  | deleteConfig p => exact step_deleteConfig h hop
  | listConfig =>
    refine ⟨step_listConfig h, ?_⟩
    unfold exec
    rw [run_listConfig]
    exact h

/-- The stores and the maps side by side. -/
def pairStep (L : KV.Listing) (s : World × Tables) (op : Op) : World × Tables :=
  ((exec L s.1 op).2, s.2.step op)

/-- From empty tables, every operation of a run answers as the maps do if every operation fits. -/
theorem maps_of_fits {ops : List Op} (hmounts : ∀ k, w.store.lookup (storePrefix ++ k) = none)
    (hconfigs : ∀ k, w.store.lookup (configPrefix ++ k) = none)
    (hfits : Meets (pairStep L) (fun s op => s.2.Fits op)
      (w, ⟨fun _ => none, fun _ => none, w.rng⟩) ops) :
    Meets (pairStep L) (fun s op => s.2.Answers op (exec L s.1 op).1)
      (w, ⟨fun _ => none, fun _ => none, w.rng⟩) ops :=
  hfits.transfer (P := fun s => Sim s.1 s.2) ⟨.empty hmounts, .empty hconfigs, nofun, rfl⟩
    fun _ _ hop h => step_answers h hop

end

/-! ### A mount at "a/b" -/

def emptyWorld : World := ⟨∅, Stream'.const 0⟩

/-- A mount, read back under another spelling of its path, and its configuration. -/
def plainRun : List Op :=
  [.register (ascii "a/b") (ascii "kv") [] 0, .get (ascii "/a/b/"), .putConfig (ascii "a/b") {} 1,
    .listConfig]

theorem maps_plainRun :
    Meets (pairStep KV.sorted) (fun s op => s.2.Answers op (exec KV.sorted s.1 op).1)
      (emptyWorld, ⟨fun _ => none, fun _ => none, emptyWorld.rng⟩) plainRun := by
  refine maps_of_fits (fun _ => rfl) (fun _ => rfl) ⟨⟨nofun, by decide, by decide, by decide⟩, ?_,
    ⟨nofun, by decide, by decide⟩, trivial, trivial⟩
  -- the only path in use is that of the mount
  intro q hq _
  by_contra hne
  change (Function.update (fun _ => none) (normalizePath (ascii "/a/b/"))
    (some _) q).isSome = true at hq
  rw [update_of_ne hne] at hq
  cases hq

/-- With a mount at "a/b" there is one at "a_b", and the configuration put at "a_b" is listed under
    "a/b". -/
theorem paths_collide :
    (∃ e, (run (KV.handle KV.sorted) (get (ascii "a_b"))
      (exec KV.sorted emptyWorld (.register (ascii "a/b") (ascii "kv") [] 0)).2).1 = .ok e) ∧
    (∃ m, (run (KV.handle KV.sorted) listConfig
        (exec KV.sorted emptyWorld (.putConfig (ascii "a_b") {} 1)).2).1 = .ok m ∧
      m (ascii "a_b/") = none ∧ (m (ascii "a/b/")).isSome = true) ∧
    ¬Meets (pairStep KV.sorted) (fun s op => s.2.Answers op (exec KV.sorted s.1 op).1)
      (emptyWorld, ⟨fun _ => none, fun _ => none, emptyWorld.rng⟩)
      [.register (ascii "a/b") (ascii "kv") [] 0, .get (ascii "a_b")] := by
  refine ⟨?_, ?_, fun h => ?_⟩
  · have hok : ((run (KV.handle KV.sorted) (get (ascii "a_b"))
      (exec KV.sorted emptyWorld (.register (ascii "a/b") (ascii "kv") [] 0)).2).1).isOk =
        true := by
      decide +kernel
    cases hget : (run (KV.handle KV.sorted) (get (ascii "a_b"))
      (exec KV.sorted emptyWorld (.register (ascii "a/b") (ascii "kv") [] 0)).2).1 with
    | ok e => exact ⟨e, rfl⟩
    | error e =>
      rw [hget] at hok
      cases hok
  · refine ⟨_, congrArg Prod.fst run_listConfig, ?_, ?_⟩
    · decide +kernel
    · decide +kernel
  · have hget := h.2.1
    have hok : (match (exec KV.sorted (exec KV.sorted emptyWorld
        (.register (ascii "a/b") (ascii "kv") [] 0)).2 (.get (ascii "a_b"))).1 with
        | .entry r => r.isOk
        | _ => false) = true := by decide +kernel
    rw [show (exec KV.sorted (exec KV.sorted emptyWorld
        (.register (ascii "a/b") (ascii "kv") [] 0)).2 (.get (ascii "a_b"))).1 = _ from hget] at hok
    revert hok
    decide +kernel

end Tuck.Mount
