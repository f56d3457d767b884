/-
  The audit log across restarts.

  A session opens the file, continues the chain from the record `readTail` finds, logs its
  entries and ends, cleanly or in the middle of its last write. The file is opened for
  appending as it stands: a torn line is neither cut off nor closed with a newline, so the
  first record after it becomes part of that line; and a last record that is longer than the
  window of `readTail` is not found, so the chain starts anew. Nothing else goes wrong:
  `survives_iff` says so for every history.
-/
import Tuck.Audit.Tail
import Tuck.Base.Machine

namespace Tuck.Audit

open Tuck.Base List

/-! ## The dispatcher over a rotating file -/

/-- A dispatcher with a `RotatingFileLogger`. -/
structure FileDispatcher where
  chain : Dispatcher
  size : Nat
  maxSize : Nat
  /-- The files renamed by rotation. -/
  archived : List Bytes

/-- `NewRotatingFileLogger` and `NewDispatcherSize` on a file. -/
def FileDispatcher.openFile (maxSize : Nat) (file : Bytes) : FileDispatcher :=
  let t := readTail file
  let chain : Dispatcher :=
    if t.1 = [] then ⟨0, genesisHash, ⟨genesisHash, file⟩⟩ else ⟨t.2, t.1, ⟨genesisHash, file⟩⟩
  ⟨chain, file.length, maxSize, []⟩

/-- `rotateLocked`, when the file has reached its maximal size. -/
def FileDispatcher.rotate (d : FileDispatcher) : FileDispatcher :=
  if d.maxSize ≤ d.size then
    { d with chain := { d.chain with logger := ⟨genesisHash, []⟩ }, size := 0,
             archived := d.archived ++ [d.chain.file] }
  else d

section

variable (sha : Bytes → Bytes)

/-- `Dispatcher.Log` through `RotatingFileLogger.Write`. -/
def FileDispatcher.log (d : FileDispatcher) (e : Entry) : FileDispatcher :=
  let d := d.rotate
  let chain := d.chain.log sha e
  { d with chain := chain, size := d.size + (chain.file.length - d.chain.file.length) }

def FileDispatcher.logAll (d : FileDispatcher) (es : List Entry) : FileDispatcher :=
  es.foldl (fun d e => d.log sha e) d

/-! ## Sessions -/

/-- One run of the server: what it logs, and how many bytes of its last write are lost. -/
structure Session where
  entries : List Entry
  cut : Nat

/-- What is on disk, with the records that were written completely. -/
structure Disk where
  archived : List Bytes
  file : Bytes
  records : List Entry

def Disk.start : Disk := ⟨[], [], []⟩

variable (maxSize : Nat)

/-- The records the session seals. -/
def Session.sealed (k : Disk) (s : Session) : List Entry :=
  (FileDispatcher.openFile maxSize k.file).chain.sealed sha s.entries

/-- The records the session writes completely. -/
def Session.complete (k : Disk) (s : Session) : List Entry :=
  if s.cut = 0 then s.sealed sha maxSize k else (s.sealed sha maxSize k).dropLast

/-- The crash falls into the last write. -/
def Session.WellFormed (k : Disk) (s : Session) : Prop :=
  s.cut ≤ (((s.sealed sha maxSize k).getLast?.map lineOf).getD []).length

/-- One session. -/
def Disk.session (k : Disk) (s : Session) : Disk :=
  let d := (FileDispatcher.openFile maxSize k.file).logAll sha s.entries
  { archived := k.archived ++ d.archived
    file := d.chain.file.take (d.chain.file.length - s.cut)
    records := k.records ++ s.complete sha maxSize k }

/-- Each record carries its hash, the hash before it and the next number. -/
def Chained : Bytes → UInt64 → List Entry → Prop
  | _, _, [] => True
  | h, n, e :: es =>
      e.prevHash = h ∧ e.seq = n + 1 ∧ computeHash sha e = e.hash ∧ Chained e.hash e.seq es

/-- The file verifies, its lines are the complete records of all sessions, and these are one
    chain. -/
structure Survives (k : Disk) : Prop where
  verified : (verifyFile sha k.file).ok = true
  lines : fileLines k.file = k.records.map Entry.marshal
  chained : Chained sha genesisHash 0 k.records

end

/-- The chain can be continued: the file ends with a newline, and its last record starts
    within the window of `readTail`, or is itself indistinguishable from the start. -/
def Resumable (file : Bytes) : Prop :=
  (file = [] ∨ file.getLast? = some nl) ∧
    (InWindow file ∨ ∃ e, unmarshal ((fileLines file).getLastD []) = some e ∧ e.seq = 0 ∧
      e.hash = genesisHash)

/-! ## Chains -/

section

variable {sha : Bytes → Bytes}

/-- Hash and number at the end of a chain. -/
def chainEnd (h : Bytes) (n : UInt64) : List Entry → Bytes × UInt64
  | [] => (h, n)
  | e :: es => chainEnd e.hash e.seq es

theorem chainEnd_concat (h : Bytes) (n : UInt64) (es : List Entry) (e : Entry) :
    chainEnd h n (es ++ [e]) = (e.hash, e.seq) := by
  induction es generalizing h n with
  | nil => rfl
  | cons a es ih => exact ih a.hash a.seq

variable {h : Bytes} {es : List Entry} {n : UInt64}

theorem chained_append {es' : List Entry} :
    Chained sha h n (es ++ es') ↔
      Chained sha h n es ∧ Chained sha (chainEnd h n es).1 (chainEnd h n es).2 es' := by
  induction es generalizing h n with
  | nil => exact ⟨fun h => ⟨trivial, h⟩, And.right⟩
  | cons e es ih =>
    rw [cons_append, Chained, Chained, ih]
    exact ⟨fun ⟨h1, h2, h3, h4, h5⟩ => ⟨⟨h1, h2, h3, h4⟩, h5⟩,
      fun ⟨⟨h1, h2, h3, h4⟩, h5⟩ => ⟨h1, h2, h3, h4, h5⟩⟩

theorem Chained.of_prefix {es' : List Entry}
    (hc : Chained sha h n es') (hp : es <+: es') : Chained sha h n es := by
  obtain ⟨t, rfl⟩ := hp
  exact (chained_append.mp hc).1

theorem chained_sealed (hlen : ∀ s, (sha s).length = 32) (d : Dispatcher) (es : List Entry) :
    Chained sha d.prevHash d.seq (d.sealed sha es) := by
  induction es generalizing d with
  | nil => trivial
  | cons e es ih =>
    have hprev : (d.log sha e).prevHash = (d.seal sha e).hash := by rw [log_eq hlen]
    have hseq : (d.log sha e).seq = (d.seal sha e).seq := by rw [log_eq hlen, seal_seq]
    have hrest := ih (d.log sha e)
    rw [hprev, hseq] at hrest
    exact ⟨seal_prevHash d e, seal_seq d e, computeHash_seal d e, hrest⟩

/-- A record as the verifier and `readTail` need it. -/
def Sound (e : Entry) : Prop := e.Valid ∧ Digest e.hash

theorem sound_sealed (hlen : ∀ s, (sha s).length = 32) {d : Dispatcher} (hd : Digest d.prevHash)
    (hes : ∀ e ∈ es, ∀ t ∈ e.texts, Utf8Valid t) :
    ∀ e ∈ d.sealed sha es, Sound e := by
  induction es generalizing d with
  | nil => exact fun _ h => absurd h not_mem_nil
  | cons e es ih =>
    obtain ⟨he, hrest⟩ := forall_mem_cons.mp hes
    have hdig := digest_seal hlen d e
    have hnext : Digest (d.log sha e).prevHash := by rw [log_eq hlen]; exact hdig
    exact forall_mem_cons.mpr ⟨⟨(seal_valid_iff hlen d hd e).mpr he, hdig⟩, ih hnext hrest⟩

theorem digest_chainEnd (hh : Digest h)
    (hes : ∀ e ∈ es, Sound e) : Digest (chainEnd h n es).1 := by
  induction es generalizing h n with
  | nil => exact hh
  | cons e es ih =>
    obtain ⟨he, hrest⟩ := forall_mem_cons.mp hes
    exact ih he.2 hrest

/-- A chain of sound records verifies. -/
theorem verifyLines_chained {d : Dispatcher} {prev : Option Entry}
    (hp : Follows sha d prev) (hc : Chained sha d.prevHash d.seq es) (hes : ∀ e ∈ es, Sound e)
    (hsize : ∀ e ∈ es, e.marshal.length ≤ maxVerifyLine) (idx : Nat) {res : VerifyResult}
    (hres : res.ok = true) :
    (verifyLines sha prev idx res (es.map Entry.marshal)).ok = true := by
  induction es generalizing d prev idx res with
  | nil => exact hres
  | cons e es ih =>
    obtain ⟨hprev, hseq, hhash, hrest⟩ := hc
    obtain ⟨⟨hvalid, hdig⟩, hes⟩ := forall_mem_cons.mp hes
    obtain ⟨hle, hsize⟩ := forall_mem_cons.mp hsize
    have hcheck := checkRecord_of_follows hp hhash hdig.ne_nil hprev hseq
    have hok := (verifyEntries_window hp e).mpr hcheck
    have hnext : Follows sha ⟨e.seq, e.hash, d.logger⟩ (some e) := ⟨rfl, rfl, hhash, hdig.ne_nil⟩
    simp only [map_cons, verifyLines, trimLine_of_printable (printable_marshal e),
      if_neg (marshal_ne_nil e), if_neg (Nat.not_lt.mpr hle), unmarshal_of_valid hvalid]
    rw [if_neg (by rw [hok]; decide)]
    refine ih hnext hrest hes hsize (idx + 1) ?_
    split_ifs <;> exact hres

/-! ## Sessions without rotation -/

theorem logAll_chain {d : FileDispatcher}
    (h : (d.logAll sha es).archived = []) :
    (d.logAll sha es).chain = d.chain.logAll sha es ∧ d.archived = [] := by
  induction es generalizing d with
  | nil => exact ⟨rfl, h⟩
  | cons e es ih =>
    obtain ⟨hchain, harch⟩ := ih (d := d.log sha e) h
    have hrot : d.rotate.archived = [] := harch
    have hno : d.rotate = d := by
      unfold FileDispatcher.rotate at hrot ⊢
      split_ifs at hrot ⊢
      · exact absurd hrot (append_ne_nil_of_right_ne_nil _ (cons_ne_nil _ _))
      · rfl
    refine ⟨?_, hno ▸ hrot⟩
    rw [FileDispatcher.logAll, foldl_cons, ← FileDispatcher.logAll, hchain]
    change ((d.rotate.chain.log sha e).logAll sha es) = _
    rw [hno]
    rfl

variable {maxSize : Nat} {k : Disk} {s : Session}

theorem openFile_file (file : Bytes) :
    (FileDispatcher.openFile maxSize file).chain.file = file := by
  unfold FileDispatcher.openFile
  simp only
  split_ifs <;> rfl

theorem flatMap_lineOf (es : List Entry) :
    ((es.map Entry.marshal).flatMap fun l => l ++ [0x0A]) = es.flatMap lineOf := by
  rw [flatMap_map]
  rfl

/-! ## The file along a history -/

/-- The file is the complete records, in one chain, and perhaps a piece of a line. -/
structure Good (sha : Bytes → Bytes) (k : Disk) : Prop where
  chained : Chained sha genesisHash 0 k.records
  sound : ∀ e ∈ k.records, Sound e
  file : ∃ piece, nl ∉ piece ∧ k.file = k.records.flatMap lineOf ++ piece

/-- The lines are the complete records, in one chain. -/
def Intact (sha : Bytes → Bytes) (k : Disk) : Prop :=
  fileLines k.file = k.records.map Entry.marshal ∧ Chained sha genesisHash 0 k.records

theorem Good.intact (h : Good sha k) : Intact sha k := by
  obtain ⟨piece, hnl, hfile⟩ := h.file
  refine ⟨?_, h.chained⟩
  rw [hfile, fileLines_records, fileLines_of_notMem hnl, append_nil]

/-- Every complete record has one line, whatever the lines hold. -/
def Counted (k : Disk) : Prop := (fileLines k.file).length = k.records.length

/-! ## One session -/

variable {records : List Entry}

theorem getLast?_records (hne : records ≠ []) :
    (records.flatMap lineOf).getLast? = some nl := by
  obtain ⟨es, e, rfl⟩ := eq_nil_or_concat records |>.resolve_left hne
  rw [concat_eq_append, flatMap_append, flatMap_singleton, lineOf,
    ← append_assoc, List.getLast?_concat]

/-- A file that ends with a newline has no piece of a line. -/
theorem piece_eq_nil {piece : Bytes} (hnl : nl ∉ piece)
    (h : records.flatMap lineOf ++ piece = [] ∨
      (records.flatMap lineOf ++ piece).getLast? = some nl) : piece = [] := by
  rcases h with h | h
  · exact (append_eq_nil_iff.mp h).2
  · by_contra hne
    rw [List.getLast?_append_of_ne_nil _ hne] at h
    exact hnl (mem_of_getLast? h)

theorem last_line {e : Entry} :
    (fileLines ((es ++ [e]).flatMap lineOf)).getLastD [] = e.marshal := by
  rw [← append_nil ((es ++ [e]).flatMap lineOf), fileLines_records, fileLines_nil,
    append_nil, map_append, map_singleton, getLastD_concat]

theorem flatMap_concat (es : List Entry) (e : Entry) :
    (es ++ [e]).flatMap lineOf = es.flatMap lineOf ++ lineOf e := by
  rw [flatMap_append, flatMap_singleton]

theorem whole_records (es : List Entry) :
    es.flatMap lineOf = [] ∨ (es.flatMap lineOf).getLast? = some nl := by
  rcases eq_or_ne es [] with rfl | hne
  · exact Or.inl rfl
  · exact Or.inr (getLast?_records hne)

theorem window_pos : 0 < tailWindow := by decide

theorem readTail_of_not_inWindow {e : Entry} (h : ¬InWindow ((es ++ [e]).flatMap lineOf)) :
    readTail ((es ++ [e]).flatMap lineOf) = ([], 0) := by
  unfold InWindow at h
  rw [last_line, flatMap_concat, not_or, Nat.not_le, Nat.not_le] at h
  rw [flatMap_concat]
  exact readTail_outside window_pos h.1 h.2

/-- Where the chain continues: the end of the records, if the file is resumable. -/
theorem openFile_chain (maxSize : Nat) (hsound : ∀ e ∈ records, Sound e)
    (hres : Resumable (records.flatMap lineOf)) :
    (FileDispatcher.openFile maxSize (records.flatMap lineOf)).chain =
      ⟨(chainEnd genesisHash 0 records).2, (chainEnd genesisHash 0 records).1,
        ⟨genesisHash, records.flatMap lineOf⟩⟩ := by
  unfold FileDispatcher.openFile
  rcases eq_nil_or_concat records with rfl | ⟨es, e, rfl⟩
  · rfl
  · rw [concat_eq_append] at hsound hres ⊢
    obtain ⟨hvalid, hdig⟩ := hsound e (mem_append_right es mem_cons_self)
    rw [chainEnd_concat]
    by_cases hwin : InWindow ((es ++ [e]).flatMap lineOf)
    · have htail : readTail ((es ++ [e]).flatMap lineOf) = (e.hash, e.seq) := by
        unfold InWindow at hwin
        rw [last_line, flatMap_concat] at hwin
        rw [flatMap_concat]
        exact readTail_last (whole_records es) hvalid hdig.length hwin
      simp only [htail, if_neg hdig.ne_nil]
    · -- the record is not found, but looks like the start
      obtain ⟨e', he', hseq, hhash⟩ := hres.2.resolve_left hwin
      rw [last_line, unmarshal_of_valid hvalid] at he'
      cases he'
      simp only [readTail_of_not_inWindow hwin, if_true, hseq, hhash]

/-- The first record of a session. -/
theorem complete_cons {e : Entry} (h : s.complete sha maxSize k = e :: es) :
    e.prevHash = (FileDispatcher.openFile maxSize k.file).chain.prevHash ∧
      e.seq = (FileDispatcher.openFile maxSize k.file).chain.seq + 1 := by
  have hhead : ∃ es', s.sealed sha maxSize k = e :: es' := by
    unfold Session.complete at h
    split_ifs at h
    · exact ⟨es, h⟩
    · obtain ⟨t, ht⟩ := dropLast_prefix (s.sealed sha maxSize k)
      exact ⟨es ++ t, by rw [← ht, h, cons_append]⟩
  obtain ⟨es', hes'⟩ := hhead
  unfold Session.sealed at hes'
  cases hentries : s.entries with
  | nil => rw [hentries] at hes'; cases hes'
  | cons a as =>
    rw [hentries, Dispatcher.sealed] at hes'
    cases hes'
    exact ⟨seal_prevHash _ _, seal_seq _ _⟩

section

variable (hlen : ∀ s, (sha s).length = 32) (hwf : s.WellFormed sha maxSize k)
  (hrot : (k.session sha maxSize s).archived = [])

include hlen hwf hrot

/-- A session appends its complete records and a piece of a line. -/
theorem session_file :
    ∃ piece, nl ∉ piece ∧ (k.session sha maxSize s).file =
      k.file ++ ((s.complete sha maxSize k).flatMap lineOf ++ piece) := by
  obtain ⟨hchain, -⟩ := logAll_chain (append_eq_nil_iff.mp hrot).2
  have hfile : ((FileDispatcher.openFile maxSize k.file).logAll sha s.entries).chain.file =
      k.file ++ (s.sealed sha maxSize k).flatMap lineOf := by
    rw [hchain, logAll_file hlen, openFile_file, flatMap_lineOf]
    rfl
  simp only [Disk.session, hfile, Session.complete]
  by_cases hcut : s.cut = 0
  · rw [if_pos hcut, hcut, Nat.sub_zero, take_length]
    exact ⟨[], not_mem_nil, by rw [append_nil]⟩
  · rw [if_neg hcut]
    unfold Session.WellFormed at hwf
    rcases eq_nil_or_concat (s.sealed sha maxSize k) with hnil | ⟨es, e, heq⟩
    · rw [hnil] at hwf
      exact absurd (Nat.le_zero.mp hwf) hcut
    · -- the cut leaves a part of the last record, without its newline
      rw [heq, concat_eq_append, List.getLast?_concat, Option.map_some, Option.getD_some, lineOf,
        length_append, length_singleton] at hwf
      rw [heq, concat_eq_append, dropLast_concat, flatMap_append, flatMap_singleton]
      refine ⟨e.marshal.take (e.marshal.length + 1 - s.cut), fun h =>
        nl_notMem_marshal e (mem_of_mem_take h), ?_⟩
      have hlength : (k.file ++ (es.flatMap lineOf ++ lineOf e)).length - s.cut =
          k.file.length + ((es.flatMap lineOf).length + (e.marshal.length + 1 - s.cut)) := by
        simp only [length_append, lineOf, length_singleton]
        omega
      rw [hlength, take_length_add_append, take_length_add_append, lineOf,
        take_append_of_le_length (by omega)]

theorem counted_session (hk : Counted k) :
    Counted (k.session sha maxSize s) := by
  obtain ⟨piece, hnl, hfile⟩ := session_file hlen hwf hrot
  unfold Counted at hk ⊢
  have hrecords : ∀ es : List Entry, (es.flatMap lineOf).count nl = es.length := by
    intro es
    rw [← length_fileLines, ← append_nil (es.flatMap lineOf), fileLines_records, fileLines_nil,
      append_nil, length_map]
  rw [hfile, length_fileLines, count_append, count_append, hrecords,
    count_eq_zero_of_not_mem hnl, ← length_fileLines, hk]
  simp only [Disk.session, length_append, Nat.add_zero]

/-- A history that ends intact was intact all along. -/
theorem intact_of_session (hk : Counted k)
    (h : Intact sha (k.session sha maxSize s)) : Intact sha k := by
  obtain ⟨piece, -, hfile⟩ := session_file hlen hwf hrot
  obtain ⟨hlines, hchain⟩ := h
  have hrecords : (k.session sha maxSize s).records = k.records ++ s.complete sha maxSize k := rfl
  obtain ⟨rest, hrest⟩ :=
    fileLines_prefix k.file ((s.complete sha maxSize k).flatMap lineOf ++ piece)
  rw [← hfile, hlines, hrecords, map_append] at hrest
  exact ⟨(append_inj hrest (by rw [length_map]; exact hk)).1,
    (chained_append.mp (hrecords ▸ hchain)).1⟩

/-- A session that writes no complete record leaves the file good. -/
theorem good_of_none (hk : Good sha k)
    (hnone : s.complete sha maxSize k = []) : Good sha (k.session sha maxSize s) := by
  obtain ⟨piece, hnl, hfile⟩ := hk.file
  obtain ⟨piece', hnl', hfile'⟩ := session_file hlen hwf hrot
  have hrecords : (k.session sha maxSize s).records = k.records := by
    simp only [Disk.session, hnone, append_nil]
  refine ⟨hrecords ▸ hk.chained, hrecords ▸ hk.sound, piece ++ piece', ?_, ?_⟩
  · rw [mem_append]
    exact fun h => h.elim hnl hnl'
  · rw [hfile', hfile, hrecords, hnone, flatMap_nil, nil_append, append_assoc]

/-- A session on a resumable file leaves it good. -/
theorem good_of_resumable (hk : Good sha k)
    (hvalid : ∀ e ∈ s.entries, ∀ t ∈ e.texts, Utf8Valid t) (hres : Resumable k.file) :
    Good sha (k.session sha maxSize s) := by
  obtain ⟨piece, hnl, hfile⟩ := hk.file
  have hpiece : piece = [] := piece_eq_nil hnl (hfile ▸ hres.1)
  rw [hpiece, append_nil] at hfile
  have hopen := openFile_chain maxSize hk.sound (hfile ▸ hres)
  have hdig := digest_chainEnd (n := 0) digest_genesis hk.sound
  have hsub : s.complete sha maxSize k <+: s.sealed sha maxSize k := by
    unfold Session.complete
    split_ifs
    · exact prefix_refl _
    · exact dropLast_prefix _
  let d : Dispatcher := ⟨(chainEnd genesisHash 0 k.records).2, (chainEnd genesisHash 0 k.records).1,
    ⟨genesisHash, k.records.flatMap lineOf⟩⟩
  have hsealed : s.sealed sha maxSize k = d.sealed sha s.entries := by
    rw [Session.sealed, hfile, hopen]
  obtain ⟨piece', hnl', hfile'⟩ := session_file hlen hwf hrot
  refine ⟨?_, ?_, piece', hnl', ?_⟩
  · refine chained_append.mpr ⟨hk.chained, Chained.of_prefix ?_ hsub⟩
    rw [hsealed]
    exact chained_sealed hlen d s.entries
  · intro e he
    rcases mem_append.mp he with he | he
    · exact hk.sound e he
    · have hmem := hsub.subset he
      rw [hsealed] at hmem
      exact sound_sealed hlen (d := d) hdig hvalid e hmem
  · rw [hfile', hfile, ← append_assoc]
    simp only [Disk.session, flatMap_append]

/-- A session that writes a record on a file that is not resumable breaks it. -/
theorem not_intact (hk : Good sha k)
    (hsome : s.complete sha maxSize k ≠ []) (hres : ¬Resumable k.file) :
    ¬Intact sha (k.session sha maxSize s) := by
  rintro ⟨hlines, hchain⟩
  obtain ⟨piece, hnl, hfile⟩ := hk.file
  obtain ⟨piece', hnl', hfile'⟩ := session_file hlen hwf hrot
  obtain ⟨e, es, hcomplete⟩ := exists_cons_of_ne_nil hsome
  have hrecords : (k.session sha maxSize s).records = k.records ++ e :: es := by
    rw [← hcomplete]
    rfl
  -- the first record shares its line with the piece
  have hpiece : piece = [] := by
    have hnl'' : nl ∉ piece ++ e.marshal := by
      rw [mem_append]
      exact fun h => h.elim hnl (nl_notMem_marshal e)
    have hbytes : (k.session sha maxSize s).file = k.records.flatMap lineOf ++
        ((piece ++ e.marshal) ++ nl :: (es.flatMap lineOf ++ piece')) := by
      rw [hfile', hfile, hcomplete, flatMap_cons]
      simp only [lineOf, append_assoc, cons_append, nil_append]
    rw [hbytes, fileLines_records, fileLines_line hnl'', hrecords, map_append, map_cons] at hlines
    have hline := (List.cons.inj (append_cancel_left hlines)).1
    exact append_left_eq_self.mp hline
  rw [hpiece, append_nil] at hfile
  have hnowin : ¬InWindow k.file := fun h => hres ⟨hfile ▸ whole_records _, Or.inl h⟩
  obtain ⟨hprev, hseq⟩ := complete_cons hcomplete
  rcases eq_nil_or_concat k.records with hnil | ⟨rs, r, heq⟩
  · refine hnowin (Or.inl ?_)
    rw [hfile, hnil]
    exact Nat.zero_le _
  · -- the last record is outside the window, so the chain starts anew
    rw [concat_eq_append] at heq
    obtain ⟨hvalid, -⟩ := hk.sound r (heq ▸ mem_append_right rs mem_cons_self)
    rw [hfile, heq] at hnowin
    have htail : readTail k.file = ([], 0) := by
      rw [hfile, heq, readTail_of_not_inWindow hnowin]
    have hopen : (FileDispatcher.openFile maxSize k.file).chain =
        ⟨0, genesisHash, ⟨genesisHash, k.file⟩⟩ := by
      unfold FileDispatcher.openFile
      simp only [htail, if_true]
    rw [hopen] at hprev hseq
    rw [hrecords, heq, chained_append, chainEnd_concat] at hchain
    obtain ⟨hlink, hnext, -⟩ := hchain.2
    refine hres ⟨hfile ▸ whole_records _, Or.inr ⟨r, ?_, ?_, ?_⟩⟩
    · rw [hfile, heq, last_line, unmarshal_of_valid hvalid]
    · exact (add_right_cancel (hnext.symm.trans hseq))
    · exact hlink.symm.trans hprev

end

/-! ## Histories -/

variable {H : List Session}

theorem archived_of_runs
    (h : (runs (Disk.session sha maxSize) k H).archived = []) : k.archived = [] := by
  induction H generalizing k with
  | nil => exact h
  | cons s H ih => exact (append_eq_nil_iff.mp (ih (k := k.session sha maxSize s) h)).1

theorem intact_of_runs (hlen : ∀ s, (sha s).length = 32)
    (hwf : Meets (Disk.session sha maxSize) (fun k s => s.WellFormed sha maxSize k) k H)
    (hrot : (runs (Disk.session sha maxSize) k H).archived = []) (hk : Counted k)
    (h : Intact sha (runs (Disk.session sha maxSize) k H)) : Intact sha k := by
  induction H generalizing k with
  | nil => exact h
  | cons s H ih =>
    have hrot' : (k.session sha maxSize s).archived = [] := archived_of_runs (H := H) hrot
    have hk' := counted_session hlen hwf.1 hrot' hk
    exact intact_of_session hlen hwf.1 hrot' hk (ih hwf.2 hrot hk' h)

theorem Good.counted (h : Good sha k) : Counted k := by
  rw [Counted, h.intact.1, length_map]

/-- From a good file, a history leaves the records intact exactly if every session that writes
    one finds the file resumable. -/
theorem intact_iff (hlen : ∀ s, (sha s).length = 32)
    (hwf : Meets (Disk.session sha maxSize) (fun k s => s.WellFormed sha maxSize k) k H)
    (hrot : (runs (Disk.session sha maxSize) k H).archived = [])
    (hvalid : ∀ s ∈ H, ∀ e ∈ s.entries, ∀ t ∈ e.texts, Utf8Valid t) (hk : Good sha k) :
    (Intact sha (runs (Disk.session sha maxSize) k H) →
      Meets (Disk.session sha maxSize)
        (fun k s => s.complete sha maxSize k ≠ [] → Resumable k.file) k H) ∧
    (Meets (Disk.session sha maxSize)
        (fun k s => s.complete sha maxSize k ≠ [] → Resumable k.file) k H →
      Good sha (runs (Disk.session sha maxSize) k H)) := by
  induction H generalizing k with
  | nil => exact ⟨fun _ => trivial, fun _ => hk⟩
  | cons s H ih =>
    obtain ⟨hs, hH⟩ := forall_mem_cons.mp hvalid
    have hrot' : (k.session sha maxSize s).archived = [] := archived_of_runs (H := H) hrot
    have hstep : (s.complete sha maxSize k ≠ [] → Resumable k.file) →
        Good sha (k.session sha maxSize s) := by
      intro hres
      by_cases hnone : s.complete sha maxSize k = []
      · exact good_of_none hlen hwf.1 hrot' hk hnone
      · exact good_of_resumable hlen hwf.1 hrot' hk hs (hres hnone)
    constructor
    · intro h
      have hres : s.complete sha maxSize k ≠ [] → Resumable k.file := by
        intro hsome
        by_contra hres
        refine not_intact hlen hwf.1 hrot' hk hsome hres ?_
        exact intact_of_runs hlen hwf.2 hrot (counted_session hlen hwf.1 hrot' hk.counted) h
      exact ⟨hres, (ih hwf.2 hrot hH (hstep hres)).1 h⟩
    · rintro ⟨hres, hrest⟩
      exact (ih hwf.2 hrot hH (hstep hres)).2 hrest

theorem good_start : Good sha .start where
  chained := trivial
  sound _ h := absurd h not_mem_nil
  file := ⟨[], not_mem_nil, rfl⟩

/-- For every history of sessions, crashes in the middle of a write included: the file
    verifies, has every complete record on a line of its own and is one chain, exactly if every
    session that writes a complete record finds the file resumable. -/
theorem survives_iff (sha : Bytes → Bytes) (hlen : ∀ s, (sha s).length = 32) (maxSize : Nat)
    (H : List Session)
    (hwf : Meets (Disk.session sha maxSize) (fun k s => s.WellFormed sha maxSize k) .start H)
    (hrot : (runs (Disk.session sha maxSize) .start H).archived = [])
    (hvalid : ∀ s ∈ H, ∀ e ∈ s.entries, ∀ t ∈ e.texts, Utf8Valid t)
    (hsize : ∀ e ∈ (runs (Disk.session sha maxSize) .start H).records,
      e.marshal.length ≤ maxVerifyLine) :
    Survives sha (runs (Disk.session sha maxSize) .start H) ↔
      Meets (Disk.session sha maxSize)
        (fun k s => s.complete sha maxSize k ≠ [] → Resumable k.file) .start H := by
  obtain ⟨hto, hfrom⟩ := intact_iff hlen hwf hrot hvalid good_start
  constructor
  · exact fun h => hto ⟨h.lines, h.chained⟩
  · intro h
    have hgood := hfrom h
    refine ⟨?_, hgood.intact.1, hgood.chained⟩
    rw [verifyFile, hgood.intact.1]
    have hfirst : Follows sha .fresh none := trivial
    exact verifyLines_chained hfirst hgood.chained hgood.sound hsize 0 rfl

end

/-- The disk after sessions that each log the same request, with what each loses. -/
def afterSessions (cuts : List Nat) : Disk :=
  runs (Disk.session lengthSha 1048576) .start (cuts.map fun c => ⟨[sampleEntry], c⟩)

/-- A clean restart, and one after a crash that left nothing of the record. -/
theorem survives_clean :
    Survives lengthSha
      (afterSessions [0, (lineOf (Dispatcher.fresh.seal lengthSha sampleEntry)).length, 0]) := by
  refine (survives_iff lengthSha lengthSha_length 1048576 _ ?_
    (by decide +kernel) (by decide +kernel) (by decide +kernel)).mpr ?_
  · refine ⟨?_, ?_, ?_, trivial⟩ <;> unfold Session.WellFormed <;> decide +kernel
  · refine ⟨fun _ => ⟨Or.inl rfl, Or.inl (by decide +kernel)⟩,
      fun h => absurd (by decide +kernel) h,
      fun _ => ⟨Or.inr (by decide +kernel), Or.inl (by decide +kernel)⟩, trivial⟩

/-- A crash that loses the last five bytes of a record: the record of the next session lands on
    the torn line, and the file does not verify. -/
theorem torn_line_not_verified :
    (verifyFile lengthSha (afterSessions [0, 5, 0]).file).ok = false ∧
      ¬Survives lengthSha (afterSessions [0, 5, 0]) := by
  have hbad : (verifyFile lengthSha (afterSessions [0, 5, 0]).file).ok = false := by decide +kernel
  refine ⟨hbad, fun h => ?_⟩
  rw [h.verified] at hbad
  cases hbad

end Tuck.Audit
