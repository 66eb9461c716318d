import Kache.Memo.Trust

/-!
# The file-hash memo

`file_hashes` keeps, for a path, the stamp a file had and the hash of its bytes.  A lookup
stats the file and serves the hash if the whole stamp is the row's.  Three kinds of
process write rows:

* a put, after its commit, calls `record_known_file_hash` for its source files: it stats the
  *live* file and records the hash of the *snapshot* the store took of it earlier;
* a restore calls `record_verified` with a fingerprint it took while it knew the bytes;
* any other writer of the file records nothing.

Neither kind asks whether the stamp has settled, although `FILE_HASH_RULE` says that rows
are written under that rule.  So a row can come to pair a stamp with another content's
hash in two ways, and both are runs of this model (`memo_can_lie`): a tool writes
between the snapshot and the stat, or it writes within the tick of a stamp already taken.
Where neither happens no lookup is wrong (`hit_is_current`).
-/

namespace Kache.Memo.FileHash

/-! ## The table -/

/-- `MIN_PERSISTED_HASH_BYTES`. -/
def minPersistedHashBytes : ℤ := 64 * 1024

/-- `FILE_HASH_RULE`. -/
def fileHashRule : ℤ := 1

/-- `FILE_HASH_RETENTION_SECS`. -/
def fileHashRetentionSecs : ℤ := 30 * 86400

/-- A row of `file_hashes`; its path is the primary key, `updatedAt` is in seconds. -/
structure HashRow where
  stamp : FileFingerprint
  hash : String
  updatedAt : ℤ
  rule : ℤ
  deriving DecidableEq, Repr

/-- `FileHashCache`, by path. -/
abbrev FileHashCache := Table String HashRow

/-- `FileHashCache::get`. -/
def get (cache : FileHashCache) (fingerprint : FileFingerprint) : Option String :=
  ((cache.get fingerprint.path).filter fun row =>
    row.stamp = fingerprint ∧ fileHashRule ≤ row.rule).map (·.hash)

/-- `FileHashCache::put`. -/
def put (now : ℤ) (cache : FileHashCache) (fingerprint : FileFingerprint) (hash : String) :
    FileHashCache :=
  cache.set fingerprint.path ⟨fingerprint, hash, now, fileHashRule⟩

/-- `prune_file_hashes_at`. -/
def pruneFileHashesAt (now : ℤ) (cache : FileHashCache) : FileHashCache :=
  cache.deleteWhere fun _ row => row.updatedAt < now - fileHashRetentionSecs

/-- `FileHashLookup`. -/
inductive FileHashLookup where
  | hit (hash : String)
  | needsHash (fingerprint : FileFingerprint)
  | uncacheable
  deriving DecidableEq, Repr

/-- The first half of `lookup_cached`: the stat and the size floor. -/
def lookupStat (file : Option File) (path : String) : Option FileFingerprint :=
  (file.map (FileFingerprint.fromMetadata path)).filter fun fingerprint =>
    minPersistedHashBytes ≤ fingerprint.size

/-- The second half: the row, where an index that cannot be read is a miss. -/
def lookupRow (answer : Except Unit (Option String)) (fingerprint : FileFingerprint) :
    FileHashLookup :=
  match answer with
  | .ok (some hash) => .hit hash
  | .ok none => .needsHash fingerprint
  | .error () => .needsHash fingerprint

/-- `lookup_cached`. -/
def lookupCached (cache : FileHashCache) (file : Option File) (path : String) : FileHashLookup :=
  match lookupStat file path with
  | none => .uncacheable
  | some fingerprint => lookupRow (.ok (get cache fingerprint)) fingerprint

/-- `record_verified`. -/
def recordVerified (now : ℤ) (cache : FileHashCache) (fingerprint : FileFingerprint)
    (hash : String) : FileHashCache :=
  if fingerprint.size < minPersistedHashBytes then cache else put now cache fingerprint hash

/-- A hit is a row with the file's stamp. -/
theorem exists_row_of_hit {cache : FileHashCache} {file : Option File} {path hash : String}
    (hit : lookupCached cache file path = .hit hash) :
    ∃ live row, file = some live ∧ cache.get path = some row ∧
      row.stamp = FileFingerprint.fromMetadata path live ∧ row.hash = hash := by
  unfold lookupCached at hit
  cases stat : lookupStat file path with
  | none => rw [stat] at hit; cases hit
  | some fingerprint =>
    rw [stat] at hit
    obtain ⟨taken, -⟩ := Option.filter_eq_some_iff.mp stat
    obtain ⟨live, there, rfl⟩ := Option.map_eq_some_iff.mp taken
    cases answer : get cache (.fromMetadata path live) with
    | none => simp only [answer, lookupRow] at hit; cases hit
    | some served =>
      simp only [answer, lookupRow, FileHashLookup.hit.injEq] at hit
      obtain ⟨row, found, same⟩ := Option.map_eq_some_iff.mp answer
      obtain ⟨inside, agrees⟩ := Option.filter_eq_some_iff.mp found
      exact ⟨live, row, there, inside, (of_decide_eq_true agrees).1, same.trans hit⟩

/-! ## The system -/

/-- A hash that some process holds for a fingerprint, to record it. -/
structure Held where
  fingerprint : FileFingerprint
  hash : String
  deriving DecidableEq, Repr

/-- A stat: the stamp, the clock at the time and the bytes the file had.  The last two are
kept to speak about the run; no process reads them. -/
structure Stat where
  observed : ObservedFingerprint
  bytes : Bytes
  deriving DecidableEq, Repr

/-- The machine: its clock in nanoseconds since the Unix epoch, its files and the index, the
snapshots that puts have staged, and how far each recording has come. -/
structure World where
  now : ℕ
  files : Table String File
  cache : FileHashCache
  staged : List (String × Bytes)
  looking : List Held
  known : List Held
  verified : List Held
  stats : List Stat

/-- A new index on a machine with files. -/
def World.start (now : ℕ) (files : Table String File) : World :=
  ⟨now, files, Table.empty, [], [], [], [], []⟩

/-- `datetime('now')`. -/
def World.unixNow (w : World) : ℤ := w.now / 1000000000

/-- A stat of a file of this machine, now. -/
def World.statOf (w : World) (path : String) (file : File) : Stat :=
  ⟨⟨.fromMetadata path file, wallClockNs w.now⟩, file.bytes⟩

/-- The file as a write of this moment leaves it: the mtime may be set to anything, the
ctime is the time of the write rounded down. -/
def World.written (w : World) (bytes : Bytes) (mtime : ℤ) (inode grain : ℕ) : File :=
  ⟨bytes, mtime, w.now / grain * grain, inode⟩

/-- The row a recording finds, if the index can be read. -/
def World.answer (w : World) (held : Held) (failed : Bool) : Except Unit (Option String) :=
  if failed then .error () else .ok (get w.cache held.fingerprint)

/-- What can happen. -/
inductive Action where
  | tick (ns : ℕ)
  | write (path : String) (bytes : Bytes) (mtime : ℤ) (inode grain : ℕ)
  | remove (path : String)
  /-- A put stages a snapshot of a file and hashes it. -/
  | stage (path : String) (bytes : Bytes)
  /-- `record_known_file_hash` after the commit: the stat of its lookup, … -/
  | knownStat (path : String) (bytes : Bytes)
  /-- … the row of its lookup, with or without an error of the index, … -/
  | knownRow (held : Held) (failed : Bool)
  /-- … and `record_cached` if there was none. -/
  | knownRecord (held : Held)
  /-- A fingerprint is taken while the bytes are known. -/
  | verifiedStat (path : String)
  | verifiedRecord (held : Held)
  | prune

/-- One step of the machine. -/
def step (blake3 : Bytes → Bytes) (w : World) : Action → Option World
  | .tick ns => some { w with now := w.now + ns }
  | .write path bytes mtime inode grain =>
    if 0 < grain ∧ grain ≤ maxGrainNs then
      some { w with files := w.files.set path (w.written bytes mtime inode grain) }
    else none
  | .remove path => some { w with files := w.files.erase path }
  | .stage path bytes =>
    -- The copy is of the file's bytes as it reads them; a writer may be at work meanwhile.
    if (w.files.get path).isSome then some { w with staged := (path, bytes) :: w.staged }
    else none
  | .knownStat path bytes =>
    if (path, bytes) ∈ w.staged then
      (w.files.get path).bind fun file =>
        (lookupStat (some file) path).map fun fingerprint =>
          { w with
            looking := ⟨fingerprint, hashFile blake3 bytes⟩ :: w.looking
            stats := w.statOf path file :: w.stats }
    else none
  | .knownRow held failed =>
    if held ∈ w.looking ∧ lookupRow (w.answer held failed) held.fingerprint =
        .needsHash held.fingerprint then
      some { w with known := held :: w.known }
    else none
  | .knownRecord held =>
    if held ∈ w.known then
      some { w with cache := put w.unixNow w.cache held.fingerprint held.hash }
    else none
  | .verifiedStat path =>
    (w.files.get path).map fun file =>
      { w with
        verified := ⟨.fromMetadata path file, hashFile blake3 file.bytes⟩ :: w.verified
        stats := w.statOf path file :: w.stats }
  | .verifiedRecord held =>
    if held ∈ w.verified then
      some { w with cache := recordVerified w.unixNow w.cache held.fingerprint held.hash }
    else none
  | .prune => some { w with cache := pruneFileHashesAt w.unixNow w.cache }

/-- What keeps the memo honest.  When `record_known_file_hash` stats the live file, its bytes
are still those of the snapshot; and no write gives a file other bytes under a stamp that
was taken of it before it had settled. -/
def Undisturbed (w : World) : Action → Prop
  | .knownStat path bytes => ∀ file, w.files.get path = some file → file.bytes = bytes
  | .write path bytes mtime inode grain =>
    ∀ stat ∈ w.stats,
      stampIsSettled stat.observed.fingerprint stat.observed.observedNs = false →
      FileFingerprint.fromMetadata path (w.written bytes mtime inode grain) =
        stat.observed.fingerprint →
      bytes = stat.bytes
  | _ => True

/-! ## Stats stay true -/

variable {w w' : World} {path : String} {file : File}

section Stats

variable {now : ℕ} {files : Table String File} {stat : Stat}

/-- A stat was taken in the past, and while the file has its stamp it has its bytes. -/
structure Truthful (now : ℕ) (files : Table String File) (stat : Stat) : Prop where
  past : stat.observed.observedNs ≤ wallClockNs now
  same : ∀ file, files.get stat.observed.fingerprint.path = some file →
    FileFingerprint.fromMetadata stat.observed.fingerprint.path file = stat.observed.fingerprint →
    file.bytes = stat.bytes

namespace Truthful

theorem statOf (there : w.files.get path = some file) :
    Truthful w.now w.files (w.statOf path file) where
  past := le_refl _
  same live found _ := by
    have same : w.files.get path = some live := found
    rw [there] at same
    cases same
    rfl

theorem tick (h : Truthful now files stat) (ns : ℕ) : Truthful (now + ns) files stat where
  past := by
    have := h.past
    unfold wallClockNs at *
    omega
  same := h.same

theorem remove (h : Truthful now files stat) (path : String) :
    Truthful now (files.erase path) stat where
  past := h.past
  same live found := by
    rw [Table.get_erase] at found
    split at found
    · cases found
    · exact h.same live found

/-- No write takes place on a stamp that had settled when it was taken. -/
theorem written_ne_of_settled (h : Truthful w.now w.files stat) {bytes : Bytes} {mtime : ℤ}
    {inode grain : ℕ} (pos : 0 < grain) (le : grain ≤ maxGrainNs)
    (settled : stampIsSettled stat.observed.fingerprint stat.observed.observedNs = true) :
    FileFingerprint.fromMetadata path (w.written bytes mtime inode grain) ≠
      stat.observed.fingerprint := by
  intro same
  have stamped : metadataCtimeNs (w.written bytes mtime inode grain) =
      stat.observed.fingerprint.ctimeNs := congrArg FileFingerprint.ctimeNs same
  have before := le_of_stampIsSettled settled
  have after := wallClockNs_lt_ctime w.now pos le bytes mtime inode
  have past := h.past
  unfold World.written at stamped
  omega

/-- **A write** keeps a stat true: it lands on another stamp, or leaves the bytes the same. -/
theorem write (h : Truthful w.now w.files stat) {bytes : Bytes} {mtime : ℤ} {inode grain : ℕ}
    (pos : 0 < grain) (le : grain ≤ maxGrainNs) (mem : stat ∈ w.stats)
    (undisturbed : Undisturbed w (.write path bytes mtime inode grain)) :
    Truthful w.now (w.files.set path (w.written bytes mtime inode grain)) stat where
  past := h.past
  same live found same := by
    rw [Table.get_set] at found
    split at found
    · next here =>
      cases found
      rw [here] at same
      cases settled : stampIsSettled stat.observed.fingerprint stat.observed.observedNs with
      | true => exact absurd same (h.written_ne_of_settled pos le settled)
      | false => exact undisturbed stat mem settled same
    · exact h.same live found same

end Truthful

end Stats

/-! ## Hashes go back to stats -/

section Memo

variable {blake3 : Bytes → Bytes}

/-- A hash is that of the bytes the file had when the fingerprint was taken. -/
def Backed (blake3 : Bytes → Bytes) (stats : List Stat) (held : Held) : Prop :=
  ∃ stat ∈ stats, stat.observed.fingerprint = held.fingerprint ∧
    held.hash = hashFile blake3 stat.bytes

theorem Backed.cons {stats : List Stat} {held : Held} (h : Backed blake3 stats held)
    (stat : Stat) : Backed blake3 (stat :: stats) held := by
  obtain ⟨origin, mem, same⟩ := h
  exact ⟨origin, List.mem_cons_of_mem _ mem, same⟩

/-- A row as a held hash. -/
def HashRow.held (row : HashRow) : Held := ⟨row.stamp, row.hash⟩

/-- What holds of the stats, the recordings under way and the rows. -/
structure Inv (blake3 : Bytes → Bytes) (w : World) : Prop where
  stats : ∀ stat ∈ w.stats, Truthful w.now w.files stat
  looking : ∀ held ∈ w.looking, Backed blake3 w.stats held
  known : ∀ held ∈ w.known, Backed blake3 w.stats held
  verified : ∀ held ∈ w.verified, Backed blake3 w.stats held
  rows : ∀ path row, w.cache.get path = some row → Backed blake3 w.stats row.held

theorem Inv.start (now : ℕ) (files : Table String File) : Inv blake3 (World.start now files) where
  stats _ mem := nomatch mem
  looking _ mem := nomatch mem
  known _ mem := nomatch mem
  verified _ mem := nomatch mem
  rows _ _ found := nomatch found

namespace Inv

/-- Files and clock move on. -/
theorem moved {now : ℕ} {files : Table String File} (h : Inv blake3 w)
    (stats : ∀ stat ∈ w.stats, Truthful now files stat) :
    Inv blake3 { w with now := now, files := files } :=
  { h with stats := stats }

theorem withCache {cache : FileHashCache} (h : Inv blake3 w)
    (rows : ∀ path row, cache.get path = some row → Backed blake3 w.stats row.held) :
    Inv blake3 { w with cache := cache } :=
  { h with rows := rows }

/-- A stat is taken, and a hash of the bytes it saw is held for it by one of the two kinds of
recorder. -/
theorem withStat (h : Inv blake3 w) (there : w.files.get path = some file)
    {looking verified : List Held}
    (looks : ∀ held ∈ looking, Backed blake3 (w.statOf path file :: w.stats) held)
    (verifies : ∀ held ∈ verified, Backed blake3 (w.statOf path file :: w.stats) held) :
    Inv blake3 { w with
      looking := looking
      verified := verified
      stats := w.statOf path file :: w.stats } where
  stats := List.forall_mem_cons.mpr ⟨.statOf there, h.stats⟩
  looking := looks
  known held mem := (h.known held mem).cons _
  verified := verifies
  rows path row found := (h.rows path row found).cons _

/-- The rows after a record. -/
theorem rows_put (h : Inv blake3 w) {held : Held} (backed : Backed blake3 w.stats held) (now : ℤ) :
    ∀ path row, (put now w.cache held.fingerprint held.hash).get path = some row →
      Backed blake3 w.stats row.held := by
  intro path row found
  rw [put, Table.get_set] at found
  split at found
  · cases found
    exact backed
  · exact h.rows path row found

/-- **One step.** -/
theorem step {a : Action} (h : Inv blake3 w) (undisturbed : Undisturbed w a)
    (taken : FileHash.step blake3 w a = some w') : Inv blake3 w' := by
  cases a with
  | tick ns =>
    cases taken
    exact h.moved fun stat mem => (h.stats stat mem).tick ns
  | write path bytes mtime inode grain =>
    obtain ⟨fits, ⟨⟩⟩ := Option.ite_none_right_eq_some.mp taken
    exact h.moved fun stat mem => (h.stats stat mem).write fits.1 fits.2 mem undisturbed
  | remove path =>
    cases taken
    exact h.moved fun stat mem => (h.stats stat mem).remove path
  | stage path bytes =>
    obtain ⟨-, ⟨⟩⟩ := Option.ite_none_right_eq_some.mp taken
    exact { h with }
  | knownStat path bytes =>
    obtain ⟨-, taken⟩ := Option.ite_none_right_eq_some.mp taken
    obtain ⟨file, there, taken⟩ := Option.bind_eq_some_iff.mp taken
    obtain ⟨fingerprint, stat, rfl⟩ := Option.map_eq_some_iff.mp taken
    obtain ⟨statted, -⟩ := Option.filter_eq_some_iff.mp stat
    cases statted
    -- The hash is the snapshot's; the bytes the stat saw are the same.
    have bytes_eq : file.bytes = bytes := undisturbed file there
    refine h.withStat there (List.forall_mem_cons.mpr ⟨?_, ?_⟩) ?_
    · exact ⟨_, List.mem_cons_self, rfl, by rw [← bytes_eq]; rfl⟩
    · exact fun held mem => (h.looking held mem).cons _
    · exact fun held mem => (h.verified held mem).cons _
  | knownRow held failed =>
    obtain ⟨looked, ⟨⟩⟩ := Option.ite_none_right_eq_some.mp taken
    exact { h with known := List.forall_mem_cons.mpr ⟨h.looking held looked.1, h.known⟩ }
  | knownRecord held =>
    obtain ⟨mem, ⟨⟩⟩ := Option.ite_none_right_eq_some.mp taken
    exact h.withCache (h.rows_put (h.known held mem) _)
  | verifiedStat path =>
    obtain ⟨file, there, rfl⟩ := Option.map_eq_some_iff.mp taken
    refine h.withStat there ?_ (List.forall_mem_cons.mpr ⟨?_, ?_⟩)
    · exact fun held mem => (h.looking held mem).cons _
    · exact ⟨_, List.mem_cons_self, rfl, rfl⟩
    · exact fun held mem => (h.verified held mem).cons _
  | verifiedRecord held =>
    obtain ⟨mem, ⟨⟩⟩ := Option.ite_none_right_eq_some.mp taken
    refine h.withCache ?_
    unfold recordVerified
    split
    · exact h.rows
    · exact h.rows_put (h.verified held mem) _
  | prune =>
    cases taken
    refine h.withCache fun path row found => ?_
    rw [pruneFileHashesAt, Table.get_deleteWhere] at found
    exact h.rows path row (Option.filter_eq_some_iff.mp found).1

end Inv

/-! ## What is recorded is served -/

theorem lookupStat_of_large (large : minPersistedHashBytes ≤ min (file.bytes.length : ℤ) i64Max) :
    lookupStat (some file) path = some (.fromMetadata path file) :=
  Option.filter_eq_some_iff.mpr ⟨rfl, decide_eq_true large⟩

/-- What was recorded under a stamp is served under it. -/
theorem lookupCached_put (now : ℤ) (cache : FileHashCache) (hash : String)
    (large : minPersistedHashBytes ≤ min (file.bytes.length : ℤ) i64Max) :
    lookupCached (put now cache (.fromMetadata path file) hash) (some file) path = .hit hash := by
  have here : (put now cache (.fromMetadata path file) hash).get path =
      some ⟨.fromMetadata path file, hash, now, fileHashRule⟩ := if_pos rfl
  have found : get (put now cache (.fromMetadata path file) hash) (.fromMetadata path file) =
      some hash := by
    show Option.map _ (Option.filter _ (Table.get _ path)) = _
    rw [here, Option.filter_some, if_pos]
    · rfl
    · exact decide_eq_true ⟨rfl, le_refl _⟩
  simp only [lookupCached, lookupStat_of_large large, found, lookupRow]

section Recorded

variable {allowed : World → Action → Prop} {s₀ : World}

/-- `record_known_file_hash` records the hash of the snapshot under the live file's stamp. -/
theorem exists_reaches_known {bytes : Bytes} (run : Reaches allowed (step blake3) s₀ w)
    (staged : (path, bytes) ∈ w.staged) (there : w.files.get path = some file)
    (large : minPersistedHashBytes ≤ min (file.bytes.length : ℤ) i64Max)
    (statted : allowed w (.knownStat path bytes))
    (looked : ∀ w held failed, allowed w (.knownRow held failed))
    (recorded : ∀ w held, allowed w (.knownRecord held)) :
    ∃ w', Reaches allowed (step blake3) s₀ w' ∧ w'.files = w.files ∧
      lookupCached w'.cache (some file) path = .hit (hashFile blake3 bytes) := by
  have first := run.tail statted (by
    simp only [step, if_pos staged, there, Option.bind_some, lookupStat_of_large large,
      Option.map_some]
    rfl)
  have second := first.tail (looked _ ⟨.fromMetadata path file, hashFile blake3 bytes⟩ true)
    (if_pos ⟨List.mem_cons_self, rfl⟩)
  have third := second.tail (recorded _ ⟨.fromMetadata path file, hashFile blake3 bytes⟩)
    (if_pos List.mem_cons_self)
  exact ⟨_, third, rfl, lookupCached_put _ _ _ large⟩

end Recorded

/-- The library as a compiler, a restore or a tool leaves it at a time. -/
def library (bytes : Bytes) (ctime : ℕ) : File := ⟨bytes, 0, ctime, 1⟩

/-! ## The run -/

/-- **A hit is current.**  In every run in which the live file is still the snapshot when
`record_known_file_hash` stats it, and no write gives other bytes to a stamp taken before
it settled, `lookup_cached` serves the hash of the file's bytes. -/
theorem hit_is_current (blake3 : Bytes → Bytes) {now : ℕ} {files : Table String File}
    (run : Reaches Undisturbed (step blake3) (World.start now files) w) {path hash : String}
    (hit : lookupCached w.cache (w.files.get path) path = .hit hash) :
    ∃ file, w.files.get path = some file ∧ hashFile blake3 file.bytes = hash := by
  have inv : Inv blake3 w := run.invariant (.start now files)
    fun _ _ _ h undisturbed taken => h.step undisturbed taken
  obtain ⟨file, row, there, found, stamp, rfl⟩ := exists_row_of_hit hit
  obtain ⟨stat, mem, same, served⟩ := inv.rows path row found
  have stamped : stat.observed.fingerprint = FileFingerprint.fromMetadata path file :=
    same.trans stamp
  have bytes_eq : file.bytes = stat.bytes := by
    refine (inv.stats stat mem).same file ?_ ?_
    · rw [stamped]
      exact there
    · rw [stamped]
      rfl
  refine ⟨file, there, ?_⟩
  rw [bytes_eq]
  exact served.symm

/-- A library that is stored and then left alone is served with its own hash. -/
theorem hit_is_current_stored :
    let blake3 : Bytes → Bytes := List.take 1
    let a : Bytes := List.replicate 65536 7
    let files : Table String File := Table.empty.set "/lib.so" (library a 0)
    ∃ w, Reaches Undisturbed (step blake3) (World.start 0 files) w ∧
      lookupCached w.cache (w.files.get "/lib.so") "/lib.so" = .hit (hashFile blake3 a) ∧
      ∃ file, w.files.get "/lib.so" = some file ∧
        hashFile blake3 file.bytes = hashFile blake3 a := by
  intro blake3 a files
  have large : minPersistedHashBytes ≤ min (a.length : ℤ) i64Max := by
    rw [List.length_replicate]
    decide
  have there : files.get "/lib.so" = some (library a 0) := by
    show (Table.empty.set _ _).get _ = _
    rw [Table.get_set, if_pos rfl]
  have snapshot : Reaches Undisturbed (step blake3) (World.start 0 files)
      { World.start 0 files with staged := [("/lib.so", a)] } :=
    Reaches.refl.tail (a := .stage "/lib.so" a) trivial rfl
  have untouched : Undisturbed { World.start 0 files with staged := [("/lib.so", a)] }
      (.knownStat "/lib.so" a) := by
    intro file found
    cases there.symm.trans found
    rfl
  obtain ⟨w, run, same, hit⟩ := exists_reaches_known snapshot List.mem_cons_self there large
    untouched (fun _ _ _ => trivial) (fun _ _ => trivial)
  have current : lookupCached w.cache (w.files.get "/lib.so") "/lib.so" =
      .hit (hashFile blake3 a) := by
    rw [(congrArg (·.get "/lib.so") same).trans there]
    exact hit
  exact ⟨w, run, current, hit_is_current blake3 run current⟩

/-! ## The two ways to go wrong -/

/-- A write of the library, on a file system that keeps nanoseconds. -/
theorem step_write_library (w : World) (bytes : Bytes) :
    step blake3 w (.write "/lib.so" bytes 0 1 1) =
      some { w with files := w.files.set "/lib.so" (library bytes w.now) } := by
  have written : w.written bytes 0 1 1 = library bytes w.now := by
    simp only [World.written, library, Nat.div_one, Nat.mul_one]
  have fits : 0 < 1 ∧ 1 ≤ maxGrainNs := by decide
  simp only [step, if_pos fits, written]

/-- A tool rewrites the library at any time between the snapshot and the stat. -/
theorem exists_lie_of_restat (blake3 : Bytes → Bytes) (now ns : ℕ) {a b : Bytes}
    (large : minPersistedHashBytes ≤ min (b.length : ℤ) i64Max) :
    ∃ w, Reaches (fun _ _ => True) (step blake3) (World.start now Table.empty) w ∧
      w.files.get "/lib.so" = some (library b (now + ns)) ∧
      lookupCached w.cache (w.files.get "/lib.so") "/lib.so" = .hit (hashFile blake3 a) := by
  let stored : Table String File := Table.empty.set "/lib.so" (library a now)
  let staged : World := { World.start now stored with staged := [("/lib.so", a)] }
  let stripped : World :=
    { staged with now := now + ns, files := stored.set "/lib.so" (library b (now + ns)) }
  have compile : Reaches (fun _ _ => True) (step blake3) (World.start now Table.empty)
      (World.start now stored) :=
    Reaches.refl.tail trivial (step_write_library _ a)
  have snapshot : Reaches (fun _ _ => True) (step blake3) (World.start now Table.empty) staged :=
    compile.tail (a := .stage "/lib.so" a) trivial rfl
  have strip : Reaches (fun _ _ => True) (step blake3) (World.start now Table.empty) stripped :=
    (snapshot.tail (a := .tick ns) trivial rfl).tail trivial (step_write_library _ b)
  have there : stripped.files.get "/lib.so" = some (library b (now + ns)) := by
    show (stored.set _ _).get _ = _
    rw [Table.get_set, if_pos rfl]
  obtain ⟨w, run, files, hit⟩ := exists_reaches_known strip List.mem_cons_self there large trivial
    (fun _ _ _ => trivial) (fun _ _ => trivial)
  rw [← files] at there
  exact ⟨w, run, there, there ▸ hit⟩

/-- A tool rewrites a restored library within the tick of its stamp. -/
theorem exists_lie_of_tick (blake3 : Bytes → Bytes) (now : ℕ) {a b : Bytes}
    (large : minPersistedHashBytes ≤ min (b.length : ℤ) i64Max) (same : a.length = b.length) :
    ∃ w, Reaches (fun _ _ => True) (step blake3) (World.start now Table.empty) w ∧
      w.files.get "/lib.so" = some (library b now) ∧
      lookupCached w.cache (w.files.get "/lib.so") "/lib.so" = .hit (hashFile blake3 a) := by
  let stored : Table String File := Table.empty.set "/lib.so" (library a now)
  let held : Held := ⟨.fromMetadata "/lib.so" (library a now), hashFile blake3 a⟩
  let verified : World := { World.start now stored with
    verified := [held]
    stats := [(World.start now stored).statOf "/lib.so" (library a now)] }
  let stripped : World := { verified with files := stored.set "/lib.so" (library b now) }
  have restore : Reaches (fun _ _ => True) (step blake3) (World.start now Table.empty)
      (World.start now stored) :=
    Reaches.refl.tail trivial (step_write_library _ a)
  have verify : Reaches (fun _ _ => True) (step blake3) (World.start now Table.empty) verified := by
    refine restore.tail (a := .verifiedStat "/lib.so") trivial ?_
    have there : (World.start now stored).files.get "/lib.so" = some (library a now) := by
      show (Table.empty.set _ _).get _ = _
      rw [Table.get_set, if_pos rfl]
    simp only [step, there, Option.map_some]
    rfl
  have strip : Reaches (fun _ _ => True) (step blake3) (World.start now Table.empty) stripped :=
    verify.tail trivial (step_write_library _ b)
  have record : Reaches (fun _ _ => True) (step blake3) (World.start now Table.empty)
      { stripped with
        cache := recordVerified stripped.unixNow Table.empty held.fingerprint held.hash } :=
    strip.tail (a := .verifiedRecord held) trivial (if_pos List.mem_cons_self)
  -- The two versions have one size, so they have one stamp.
  have stamp : held.fingerprint = .fromMetadata "/lib.so" (library b now) := by
    show FileFingerprint.fromMetadata _ _ = _
    unfold FileFingerprint.fromMetadata library
    rw [same]
    rfl
  have there : stripped.files.get "/lib.so" = some (library b now) := by
    show (stored.set _ _).get _ = _
    rw [Table.get_set, if_pos rfl]
  refine ⟨_, record, there, ?_⟩
  have floor : ¬ held.fingerprint.size < minPersistedHashBytes := by
    rw [stamp]
    exact not_lt.mpr large
  show lookupCached (recordVerified _ _ held.fingerprint held.hash) (stripped.files.get _) _ = _
  rw [there, recordVerified, if_neg floor, stamp]
  exact lookupCached_put _ _ _ large

/-- **The memo can lie.**  A library is stored, a tool rewrites it five seconds later, before
the put records it, and the memo serves the stored hash for the rewritten bytes.  The same
after a restore, if the tool's write falls into the tick of the restored file's stamp. -/
theorem memo_can_lie :
    let blake3 : Bytes → Bytes := List.take 1
    let a : Bytes := List.replicate 65536 0
    let b : Bytes := List.replicate 65536 1
    hashFile blake3 b ≠ hashFile blake3 a ∧
      (∃ w, Reaches (fun _ _ => True) (step blake3) (World.start 0 Table.empty) w ∧
        w.files.get "/lib.so" = some (library b (0 + 5000000000)) ∧
        lookupCached w.cache (w.files.get "/lib.so") "/lib.so" = .hit (hashFile blake3 a)) ∧
      ∃ w, Reaches (fun _ _ => True) (step blake3) (World.start 0 Table.empty) w ∧
        w.files.get "/lib.so" = some (library b 0) ∧
        lookupCached w.cache (w.files.get "/lib.so") "/lib.so" = .hit (hashFile blake3 a) := by
  intro blake3 a b
  have large : minPersistedHashBytes ≤ min (b.length : ℤ) i64Max := by
    rw [List.length_replicate]
    decide
  have same : a.length = b.length := by rw [List.length_replicate, List.length_replicate]
  exact ⟨by decide, exists_lie_of_restat blake3 0 5000000000 large,
    exists_lie_of_tick blake3 0 large same⟩

end Memo

end Kache.Memo.FileHash
