import Kache.Foundation.Checks
import Kache.Store.Sound

/-!
# Imports

A remote entry arrives as a directory: an archive is extracted over
`entry_dir(key)`, `meta.json` and artifacts together, without the store's write
lock.  Two functions turn such a directory into an entry.

* `import_downloaded_entry` checks the directory (digest of every artifact
  included), then registers it in one transaction that moves the artifacts to
  their content addresses.  It replaces whatever the key held before.
* `import_verified_restored_entries` takes a batch whose digests were checked
  while the archives were read.  Its transaction inserts a row only where there
  is none, and leaves the references of a row it finds unchanged.

Neither reads `meta.json` again inside its transaction: what is registered is
the metadata the checks read before the lock.
-/

namespace Kache

/-- Why an import refuses a directory. -/
inductive ImportError where
  | readingMeta
  | parsingMeta
  | malformedBlobHash (name hash : String)
  | unsafeArtifactName (name : String)
  | missingFile (name : String)
  | sizeMismatch (name : String) (expected actual : ℕ)
  | hashMismatch (name claimed actual : String)
  | invalidKeyBinding
  | incompatibleKeySchema (cacheKey : String) (keySchema : ℕ)
  | unsafeCrateName
  | duplicateCacheKey
  | metadataChanged
  | unsafeOrDuplicateArtifact
  deriving DecidableEq, Repr

/-- Read and parse `meta.json` of a key. -/
def readMeta (disk : Disk) (key : String) : Except ImportError EntryMeta :=
  match disk.metaText? key with
  | none => .error .readingMeta
  | some text =>
    match text.parsed with
    | none => .error .parsingMeta
    | some m => .ok m

variable {disk disk' : Disk} {key : String} {m : EntryMeta} {env : Env} {idx idx' : Index} {now : ℕ}
  {lost : Set String}

theorem readMeta_eq_ok :
    readMeta disk key = .ok m ↔ disk.meta? key = some m := by
  unfold readMeta Disk.meta?
  cases disk.metaText? key with
  | none => simp
  | some text => cases hparsed : text.parsed <;> simp [hparsed]

/-- The file `name` in the directory of `key`. -/
def Disk.artifact? (disk : Disk) (key name : String) : Option Bytes :=
  (disk.dirs key).bind (·.artifact? name)

/-! ## `import_downloaded_entry` -/

/-- The trust-boundary checks on one listed file. -/
def checkDownloadedFile (env : Env) (disk : Disk) (key : String) (file : CachedFile) :
    Except ImportError Unit :=
  if !isBlobHash file.hash then .error (.malformedBlobHash file.name file.hash)
  else if !isSafeArtifactName file.name then .error (.unsafeArtifactName file.name)
  else
    match disk.artifact? key file.name with
    | none => .error (.missingFile file.name)
    | some bytes =>
      if bytes.length ≠ file.size then .error (.sizeMismatch file.name file.size bytes.length)
      else if env.blake3 bytes ≠ file.hash then
        .error (.hashMismatch file.name file.hash (env.blake3 bytes))
      else .ok ()

/-- What `import_downloaded_entry` does before it takes the lock. -/
def checkDownloaded (env : Env) (disk : Disk) (key : String) : Except ImportError EntryMeta := do
  let m ← readMeta disk key
  m.files.forM (checkDownloadedFile env disk key)
  pure m

/-- `move_verified_blob`: a missing blob is the artifact, renamed; an artifact
that vanished fails the transaction. -/
def moveVerifiedBlob (key : String) (file : CachedFile) : Stmt Index Disk := fun idx disk =>
  if (disk.blobs file.hash).isSome then .ok idx disk
  else
    match disk.dirs key with
    | none => .failed disk
    | some dir =>
      match dir.artifact? file.name with
      | none => .failed disk
      | some bytes =>
        .ok idx ((disk.setBlob file.hash bytes).setDir key (dir.removeArtifact file.name))

/-- The per-file loop of `import_downloaded_entry`. -/
def takeAndMove (key : String) (files : List CachedFile) : List (Stmt Index Disk) :=
  referenceFiles (fun _ file => moveVerifiedBlob key file) files

/-- The transaction of `import_downloaded_entry`; `now` is `unixepoch()`. -/
def importScript (env : Env) (now : ℕ) (key : String) (m : EntryMeta) : List (Stmt Index Disk) :=
  .sql (Index.releaseEntryBlobRefs key) :: (takeAndMove key m.files ++
    [.sql (Index.recordEntryBlobs key m.files),
      .sql (Index.insertOrReplaceEntry key (entryRow env m true false (some now)))])

/-- Listed files that are still in the directory are removed after the commit. -/
def removeArtifacts (key : String) (files : List CachedFile) (disk : Disk) : Disk :=
  match disk.dirs key with
  | none => disk
  | some dir =>
    disk.setDir key (files.foldl (fun acc f => acc.removeArtifact f.name) dir)

/-- `import_downloaded_entry` up to its cleanup, and whether it committed. -/
def importDownloadedEntry (env : Env) (now : ℕ) (key : String) (s : Store) : Store × Bool :=
  match checkDownloaded env s.disk key with
  | .error _ => (s, false)
  | .ok m =>
    match Stmt.exec (importScript env now key m) s.index s.disk with
    | .failed disk => (⟨s.index, disk⟩, false)
    | .ok idx disk => (⟨idx, removeArtifacts key m.files disk⟩, true)

/-! ## `import_verified_restored_entries` -/

/-- `VerifiedRestoredEntry`. -/
structure VerifiedRestoredEntry where
  cacheKey : String
  entryMeta : EntryMeta
  deriving DecidableEq

variable {entries : List VerifiedRestoredEntry}

/-- The preflight on the files of one entry; `seen` are the names before. -/
def checkRestoredFiles (disk : Disk) (key : String) :
    List String → List CachedFile → Except ImportError Unit
  | _, [] => .ok ()
  | seen, file :: rest =>
    if !isSafeArtifactName file.name || !isValidCacheKey file.hash || seen.contains file.name then
      .error .unsafeOrDuplicateArtifact
    else
      match disk.artifact? key file.name with
      | none => .error (.missingFile file.name)
      | some bytes =>
        if bytes.length ≠ file.size then
          .error (.sizeMismatch file.name file.size bytes.length)
        else checkRestoredFiles disk key (file.name :: seen) rest

/-- The preflight on a batch; `seen` are the keys before. -/
def checkRestored (disk : Disk) :
    List String → List VerifiedRestoredEntry → Except ImportError Unit
  | _, [] => .ok ()
  | seen, entry :: rest =>
    if !isValidCacheKey entry.cacheKey || entry.entryMeta.cacheKey ≠ entry.cacheKey then
      .error .invalidKeyBinding
    else if entry.entryMeta.keySchema ≠ cacheKeyVersion then
      .error (.incompatibleKeySchema entry.cacheKey entry.entryMeta.keySchema)
    else if !isValidCrateName entry.entryMeta.crateName then .error .unsafeCrateName
    else if seen.contains entry.cacheKey then .error .duplicateCacheKey
    else do
      let m ← readMeta disk entry.cacheKey
      if m ≠ entry.entryMeta then .error .metadataChanged
      else do
        checkRestoredFiles disk entry.cacheKey [] entry.entryMeta.files
        checkRestored disk (entry.cacheKey :: seen) rest

/-- The four statements that undo an uncommitted row before it is replaced. -/
def Index.undoUncommitted (key : String) (idx : Index) : Index :=
  let uncommitted := (idx.entries.get key).any fun row => !row.committed
  let released := if uncommitted then deleteMapping key (subtractMapping key idx) else idx
  { released with
    entries := released.entries.deleteWhere fun k row => k = key && !row.committed
    blobs := released.blobs.deleteWhere fun _ row => row.refcount ≤ 0 }

/-- `UPDATE entries SET committed = 1 WHERE cache_key = ?`. -/
def Index.setCommitted (key : String) (idx : Index) : Index :=
  { idx with
    entries :=
      idx.entries.updateWhere (fun k => k = key) fun _ row => { row with committed := true } }

/-- One entry of the batch: claim the row, repair missing blobs, and count
references only for a row this batch inserted. -/
def restoreEntry (env : Env) (now : ℕ) (entry : VerifiedRestoredEntry) : Stmt Index Disk :=
  fun idx disk =>
    let key := entry.cacheKey
    let files := entry.entryMeta.files
    let undone := Index.undoUncommitted key idx
    let claimed :=
      Index.insertOrIgnoreEntry key (entryRow env entry.entryMeta false false (some now)) undone
    (Stmt.exec (files.map (moveVerifiedBlob key)) claimed disk).andThen fun idx' disk' =>
      if (undone.entries.get key).isSome then .ok idx' disk'
      else .ok (Index.setCommitted key (Index.registerRefs key files idx')) disk'

/-- The cleanup after the commit of a batch. -/
def removeRestoredArtifacts (entries : List VerifiedRestoredEntry) (disk : Disk) : Disk :=
  entries.foldl (fun acc e => removeArtifacts e.cacheKey e.entryMeta.files acc) disk

/-- `import_verified_restored_entries` up to its cleanup, and whether it
committed. -/
def importVerifiedRestoredEntries (env : Env) (now : ℕ) (entries : List VerifiedRestoredEntry)
    (s : Store) : Store × Bool :=
  match checkRestored s.disk [] entries with
  | .error _ => (s, false)
  | .ok () =>
    match Stmt.exec (entries.map (restoreEntry env now)) s.index s.disk with
    | .failed disk => (⟨s.index, disk⟩, false)
    | .ok idx disk => (⟨idx, removeRestoredArtifacts entries disk⟩, true)

/-- `discard_uncommitted_restored_entry`: a directory no committed row owns is
removed, under the write lock. -/
def discardUncommittedRestoredEntry (key : String) (s : Store) : Store :=
  if !isValidCacheKey key || s.index.isCommitted key then s
  else ⟨s.index, s.disk.removeDir key⟩

/-! ## What the checks establish -/

/-- A file that passes the trust boundary is there, with the listed length and
digest. -/
theorem checkDownloadedFile_ok {file : CachedFile}
    (passed : checkDownloadedFile env disk key file = .ok ()) :
    ∃ bytes, disk.artifact? key file.name = some bytes ∧ bytes.length = file.size ∧
      env.blake3 bytes = file.hash := by
  grind [checkDownloadedFile]

theorem checkDownloaded_ok (passed : checkDownloaded env disk key = .ok m) :
    disk.meta? key = some m ∧ ∀ f ∈ m.files, checkDownloadedFile env disk key f = .ok () := by
  obtain ⟨m', hread, passed⟩ := bind_eq_ok.mp passed
  obtain ⟨⟨⟩, hfiles, hm⟩ := bind_eq_ok.mp passed
  cases hm
  exact ⟨readMeta_eq_ok.mp hread, forM_eq_ok.mp hfiles⟩

/-- Every entry of a batch that passes the preflight has its metadata on disk. -/
theorem checkRestored_ok {seen : List String} (passed : checkRestored disk seen entries = .ok ()) :
    ∀ e ∈ entries, disk.meta? e.cacheKey = some e.entryMeta := by
  induction entries generalizing seen with
  | nil => simp
  | cons entry rest ih =>
    have behind : (do
        let m ← readMeta disk entry.cacheKey
        if m ≠ entry.entryMeta then .error .metadataChanged
        else do
          checkRestoredFiles disk entry.cacheKey [] entry.entryMeta.files
          checkRestored disk (entry.cacheKey :: seen) rest) = Except.ok () := by
      grind [checkRestored]
    obtain ⟨m, hread, passed⟩ := bind_eq_ok.mp behind
    split at passed
    · cases passed
    · next same =>
      obtain ⟨-, -, passed⟩ := bind_eq_ok.mp passed
      rw [not_not.mp same] at hread
      exact List.forall_mem_cons.mpr ⟨readMeta_eq_ok.mp hread, ih passed⟩

/-! ## What the transactions can change -/

/-- Whether a list names `meta.json`, the file it is read from. -/
def namesMeta (files : List CachedFile) : Bool := files.any (·.name == "meta.json")

theorem namesMeta_eq_true {files : List CachedFile} :
    namesMeta files = true ↔ ∃ f ∈ files, f.name = "meta.json" := by
  simp [namesMeta]

theorem moveVerifiedBlob_materializes {file : CachedFile}
    (taken : file.name = "meta.json" → key ∈ lost) :
    Materializes lost file.hash (moveVerifiedBlob key file) where
  grows := by
    intro idx disk
    unfold moveVerifiedBlob
    split
    · exact .refl _
    · next missing =>
      split
      · exact .refl _
      · next dir hdir =>
        split
        · exact .refl _
        · next bytes _ =>
          exact .of_missing bytes (by simpa using missing)
            (Disk.texts_removeArtifact hdir taken) rfl
  ok := by grind [moveVerifiedBlob, Disk.setDir, Disk.setBlob]

/-- The same of each file of a list. -/
theorem forall_materializes {files : List CachedFile}
    (taken : namesMeta files = true → key ∈ lost) :
    ∀ f ∈ files, Materializes lost f.hash (moveVerifiedBlob key f) :=
  fun f mem => moveVerifiedBlob_materializes fun named =>
    taken (namesMeta_eq_true.mpr ⟨f, mem, named⟩)

/-- Moving artifacts only adds blobs, however it ends. -/
theorem moveVerifiedBlobs_grows {files : List CachedFile}
    (taken : namesMeta files = true → key ∈ lost) (idx : Index) (disk : Disk) :
    disk.Grows lost (Stmt.exec (files.map (moveVerifiedBlob key)) idx disk).files := by
  refine Stmt.exec_files_of_forall (P := disk.Grows lost) ?_ idx (.refl disk)
  intro stmt mem idx' disk' grown
  obtain ⟨file, listed, rfl⟩ := List.mem_map.mp mem
  exact grown.trans ((forall_materializes taken file listed).grows idx' disk')

theorem moveVerifiedBlobs_ok {files : List CachedFile}
    (done : Stmt.exec (files.map (moveVerifiedBlob key)) idx disk = .ok idx' disk') :
    idx' = idx ∧ ∀ f ∈ files, (disk'.blobs f.hash).isSome := by
  induction files generalizing idx disk with
  | nil =>
    cases done
    exact ⟨rfl, by simp⟩
  | cons file rest ih =>
    obtain ⟨idx₁, disk₁, hstmt, later⟩ := Outcome.andThen_eq_ok.mp done
    have hmove : Materializes .univ file.hash (moveVerifiedBlob key file) :=
      moveVerifiedBlob_materializes fun _ => Set.mem_univ key
    have hgrows :
        disk₁.Grows .univ (Stmt.exec (rest.map (moveVerifiedBlob key)) idx₁ disk₁).files :=
      moveVerifiedBlobs_grows (fun _ => Set.mem_univ key) idx₁ disk₁
    obtain ⟨rfl, hblob⟩ := hmove.ok hstmt
    obtain ⟨hidx, hblobs⟩ := ih later
    rw [later] at hgrows
    refine ⟨hidx, List.forall_mem_cons.mpr ⟨hgrows.isSome hblob, hblobs⟩⟩

/-- **An import that commits** registers the entry; the disk grew. -/
theorem importScript_ok (taken : namesMeta m.files = true → key ∈ lost)
    (done : Stmt.exec (importScript env now key m) idx disk = .ok idx' disk') :
    idx' = Index.insertOrReplaceEntry key (entryRow env m true false (some now))
        (Index.registerRefs key m.files idx)
      ∧ disk.Grows lost disk' ∧ ∀ f ∈ m.files, (disk'.blobs f.hash).isSome := by
  rw [importScript, Stmt.exec_sql_cons, Stmt.exec_append, takeAndMove] at done
  have hspec := fun _ : ℕ => forall_materializes taken
  have hgrows := referenceFiles_grows hspec (Index.releaseEntryBlobRefs key idx) disk
  obtain ⟨idx₁, grown, hloop, later⟩ := Outcome.andThen_eq_ok.mp done
  obtain ⟨rfl, hblobs⟩ := referenceFiles_ok hspec hloop
  rw [hloop] at hgrows
  cases later
  exact ⟨rfl, hgrows, hblobs⟩

/-- However an import's transaction ends, the disk only grew. -/
theorem importScript_grows (taken : namesMeta m.files = true → key ∈ lost) (env : Env) (now : ℕ)
    (idx : Index) (disk : Disk) :
    disk.Grows lost (Stmt.exec (importScript env now key m) idx disk).files := by
  have hspec := fun _ : ℕ => forall_materializes taken
  have hgrows := referenceFiles_grows hspec (Index.releaseEntryBlobRefs key idx) disk
  rw [importScript, Stmt.exec_sql_cons, Stmt.exec_append, takeAndMove]
  cases hloop : Stmt.exec (referenceFiles (fun _ file => moveVerifiedBlob key file) m.files)
      (Index.releaseEntryBlobRefs key idx) disk with
  | failed diskF =>
    rw [hloop] at hgrows
    exact hgrows
  | ok idx₁ grown =>
    rw [hloop] at hgrows
    exact hgrows

/-- `file` has a blob, or an artifact with the listed digest to make it from. -/
def Sourced (env : Env) (key : String) (disk : Disk) (file : CachedFile) : Prop :=
  (disk.blobs file.hash).isSome ∨
    ∃ bytes, disk.artifact? key file.name = some bytes ∧ env.blake3 bytes = file.hash

/-- Moving a sourced file succeeds and leaves every other one sourced: two files
of one name have one digest, so when the artifact of a file was moved for
another one, its blob is there. -/
theorem Sourced.move {file : CachedFile} (sourced : Sourced env key disk file) (idx : Index) :
    ∃ disk', moveVerifiedBlob key file idx disk = .ok idx disk' ∧
      ∀ f, Sourced env key disk f → Sourced env key disk' f := by
  by_cases present : (disk.blobs file.hash).isSome
  · exact ⟨disk, by simp [moveVerifiedBlob, present], fun f h => h⟩
  · obtain ⟨bytes, hbytes, hdigest⟩ := sourced.resolve_left present
    obtain ⟨dir, hdir, hart⟩ := Option.bind_eq_some_iff.mp hbytes
    refine ⟨(disk.setBlob file.hash bytes).setDir key (dir.removeArtifact file.name),
      by simp [moveVerifiedBlob, present, hdir, hart], ?_⟩
    rintro f (hblob | ⟨bytes', hbytes', hdigest'⟩)
    · left
      by_cases hh : f.hash = file.hash <;> simp [hh, hblob]
    · by_cases hname : f.name = file.name
      · left
        rw [hname, hbytes] at hbytes'
        cases hbytes'
        simp [← hdigest', hdigest]
      · right
        refine ⟨bytes', ?_, hdigest'⟩
        simpa [Disk.artifact?, hdir, EntryDir.artifact?_removeArtifact_of_ne hname] using hbytes'

theorem takeAndMove_commits {files : List CachedFile}
    (sourced : ∀ f ∈ files, Sourced env key disk f) (idx : Index) :
    ∃ idx' disk', Stmt.exec (takeAndMove key files) idx disk = .ok idx' disk' := by
  induction files generalizing idx disk with
  | nil => exact ⟨idx, disk, rfl⟩
  | cons file rest ih =>
    obtain ⟨hfile, hrest⟩ := List.forall_mem_cons.mp sourced
    obtain ⟨disk₁, hmove, hkeeps⟩ := hfile.move (Index.takeBlobRef file idx)
    obtain ⟨idx', disk', hdone⟩ :=
      ih (fun f mem => hkeeps f (hrest f mem)) (Index.takeBlobRef file idx)
    refine ⟨idx', disk', ?_⟩
    rw [takeAndMove, referenceFiles, Stmt.exec_sql_cons, Stmt.exec_cons, hmove]
    exact hdone

/-- **A directory that passes the checks commits.** -/
theorem importScript_commits (now : ℕ)
    (passed : ∀ f ∈ m.files, checkDownloadedFile env disk key f = .ok ()) (idx : Index) :
    ∃ idx' disk', Stmt.exec (importScript env now key m) idx disk = .ok idx' disk' := by
  have hsourced : ∀ f ∈ m.files, Sourced env key disk f := by
    intro f mem
    obtain ⟨bytes, hart, -, hdigest⟩ := checkDownloadedFile_ok (passed f mem)
    exact .inr ⟨bytes, hart, hdigest⟩
  obtain ⟨idx₁, disk₁, hdone⟩ :=
    takeAndMove_commits hsourced (Index.releaseEntryBlobRefs key idx)
  rw [importScript, Stmt.exec_sql_cons, Stmt.exec_append, hdone]
  exact ⟨_, _, rfl⟩

/-- **What a batch entry does**, once an uncommitted row of its key is undone:
every listed blob is there, and the index changed only when the key had no row. -/
theorem restoreEntry_ok {e : VerifiedRestoredEntry}
    (done : restoreEntry env now e idx disk = .ok idx' disk') :
    (∀ f ∈ e.entryMeta.files, (disk'.blobs f.hash).isSome) ∧
      idx' = if ((Index.undoUncommitted e.cacheKey idx).entries.get e.cacheKey).isSome then
          Index.undoUncommitted e.cacheKey idx
        else Index.insertOrReplaceEntry e.cacheKey (entryRow env e.entryMeta true false (some now))
          (Index.registerRefs e.cacheKey e.entryMeta.files
            (Index.undoUncommitted e.cacheKey idx)) := by
  simp only [restoreEntry] at done
  set undone := Index.undoUncommitted e.cacheKey idx
  set claimed := Index.insertOrIgnoreEntry e.cacheKey
    (entryRow env e.entryMeta false false (some now)) undone with hclaimed
  clear_value claimed undone
  obtain ⟨idx₁, disk₁, hmoves, later⟩ := Outcome.andThen_eq_ok.mp done
  obtain ⟨rfl, hblobs⟩ := moveVerifiedBlobs_ok hmoves
  by_cases present : (undone.entries.get e.cacheKey).isSome
  · -- the row was there: `INSERT OR IGNORE` has ignored
    rw [if_pos present] at later ⊢
    cases later
    refine ⟨hblobs, ?_⟩
    simp [hclaimed, Index.insertOrIgnoreEntry, Table.insertOrIgnore, present]
  · -- inserting an uncommitted row and committing it later is inserting a committed one
    rw [if_neg present] at later ⊢
    cases later
    refine ⟨hblobs, ?_⟩
    simp only [hclaimed, Index.insertOrIgnoreEntry, Index.registerRefs_entries,
      Index.setCommitted, Index.insertOrReplaceEntry, Index.entries_registerRefs]
    congr 1
    refine Table.ext_get fun k => ?_
    rw [Table.get_updateWhere, Table.get_insertOrIgnore, Table.get_set]
    by_cases hk : k = e.cacheKey
    · have hnone : undone.entries.get e.cacheKey = none := by simpa using present
      simp [hk, hnone, entryRow]
    · simp [hk]

/-- The keys of a batch whose lists name `meta.json`. -/
def metaTaken (entries : List VerifiedRestoredEntry) : Set String :=
  {k | ∃ e ∈ entries, e.cacheKey = k ∧ namesMeta e.entryMeta.files = true}

theorem metaTaken_eq_empty (kept : ∀ e ∈ entries, namesMeta e.entryMeta.files = false) :
    metaTaken entries = ∅ := by
  refine Set.eq_empty_of_forall_notMem ?_
  rintro k ⟨e, mem, -, named⟩
  rw [kept e mem] at named
  cases named

theorem restoreEntry_grows {e : VerifiedRestoredEntry}
    (taken : namesMeta e.entryMeta.files = true → e.cacheKey ∈ lost) (env : Env) (now : ℕ)
    (idx : Index) (disk : Disk) : disk.Grows lost (restoreEntry env now e idx disk).files := by
  have hgrows := moveVerifiedBlobs_grows taken
    (Index.insertOrIgnoreEntry e.cacheKey (entryRow env e.entryMeta false false (some now))
      (Index.undoUncommitted e.cacheKey idx)) disk
  simp only [restoreEntry]
  cases hmoves : Stmt.exec (e.entryMeta.files.map (moveVerifiedBlob e.cacheKey))
      (Index.insertOrIgnoreEntry e.cacheKey (entryRow env e.entryMeta false false (some now))
        (Index.undoUncommitted e.cacheKey idx)) disk with
  | failed diskF =>
    rw [hmoves] at hgrows
    exact hgrows
  | ok idx₁ disk₁ =>
    rw [hmoves] at hgrows
    rw [Outcome.andThen_ok]
    split <;> exact hgrows

theorem restoreEntries_grows (env : Env) (now : ℕ) (entries : List VerifiedRestoredEntry)
    (idx : Index) (disk : Disk) :
    disk.Grows (metaTaken entries)
      (Stmt.exec (entries.map (restoreEntry env now)) idx disk).files := by
  refine Stmt.exec_files_of_forall (P := disk.Grows (metaTaken entries)) ?_ idx (.refl disk)
  intro stmt mem idx' disk' grown
  obtain ⟨e, listed, rfl⟩ := List.mem_map.mp mem
  have taken : namesMeta e.entryMeta.files = true → e.cacheKey ∈ metaTaken entries :=
    fun named => ⟨e, listed, rfl, named⟩
  exact grown.trans (restoreEntry_grows taken env now idx' disk')

theorem Index.EachBlob.undoUncommitted {P : String → ℤ → Prop} (each : idx.EachBlob P)
    (key : String) : (Index.undoUncommitted key idx).EachBlob P := by
  simp only [Index.undoUncommitted]
  split
  · have hsubtract : (Index.subtractMapping key idx).EachBlob P := each.updateCounts _ _
    have hdelete : (Index.deleteMapping key (Index.subtractMapping key idx)).EachBlob P := hsubtract
    exact hdelete.deleteRows _
  · exact each.deleteRows _

/-- A batch entry adds rows for listed files only, and their blobs are there. -/
theorem restoreEntry_each {e : VerifiedRestoredEntry}
    (done : restoreEntry env now e idx disk = .ok idx' disk') :
    (∀ f ∈ e.entryMeta.files, (disk'.blobs f.hash).isSome) ∧
      ∀ P, idx.EachBlob P → (∀ f ∈ e.entryMeta.files, P f.hash (asI64 f.size)) →
        idx'.EachBlob P := by
  obtain ⟨hblobs, rfl⟩ := restoreEntry_ok done
  refine ⟨hblobs, fun P each listed => ?_⟩
  have hundone := each.undoUncommitted e.cacheKey
  split
  · exact hundone
  · exact hundone.registerRefs e.cacheKey listed

/-- The same of a whole batch. -/
theorem restoreEntries_each
    (done : Stmt.exec (entries.map (restoreEntry env now)) idx disk = .ok idx' disk') :
    (∀ e ∈ entries, ∀ f ∈ e.entryMeta.files, (disk'.blobs f.hash).isSome) ∧
      ∀ P, idx.EachBlob P → (∀ e ∈ entries, ∀ f ∈ e.entryMeta.files, P f.hash (asI64 f.size)) →
        idx'.EachBlob P := by
  induction entries generalizing idx disk with
  | nil =>
    cases done
    exact ⟨by simp, fun P each _ => each⟩
  | cons e rest ih =>
    obtain ⟨idx₁, disk₁, hstmt, later⟩ := Outcome.andThen_eq_ok.mp done
    obtain ⟨hblobs, heach⟩ := restoreEntry_each hstmt
    obtain ⟨hblobs', heach'⟩ := ih later
    have hgrows := restoreEntries_grows env now rest idx₁ disk₁
    rw [later] at hgrows
    refine ⟨List.forall_mem_cons.mpr
      ⟨fun f mem => hgrows.isSome (hblobs f mem), hblobs'⟩, fun P each listed => ?_⟩
    obtain ⟨hhead, hrest⟩ := List.forall_mem_cons.mp listed
    exact heach' P (heach P each hhead) hrest

/-- The cleanup of one entry takes `meta.json` away when it is listed. -/
theorem removeArtifacts_grows {files : List CachedFile}
    (taken : namesMeta files = true → key ∈ lost) (disk : Disk) :
    disk.Grows lost (removeArtifacts key files disk) := by
  unfold removeArtifacts
  split
  · exact .refl _
  · next dir present =>
    refine ⟨fun k => ?_, fun _ _ there => there⟩
    rw [Disk.metaText?_setDir]
    by_cases hk : k = key
    · rw [if_pos hk, hk, Disk.metaText?, present]
      -- file by file: a text that is gone stays gone
      refine List.foldlRecOn (motive := fun d : EntryDir =>
        d.metaJson = dir.metaJson ∨ key ∈ lost ∧ d.metaJson = none) _ _ (.inl rfl) ?_
      intro d before f mem
      rcases d.metaJson_removeArtifact f.name with hsame | ⟨named, gone⟩
      · rwa [hsame]
      · exact .inr ⟨taken (namesMeta_eq_true.mpr ⟨f, mem, named⟩), gone⟩
    · exact .inl (if_neg hk)

theorem removeRestoredArtifacts_grows (entries : List VerifiedRestoredEntry) (disk : Disk) :
    disk.Grows (metaTaken entries) (removeRestoredArtifacts entries disk) := by
  refine List.foldlRecOn (motive := disk.Grows (metaTaken entries)) _ _ (.refl _) ?_
  intro grown before e mem
  have taken : namesMeta e.entryMeta.files = true → e.cacheKey ∈ metaTaken entries :=
    fun named => ⟨e, mem, rfl, named⟩
  exact before.trans (removeArtifacts_grows taken grown)

/-! ## Imports and soundness -/

namespace Store

variable {slack : Slack} {s : Store}

/-- In a sound store there is no uncommitted row to undo. -/
theorem Sound.undoUncommitted_eq (sound : s.Sound slack) (key : String) :
    Index.undoUncommitted key s.index = s.index := by
  have hcommitted : (s.index.entries.get key).any (fun row => !row.committed) = false := by
    cases hrow : s.index.entries.get key with
    | none => rfl
    | some row => simp [sound.committed key row hrow]
  have hentries : s.index.entries.deleteWhere (fun k row => k = key && !row.committed)
      = s.index.entries := by
    refine Table.ext_get fun k => ?_
    rw [Table.get_deleteWhere]
    cases hrow : s.index.entries.get k with
    | none => rfl
    | some row => simp [Option.filter, sound.committed k row hrow]
  have hblobs : s.index.blobs.deleteWhere (fun _ row => row.refcount ≤ 0) = s.index.blobs := by
    refine Table.ext_get fun h => ?_
    rw [Table.get_deleteWhere]
    cases hrow : s.index.blobs.get h with
    | none => rfl
    | some row => simp [Option.filter, sound.refcount_pos hrow]
  rw [Index.undoUncommitted, hcommitted]
  simp only [Bool.false_eq_true, if_false, hentries, hblobs]

/-- The disk of a sound store may grow, and lose what the slack allows for. -/
theorem Sound.grow (sound : s.Sound slack) (grows : s.disk.Grows slack.lost disk) :
    Sound slack ⟨s.index, disk⟩ :=
  sound.lose fun k _ => grows.texts k

/-- Writing the row and the references of an entry whose `meta.json` was on disk. -/
theorem Sound.register_present (sound : s.Sound slack) {row : EntryRow} (hrow : row.committed)
    (grows : s.disk.Grows slack.lost disk) (onDisk : s.disk.meta? key = some m) :
    Sound slack
      ⟨Index.insertOrReplaceEntry key row (Index.registerRefs key m.files s.index), disk⟩ := by
  refine sound.register key m row hrow ?_ rfl rfl ?_ fun k _ _ => grows.texts k
  · intro k
    simp [Index.insertOrReplaceEntry]
  · exact (grows.texts key).imp_left fun text => (Disk.meta?_congr text).trans onDisk

/-- The transaction of a batch import, over a sound store whose disk has the
metadata of every entry the batch will register. -/
theorem Sound.restoreEntries (sound : s.Sound slack) (covered : metaTaken entries ⊆ slack.lost)
    (onDisk : ∀ e ∈ entries, s.index.entries.get e.cacheKey = none →
      s.disk.meta? e.cacheKey = some e.entryMeta)
    (done : Stmt.exec (entries.map (restoreEntry env now)) s.index s.disk = .ok idx' disk') :
    Sound slack ⟨idx', disk'⟩ := by
  induction entries generalizing s with
  | nil =>
    cases done
    exact sound
  | cons e rest ih =>
    obtain ⟨idx₁, disk₁, hstmt, later⟩ := Outcome.andThen_eq_ok.mp done
    obtain ⟨-, hidx⟩ := restoreEntry_ok hstmt
    rw [sound.undoUncommitted_eq e.cacheKey] at hidx
    -- an entry can take away its own `meta.json` only, so the later ones find theirs
    have taken : namesMeta e.entryMeta.files = true → e.cacheKey ∈ {e.cacheKey} ∩ slack.lost :=
      fun named => ⟨rfl, covered ⟨e, List.mem_cons_self, rfl, named⟩⟩
    have hlost := restoreEntry_grows taken env now s.index s.disk
    rw [hstmt, Outcome.files_ok] at hlost
    have hgrows := hlost.mono Set.inter_subset_right
    have hcovered : metaTaken rest ⊆ slack.lost := fun k ⟨e', mem, named⟩ =>
      covered ⟨e', List.mem_cons_of_mem e mem, named⟩
    have hrest : ∀ e' ∈ rest, e'.cacheKey ≠ e.cacheKey →
        s.index.entries.get e'.cacheKey = none → disk₁.meta? e'.cacheKey = some e'.entryMeta := by
      intro e' mem hne absent
      rw [Disk.meta?_congr (hlost.metaText?_of_notMem fun lost => hne lost.1)]
      exact (List.forall_mem_cons.mp onDisk).2 e' mem absent
    by_cases present : (s.index.entries.get e.cacheKey).isSome
    · rw [if_pos present] at hidx
      subst hidx
      refine ih (sound.grow hgrows) hcovered (fun e' mem absent => ?_) later
      refine hrest e' mem (fun same => ?_) absent
      rw [← same, absent] at present
      cases present
    · rw [if_neg present] at hidx
      subst hidx
      have habsent : s.index.entries.get e.cacheKey = none := by simpa using present
      have hmeta := (List.forall_mem_cons.mp onDisk).1 habsent
      refine ih (sound.register_present rfl hgrows hmeta) hcovered (fun e' mem absent => ?_) later
      -- an entry without a row now had none before this one was registered
      simp only [Index.insertOrReplaceEntry, Table.get_set,
        Index.entries_registerRefs] at absent
      split at absent
      · simp at absent
      · next hne => exact hrest e' mem hne absent

/-- `import_downloaded_entry` keeps a store sound. -/
theorem Sound.importDownloadedEntry (sound : s.Sound slack)
    (covered : ∀ m, s.disk.meta? key = some m → namesMeta m.files = true → key ∈ slack.lost)
    (env : Env) (now : ℕ) : (importDownloadedEntry env now key s).1.Sound slack := by
  unfold Kache.importDownloadedEntry
  split
  · exact sound
  · next m passed =>
    have hmeta := (checkDownloaded_ok passed).1
    split
    · next failed =>
      have hgrows := importScript_grows (covered m hmeta) env now s.index s.disk
      rw [failed] at hgrows
      exact sound.grow hgrows
    · next done =>
      obtain ⟨rfl, hgrows, -⟩ := importScript_ok (covered m hmeta) done
      exact sound.register_present rfl
        (hgrows.trans (removeArtifacts_grows (covered m hmeta) _)) hmeta

/-- `import_verified_restored_entries` keeps a store sound. -/
theorem Sound.importVerifiedRestoredEntries (sound : s.Sound slack)
    (covered : metaTaken entries ⊆ slack.lost) (env : Env) (now : ℕ) :
    (importVerifiedRestoredEntries env now entries s).1.Sound slack := by
  unfold Kache.importVerifiedRestoredEntries
  split
  · exact sound
  · next passed =>
    split
    · next failed =>
      have hgrows := restoreEntries_grows env now entries s.index s.disk
      rw [failed] at hgrows
      exact sound.grow (hgrows.mono covered)
    · next done =>
      have hsound :=
        sound.restoreEntries covered (fun e mem _ => checkRestored_ok passed e mem) done
      exact hsound.grow ((removeRestoredArtifacts_grows entries _).mono covered)

end Store

end Kache
