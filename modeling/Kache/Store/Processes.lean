import Kache.Foundation.Interleaving
import Kache.Store.Put
import Kache.Store.Rebuild
import Kache.Store.Removal

/-!
# Concurrent operations

Any number of processes work on one store.  A transaction, with the file changes
made under its write lock, is one atomic step; everything a process does without
the lock — staging, reading `meta.json`, walking a directory, extracting an
archive, checking what was extracted — is a step of its own, and the process
carries what it read in its local state until it takes the lock.

`Proc` lists the points at which a process can be between two steps and `Action`
the steps; `transition` is the table.  A process may die at any point.  Which
actions a statement is about, and what it assumes of the environment, is a predicate
on runs, not a change of this table.

Extraction is two steps because the source makes it two: the old directory is
removed, then the new one is renamed into place, and a directory that reappeared
in between is merged into.
-/

namespace Kache

/-- Where a process is between two steps. -/
inductive Proc where
  | idle
  /-- `put` in phase 1: outputs to publish, files published. -/
  | putting (req : PutRequest) (remaining : List Output) (published : List CachedFile)
  /-- `remove_entry` has read `meta.json`, a text that parses. -/
  | removing (key : String) (text : MetaText)
  /-- `remove_entry` has committed and not cleaned up. -/
  | cleaning (key : String) (unlink : List (String × ℤ))
  /-- `sweep_orphan_blobs` has walked the directory. -/
  | sweeping (candidates : List String)
  /-- Archives extracted so far for one import. -/
  | restoring (batch : List VerifiedRestoredEntry)
  /-- About to extract over `key`. -/
  | claimed (key : String) (batch : List VerifiedRestoredEntry)
  /-- The old directory of `key` is gone, the new one not yet in place. -/
  | cleared (key : String) (batch : List VerifiedRestoredEntry)
  /-- `import_downloaded_entry` has checked the directory. -/
  | importing (key : String) (m : EntryMeta)
  /-- `import_verified_restored_entries` has passed its preflight. -/
  | importingBatch (batch : List VerifiedRestoredEntry)
  /-- An import has committed and not removed duplicate artifacts. -/
  | tidying (batch : List VerifiedRestoredEntry)
  /-- A failed import discards what it extracted. -/
  | discarding (keys : List String)
  /-- `rebuild_one_entry` has read `meta.json`: files found present, files to look for. -/
  | rebuilding (key : String) (m : EntryMeta) (checked remaining : List CachedFile)

/-- What a process can do next. -/
inductive Action where
  | startPut (req : PutRequest)
  | publish
  | register (live : ℕ → Option Bytes)
  | removeRead (key : String)
  | removeRows
  | removeCleanup
  | sweepScan (old : List String)
  | sweepUnlink
  | startRestore
  /-- `try_claim_packed_download`: only where there is no directory. -/
  | claim (key : String)
  /-- A download that does not look at the directory first. -/
  | download (key : String)
  | extractClear
  | extractPlace (dir : EntryDir)
  | checkDownloaded
  | importDownloaded (now : ℕ)
  | preflight
  | importBatch (now : ℕ)
  | tidy
  | discard
  | rebuildRead (key : String)
  | rebuildProbe
  | rebuildInsert
  | die

/-- Rename an extracted directory into place; one that is there is merged into,
file by file. -/
def Disk.placeDir (key : String) (dir : EntryDir) (disk : Disk) : Disk :=
  match disk.dirs key with
  | none => disk.setDir key dir
  | some old =>
    disk.setDir key ⟨dir.metaJson <|> old.metaJson, fun n => dir.artifacts n <|> old.artifacts n⟩

/-- A transaction that registers an import: where the process goes on from. -/
def settleImport (store : Store) (batch : List VerifiedRestoredEntry)
    (outcome : Outcome Index Disk) : Store × Proc :=
  match outcome with
  | .ok idx disk => (⟨idx, disk⟩, .tidying batch)
  | .failed disk => (⟨store.index, disk⟩, .discarding (batch.map (·.cacheKey)))

/-- What one process makes of a store and an action. -/
def transition (env : Env) (_ : ℕ) (store : Store) : Proc → Action → Option (Store × Proc)
  | _, .die => some (store, .idle)
  | .idle, .startPut req => some (store, .putting req req.outputs [])
  | .putting req (out :: rest) published, .publish =>
    match publishOutput env req.crateTypes out store.disk with
    | (disk, some file) => some (⟨store.index, disk⟩, .putting req rest (published ++ [file]))
    | (disk, none) => some (⟨store.index, disk⟩, .idle)
  | .putting req [] published, .register live =>
    some (store.commit (putScript env req.cacheKey (putMeta env req published) live), .idle)
  | .idle, .removeRead key =>
    (store.disk.metaText? key).bind fun text =>
      text.parsed.map fun _ => (store, .removing key text)
  | .removing key text, .removeRows =>
    text.parsed.map fun m =>
      match removeRows key text m store with
      | none => (store, .idle)
      | some (idx, unlink) => (⟨idx, store.disk⟩, .cleaning key unlink)
  | .cleaning key unlink, .removeCleanup =>
    some (⟨store.index, removeCleanup key unlink store⟩, .idle)
  | .idle, .sweepScan old => some (store, .sweeping (sweepCandidates old store.disk))
  | .sweeping candidates, .sweepUnlink =>
    some (⟨store.index, sweepUnlink candidates store⟩, .idle)
  | .idle, .startRestore => some (store, .restoring [])
  | .restoring batch, .claim key =>
    if (store.disk.dirs key).isNone then some (store, .claimed key batch) else none
  | .restoring batch, .download key => some (store, .claimed key batch)
  | .claimed key batch, .extractClear =>
    some (⟨store.index, store.disk.removeDir key⟩, .cleared key batch)
  | .cleared key batch, .extractPlace dir =>
    (dir.metaJson.bind (·.parsed)).map fun m =>
      (⟨store.index, store.disk.placeDir key dir⟩, .restoring (batch ++ [⟨key, m⟩]))
  | .restoring [entry], .checkDownloaded =>
    match checkDownloaded env store.disk entry.cacheKey with
    | .ok m => some (store, .importing entry.cacheKey m)
    | .error _ => some (store, .discarding [entry.cacheKey])
  | .importing key m, .importDownloaded now =>
    some (settleImport store [⟨key, m⟩]
      (Stmt.exec (importScript env now key m) store.index store.disk))
  | .restoring batch, .preflight =>
    match checkRestored store.disk [] batch with
    | .ok () => some (store, .importingBatch batch)
    | .error _ => some (store, .discarding (batch.map (·.cacheKey)))
  | .importingBatch batch, .importBatch now =>
    some (settleImport store batch
      (Stmt.exec (batch.map (restoreEntry env now)) store.index store.disk))
  | .tidying batch, .tidy => some (⟨store.index, removeRestoredArtifacts batch store.disk⟩, .idle)
  | .discarding (key :: rest), .discard =>
    some (discardUncommittedRestoredEntry key store, .discarding rest)
  | .discarding [], .discard => some (store, .idle)
  | .idle, .rebuildRead key =>
    if isValidCacheKey key then
      (store.disk.meta? key).map fun m => (store, .rebuilding key m [] m.files)
    else none
  | .rebuilding key m checked (file :: rest), .rebuildProbe =>
    if rebuildFileOk store.disk file then some (store, .rebuilding key m (checked ++ [file]) rest)
    else some (store, .idle)
  | .rebuilding key m _ [], .rebuildInsert =>
    some (⟨rebuildInsert env key m store.index, store.disk⟩, .idle)
  | _, _ => none

/-- The processes of a store. -/
abbrev Processes := System Store Proc

/-- Processes idle over `store`. -/
def Processes.over (store : Store) (n : ℕ) : Processes := System.start store .idle n

/-- The keys a process has extracted, or started to, and not registered. -/
def Proc.underImport : Proc → List String
  | .claimed _ batch | .restoring batch | .importingBatch batch => batch.map (·.cacheKey)
  | .cleared key batch => key :: batch.map (·.cacheKey)
  | .importing key _ => [key]
  | _ => []

/-- Whether a process has nothing in progress. -/
def Proc.isIdle : Proc → Bool
  | .idle => true
  | _ => false

@[simp] theorem blobs_placeDir (key : String) (dir : EntryDir) (disk : Disk) :
    (Disk.placeDir key dir disk).blobs = disk.blobs := by
  unfold Disk.placeDir
  split <;> rfl

theorem metaText?_placeDir_of_ne {key k : String} (hne : k ≠ key) (dir : EntryDir) (disk : Disk) :
    (Disk.placeDir key dir disk).metaText? k = disk.metaText? k := by
  unfold Disk.placeDir
  split <;> rw [Disk.metaText?_setDir, if_neg hne]

/-! ## What a step can do to the store -/

/-- The effect of a step on the store, one case per kind of change. -/
inductive Effect (env : Env) (store : Store) : Proc → Action → Store → Prop where
  /-- Nothing is written. -/
  | reads (proc : Proc) (a : Action) : Effect env store proc a store
  | publish (req : PutRequest) (out : Output) (rest : List Output) (published : List CachedFile) :
      Effect env store (.putting req (out :: rest) published) .publish
        ⟨store.index, (publishOutput env req.crateTypes out store.disk).1⟩
  | register (req : PutRequest) (published : List CachedFile) (live : ℕ → Option Bytes) :
      Effect env store (.putting req [] published) (.register live)
        (store.commit (putScript env req.cacheKey (putMeta env req published) live))
  | removeRows {key : String} {text : MetaText} {m : EntryMeta} {idx : Index}
      {unlink : List (String × ℤ)} (parses : text.parsed = some m)
      (done : removeRows key text m store = some (idx, unlink)) :
      Effect env store (.removing key text) .removeRows ⟨idx, store.disk⟩
  | removeCleanup (key : String) (unlink : List (String × ℤ)) :
      Effect env store (.cleaning key unlink) .removeCleanup
        ⟨store.index, removeCleanup key unlink store⟩
  | sweepUnlink (candidates : List String) :
      Effect env store (.sweeping candidates) .sweepUnlink
        ⟨store.index, sweepUnlink candidates store⟩
  | extractClear (key : String) (batch : List VerifiedRestoredEntry) :
      Effect env store (.claimed key batch) .extractClear
        ⟨store.index, store.disk.removeDir key⟩
  | extractPlace (key : String) (batch : List VerifiedRestoredEntry) (dir : EntryDir) :
      Effect env store (.cleared key batch) (.extractPlace dir)
        ⟨store.index, store.disk.placeDir key dir⟩
  | importDownloaded {key : String} {m : EntryMeta} {now : ℕ} {idx : Index} {disk : Disk}
      (done : Stmt.exec (importScript env now key m) store.index store.disk = .ok idx disk) :
      Effect env store (.importing key m) (.importDownloaded now) ⟨idx, disk⟩
  | importDownloadedFailed {key : String} {m : EntryMeta} {now : ℕ} {disk : Disk}
      (grows : store.disk.Grows (metaTaken [⟨key, m⟩]) disk) :
      Effect env store (.importing key m) (.importDownloaded now) ⟨store.index, disk⟩
  | importBatch {batch : List VerifiedRestoredEntry} {now : ℕ} {idx : Index} {disk : Disk}
      (done : Stmt.exec (batch.map (restoreEntry env now)) store.index store.disk
        = .ok idx disk) :
      Effect env store (.importingBatch batch) (.importBatch now) ⟨idx, disk⟩
  | importBatchFailed {batch : List VerifiedRestoredEntry} {now : ℕ} {disk : Disk}
      (grows : store.disk.Grows (metaTaken batch) disk) :
      Effect env store (.importingBatch batch) (.importBatch now) ⟨store.index, disk⟩
  | tidy (batch : List VerifiedRestoredEntry) :
      Effect env store (.tidying batch) .tidy
        ⟨store.index, removeRestoredArtifacts batch store.disk⟩
  | discard (key : String) (rest : List String) :
      Effect env store (.discarding (key :: rest)) .discard
        (discardUncommittedRestoredEntry key store)
  | rebuildInsert (key : String) (m : EntryMeta) (checked : List CachedFile) :
      Effect env store (.rebuilding key m checked []) .rebuildInsert
        ⟨rebuildInsert env key m store.index, store.disk⟩

/-- **Every step has one of these effects.** -/
theorem transition_effect {env : Env} {p : ℕ} {store : Store} {proc : Proc} {a : Action}
    {next : Store × Proc} (taken : transition env p store proc a = some next) :
    Effect env store proc a next.1 := by
  unfold transition at taken
  -- one goal per line of the table, in its order
  split at taken
  case h_3 req out rest published =>
    have hpublish : Effect env store (.putting req (out :: rest) published) .publish _ :=
      Effect.publish req out rest published
    grind
  case h_16 key m now =>
    -- a failed transaction rolls the rows back and keeps the blobs it moved
    have taken' : namesMeta m.files = true → key ∈ metaTaken [⟨key, m⟩] :=
      fun named => ⟨_, List.mem_singleton_self _, rfl, named⟩
    have hgrows := importScript_grows taken' env now store.index store.disk
    cases hexec : Stmt.exec (importScript env now key m) store.index store.disk with
    | ok idx disk => grind [settleImport, Effect]
    | failed disk =>
      rw [hexec] at hgrows
      grind [settleImport, Outcome.files, Effect]
  case h_18 batch now =>
    have hgrows := restoreEntries_grows env now batch store.index store.disk
    cases hexec : Stmt.exec (batch.map (restoreEntry env now)) store.index store.disk with
    | ok idx disk => grind [settleImport, Effect]
    | failed disk =>
      rw [hexec] at hgrows
      grind [settleImport, Outcome.files, Effect]
  all_goals grind [Effect, Option.bind_eq_some_iff, Option.map_eq_some_iff]

end Kache
