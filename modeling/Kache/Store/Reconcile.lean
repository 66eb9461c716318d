import Kache.Store.RebuildInverse
import Mathlib.Data.Finset.Sort
import Mathlib.Data.Prod.Lex
import Mathlib.Data.String.Basic

/-!
# Reconciling the blob index

`entry_blobs` and `blobs` are derived from the `meta.json` files of the committed entries.
`reconcile_blob_index` computes what they should be, compares, and replaces them where they differ.
An entry whose metadata or blobs do not verify makes it fail, or is removed on the way, directory
and all, in the form that drops what it cannot verify.

What the tables should be is computed as an `Index` whose `entries` are not used.  The entries add
to it one after the other, and each of them as a publication would (`addFiles_eq`), so that the
result counts references as every publication does.

The statements run in one transaction.  A directory that is removed in it is not brought back when
the transaction fails.

`entry_dir` joins a key to the store directory whatever the key is.  A key that is a plain name has
a directory of its own; `blobs` names the directory of all blobs.  What lies inside the directory of
a key is its `Reach`, and a `Layout` says what it is.
-/

namespace Kache

/-! ## Directories of keys -/

/-- What lies inside a directory below the store. -/
structure Reach where
  dirs : String → Bool
  blobs : String → Bool

/-- The directory of one key and nothing else. -/
def Reach.own (key : String) : Reach := ⟨fun k => k = key, fun _ => false⟩

/-- A name that `join` appends as one component, other than the directory of the blobs. -/
def namesOwnDirectory (key : String) : Bool :=
  key ≠ "" && key ≠ "." && key ≠ ".." && key ≠ "blobs" && !key.toList.contains '/'

/-- What the directories of keys hold. -/
structure Layout where
  reach : String → Reach
  own : ∀ key, namesOwnDirectory key = true → reach key = .own key
  blobs : reach "blobs" = ⟨fun k => k = "blobs", fun _ => true⟩

/-- A removal inside `reach` that leaves of each thing it finds there what `left` holds. -/
def Disk.removeWithin (disk : Disk) (reach : Reach) (left : Disk) : Disk where
  blobs := fun h =>
    if reach.blobs h then (disk.blobs h).bind fun _ => left.blobs h else disk.blobs h
  dirs := fun k => if reach.dirs k then (disk.dirs k).bind fun _ => left.dirs k else disk.dirs k

/-- `fs::remove_dir_all`: nothing is left. -/
def Disk.removeDirAll (reach : Reach) (disk : Disk) : Disk := disk.removeWithin reach .empty

theorem Disk.dirs_removeDirAll (reach : Reach) (disk : Disk) (k : String) :
    (disk.removeDirAll reach).dirs k = if reach.dirs k then none else disk.dirs k := by
  show (if reach.dirs k then (disk.dirs k).bind fun _ => none else disk.dirs k) = _
  cases disk.dirs k <;> rfl

/-! ## What the tables should be -/

/-- Why an entry does not verify. -/
inductive VerifyError where
  | unreadable (key : String)
  | unparseable (key : String)
  | invalidBlobMetadata (key : String)
  | blobUnreadable (key hash : String)
  | sizeMismatch (key hash : String) (expected actual : ℕ)
  deriving DecidableEq

/-- Why a reconciliation fails. -/
inductive ReconcileError where
  | readOnly
  | unverified (error : VerifyError)
  | conflictingSizes (hash : String)
  /-- A statement failed. -/
  | sqlite
  /-- The directory of an entry that failed verification could not be removed. -/
  | directory (key : String)
  deriving DecidableEq

/-- The check of one listed file. -/
def verifyFile (disk : Disk) (key : String) (file : CachedFile) : Except VerifyError PUnit := do
  bailIf (isBlobHash file.hash = false ∨ isSafeStoredArtifactName file.name = false)
    (VerifyError.invalidBlobMetadata key)
  let bytes ← okOr (VerifyError.blobUnreadable key file.hash) (disk.blobs file.hash)
  bailIf (bytes.length ≠ file.size)
    (VerifyError.sizeMismatch key file.hash file.size bytes.length)

/-- `verified_entry_files`. -/
def verifiedEntryFiles (disk : Disk) (key : String) : Except VerifyError (List CachedFile) := do
  let text ← okOr (VerifyError.unreadable key) (disk.metaText? key)
  let m ← okOr (VerifyError.unparseable key) text.parsed
  m.files.forM (verifyFile disk key)
  return m.files

/-- One file of the graph: its mapping, and its blob with one more reference. -/
def addFile (key : String) (graph : Index) (file : CachedFile) : Except ReconcileError Index := do
  bailIf ((graph.blobs.get file.hash).any (·.size ≠ asI64 file.size) = true)
    (ReconcileError.conflictingSizes file.hash)
  return Index.takeBlobRef file (Index.mapEntryBlob key file graph)

/-- One committed entry of the graph. -/
def addEntry (disk : Disk) (dropUnverifiable : Bool) (acc : Index × List String) (key : String) :
    Except ReconcileError (Index × List String) :=
  match verifiedEntryFiles disk key with
  | .ok files => do
      let graph ← files.foldlM (addFile key) acc.1
      return (graph, acc.2)
  | .error e =>
    if dropUnverifiable then .ok (acc.1, acc.2 ++ [key]) else .error (.unverified e)

/-- `SELECT cache_key FROM entries WHERE committed = 1 ORDER BY cache_key`. -/
def committedKeys (idx : Index) : List String :=
  (idx.entries.keys.filter fun key => idx.isCommitted key = true).sort (· ≤ ·)

/-- `authoritative_blob_index`. -/
def authoritativeBlobIndex (disk : Disk) (dropUnverifiable : Bool) (idx : Index) :
    Except ReconcileError (Index × List String) :=
  (committedKeys idx).foldlM (addEntry disk dropUnverifiable) (.empty, [])

/-- `BlobIndexDrift`. -/
structure BlobIndexDrift where
  entryMappings : ℕ
  blobs : ℕ
  deriving DecidableEq

/-- `BlobIndexDrift::total`. -/
def BlobIndexDrift.total (drift : BlobIndexDrift) : ℕ := drift.entryMappings + drift.blobs

/-- `compare_blob_indexes`. -/
def compareBlobIndexes (expected actual : Index) : BlobIndexDrift :=
  ⟨expected.entryBlobs.differences actual.entryBlobs, expected.blobs.differences actual.blobs⟩

/-! ## The transaction -/

/-- A step of the transaction behind the scan of the metadata. -/
inductive ReconcileStep where
  /-- `DELETE FROM entries WHERE cache_key = ?1`. -/
  | deleteEntry (key : String)
  /-- `fs::remove_dir_all(entry_dir(key))`. -/
  | removeDir (key : String)
  /-- `indexed_blob_graph`. -/
  | readGraph
  /-- `DELETE FROM entry_blobs`. -/
  | deleteEntryBlobs
  /-- `DELETE FROM blobs`. -/
  | deleteBlobs
  /-- `INSERT INTO entry_blobs`. -/
  | insertEntryBlob (row : (String × String) × ℤ)
  /-- `INSERT INTO blobs`. -/
  | insertBlob (row : String × BlobRow)

namespace ReconcileStep

/-- What it does to the index. -/
def onIndex : ReconcileStep → Index → Index
  | deleteEntry key, idx => Index.deleteEntry key idx
  | removeDir _, idx | readGraph, idx => idx
  | deleteEntryBlobs, idx => { idx with entryBlobs := .empty }
  | deleteBlobs, idx => { idx with blobs := .empty }
  | insertEntryBlob row, idx => { idx with entryBlobs := idx.entryBlobs.set row.1 row.2 }
  | insertBlob row, idx => { idx with blobs := idx.blobs.set row.1 row.2 }

/-- What it does to the files. -/
def onDisk (layout : Layout) : ReconcileStep → Disk → Disk
  | removeDir key, disk => disk.removeDirAll (layout.reach key)
  | _, disk => disk

/-- The step as a statement. -/
def stmt (layout : Layout) (step : ReconcileStep) : Stmt Index Disk :=
  .both step.onIndex (step.onDisk layout)

/-- The files when it fails: a removal may have come any way into its directory. -/
def failed (layout : Layout) (left : Disk) : Option ReconcileStep → Disk → Disk
  | some (removeDir key), disk => disk.removeWithin (layout.reach key) left
  | _, disk => disk

/-- The error when it fails. -/
def error : Option ReconcileStep → ReconcileError
  | some (removeDir key) => .directory key
  | _ => .sqlite

end ReconcileStep

/-- The rows and directories of the entries that are dropped. -/
def dropSteps (dropped : List String) : List ReconcileStep :=
  dropped.flatMap fun key => [.deleteEntry key, .removeDir key]

/-- The rows of `entry_blobs` as `expected` has them. -/
def expectedMappings (expected : Index) : List ((String × String) × ℤ) :=
  expected.entryBlobs.rows (((expected.entryBlobs.keys.image toLex).sort (· ≤ ·)).map ofLex)

/-- The rows of `blobs` as `expected` has them. -/
def expectedBlobs (expected : Index) : List (String × BlobRow) :=
  expected.blobs.rows (expected.blobs.keys.sort (· ≤ ·))

/-- The two tables are emptied and filled again. -/
def rewriteSteps (expected : Index) : List ReconcileStep :=
  [.deleteEntryBlobs, .deleteBlobs] ++ (expectedMappings expected).map .insertEntryBlob ++
    (expectedBlobs expected).map .insertBlob

/-- What the tables differ in once the rows of the dropped entries are deleted. -/
def driftAfterDropping (expected : Index) (dropped : List String) (idx : Index) : BlobIndexDrift :=
  compareBlobIndexes expected (dropped.foldl (fun acc key => Index.deleteEntry key acc) idx)

/-- The steps of the transaction. -/
def reconcileSteps (expected : Index) (dropped : List String) (idx : Index) :
    List ReconcileStep :=
  dropSteps dropped ++ .readGraph ::
    if (driftAfterDropping expected dropped idx).total = 0 then [] else rewriteSteps expected

/-- Where a call fails: before the first change, or at step `n` of the transaction; the step behind
the last one is the commit.  A removal that fails leaves of its directory what `left` holds. -/
inductive ReconcileFault where
  | opening
  | step (n : ℕ) (left : Disk)

/-- The transaction runs to its end. -/
def reconcileCommitted (layout : Layout) (expected : Index) (dropped : List String) (s : Store) :
    Except ReconcileError (BlobIndexDrift × List String) × Store :=
  (.ok (driftAfterDropping expected dropped s.index, dropped),
    s.commit ((reconcileSteps expected dropped s.index).map (ReconcileStep.stmt layout)))

/-- The transaction fails at step `n` and is rolled back. -/
def reconcileFailed (layout : Layout) (n : ℕ) (left : Disk) (expected : Index)
    (dropped : List String) (s : Store) :
    Except ReconcileError (BlobIndexDrift × List String) × Store :=
  let steps := reconcileSteps expected dropped s.index
  let ran := s.interrupted n (steps.map (ReconcileStep.stmt layout))
  (.error (ReconcileStep.error steps[n]?),
    ⟨ran.index, ReconcileStep.failed layout left steps[n]? ran.disk⟩)

/-- The transaction behind the scan. -/
def reconcileTransaction (layout : Layout) (fault : Option ReconcileFault) (expected : Index)
    (dropped : List String) (s : Store) :
    Except ReconcileError (BlobIndexDrift × List String) × Store :=
  match fault with
  | some (.step n left) =>
    if n ≤ (reconcileSteps expected dropped s.index).length then
      reconcileFailed layout n left expected dropped s
    else reconcileCommitted layout expected dropped s
  | _ => reconcileCommitted layout expected dropped s

/-- `reconcile_blob_index_with`. -/
def reconcileBlobIndexWith (layout : Layout) (readOnly dropUnverifiable : Bool)
    (fault : Option ReconcileFault) (s : Store) :
    Except ReconcileError (BlobIndexDrift × List String) × Store :=
  if readOnly then (.error .readOnly, s)
  else
    match fault with
    | some .opening => (.error .sqlite, s)
    | fault =>
      match authoritativeBlobIndex s.disk dropUnverifiable s.index with
      | .error e => (.error e, s)
      | .ok scanned => reconcileTransaction layout fault scanned.1 scanned.2 s

/-- `reconcile_blob_index_dropping_unverifiable`. -/
def reconcileBlobIndexDroppingUnverifiable (layout : Layout) (readOnly : Bool)
    (fault : Option ReconcileFault) (s : Store) :
    Except ReconcileError (BlobIndexDrift × List String) × Store :=
  reconcileBlobIndexWith layout readOnly true fault s

/-! ## An entry of the graph -/

variable {disk : Disk} {key : String} {file : CachedFile} {files : List CachedFile}
    {idx graph : Index}

theorem verifyFile_eq_ok {u : PUnit} :
    verifyFile disk key file = .ok u ↔ rebuildFileOk disk file = true := by
  rw [verifyFile, bind_eq_ok, rebuildFileOk]
  cases hbytes : disk.blobs file.hash with
  | none => simp [okOr, bind, Except.bind]
  | some bytes =>
    simp only [okOr, bind, Except.bind, bailIf_eq_ok, exists_const, not_or, Bool.not_eq_false,
      not_not, Option.any_some, Bool.and_eq_true, beq_iff_eq]

/-- An entry verifies when a rebuild of the index would take it in. -/
theorem verifiedEntryFiles_eq_ok :
    verifiedEntryFiles disk key = .ok files ↔
      ∃ m, checkRebuild disk key = some m ∧ m.files = files := by
  simp only [verifiedEntryFiles, bind_eq_ok, okOr_eq_ok, forM_eq_ok, verifyFile_eq_ok,
    checkRebuild_eq_some, Disk.meta?, Option.bind_eq_some_iff]
  constructor
  · rintro ⟨text, read, m, parsed, ⟨⟩, passed, ⟨⟩⟩
    exact ⟨m, ⟨⟨text, read, parsed⟩, passed⟩, rfl⟩
  · rintro ⟨m, ⟨⟨text, read, parsed⟩, passed⟩, rfl⟩
    exact ⟨text, read, m, parsed, ⟨⟩, passed, rfl⟩

/-- The sizes it lists are those on disk. -/
theorem lengthOnDisk_of_verified (verified : verifiedEntryFiles disk key = .ok files)
    (mem : file ∈ files) :
    ∃ bytes, disk.blobs file.hash = some bytes ∧ bytes.length = file.size := by
  obtain ⟨m, passed, rfl⟩ := verifiedEntryFiles_eq_ok.mp verified
  have ok := (checkRebuild_eq_some.mp passed).2 file mem
  simp only [rebuildFileOk, Bool.and_eq_true, Option.any_eq_true, beq_iff_eq] at ok
  exact ok.2

namespace Index

/-- Mappings and counts are written independently of each other. -/
theorem foldl_takeBlobRef_mapEntryBlob (key : String) (files : List CachedFile) (idx : Index) :
    files.foldl (fun acc file => takeBlobRef file (mapEntryBlob key file acc)) idx
      = files.foldl (fun acc file => mapEntryBlob key file acc) (takeBlobRefs files idx) := by
  have swap : ∀ (rest : List CachedFile) (file : CachedFile) (acc : Index),
      takeBlobRefs rest (mapEntryBlob key file acc)
        = mapEntryBlob key file (takeBlobRefs rest acc) := by
    intro rest file
    induction rest with
    | nil => exact fun _ => rfl
    | cons next rest ih => exact fun acc => ih (takeBlobRef next acc)
  induction files generalizing idx with
  | nil => rfl
  | cons file rest ih =>
    show rest.foldl _ (mapEntryBlob key file (takeBlobRef file idx)) = _
    rw [ih, swap]
    rfl

/-- A key without mappings loses none. -/
theorem deleteMapping_of_unmapped (fresh : idx.Maps key 0) :
    deleteMapping key idx = idx := by
  have same : (deleteMapping key idx).entryBlobs = idx.entryBlobs := by
    refine Table.ext_get fun ⟨k, h⟩ => ?_
    rw [entryBlobs_deleteMapping]
    split
    · next own =>
      rw [own, fresh h, Multiset.count_zero]
      rfl
    · rfl
  show { idx with entryBlobs := (deleteMapping key idx).entryBlobs } = idx
  rw [same]

end Index

/-- Sizes that agree with the disk do not conflict. -/
theorem addFile_eq (sized : graph.EachBlob (lengthOnDisk disk))
    (listed : ∃ bytes, disk.blobs file.hash = some bytes ∧ bytes.length = file.size) :
    addFile key graph file = .ok (Index.takeBlobRef file (Index.mapEntryBlob key file graph)) := by
  obtain ⟨bytes, present, length⟩ := listed
  have agrees : ¬ (graph.blobs.get file.hash).any (·.size ≠ asI64 file.size) = true := by
    rw [Option.any_eq_true]
    rintro ⟨row, found, differs⟩
    rw [sized file.hash row found bytes present, length] at differs
    simp at differs
  rw [addFile, bailIf, if_neg agrees]
  rfl

/-- **An entry that verifies is added as a publication adds it.** -/
theorem addFiles_eq (fresh : graph.Maps key 0) (sized : graph.EachBlob (lengthOnDisk disk))
    (listed : ∀ file ∈ files, ∃ bytes, disk.blobs file.hash = some bytes ∧
      bytes.length = file.size) :
    files.foldlM (addFile key) graph
      = .ok (Index.recordEntryBlobs key files (Index.takeBlobRefs files graph)) := by
  have loop : ∀ (rest : List CachedFile) (graph : Index), graph.EachBlob (lengthOnDisk disk) →
      (∀ file ∈ rest, ∃ bytes, disk.blobs file.hash = some bytes ∧ bytes.length = file.size) →
      rest.foldlM (addFile key) graph = .ok (rest.foldl
        (fun acc file => Index.takeBlobRef file (Index.mapEntryBlob key file acc)) graph) := by
    intro rest
    induction rest with
    | nil => exact fun _ _ _ => rfl
    | cons file rest ih =>
      intro graph sized listed
      obtain ⟨first, others⟩ := List.forall_mem_cons.mp listed
      rw [List.foldlM_cons, addFile_eq sized first]
      refine ih _ (Index.EachBlob.takeBlobRef ?_ ?_) others
      · exact sized
      · obtain ⟨bytes, present, length⟩ := first
        intro bytes' present'
        rw [present] at present'
        cases present'
        rw [length]
  rw [loop files graph sized listed, Index.foldl_takeBlobRef_mapEntryBlob, Index.recordEntryBlobs,
    Index.deleteMapping_of_unmapped]
  intro h
  rw [Index.entryBlobs_takeBlobRefs]
  exact fresh h

/-! ## The graph of all entries -/

/-- Whether an entry passes `verified_entry_files`. -/
def verifies (disk : Disk) (key : String) : Bool := (verifiedEntryFiles disk key).toBool

theorem verifies_eq_true :
    verifies disk key = true ↔ ∃ files, verifiedEntryFiles disk key = .ok files := by
  rw [verifies]
  cases verifiedEntryFiles disk key <;> simp [Except.toBool]

theorem verifies_eq_false :
    verifies disk key = false ↔ ∃ e, verifiedEntryFiles disk key = .error e := by
  rw [verifies]
  cases verifiedEntryFiles disk key <;> simp [Except.toBool]

/-- The hashes an entry contributes. -/
def listedHashes (disk : Disk) (key : String) : Multiset String :=
  match verifiedEntryFiles disk key with
  | .ok files => hashesOf files
  | .error _ => 0

/-- The graph of `keys`, and those of them that do not verify. -/
structure Gathered (disk : Disk) (keys : List String) (acc : Index × List String) : Prop where
  counted : acc.1.Counted 0
  sized : acc.1.EachBlob (lengthOnDisk disk)
  maps : ∀ key, acc.1.Maps key (if key ∈ keys then listedHashes disk key else 0)
  dropped : acc.2 = keys.filter fun key => !verifies disk key

theorem gathered_empty (disk : Disk) : Gathered disk [] (.empty, []) where
  counted := Index.counted_empty
  sized := by
    intro h row hrow
    simp [Index.empty] at hrow
  maps := by
    intro key h
    simp [Index.empty]
  dropped := rfl

section Scan

variable {dropUnverifiable : Bool} {keys : List String} {acc : Index × List String}

/-- An entry that does not verify changes nothing of the graph. -/
theorem Gathered.skip (gathered : Gathered disk keys acc) (fails : verifies disk key = false) :
    Gathered disk (keys ++ [key]) (acc.1, acc.2 ++ [key]) where
  counted := gathered.counted
  sized := gathered.sized
  maps := by
    intro k
    have none_ : listedHashes disk key = 0 := by
      obtain ⟨e, failed⟩ := verifies_eq_false.mp fails
      rw [listedHashes, failed]
    have before := gathered.maps k
    by_cases own : k = key
    · subst own
      rw [none_, ite_self] at before ⊢
      exact before
    · simpa [own] using before
  dropped := by
    rw [List.filter_append, gathered.dropped]
    simp [fails]

/-- An entry that verifies adds what it lists. -/
theorem Gathered.add (gathered : Gathered disk keys acc) (fresh : key ∉ keys)
    (verified : verifiedEntryFiles disk key = .ok files) :
    Gathered disk (keys ++ [key])
      (Index.recordEntryBlobs key files (Index.takeBlobRefs files acc.1), acc.2) where
  counted := by
    refine (gathered.counted.takeBlobRefs files).recordEntryBlobs fun h => ?_
    have before := gathered.maps key h
    rwa [if_neg fresh, ← Index.entryBlobs_takeBlobRefs files acc.1] at before
  sized := by
    intro h row hrow
    rw [Index.blobs_recordEntryBlobs] at hrow
    refine gathered.sized.takeBlobRefs (fun file mem => ?_) h row hrow
    obtain ⟨bytes, present, length⟩ := lengthOnDisk_of_verified verified mem
    intro bytes' present'
    rw [present] at present'
    cases present'
    rw [length]
  maps := by
    intro k
    by_cases own : k = key
    · subst own
      rw [if_pos (by simp), listedHashes, verified]
      exact Index.maps_recordEntryBlobs k files _
    · intro h
      rw [Index.entryBlobs_recordEntryBlobs_of_ne own, Index.entryBlobs_takeBlobRefs,
        gathered.maps k h]
      simp [own]
  dropped := by
    rw [List.filter_append, gathered.dropped]
    simp [verifies_eq_true.mpr ⟨files, verified⟩]

/-- **One entry of the scan.** -/
theorem Gathered.addEntry (gathered : Gathered disk keys acc) (dropUnverifiable : Bool)
    (fresh : key ∉ keys) : (∃ acc', addEntry disk dropUnverifiable acc key = .ok acc' ∧
        Gathered disk (keys ++ [key]) acc' ∧
        (dropUnverifiable = false → verifies disk key = true)) ∨
      dropUnverifiable = false ∧
        ∃ e, addEntry disk dropUnverifiable acc key = .error (.unverified e) := by
  cases verified : verifiedEntryFiles disk key with
  | ok files =>
    left
    have unmapped := gathered.maps key
    rw [if_neg fresh] at unmapped
    have added := addFiles_eq unmapped gathered.sized
      fun file mem => lengthOnDisk_of_verified verified mem
    refine ⟨_, ?_, gathered.add fresh verified, fun _ => verifies_eq_true.mpr ⟨files, verified⟩⟩
    rw [Kache.addEntry, verified]
    show (files.foldlM (addFile key) acc.1 >>= _) = _
    rw [added]
    rfl
  | error e =>
    cases dropUnverifiable with
    | false =>
      right
      exact ⟨rfl, e, by rw [Kache.addEntry, verified]; rfl⟩
    | true =>
      left
      refine ⟨_, ?_, gathered.skip (verifies_eq_false.mpr ⟨e, verified⟩), nofun⟩
      rw [Kache.addEntry, verified]
      rfl

/-- **The scan of all entries.**  It gathers their graph, or fails at one that does not verify. -/
theorem Gathered.scan (gathered : Gathered disk keys acc) {rest : List String}
    (distinct : (keys ++ rest).Nodup) :
    (∃ acc', rest.foldlM (Kache.addEntry disk dropUnverifiable) acc = .ok acc' ∧
        Gathered disk (keys ++ rest) acc' ∧
        (dropUnverifiable = false → ∀ key ∈ rest, verifies disk key = true)) ∨
      dropUnverifiable = false ∧
        ∃ e, rest.foldlM (Kache.addEntry disk dropUnverifiable) acc = .error (.unverified e) := by
  induction rest generalizing keys acc with
  | nil => exact .inl ⟨acc, rfl, by rwa [List.append_nil], by simp⟩
  | cons key rest ih =>
    have fresh : key ∉ keys := by
      intro mem
      exact (List.nodup_append.mp distinct).2.2 key mem key List.mem_cons_self rfl
    have split : keys ++ key :: rest = keys ++ [key] ++ rest := by simp
    rw [List.foldlM_cons]
    rcases gathered.addEntry dropUnverifiable fresh with
      ⟨acc', added, gathered', first⟩ | ⟨strict, e, failed⟩
    · rw [added]
      rw [split] at distinct ⊢
      rcases ih gathered' distinct with ⟨acc'', done, gathered'', others⟩ | failed
      · exact .inl ⟨acc'', done, gathered'',
          fun strict => List.forall_mem_cons.mpr ⟨first strict, others strict⟩⟩
      · exact .inr failed
    · exact .inr ⟨strict, e, by rw [failed]; rfl⟩

end Scan

/-! ## The committed keys -/

theorem mem_committedKeys :
    key ∈ committedKeys idx ↔ idx.isCommitted key = true := by
  rw [committedKeys, Finset.mem_sort, Finset.mem_filter, Table.mem_keys]
  exact ⟨fun h => h.2, fun h => ⟨Index.isSome_of_isCommitted h, h⟩⟩

theorem nodup_committedKeys (idx : Index) : (committedKeys idx).Nodup := Finset.sort_nodup _ _

/-- The keys are listed in one order. -/
theorem committedKeys_eq_of_sorted {keys : List String} (sorted : keys.Pairwise (· ≤ ·))
    (distinct : keys.Nodup)
    (members : ∀ key, key ∈ keys ↔ idx.isCommitted key = true) : committedKeys idx = keys := by
  rw [← (List.toFinset_sort (· ≤ ·) distinct).mpr sorted, committedKeys]
  congr 1
  ext key
  rw [List.mem_toFinset, members, Finset.mem_filter, Table.mem_keys]
  exact ⟨fun h => h.2, fun h => ⟨Index.isSome_of_isCommitted h, h⟩⟩

/-- **What `authoritative_blob_index` returns.** -/
theorem authoritativeBlobIndex_cases (disk : Disk) (dropUnverifiable : Bool) (idx : Index) :
    (∃ acc, authoritativeBlobIndex disk dropUnverifiable idx = .ok acc ∧
        Gathered disk (committedKeys idx) acc ∧
        (dropUnverifiable = false → ∀ key ∈ committedKeys idx, verifies disk key = true)) ∨
      dropUnverifiable = false ∧
        ∃ e, authoritativeBlobIndex disk dropUnverifiable idx = .error (.unverified e) :=
  (gathered_empty disk).scan (by simpa using nodup_committedKeys idx)

end Kache
